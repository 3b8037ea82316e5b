import FluxSync.Core.Identity

namespace FluxSync

open Std Runs

variable {blake3 : ByteArray → ContentHash} {app : App} {wall : WallClock} {q : PeerId}
  {name : String} {actions : List Action} {e : Event}

/-- The App over its restarts. -/
structure Device where
  app : App
  /-- The peer last bound, also where a restart has made the App forget it. -/
  bound : PeerId := 0
  /-- A restart has come after the last binding. -/
  restarted : Bool := false

inductive Life
  | call (c : App.Call)
  /-- `vault` is what the vault file holds. -/
  | restart (policy : FirewallPolicy) (vault : List HistoryItem)

/-- The peer that a call binds. -/
def App.binds (app : App) : App.Call → Option PeerId
  | .handle (.peerSeen q _) _ => if q = 0 ∨ app.isPeerMismatch q then none else some q
  | _ => none

def Device.step (blake3 : ByteArray → ContentHash) (d : Device) : Life → Option Device
  | .call c =>
    let app := (d.app.call blake3 c).1
    match d.app.binds c with
    | some q => some { app, bound := q, restarted := false }
    | none => some { d with app }
  | .restart policy vault =>
    some { d with app := (App.new policy).restoreHistory vault, restarted := true }

/-- No failover and no other linked peer. -/
def SinglePeer (_ : Device) : Life → Prop
  | .call (.setOtherLinkedPeers peers) => peers = []
  | .call (.handle (.primaryFailover ..) _) => False
  | _ => True

namespace App

/-- Nothing that was recorded is left. -/
structure Forgot (app : App) : Prop where
  history : app.state.history = []
  pending : app.state.pending = []
  payloads : app.pendingPayloads = ∅

/-- What the wipe at a change of peers goes by. -/
def memory (app : App) : PeerId × Finset PeerId := (app.lastPairedPeerId, app.otherLinkedPeers)

theorem memory_parkPending {dir kind sensitive hash payload preview peerId} :
    (app.parkPending dir kind sensitive hash payload preview peerId).memory = app.memory := by
  rw [parkPending]
  split <;> rfl

theorem memory_gateItem {dir kind sensitive hash payload preview peerId} :
    (app.gateItem dir kind sensitive hash payload preview peerId actions).1.memory =
      app.memory := by
  rw [gateItem]
  split
  · rfl
  · rfl
  · exact memory_parkPending

theorem memory_postTransition {p : Prelude} : (postTransition p e).1.memory = p.app.memory := by
  cases e with
  | localClipboardChange | frameReceivedClipboard => exact memory_gateItem
  | _ => rfl

theorem memory_resolvePending {hash : String} {allow : Bool} :
    (app.resolvePending hash allow).1.memory = app.memory := by
  rw [resolvePending]
  split
  · rfl
  · split <;> rfl

theorem memory_preTransition (hs : ∀ q name, e ≠ .peerSeen q name)
    (hf : ∀ q name platform caps, e ≠ .primaryFailover q name platform caps) :
    (app.preTransition blake3 e wall).app.memory = app.memory := by
  cases e with
  | peerSeen q name => exact absurd rfl (hs q name)
  | primaryFailover q name platform caps => exact absurd rfl (hf q name platform caps)
  | ghostTimeout | localClipboardChange | frameReceivedClipboard =>
    simp only [preTransition]
    (repeat' split) <;> rfl
  | peerRevoked | peerLost | sasLocalConfirmed | sasPeerConfirmed | sasPeerRejected =>
    simp only [preTransition]
    split <;> rfl
  | _ => rfl

theorem memory_handle (hs : ∀ q name, e ≠ .peerSeen q name)
    (hf : ∀ q name platform caps, e ≠ .primaryFailover q name platform caps) :
    (app.handle blake3 e wall).1.memory = app.memory := by
  by_cases hr : ∃ hash allow, e = .resolvePending hash allow
  · obtain ⟨hash, allow, rfl⟩ := hr
    exact memory_resolvePending
  have hpre : (app.preTransition blake3 e wall).app.memory = app.memory := memory_preTransition hs hf
  obtain h | ⟨h, -, -⟩ | h := handle_cases blake3 app wall fun hash allow h ↦ hr ⟨hash, allow, h⟩
  · rw [h]
  · rw [h, hpre]
  · rw [h, memory_postTransition, hpre]

theorem memory_call {c : Call} (hc : ∀ e wall, c ≠ .handle e wall)
    (ho : ∀ peers, c ≠ .setOtherLinkedPeers peers) : (app.call blake3 c).1.memory = app.memory := by
  cases c with
  | handle e wall => exact absurd rfl (hc e wall)
  | setOtherLinkedPeers peers => exact absurd rfl (ho peers)
  | setHistoryRetention secs nowMs =>
    rw [call, setHistoryRetention]
    split
    · rw [Option.getD_some, expireHistory]
      split <;> rfl
    · rfl
  | expireHistory nowMs =>
    rw [call, expireHistory]
    split <;> rfl
  | markDelivered hash device =>
    simp only [call, markDelivered]
    split
    · rfl
    · split <;> rfl
  | setFirewall | restoreHistory => rfl

/-- The App after a sighting that binds `q`. -/
theorem handle_peerSeen_binds (blake3 : ByteArray → ContentHash) (name : String)
    (wall : WallClock) (hq : q ≠ 0) (hm : app.isPeerMismatch q = false)
    (ho : app.otherLinkedPeers = ∅) :
    (app.handle blake3 (.peerSeen q name) wall).1.memory = (q, ∅) ∧
      ((app.handle blake3 (.peerSeen q name) wall).1.Forgot ↔
        (app.lastPairedPeerId ≠ 0 ∧ q ≠ app.lastPairedPeerId) ∨ app.Forgot) := by
  have hother : app.otherPeersLinked = false := by simp [otherPeersLinked, ho]
  by_cases hswap : app.lastPairedPeerId ≠ 0 ∧ q ≠ app.lastPairedPeerId
  · simp only [handle, hm, Bool.false_eq_true, if_false, preTransition, if_neg hq, if_pos hswap,
      otherPeersLinked, ho]
    exact ⟨by simp [memory, postTransition, applyFirewall, dropPendingAll],
      iff_of_true ⟨rfl, rfl, rfl⟩ (.inl hswap)⟩
  · simp only [handle, hm, Bool.false_eq_true, if_false, preTransition, if_neg hq, if_neg hswap]
    refine ⟨by simpa [memory, postTransition, applyFirewall] using ho, ?_⟩
    rw [or_iff_right hswap]
    exact ⟨fun h ↦ ⟨h.history, h.pending, h.payloads⟩, fun h ↦ ⟨h.history, h.pending, h.payloads⟩⟩

end App

namespace Device

variable {d d' : Device} {a : Life}

/-- The App remembers the last peer as long as it has not been restarted. -/
structure Remembers (d : Device) : Prop where
  last : d.app.lastPairedPeerId = if d.restarted then 0 else d.bound
  alone : d.app.otherLinkedPeers = ∅

theorem Remembers.of_memory (h : d.Remembers) (ha : d'.app.memory = d.app.memory)
    (hb : d'.bound = d.bound) (hr : d'.restarted = d.restarted) : d'.Remembers := by
  obtain ⟨hlast, hother⟩ := Prod.mk.inj ha
  exact ⟨by rw [hlast, hb, hr]; exact h.last, hother.trans h.alone⟩

theorem Remembers.step (h : d.Remembers) (hs : SinglePeer d a)
    (hd : d.step blake3 a = some d') : d'.Remembers := by
  cases a with
  | restart policy vault =>
    cases hd
    exact ⟨rfl, rfl⟩
  | call c =>
    by_cases hc : ∃ q name wall, c = .handle (.peerSeen q name) wall
    · obtain ⟨q, name, wall, rfl⟩ := hc
      by_cases hb : q = 0 ∨ d.app.isPeerMismatch q = true
      · simp only [Device.step, App.binds, if_pos hb, Option.some.injEq] at hd
        subst hd
        refine h.of_memory ?_ rfl rfl
        obtain rfl | hm := hb
        · simp only [App.call, App.handle]
          split
          · rfl
          · exact App.memory_postTransition
        · rw [App.call, App.handle_peerSeen_ignored hm]
      · simp only [Device.step, App.binds, if_neg hb, Option.some.injEq] at hd
        subst hd
        obtain ⟨hq, hm⟩ := not_or.mp hb
        have hbinds := App.handle_peerSeen_binds blake3 name wall hq
          (Bool.eq_false_of_not_eq_true hm) h.alone
        obtain ⟨hlast, hother⟩ := Prod.mk.inj hbinds.1
        exact ⟨hlast, hother⟩
    · have hbinds : d.app.binds c = none := by
        cases c with
        | handle e wall =>
          cases e with
          | peerSeen q name => exact absurd ⟨q, name, wall, rfl⟩ hc
          | _ => rfl
        | _ => rfl
      simp only [Device.step, hbinds, Option.some.injEq] at hd
      subst hd
      cases c with
      | handle e wall =>
        refine h.of_memory (App.memory_handle ?_ ?_) rfl rfl
        · rintro q name rfl
          exact hc ⟨q, name, wall, rfl⟩
        · rintro q name platform caps rfl
          exact hs
      | setOtherLinkedPeers peers =>
        obtain rfl : peers = [] := hs
        exact ⟨h.last, rfl⟩
      | _ => exact h.of_memory (App.memory_call (by simp) (by simp)) rfl rfl

/-- A change of peers leaves nothing of what was recorded before exactly where no restart has come
since the last binding, or nothing was held. -/
theorem change_of_peers_forgets_iff {policy : FirewallPolicy} {l : List Life}
    (hrun : Run (step blake3) SinglePeer ⟨.new policy, 0, false⟩ l d) (hq : q ≠ 0)
    (hb : d.bound ≠ 0) (hne : q ≠ d.bound) (hm : d.app.isPeerMismatch q = false) :
    (d.app.handle blake3 (.peerSeen q name) wall).1.Forgot ↔
      d.restarted = false ∨ d.app.Forgot := by
  have hmem : d.Remembers :=
    hrun.invariant ⟨rfl, rfl⟩ fun _ _ _ hi hok hstep ↦ hi.step hok hstep
  rw [(App.handle_peerSeen_binds blake3 name wall hq hm hmem.alone).2, hmem.last]
  cases d.restarted with
  | false =>
    simp only [Bool.false_eq_true, if_false]
    exact iff_of_true (.inl ⟨hb, hne⟩) (.inl trivial)
  | true => simp

/-- Peer 1 is linked, something is copied, and the link is lost. -/
def linkCopyLose : List Life :=
  (App.link ++ [App.copy, .handle (.peerLost 1) App.noon]).map .call

theorem change_of_peers_forgets_iff_linkCopyLose :
    ∃ d, Run (step fun _ ↦ 0) SinglePeer ⟨.new {}, 0, false⟩ linkCopyLose d ∧
      d.app.state.history ≠ [] ∧
      (d.app.handle (fun _ ↦ 0) (.peerSeen 2 "van") App.noon).1.Forgot := by
  have hrun : Run (step fun _ ↦ 0) Always ⟨.new {}, 0, false⟩ linkCopyLose _ :=
    run_of_isSome (by decide +kernel)
  have hsingle : Run (step fun _ ↦ 0) SinglePeer ⟨.new {}, 0, false⟩ linkCopyLose _ :=
    (hrun.labels (p := fun a ↦ a ∈ linkCopyLose) fun _ ↦ id).mono fun d a ha ↦ by
      simp only [linkCopyLose, App.link, App.copy, List.map_cons, List.map_nil,
        List.cons_append, List.nil_append, List.mem_cons, List.not_mem_nil, or_false] at ha
      obtain rfl | rfl | rfl | rfl | rfl := ha <;> trivial
  refine ⟨_, hsingle, by decide +kernel,
    (change_of_peers_forgets_iff hsingle ?_ ?_ ?_ ?_).mpr (.inl ?_)⟩ <;> decide +kernel

def copiedRow : HistoryItem where
  kind := .text
  preview := "h"
  time := "12:00"
  source := .localCopy
  sensitive := false
  lamport := 0
  hash := hex32 7
  favorite := false
  resync := false
  sourcePeerId := none
  createdMs := 1000000

/-- The daemon restarts with the copied row in its vault, then meets another peer. -/
def restartThenSwap : List Life :=
  linkCopyLose ++ [.restart {} [copiedRow], .call (.handle .toggleOn App.noon)]

theorem restart_keeps_row_for_next_peer :
    ∃ d, Run (step fun _ ↦ 0) Always ⟨.new {}, 0, false⟩ restartThenSwap d ∧ d.bound = 1 ∧
      (d.app.handle (fun _ ↦ 0) (.peerSeen 2 "van") App.noon).1.state.peerId = 2 ∧
      (d.app.handle (fun _ ↦ 0) (.peerSeen 2 "van") App.noon).1.state.history = [copiedRow] := by
  have hrun : Run (step fun _ ↦ 0) Always ⟨.new {}, 0, false⟩ restartThenSwap _ :=
    run_of_isSome (by decide +kernel)
  exact ⟨_, hrun, by decide +kernel, by decide +kernel, by decide +kernel⟩

end Device

end FluxSync
