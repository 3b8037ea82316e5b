import FluxSync.Core.Transfer

namespace FluxSync.App

open Std Runs

variable {blake3 : ByteArray → ContentHash} {app app' : App} {e : Event} {wall : WallClock}
  {c : Call} {actions : List Action} {q : PeerId} {name : String}

/-- The fields that say who the App is bound to. -/
def identity (app : App) : PeerId × String := (app.state.peerId, app.state.peerName)

@[simp] theorem identity_pushHistory {item : HistoryItem} :
    (app.pushHistory item).identity = app.identity := rfl

@[simp] theorem identity_dropPendingAll : app.dropPendingAll.identity = app.identity := rfl

@[simp] theorem identity_dropPendingFor {id : PeerId} :
    (app.dropPendingFor id).1.identity = app.identity := rfl

theorem identity_parkPending {dir kind sensitive hash payload preview peerId} :
    (app.parkPending dir kind sensitive hash payload preview peerId).identity = app.identity := by
  rw [parkPending]
  split <;> rfl

theorem identity_gateItem {dir kind sensitive hash payload preview peerId} :
    (app.gateItem dir kind sensitive hash payload preview peerId actions).1.identity =
      app.identity := by
  rw [gateItem]
  split
  · rfl
  · rfl
  · exact identity_parkPending

theorem identity_applyFirewall : (app.applyFirewall e actions).1.identity = app.identity := by
  cases e with
  | localClipboardChange | frameReceivedClipboard => exact identity_gateItem
  | _ => rfl

theorem identity_postTransition {p : Prelude} :
    (postTransition p e).1.identity = p.app.identity :=
  identity_applyFirewall

theorem identity_resolvePending {hash : String} {allow : Bool} :
    (app.resolvePending hash allow).1.identity = app.identity := by
  rw [resolvePending]
  split
  · rfl
  · split <;> rfl

/-- An event that binds a peer carries its name. -/
def EventNamed : Event → Prop
  | .peerSeen _ name | .primaryFailover _ name .. => name ≠ ""
  | _ => True

def Named (_ : App) : Call → Prop
  | .handle e _ => EventNamed e
  | _ => True

/-- Whoever is bound has a name. -/
def BoundNamed (app : App) : Prop := app.identity.1 ≠ 0 → app.identity.2 ≠ ""

theorem boundNamed_preTransition (blake3 : ByteArray → ContentHash) (wall : WallClock)
    (h : app.BoundNamed) (he : EventNamed e) :
    (app.preTransition blake3 e wall).app.BoundNamed := by
  have hforget : ({ app with state := app.state.forgetPeer } : App).BoundNamed := fun h ↦ absurd rfl h
  cases e with
  | peerSeen id name =>
    simp only [preTransition]
    split
    · exact fun _ ↦ he
    · split
      · split <;> exact fun _ ↦ he
      · exact fun _ ↦ he
  | primaryFailover id name platform caps =>
    simp only [preTransition]
    split <;> exact fun _ ↦ he
  | untrustedPeerSeen name | manualUnpair => exact hforget
  | ghostTimeout =>
    simp only [preTransition]
    split
    · exact h
    · exact hforget
  | peerRevoked id =>
    simp only [preTransition]
    split
    · exact hforget
    · exact h
  | localClipboardChange | frameReceivedClipboard =>
    simp only [preTransition]
    (repeat' split) <;> exact h
  | peerLost | sasLocalConfirmed | sasPeerConfirmed | sasPeerRejected =>
    simp only [preTransition]
    split <;> exact h
  | _ => exact h

theorem BoundNamed.handle (h : app.BoundNamed) (he : EventNamed e) :
    (app.handle blake3 e wall).1.BoundNamed := by
  by_cases hr : ∃ hash allow, e = .resolvePending hash allow
  · obtain ⟨hash, allow, rfl⟩ := hr
    rw [BoundNamed, App.handle, identity_resolvePending]
    exact h
  have hpre := boundNamed_preTransition blake3 wall h he
  obtain hs | ⟨hs, -, -⟩ | hs := handle_cases blake3 app wall fun hash allow h ↦ hr ⟨hash, allow, h⟩
  · rw [hs]
    exact h
  · rw [hs]
    exact hpre
  · rw [hs, BoundNamed, identity_postTransition]
    exact hpre

theorem BoundNamed.step (h : app.BoundNamed) (hn : app.Named c)
    (hs : app.step blake3 c = some app') : app'.BoundNamed := by
  cases hs
  by_cases hc : ∃ e wall, c = .handle e wall
  · rcases hc with ⟨e, wall, rfl⟩
    exact h.handle hn
  · have hl : app.lasting.BoundNamed := h
    rw [← call_lasting blake3 app fun e wall h ↦ hc ⟨e, wall, h⟩] at hl
    exact hl

theorem emitState_mem_ensureEmit : .emitState ∈ ensureEmit actions := by
  simp [mem_ensureEmit]

theorem isPeerMismatch_iff (hphase : app.phase = .handshaking ∨ app.phase = .linked)
    (hq : q ≠ app.state.peerId) : app.isPeerMismatch q = true ↔ app.state.peerName ≠ "" := by
  have hactive : app.phase ≠ .idle ∧ app.phase ≠ .discovering := by
    obtain h | h := hphase <;> simp [h]
  simp [isPeerMismatch, hq.symm, hactive]

theorem handle_peerSeen_ignored (h : app.isPeerMismatch q = true) :
    app.handle blake3 (.peerSeen q name) wall = (app, []) := by
  simp only [handle, h, if_true]

/-- A sighting that passes the check is answered at least with the new state. -/
theorem handle_peerSeen_emits (blake3 : ByteArray → ContentHash) (name : String) (wall : WallClock)
    (h : app.isPeerMismatch q = false) :
    .emitState ∈ (app.handle blake3 (.peerSeen q name) wall).2 := by
  have hpass : (app.preTransition blake3 (.peerSeen q name) wall).suppressAction = false := by
    simp only [preTransition]
    split <;> rfl
  simp only [handle, h, hpass, Bool.false_eq_true, if_false, postTransition, alwaysEmits, if_true]
  exact emitState_mem_ensureEmit

/-- A foreign sighting is ignored exactly where the bound peer has a name, which it has in every
run whose peers do. -/
theorem foreign_sighting_ignored_iff {policy : FirewallPolicy} {l : List Call}
    (hphase : app.phase = .handshaking ∨ app.phase = .linked) (hp : app.state.peerId ≠ 0)
    (hq : q ≠ app.state.peerId) :
    (app.handle blake3 (.peerSeen q name) wall = (app, []) ↔ app.state.peerName ≠ "") ∧
      (Run (step blake3) Named (.new policy) l app →
        app.handle blake3 (.peerSeen q name) wall = (app, [])) := by
  have hiff : app.handle blake3 (.peerSeen q name) wall = (app, []) ↔ app.state.peerName ≠ "" := by
    rw [← isPeerMismatch_iff hphase hq]
    constructor
    · intro h
      by_contra hm
      have hemit := handle_peerSeen_emits blake3 name wall (Bool.eq_false_of_not_eq_true hm)
      rw [h] at hemit
      exact List.not_mem_nil hemit
    · exact handle_peerSeen_ignored
  refine ⟨hiff, fun hnamed ↦ hiff.mpr ?_⟩
  have hbound : app.BoundNamed :=
    hnamed.invariant (fun h ↦ absurd rfl h) fun _ _ _ h hn hs ↦ h.step hn hs
  exact hbound hp

theorem foreign_sighting_ignored_iff_desk :
    ∃ app, Run (step fun _ ↦ 0) Named (.new {}) link app ∧
      app.handle (fun _ ↦ 0) (.peerSeen 2 "van") noon = (app, []) := by
  have hrun : Run (step fun _ ↦ 0) Always (.new {}) link _ := run_of_isSome (by decide +kernel)
  have hnamed : Run (step fun _ ↦ 0) Named (.new {}) link _ :=
    (hrun.labels (p := fun c ↦ c ∈ link) fun _ ↦ id).mono fun _ c hc ↦ by
      simp only [link, List.mem_cons, List.not_mem_nil, or_false] at hc
      obtain rfl | rfl | rfl := hc <;> simp [Named, EventNamed]
  refine ⟨_, hnamed, (foreign_sighting_ignored_iff ?_ ?_ ?_).2 hnamed⟩ <;> decide +kernel

/-- The peer greets with an empty name once it is linked. -/
def linkNameless : List Call := link ++ [.handle (.peerSeen 1 "") noon]

theorem nameless_peer_hijacked :
    ∃ app, Run (step fun _ ↦ 0) Always (.new {}) linkNameless app ∧ app.phase = .linked ∧
      app.state.peerId = 1 ∧
      (app.handle (fun _ ↦ 0) (.peerSeen 2 "van") noon).1.state.peerId = 2 := by
  have hrun : Run (step fun _ ↦ 0) Always (.new {}) linkNameless _ :=
    run_of_isSome (by decide +kernel)
  exact ⟨_, hrun, by decide +kernel⟩

end FluxSync.App
