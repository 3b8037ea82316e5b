import FluxSync.Core.Handle
import FluxSync.Foundation.Runs

namespace FluxSync.App

open Std Runs

variable {blake3 : ByteArray → ContentHash} {app : App} {e : Event} {wall : WallClock}
  {a : Action}

/-- What the daemon's main loop does with its `App`. -/
inductive Call
  | handle (event : Event) (wall : WallClock)
  | setFirewall (policy : FirewallPolicy)
  | setHistoryRetention (secs nowMs : UInt64)
  | expireHistory (nowMs : UInt64)
  | markDelivered (hash : ContentHash) (device : String)
  | setOtherLinkedPeers (peers : List PeerId)
  | restoreHistory (items : List HistoryItem)

def call (blake3 : ByteArray → ContentHash) (app : App) : Call → App × List Action
  | .handle event wall => app.handle blake3 event wall
  | .setFirewall policy => (app.setFirewall policy, [])
  | .setHistoryRetention secs nowMs => ((app.setHistoryRetention secs nowMs).getD app, [])
  | .expireHistory nowMs => ((app.expireHistory nowMs).1, [])
  | .markDelivered hash device => ((app.markDelivered hash device).1, [])
  | .setOtherLinkedPeers peers => (app.setOtherLinkedPeers peers, [])
  | .restoreHistory items => (app.restoreHistory items, [])

def step (blake3 : ByteArray → ContentHash) (app : App) (c : Call) : Option App :=
  some (app.call blake3 c).1

/-- The App without what a call other than `handle` may change. -/
def lasting (app : App) : App :=
  { app with
    state := { app.state with
      history := [], historyRetentionSecs := 0, delivered := ∅, firewall := {} }
    firewall := {}, dedup := {}, otherLinkedPeers := ∅ }

theorem expireHistory_lasting (app : App) (nowMs : UInt64) :
    (app.expireHistory nowMs).1.lasting = app.lasting := by
  rw [expireHistory]
  split <;> rfl

theorem call_lasting (blake3 : ByteArray → ContentHash) (app : App) {c : Call}
    (hc : ∀ e wall, c ≠ .handle e wall) : (app.call blake3 c).1.lasting = app.lasting := by
  cases c with
  | handle e wall => exact absurd rfl (hc e wall)
  | setHistoryRetention secs nowMs =>
    rw [call, setHistoryRetention]
    split
    · exact expireHistory_lasting _ nowMs
    · rfl
  | expireHistory nowMs => exact expireHistory_lasting app nowMs
  | markDelivered hash device =>
    simp only [call, markDelivered]
    split
    · rfl
    · split <;> rfl
  | setFirewall | setOtherLinkedPeers | restoreHistory => rfl

/-- Only a link that sync was switched on for is up or coming up. -/
def IdleWhenOff (app : App) : Prop := app.state.on = false → app.phase = .idle

/-- A rejected identity is reported while sync is on. -/
def UntrustedOnlyOn (app : App) : Call → Prop
  | .handle (.untrustedPeerSeen _) _ => app.state.on = true
  | _ => True

theorem resolvePending_phase {hash : String} {allow : Bool} :
    (app.resolvePending hash allow).1.phase = app.phase := by
  rw [resolvePending]
  split
  · rfl
  · split <;> rfl

theorem resolvePending_on {hash : String} {allow : Bool} :
    (app.resolvePending hash allow).1.state.on = app.state.on := by
  rw [resolvePending]
  split
  · rfl
  · split <;> rfl

/-- The only transfer of an approval is the one that was held back. -/
theorem resolvePending_transfers {hash : String} {allow : Bool}
    (ha : a ∈ (app.resolvePending hash allow).2) (ht : a.transfers) :
    allow = true ∧ ∃ p, app.pendingPayloads[hash]? = some p ∧ a = p.held := by
  rw [resolvePending] at ha
  split at ha
  case h_1 =>
    rw [List.mem_singleton.mp ha] at ht
    cases ht
  case h_2 p hp =>
    split at ha
    case isTrue hallow =>
      obtain rfl | h := List.mem_cons.mp ha
      · exact ⟨hallow, p, hp, rfl⟩
      · rw [List.mem_singleton.mp h] at ht
        cases ht
    case isFalse =>
      rw [List.mem_singleton.mp ha] at ht
      cases ht

/-- The three ways through `handle` of an event that is no approval. -/
theorem handle_cases (blake3 : ByteArray → ContentHash) (app : App) (wall : WallClock)
    (he : ∀ hash allow, e ≠ .resolvePending hash allow) :
    app.handle blake3 e wall = (app, []) ∨
      ((app.handle blake3 e wall).1 = (app.preTransition blake3 e wall).app ∧
        (∀ on, switched on e = on) ∧ ∀ a ∈ (app.handle blake3 e wall).2, ¬ a.transfers) ∨
      app.handle blake3 e wall = postTransition (app.preTransition blake3 e wall) e := by
  cases e with
  | resolvePending hash allow => exact absurd rfl (he hash allow)
  | peerSeen peerId name =>
    simp only [handle]
    split
    · exact .inl rfl
    · split
      · exact .inr (.inl ⟨rfl, fun _ ↦ rfl, by simp [Action.transfers]⟩)
      · exact .inr (.inr rfl)
  | localClipboardChange | frameReceivedClipboard =>
    simp only [handle, Bool.false_eq_true, if_false]
    split
    · exact .inr (.inl ⟨rfl, fun _ ↦ rfl, by simp [Action.transfers]⟩)
    · exact .inr (.inr rfl)
  | _ => exact .inr (.inr (by simp [handle, preTransition] <;> grind))

theorem handle_transfers (ha : a ∈ (app.handle blake3 e wall).2) (ht : a.transfers) :
    app.phase = .linked ∨
      ∃ hash p, e = .resolvePending hash true ∧ app.pendingPayloads[hash]? = some p ∧ a = p.held := by
  by_cases he : ∃ hash allow, e = .resolvePending hash allow
  · obtain ⟨hash, allow, rfl⟩ := he
    obtain ⟨rfl, p, hp⟩ := resolvePending_transfers ha ht
    exact .inr ⟨hash, p, rfl, hp⟩
  · refine .inl ?_
    obtain h | ⟨-, -, h⟩ | h := handle_cases blake3 app wall
      fun hash allow h ↦ he ⟨hash, allow, h⟩
    · rw [h] at ha
      cases ha
    · exact absurd ht (h a ha)
    · rw [h] at ha
      have hlinked := transition_transfers (postTransition_transfers ha ht) ht
      exact preTransition_phase.symm.trans hlinked

/-- Every event that leaves sync off ends the link or finds none. -/
theorem IdleWhenOff.handle (hi : app.IdleWhenOff)
    (hu : ∀ name, e = .untrustedPeerSeen name → app.state.on = true) :
    (app.handle blake3 e wall).1.IdleWhenOff := by
  intro hoff
  by_cases he : ∃ hash allow, e = .resolvePending hash allow
  · obtain ⟨hash, allow, rfl⟩ := he
    exact resolvePending_phase.trans (hi (resolvePending_on.symm.trans hoff))
  obtain h | ⟨h, hkeep, -⟩ | h := handle_cases blake3 app wall
    fun hash allow h ↦ he ⟨hash, allow, h⟩
  · rw [h] at hoff ⊢
    exact hi hoff
  · rw [h] at hoff ⊢
    rw [preTransition_on, hkeep] at hoff
    exact preTransition_phase.trans (hi hoff)
  · rw [h] at hoff ⊢
    rw [postTransition_on, preTransition_on] at hoff
    rw [postTransition_phase, preTransition_phase]
    cases e with
    | toggleOff | manualUnpair => cases app.phase <;> rfl
    | toggleOn => cases hoff
    | untrustedPeerSeen name => exact absurd (hu name rfl) (by simpa [switched] using hoff)
    | _ => rw [hi hoff]; rfl

theorem IdleWhenOff.step {c : Call} {app' : App} (hi : app.IdleWhenOff)
    (hu : app.UntrustedOnlyOn c) (hs : app.step blake3 c = some app') : app'.IdleWhenOff := by
  cases hs
  by_cases hc : ∃ e wall, c = .handle e wall
  · rcases hc with ⟨e, wall, rfl⟩
    refine hi.handle fun name hn ↦ ?_
    subst hn
    exact hu
  · have hl : app.lasting.IdleWhenOff := hi
    rw [← call_lasting blake3 app fun e wall h ↦ hc ⟨e, wall, h⟩] at hl
    exact hl

/-- Content leaves for a peer or the clipboard while the link is up, or because the
user approved the item the firewall had held. The link is up only while sync is on,
as far as rejected identities are reported only then. -/
theorem transfers_linked_or_approved {c : Call} (ha : a ∈ (app.call blake3 c).2)
    (ht : a.transfers) :
    (app.phase = .linked ∧ ∀ policy l,
        Run (step blake3) UntrustedOnlyOn (.new policy) l app → app.state.on = true) ∨
      ∃ hash p wall, c = .handle (.resolvePending hash true) wall ∧
        app.pendingPayloads[hash]? = some p ∧ a = p.held := by
  cases c with
  | handle e wall =>
    obtain hlinked | ⟨hash, p, rfl, hp⟩ := handle_transfers ha ht
    · refine .inl ⟨hlinked, fun policy l hrun ↦ ?_⟩
      have hi : app.IdleWhenOff :=
        hrun.invariant (fun _ ↦ rfl) fun _ _ _ hi hu hs ↦ hi.step hu hs
      by_contra hon
      have hidle := hi (Bool.eq_false_of_not_eq_true hon)
      rw [hlinked] at hidle
      cases hidle
    · exact .inr ⟨hash, p, wall, rfl, hp⟩
  | _ => cases ha

def noon : WallClock := ⟨"12:00", 1000000⟩

def link : List Call :=
  [.handle .toggleOn noon, .handle (.peerSeen 1 "desk") noon, .handle .handshakeOk noon]

def copy : Call := .handle (.localClipboardChange 7 .text ⟨#[104]⟩ "h" false 0) noon

theorem transfers_linked_or_approved_linkThenCopy :
    ∃ app, Run (step fun _ ↦ 0) UntrustedOnlyOn (.new {}) link app ∧
      .sendItem 7 .text ⟨#[104]⟩ false ∈ (app.call (fun _ ↦ 0) copy).2 ∧
      ((app.phase = .linked ∧ ∀ policy l,
          Run (step fun _ ↦ 0) UntrustedOnlyOn (.new policy) l app → app.state.on = true) ∨
        ∃ hash p wall, copy = .handle (.resolvePending hash true) wall ∧
          app.pendingPayloads[hash]? = some p ∧ .sendItem 7 .text ⟨#[104]⟩ false = p.held) := by
  have hrun : Run (step fun _ ↦ 0) Always (.new {}) link _ := run_of_isSome (by decide +kernel)
  have hu : Run (step fun _ ↦ 0) UntrustedOnlyOn (.new {}) link _ :=
    (hrun.labels (p := fun c ↦ c ∈ link) fun _ ↦ id).mono fun _ c hc ↦ by
      simp only [link, List.mem_cons, List.not_mem_nil, or_false] at hc
      obtain rfl | rfl | rfl := hc <;> trivial
  refine ⟨_, hu, ?_, transfers_linked_or_approved ?_ rfl⟩ <;> decide +kernel

/-- An item is parked while linked, then sync goes off. -/
def parkThenToggleOff : List Call :=
  .setFirewall { enabled := true, text := .ask } :: link ++ [copy, .handle .toggleOff noon]

theorem approval_transfers_while_off :
    ∃ app, Run (step fun _ ↦ 0) Always (.new {}) parkThenToggleOff app ∧
      app.state.on = false ∧ app.phase = .idle ∧
      .sendItem 7 .text ⟨#[104]⟩ false ∈
        (app.call (fun _ ↦ 0) (.handle (.resolvePending (hex32 7) true) noon)).2 := by
  have hrun : Run (step fun _ ↦ 0) Always (.new {}) parkThenToggleOff _ :=
    run_of_isSome (by decide +kernel)
  exact ⟨_, hrun, by decide +kernel⟩

end FluxSync.App
