import FluxSync.Core.Transfer

namespace FluxSync.App

open Std Runs

variable {blake3 : ByteArray → ContentHash} {app app' : App} {e : Event} {wall : WallClock}
  {policy : FirewallPolicy} {l : List Call} {c : Call} {p : Prelude} {a : Action}

/-- The phase and the status that clients read are those of the state machine. -/
structure Labelled (app : App) : Prop where
  phase : app.state.phase = app.phase.name
  status : app.state.status = statusFor app.state

structure Coherent (app : App) : Prop extends Labelled app where
  on : app.state.on = true ↔ app.phase ≠ .idle

theorem preTransition_phaseName :
    (app.preTransition blake3 e wall).app.state.phase = app.state.phase := by
  cases e <;> simp only [preTransition] <;> (repeat' split) <;> rfl

theorem preTransition_status :
    (app.preTransition blake3 e wall).app.state.status = app.state.status := by
  cases e <;> simp only [preTransition] <;> (repeat' split) <;> rfl

theorem Labelled.postTransition : (App.postTransition p e).1.Labelled := ⟨rfl, rfl⟩

theorem Labelled.resolvePending {hash : String} {allow : Bool} (h : app.Labelled) :
    (app.resolvePending hash allow).1.Labelled := by
  rw [App.resolvePending]
  split
  · exact ⟨h.phase, h.status⟩
  · split <;> exact ⟨h.phase, h.status⟩

theorem Labelled.handle (h : app.Labelled) : (app.handle blake3 e wall).1.Labelled := by
  by_cases he : ∃ hash allow, e = .resolvePending hash allow
  · rcases he with ⟨hash, allow, rfl⟩
    exact h.resolvePending
  rcases handle_cases blake3 app wall fun hash allow h ↦ he ⟨hash, allow, h⟩ with h' | h' | h'
  · rw [h']
    exact h
  · rcases h' with ⟨heq, hkeep, -⟩
    rw [heq]
    constructor
    · rw [preTransition_phaseName, preTransition_phase]
      exact h.phase
    · rw [preTransition_status, statusFor, preTransition_on, hkeep]
      exact h.status
  · rw [h']
    exact .postTransition

/-- The other calls of the main loop leave the switch and the link alone. -/
theorem Labelled.call (h : app.Labelled) : (app.call blake3 c).1.Labelled := by
  by_cases hc : ∃ e wall, c = .handle e wall
  · rcases hc with ⟨e, wall, rfl⟩
    exact h.handle
  · have hl : app.lasting.Labelled := ⟨h.phase, h.status⟩
    rw [← call_lasting blake3 app fun e wall h ↦ hc ⟨e, wall, h⟩] at hl
    exact ⟨hl.phase, hl.status⟩

theorem labelled (h : Run (step blake3) Always (.new policy) l app) : app.Labelled := by
  apply h.invariant ⟨rfl, rfl⟩
  intro app c app' hi _ hs
  cases hs
  exact hi.call

/-- The phase before and after a transition, read with what the event leaves of the switch. -/
theorem transition_on {phase : Phase} {on : Bool} (h : on = true ↔ phase ≠ .idle) :
    (switched on e = true ↔ (transition phase e).1 ≠ .idle) ↔
      ∀ name, e = .untrustedPeerSeen name → on = true := by
  cases e <;> cases phase <;> cases on <;> simp_all [transition, switched]

/-- One step keeps the coherence exactly when no rejected identity is reported while sync is off. -/
theorem Coherent.step_iff (h : app.Coherent) (hs : app.step blake3 c = some app') :
    app'.Coherent ↔ app.UntrustedOnlyOn c := by
  cases hs
  have hl : (app.call blake3 c).1.Labelled := h.toLabelled.call
  have hiff : (app.call blake3 c).1.Coherent ↔
      ((app.call blake3 c).1.state.on = true ↔ (app.call blake3 c).1.phase ≠ .idle) :=
    ⟨Coherent.on, fun hon ↦ ⟨hl, hon⟩⟩
  rw [hiff]
  clear hiff hl
  by_cases hc : ∃ e wall, c = .handle e wall
  case neg =>
    have hon : app.lasting.state.on = true ↔ app.lasting.phase ≠ .idle := h.on
    rw [← call_lasting blake3 app fun e wall h ↦ hc ⟨e, wall, h⟩] at hon
    refine iff_of_true hon ?_
    cases c with
    | handle e wall => exact absurd ⟨e, wall, rfl⟩ hc
    | _ => trivial
  rcases hc with ⟨e, wall, rfl⟩
  have hok : app.UntrustedOnlyOn (.handle e wall) ↔
      ∀ name, e = .untrustedPeerSeen name → app.state.on = true := by
    cases e <;> simp [UntrustedOnlyOn]
  rw [call, hok]
  by_cases he : ∃ hash allow, e = .resolvePending hash allow
  · rcases he with ⟨hash, allow, rfl⟩
    rw [handle, resolvePending_phase, resolvePending_on]
    exact iff_of_true h.on (by simp)
  by_cases hu : ∃ name, e = .untrustedPeerSeen name
  · rcases hu with ⟨name, rfl⟩
    have h' : app.handle blake3 (.untrustedPeerSeen name) wall =
        postTransition (app.preTransition blake3 (.untrustedPeerSeen name) wall)
          (.untrustedPeerSeen name) := rfl
    rw [h', postTransition_on, postTransition_phase, preTransition_on, preTransition_phase]
    exact transition_on h.on
  have hkeeps : ∀ name, e = .untrustedPeerSeen name → app.state.on = true :=
    fun name h ↦ absurd ⟨name, h⟩ hu
  rcases handle_cases blake3 app wall fun hash allow h ↦ he ⟨hash, allow, h⟩ with h' | h' | h'
  · rw [h']
    exact iff_of_true h.on hkeeps
  · rcases h' with ⟨heq, hkeep, -⟩
    rw [heq, preTransition_on, preTransition_phase, hkeep]
    exact iff_of_true h.on hkeeps
  · rw [h', postTransition_on, postTransition_phase, preTransition_on, preTransition_phase]
    exact transition_on h.on

/-- The states of a run are coherent as long as rejected identities are reported while sync
is on. -/
theorem coherent_throughout_iff (hr : Run (step blake3) Always (.new policy) l app) :
    (∀ l' app', l' <+: l → Run (step blake3) Always (.new policy) l' app' → app'.Coherent) ↔
      Run (step blake3) UntrustedOnlyOn (.new policy) l app := by
  have hnew : (App.new policy).Coherent := ⟨⟨rfl, rfl⟩, by simp [App.new]⟩
  exact run_guarded_iff hnew (fun _ _ _ h hs ↦ h.step_iff hs) hr

theorem coherent_throughout_link :
    ∃ app, Run (step fun _ ↦ 0) Always (.new {}) link app ∧
      ((∀ l' app', l' <+: link → Run (step fun _ ↦ 0) Always (.new {}) l' app' → app'.Coherent) ↔
        Run (step fun _ ↦ 0) UntrustedOnlyOn (.new {}) link app) := by
  have hrun : Run (step fun _ ↦ 0) Always (.new {}) link _ := run_of_isSome (by decide +kernel)
  exact ⟨_, hrun, coherent_throughout_iff hrun⟩

/-- A rejected identity is reported before sync is first switched on. -/
def rejectWhileOff : List Call := [.handle (.untrustedPeerSeen "Mac") noon]

theorem rejectWhileOff_incoherent :
    ∃ app, Run (step fun _ ↦ 0) Always (.new {}) rejectWhileOff app ∧
      app.state.on = false ∧ app.phase = .discovering ∧ ¬ app.Coherent := by
  have hrun : Run (step fun _ ↦ 0) Always (.new {}) rejectWhileOff _ :=
    run_of_isSome (by decide +kernel)
  refine ⟨_, hrun, by decide +kernel, by decide +kernel, fun h ↦ ?_⟩
  have hon := h.on.mpr (by decide +kernel)
  revert hon
  decide +kernel

section Emit

variable {actions : List Action} {state : State}

theorem emit_mem_applyFirewall (app : App) (e : Event) (h : .emitState ∈ actions) :
    .emitState ∈ (app.applyFirewall e actions).2 := by
  have hstrip {dir : Direction} : Action.emitState ∈ stripSyncAction dir actions :=
    List.mem_filter.mpr ⟨h, rfl⟩
  have hgate {dir kind sensitive hash payload preview peerId} :
      .emitState ∈ (app.gateItem dir kind sensitive hash payload preview peerId actions).2 := by
    rw [gateItem]
    split
    · exact h
    · exact hstrip
    · exact hstrip
  cases e with
  | localClipboardChange | frameReceivedClipboard => exact hgate
  | _ => exact h

theorem emit_mem_stripResyncApply (h : .emitState ∈ actions) :
    .emitState ∈ stripResyncApply actions := by
  simp only [stripResyncApply]
  split
  · exact List.mem_append_left _ (List.mem_filter.mpr ⟨h, rfl⟩)
  · exact List.mem_filter.mpr ⟨h, rfl⟩

theorem emit_mem_realBattery (h : .emitState ∈ actions) : .emitState ∈ realBattery state actions :=
  List.mem_filterMap.mpr ⟨.emitState, h, rfl⟩

theorem emit_mem_ite {b : Prop} [Decidable b] (h : .emitState ∈ actions) :
    .emitState ∈ if b then ensureEmit actions else actions := by
  split
  · exact mem_ensureEmit.mpr (.inl h)
  · exact h

/-- What follows the transition keeps its `EmitState`, or adds one. -/
theorem emit_mem_postTransition
    (h : .emitState ∈ (transition p.app.phase e).2 ∨ alwaysEmits e) :
    .emitState ∈ (postTransition p e).2 := by
  simp only [postTransition]
  rcases h with h | h
  · apply emit_mem_ite
    apply emit_mem_ite
    apply emit_mem_realBattery
    have hfirewall := emit_mem_applyFirewall p.app e h
    have hdropped : .emitState ∈ if p.pendingDropped = [] then
        (p.app.applyFirewall e (transition p.app.phase e).2).2
        else (p.app.applyFirewall e (transition p.app.phase e).2).2 ++
          [.pendingDropped p.pendingDropped] := by
      split
      · exact hfirewall
      · exact List.mem_append_left _ hfirewall
    split
    · exact emit_mem_stripResyncApply hdropped
    · exact hdropped
  · rw [if_pos h]
    exact mem_ensureEmit.mpr (.inr rfl)

end Emit

/-- A handshake given up without a word to those who watch the state. -/
def GivesUpSilently (app : App) (e : Event) : Prop :=
  app.phase = .handshaking ∧ (e = .handshakeTimeout ∨ e = .networkChanged)

/-- An event that is not sure to emit changes nothing unless its transition emits. -/
theorem quiet_or_emits (he : ∀ hash allow, e ≠ .resolvePending hash allow)
    (hquiet : alwaysEmits e = false) (hg : ¬ app.GivesUpSilently e) :
    .emitState ∈ (transition app.phase e).2 ∨
      (transition app.phase e).1 = app.phase ∧ app.preTransition blake3 e wall = { app } := by
  cases e with
  | resolvePending hash allow => exact absurd rfl (he hash allow)
  | handshakeOk | handshakeTimeout | networkChanged | reconnect =>
    rw [GivesUpSilently] at hg
    cases hphase : app.phase <;> simp_all [transition, preTransition]
  | peerPlatform | peerCaps | meshPeersChanged | primaryFailover =>
    cases app.phase <;> exact .inl (by simp [transition])
  | _ => cases hquiet

theorem suppressed_state (h : (app.preTransition blake3 e wall).suppressAction = true) :
    (app.preTransition blake3 e wall).app.state = app.state := by
  cases e with
  | localClipboardChange | frameReceivedClipboard =>
    revert h
    simp only [preTransition]
    (repeat' split) <;> intro h
    all_goals first
      | rfl
      | cases h
  | _ =>
    revert h
    simp only [preTransition]
    (repeat' split) <;> intro h <;> cases h

theorem unchanged_or_post (he : ∀ hash allow, e ≠ .resolvePending hash allow) :
    (app.handle blake3 e wall).1.state = app.state ∨
      app.handle blake3 e wall = postTransition (app.preTransition blake3 e wall) e := by
  cases e with
  | resolvePending hash allow => exact absurd rfl (he hash allow)
  | peerSeen peerId name =>
    simp only [handle]
    split
    · exact .inl rfl
    · split
      case isTrue hsup => exact .inl (suppressed_state hsup)
      case isFalse => exact .inr rfl
  | _ =>
    simp only [handle, Bool.false_eq_true, if_false]
    split
    case isTrue hsup => exact .inl (suppressed_state hsup)
    case isFalse => exact .inr rfl

theorem Labelled.postTransition_state (h : app.Labelled) (hquiet : alwaysEmits e = false)
    (hphase : (transition app.phase e).1 = app.phase) :
    (App.postTransition { app } e).1.state = app.state := by
  have hfire (actions : List Action) : (app.applyFirewall e actions).1 = app := by
    cases e <;> first | rfl | cases hquiet
  simp only [App.postTransition, hfire, hphase, ← h.phase, ← h.status]

/-- Nothing that clients read changes without `EmitState`, but for a handshake that times out
or loses its network. -/
theorem change_emits_iff (hr : Run (step blake3) Always (.new policy) l app) :
    ((app.handle blake3 e wall).1.state ≠ app.state →
        .emitState ∈ (app.handle blake3 e wall).2) ↔ ¬ app.GivesUpSilently e := by
  have hl := labelled hr
  constructor
  · rintro h ⟨hphase, he⟩
    have hname := hl.phase
    have hstatus := hl.status
    rw [hphase] at hname
    have hchanged : (app.handle blake3 e wall).1.state ≠ app.state := by
      intro heq
      have := congrArg State.phase heq
      rcases he with rfl | rfl <;>
        simp [handle, preTransition, postTransition, transition, applyFirewall, hphase, hname,
          Phase.name] at this
    have hemit := h hchanged
    rcases he with rfl | rfl <;>
      simp [handle, preTransition, postTransition, transition, applyFirewall, hphase, realBattery,
        alwaysEmits, hstatus] at hemit
  · intro hg hchanged
    by_cases he : ∃ hash allow, e = .resolvePending hash allow
    · rcases he with ⟨hash, allow, rfl⟩
      rw [handle, resolvePending]
      split
      · exact .head _
      · split
        · exact .tail _ (.head _)
        · exact .head _
    have he : ∀ hash allow, e ≠ .resolvePending hash allow := fun hash allow h ↦ he ⟨hash, allow, h⟩
    rcases unchanged_or_post he with hsame | hpost
    · exact absurd hsame hchanged
    · rw [hpost]
      apply emit_mem_postTransition
      by_cases halways : alwaysEmits e
      · exact .inr halways
      rcases quiet_or_emits he (Bool.eq_false_of_not_eq_true halways) hg with hemit | ⟨hphase, hpre⟩
      · rw [preTransition_phase]
        exact .inl hemit
      · rw [hpost, hpre] at hchanged
        exact absurd (hl.postTransition_state (Bool.eq_false_of_not_eq_true halways) hphase) hchanged

theorem change_emits_link :
    ∃ app, Run (step fun _ ↦ 0) Always (.new {}) link app ∧
      (((app.handle (fun _ ↦ 0) (.peerLost 1) noon).1.state ≠ app.state →
          .emitState ∈ (app.handle (fun _ ↦ 0) (.peerLost 1) noon).2) ↔
        ¬ app.GivesUpSilently (.peerLost 1)) := by
  have hrun : Run (step fun _ ↦ 0) Always (.new {}) link _ := run_of_isSome (by decide +kernel)
  exact ⟨_, hrun, change_emits_iff hrun⟩

/-- A peer is seen and its handshake has not been answered. -/
def awaitAnswer : List Call := [.handle .toggleOn noon, .handle (.peerSeen 1 "desk") noon]

theorem handshakeTimeout_changes_silently :
    ∃ app, Run (step fun _ ↦ 0) Always (.new {}) awaitAnswer app ∧
      app.state.phase = "handshaking" ∧
      (app.handle (fun _ ↦ 0) .handshakeTimeout noon).1.state.phase = "discovering" ∧
      .emitState ∉ (app.handle (fun _ ↦ 0) .handshakeTimeout noon).2 := by
  have hrun : Run (step fun _ ↦ 0) Always (.new {}) awaitAnswer _ :=
    run_of_isSome (by decide +kernel)
  exact ⟨_, hrun, by decide +kernel⟩

end FluxSync.App
