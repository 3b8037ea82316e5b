import FluxSync.Core.Transfer

namespace FluxSync.App

open Std Runs

variable {blake3 : ByteArray → ContentHash} {app : App} {e : Event} {wall : WallClock}
  {policy : FirewallPolicy} {l since : List Call} {c : Call} {actions : List Action}
  {pre : Prelude} {p : PeerId}

/-- How far the comparison of the six words has come, and with whom. -/
def sas (app : App) : String × Option PeerId := (app.state.sasPhase, app.state.sasPeer)

/-- What an event leaves of the comparison. -/
def sasAfter (app : App) : Event → String × Option PeerId
  | .peerLost p =>
    if app.state.sasPeer = some p ∧
        app.state.sasPhase ∈ ["showing", "peer_confirmed", "local_confirmed"] then ("idle", none)
    else app.sas
  | .ghostTimeout => if app.phase = .linked then app.sas else ("idle", none)
  | .untrustedPeerSeen _ | .manualUnpair | .sasReset => ("idle", none)
  | .sasPairingStarted p => ("showing", some p)
  | .sasLocalConfirmed p =>
    if app.state.sasPeer = some p then
      (if app.state.sasPhase ∈ ["peer_confirmed", "confirmed"] then "confirmed"
        else "local_confirmed", some p)
    else app.sas
  | .sasPeerConfirmed p =>
    if app.state.sasPeer = some p then
      (if app.state.sasPhase ∈ ["local_confirmed", "confirmed"] then "confirmed"
        else "peer_confirmed", some p)
    else app.sas
  | .sasPeerRejected p => if app.state.sasPeer = some p then ("peer_rejected", some p) else app.sas
  | _ => app.sas

theorem sas_preTransition : (app.preTransition blake3 e wall).app.sas = app.sasAfter e := by
  cases e with
  | sasLocalConfirmed p | sasPeerConfirmed p | sasPeerRejected p =>
    simp only [preTransition, sasAfter]
    split
    case isTrue h => exact congrArg (Prod.mk _) h
    case isFalse => rfl
  | _ => simp only [preTransition, sasAfter] <;> (repeat' split) <;> rfl

theorem sas_postTransition : (postTransition pre e).1.sas = pre.app.sas := by
  have hgate {dir kind sensitive hash payload preview peerId actions} :
      (pre.app.gateItem dir kind sensitive hash payload preview peerId actions).1.sas =
        pre.app.sas := by
    rw [gateItem]
    split
    · rfl
    · rfl
    · rw [parkPending]
      split <;> rfl
  cases e with
  | localClipboardChange | frameReceivedClipboard => exact hgate
  | _ => rfl

theorem sas_handle : (app.handle blake3 e wall).1.sas = app.sasAfter e := by
  cases e with
  | resolvePending hash allow =>
    rw [handle, resolvePending]
    split
    · rfl
    · split <;> rfl
  | peerSeen q name =>
    simp only [handle]
    split
    · rfl
    · split
      · exact sas_preTransition
      · exact sas_postTransition.trans sas_preTransition
  | _ =>
    simp only [handle, Bool.false_eq_true, if_false]
    split
    · exact sas_preTransition
    · exact sas_postTransition.trans sas_preTransition

theorem sas_call (hc : ∀ e wall, c ≠ .handle e wall) : (app.call blake3 c).1.sas = app.sas := by
  have hl : (app.call blake3 c).1.lasting.sas = app.lasting.sas := by
    rw [call_lasting blake3 app hc]
  exact hl

/-- The calls `since` the last pairing was started, which was with `p`. -/
def PairingSince (l : List Call) (p : PeerId) (since : List Call) : Prop :=
  (∃ l₁ wall, l = l₁ ++ .handle (.sasPairingStarted p) wall :: since) ∧
    ∀ q wall, .handle (.sasPairingStarted q) wall ∉ since

def Handled (l : List Call) (e : Event) : Prop := ∃ wall, .handle e wall ∈ l

theorem PairingSince.start : PairingSince (l ++ [.handle (.sasPairingStarted p) wall]) p [] :=
  ⟨⟨l, wall, rfl⟩, by simp⟩

theorem PairingSince.snoc (h : PairingSince l p since)
    (hc : ∀ q wall, c ≠ .handle (.sasPairingStarted q) wall) :
    PairingSince (l ++ [c]) p (since ++ [c]) := by
  rcases h with ⟨⟨l₁, wall, rfl⟩, hnone⟩
  constructor
  · exact ⟨l₁, wall, by simp⟩
  · intro q wall hq
    rcases List.mem_append.mp hq with hq | hq
    · exact hnone q wall hq
    · exact hc q wall (List.mem_singleton.mp hq).symm

theorem Handled.snoc (h : Handled l e) : Handled (l ++ [c]) e := by
  rcases h with ⟨wall, h⟩
  exact ⟨wall, List.mem_append_left _ h⟩

theorem Handled.last : Handled (l ++ [.handle e wall]) e := ⟨wall, by simp⟩

/-- What a phase says about the pairing with a peer has happened since it was started. -/
structure Witnessed (l : List Call) (s : String × Option PeerId) : Prop where
  idle : s.2 = none ↔ s.1 = "idle"
  since : ∀ p, s.2 = some p → ∃ since, PairingSince l p since ∧
    (s.1 = "local_confirmed" ∨ s.1 = "confirmed" → Handled since (.sasLocalConfirmed p)) ∧
    (s.1 = "peer_confirmed" ∨ s.1 = "confirmed" → Handled since (.sasPeerConfirmed p))

variable {s : String × Option PeerId} {phase : String}

theorem Witnessed.reset : Witnessed l ("idle", none) := by
  constructor
  · simp
  · intro p hp
    cases hp

theorem Witnessed.start : Witnessed (l ++ [.handle (.sasPairingStarted p) wall])
    ("showing", some p) := by
  constructor
  · simp
  · intro q hq
    cases hq
    exact ⟨[], .start, by simp, by simp⟩

theorem Witnessed.same (h : Witnessed l s)
    (hc : ∀ q wall, c ≠ .handle (.sasPairingStarted q) wall) : Witnessed (l ++ [c]) s := by
  constructor
  · exact h.idle
  · intro p hp
    rcases h.since p hp with ⟨since, hsince, hlocal, hpeer⟩
    exact ⟨since ++ [c], hsince.snoc hc, fun h ↦ (hlocal h).snoc, fun h ↦ (hpeer h).snoc⟩

/-- A phase of the same pairing, whose new confirmations are those of the last call. -/
theorem Witnessed.advance (h : Witnessed l s) (hp : s.2 = some p) (hphase : phase ≠ "idle")
    (hc : ∀ q wall, c ≠ .handle (.sasPairingStarted q) wall)
    (hlocal : phase = "local_confirmed" ∨ phase = "confirmed" →
      (s.1 = "local_confirmed" ∨ s.1 = "confirmed") ∨
        ∃ wall, c = .handle (.sasLocalConfirmed p) wall)
    (hpeer : phase = "peer_confirmed" ∨ phase = "confirmed" →
      (s.1 = "peer_confirmed" ∨ s.1 = "confirmed") ∨
        ∃ wall, c = .handle (.sasPeerConfirmed p) wall) :
    Witnessed (l ++ [c]) (phase, some p) := by
  constructor
  · simp [hphase]
  intro q hq
  cases hq
  rcases h.since p hp with ⟨since, hsince, hlocal', hpeer'⟩
  refine ⟨since ++ [c], hsince.snoc hc, ?_, ?_⟩
  · intro h
    rcases hlocal h with h | ⟨wall, rfl⟩
    · exact (hlocal' h).snoc
    · exact .last
  · intro h
    rcases hpeer h with h | ⟨wall, rfl⟩
    · exact (hpeer' h).snoc
    · exact .last

theorem Witnessed.handle (h : Witnessed l app.sas) :
    Witnessed (l ++ [.handle e wall]) (app.sasAfter e) := by
  cases e with
  | peerLost p =>
    rw [sasAfter]
    split
    · exact .reset
    · exact h.same (by simp)
  | ghostTimeout =>
    rw [sasAfter]
    split
    · exact h.same (by simp)
    · exact .reset
  | untrustedPeerSeen | manualUnpair | sasReset => exact .reset
  | sasPairingStarted p => exact .start
  | sasLocalConfirmed p =>
    rw [sasAfter]
    split
    case isFalse => exact h.same (by simp)
    case isTrue hp =>
      apply h.advance hp
      · split <;> decide
      · simp
      · exact fun _ ↦ .inr ⟨wall, rfl⟩
      · split
        case isTrue hphase =>
          intro _
          exact .inl (by simpa [sas] using hphase)
        case isFalse => exact fun h ↦ absurd h (by decide)
  | sasPeerConfirmed p =>
    rw [sasAfter]
    split
    case isFalse => exact h.same (by simp)
    case isTrue hp =>
      apply h.advance hp
      · split <;> decide
      · simp
      · split
        case isTrue hphase =>
          intro _
          exact .inl (by simpa [sas] using hphase)
        case isFalse => exact fun h ↦ absurd h (by decide)
      · exact fun _ ↦ .inr ⟨wall, rfl⟩
  | sasPeerRejected p =>
    rw [sasAfter]
    split
    case isFalse => exact h.same (by simp)
    case isTrue hp => apply h.advance hp <;> simp
  | _ => exact h.same (by simp)

theorem witnessed (h : Run (step blake3) Always (.new policy) l app) : Witnessed l app.sas := by
  apply h.history (I := fun l app ↦ Witnessed l app.sas) .reset
  intro l app c app' _ hi _ hs
  cases hs
  by_cases hc : ∃ e wall, c = .handle e wall
  · rcases hc with ⟨e, wall, rfl⟩
    rw [call, sas_handle]
    exact hi.handle
  · rw [sas_call fun e wall h ↦ hc ⟨e, wall, h⟩]
    exact hi.same fun q wall h ↦ hc ⟨_, wall, h⟩

/-- What a confirmation or a rejection of another pairing leaves. -/
theorem sasAfter_of_ne (hp : app.state.sasPeer ≠ some p)
    (he : e = .sasLocalConfirmed p ∨ e = .sasPeerConfirmed p ∨ e = .sasPeerRejected p) :
    app.sasAfter e = app.sas := by
  rcases he with rfl | rfl | rfl <;> exact if_neg hp

/-- A pairing is confirmed by both sides after it was started, and by nothing that names
another peer. -/
theorem sas_sound (hr : Run (step blake3) Always (.new policy) l app) :
    (∀ p, app.state.sasPhase = "confirmed" → app.state.sasPeer = some p →
      ∃ since, PairingSince l p since ∧ Handled since (.sasLocalConfirmed p) ∧
        Handled since (.sasPeerConfirmed p)) ∧
    (app.state.sasPeer = none ↔ app.state.sasPhase = "idle") ∧
    ∀ p e wall, app.state.sasPeer ≠ some p →
      e = .sasLocalConfirmed p ∨ e = .sasPeerConfirmed p ∨ e = .sasPeerRejected p →
      (app.handle blake3 e wall).1.state.sasPhase = app.state.sasPhase ∧
        (app.handle blake3 e wall).1.state.sasPeer = app.state.sasPeer := by
  have hw := witnessed hr
  refine ⟨?_, hw.idle, ?_⟩
  · intro p hphase hp
    rcases hw.since p hp with ⟨since, hsince, hlocal, hpeer⟩
    exact ⟨since, hsince, hlocal (.inr hphase), hpeer (.inr hphase)⟩
  · intro p e wall hp he
    exact Prod.mk.inj (sas_handle.trans (sasAfter_of_ne hp he))

/-- The two sides confirm after a first comparison was rejected. -/
def compareTwice : List Call :=
  link ++ [.handle (.sasPairingStarted 1) noon, .handle (.sasPeerRejected 1) noon,
    .handle (.sasPairingStarted 1) noon, .handle (.sasPeerConfirmed 1) noon,
    .handle (.sasLocalConfirmed 1) noon]

theorem sas_sound_compareTwice :
    ∃ app, Run (step fun _ ↦ 0) Always (.new {}) compareTwice app ∧
      app.sas = ("confirmed", some 1) ∧
      (∀ p, app.state.sasPhase = "confirmed" → app.state.sasPeer = some p →
        ∃ since, PairingSince compareTwice p since ∧ Handled since (.sasLocalConfirmed p) ∧
          Handled since (.sasPeerConfirmed p)) ∧
      (app.state.sasPeer = none ↔ app.state.sasPhase = "idle") ∧
      ∀ p e wall, app.state.sasPeer ≠ some p →
        e = .sasLocalConfirmed p ∨ e = .sasPeerConfirmed p ∨ e = .sasPeerRejected p →
        (app.handle (fun _ ↦ 0) e wall).1.state.sasPhase = app.state.sasPhase ∧
          (app.handle (fun _ ↦ 0) e wall).1.state.sasPeer = app.state.sasPeer := by
  have hrun : Run (step fun _ ↦ 0) Always (.new {}) compareTwice _ :=
    run_of_isSome (by decide +kernel)
  exact ⟨_, hrun, by decide +kernel, sas_sound hrun⟩

end FluxSync.App
