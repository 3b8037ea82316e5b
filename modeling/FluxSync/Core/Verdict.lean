import FluxSync.Core.Pairing

namespace FluxSync.App

open Runs

variable {blake3 : ByteArray → ContentHash} {app app' : App} {c : Call} {l : List Call}
  {p : PeerId} {wall : WallClock}

/-- A pairing is started, or what there is of one is reset. -/
def Call.restarts : Call → Bool
  | .handle (.sasPairingStarted _) _ | .handle .sasReset _ | .handle .manualUnpair _
  | .handle (.untrustedPeerSeen _) _ | .handle .ghostTimeout _ => true
  | _ => false

/-- One of the two sides confirms the words. -/
def Call.confirms (p : PeerId) : Call → Bool
  | .handle (.sasLocalConfirmed q) _ | .handle (.sasPeerConfirmed q) _ => q = p
  | _ => false

def Rejected (p : PeerId) (app : App) : Prop := app.sas = ("peer_rejected", some p)

/-- A pairing with `p` is confirmed by one side at least. -/
def Revived (p : PeerId) (app : App) : Prop :=
  app.state.sasPeer = some p ∧
    app.state.sasPhase ∈ ["local_confirmed", "peer_confirmed", "confirmed"]

theorem rejected_handle (hp : app.state.sasPeer = some p) :
    Rejected p (app.handle blake3 (.sasPeerRejected p) wall).1 := by
  rw [Rejected, sas_handle, sasAfter, if_pos hp]

theorem Rejected.not_revived (h : Rejected p app) : ¬ Revived p app := by
  rintro ⟨-, hphase⟩
  rw [(Prod.mk.inj h).1] at hphase
  exact absurd hphase (by decide)

/-- Whatever else happens leaves the verdict alone. -/
theorem Rejected.call (h : Rejected p app) (hstart : c.restarts = false)
    (hconf : c.confirms p = false) : Rejected p (app.call blake3 c).1 := by
  obtain ⟨hphase, hpeer⟩ := Prod.mk.inj h
  by_cases hc : ∃ e wall, c = .handle e wall
  · obtain ⟨e, wall, rfl⟩ := hc
    refine sas_handle.trans ?_
    cases e with
    | sasPairingStarted | sasReset | manualUnpair | untrustedPeerSeen | ghostTimeout =>
      cases hstart
    | sasLocalConfirmed q | sasPeerConfirmed q =>
      have hq : q ≠ p := by simpa [Call.confirms] using hconf
      rw [sasAfter, hpeer, if_neg fun h ↦ hq (Option.some.inj h).symm]
      exact h
    | sasPeerRejected q =>
      rw [sasAfter]
      split
      case isTrue hq => rw [← hq, hpeer]
      case isFalse => exact h
    | peerLost q =>
      have hkept : app.state.sasPhase ∉ ["showing", "peer_confirmed", "local_confirmed"] := by
        rw [hphase]
        decide
      rw [sasAfter, if_neg fun h ↦ hkept h.2]
      exact h
    | _ => exact h
  · exact (sas_call fun e wall he ↦ hc ⟨e, wall, he⟩).trans h

/-- A confirmation of either side takes the verdict back. -/
theorem Rejected.revived (h : Rejected p app) (hconf : c.confirms p) :
    Revived p (app.call blake3 c).1 := by
  obtain ⟨hphase, hpeer⟩ := Prod.mk.inj h
  have hsas : (app.call blake3 c).1.sas = ("local_confirmed", some p) ∨
      (app.call blake3 c).1.sas = ("peer_confirmed", some p) := by
    cases c with
    | handle e wall =>
      cases e with
      | sasLocalConfirmed q =>
        obtain rfl : q = p := by simpa [Call.confirms] using hconf
        left
        refine sas_handle.trans ?_
        rw [sasAfter, if_pos hpeer, hphase]
        rfl
      | sasPeerConfirmed q =>
        obtain rfl : q = p := by simpa [Call.confirms] using hconf
        right
        refine sas_handle.trans ?_
        rw [sasAfter, if_pos hpeer, hphase]
        rfl
      | _ => cases hconf
    | _ => cases hconf
  rcases hsas with hsas | hsas <;> obtain ⟨hphase, hpeer⟩ := Prod.mk.inj hsas
  · exact ⟨hpeer, by rw [hphase]; decide⟩
  · exact ⟨hpeer, by rw [hphase]; decide⟩

theorem Rejected.run (h : Rejected p app) (hr : Run (step blake3) Always app l app')
    (hl : ∀ c ∈ l, c.restarts = false ∧ c.confirms p = false) : Rejected p app' := by
  have hlabels := hr.labels hl
  apply hlabels.invariant (I := Rejected p) h
  intro app c app' hi hc hs
  cases hs
  exact hi.call hc.1 hc.2

/-- A rejected pairing that is neither started anew nor reset stays rejected exactly as long as
nobody confirms it. -/
theorem rejection_final_iff (hp : app.state.sasPeer = some p)
    (hl : ∀ c ∈ l, c.restarts = false) :
    (∀ l' app', l' <+: l →
      Run (step blake3) Always (app.handle blake3 (.sasPeerRejected p) wall).1 l' app' →
        ¬ Revived p app') ↔ ∀ c ∈ l, c.confirms p = false := by
  have hrej : Rejected p (app.handle blake3 (.sasPeerRejected p) wall).1 := rejected_handle hp
  constructor
  · intro hfinal
    by_contra hsome
    have hfind : (l.find? (·.confirms p)).isSome := by
      rw [List.find?_isSome]
      push Not at hsome
      obtain ⟨c, hc, hconf⟩ := hsome
      exact ⟨c, hc, by simpa using hconf⟩
    obtain ⟨c, hc⟩ := Option.isSome_iff_exists.mp hfind
    obtain ⟨hconf, before, after, rfl, hbefore⟩ := List.find?_eq_some_iff_append.mp hc
    obtain ⟨app₁, hrun⟩ := exists_run (step blake3)
      (app.handle blake3 (.sasPeerRejected p) wall).1 before fun _ _ ↦ rfl
    have hrej₁ : Rejected p app₁ := hrej.run hrun fun c hc ↦
      ⟨hl c (List.mem_append_left _ hc), by simpa using hbefore c hc⟩
    refine hfinal (before ++ [c]) _ ⟨after, by simp⟩ (.snoc hrun trivial rfl) ?_
    exact hrej₁.revived hconf
  · intro hnone l' app' hprefix hrun
    refine (hrej.run hrun fun c hc ↦ ?_).not_revived
    have hc := hprefix.subset hc
    exact ⟨hl c hc, hnone c hc⟩

def startThenReject : List Call := link ++ [.handle (.sasPairingStarted 1) noon]

/-- The link goes down after the rejection. -/
theorem rejection_final_iff_peerLost :
    ∃ app, Run (step fun _ ↦ 0) Always (.new {}) startThenReject app ∧
      ((∀ l' app', l' <+: [.handle (.peerLost 1) noon] →
        Run (step fun _ ↦ 0) Always (app.handle (fun _ ↦ 0) (.sasPeerRejected 1) noon).1 l' app' →
          ¬ Revived 1 app') ↔ ∀ c ∈ [.handle (.peerLost 1) noon], Call.confirms 1 c = false) := by
  have hrun : Run (step fun _ ↦ 0) Always (.new {}) startThenReject _ :=
    run_of_isSome (by decide +kernel)
  exact ⟨_, hrun, rejection_final_iff (by decide +kernel) (by decide)⟩

theorem late_confirmation_revives :
    ∃ app, Run (step fun _ ↦ 0) Always (.new {}) (startThenReject ++
        [.handle (.sasPeerRejected 1) noon, .handle (.sasLocalConfirmed 1) noon]) app ∧
      app.sas = ("local_confirmed", some 1) := by
  have hrun : Run (step fun _ ↦ 0) Always (.new {}) (startThenReject ++
      [.handle (.sasPeerRejected 1) noon, .handle (.sasLocalConfirmed 1) noon]) _ :=
    run_of_isSome (by decide +kernel)
  exact ⟨_, hrun, by decide +kernel⟩

end FluxSync.App
