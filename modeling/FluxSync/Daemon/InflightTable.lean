import FluxSync.Daemon.Shared
import FluxSync.Foundation.OrderedMap
import FluxSync.Foundation.Runs

namespace FluxSync.Daemon

open Std Runs

/-- The table of the items that await acks, and the clock. -/
structure InflightTable where
  now : ℕ := 0
  inflight : ExtTreeMap ContentHash Inflight := ∅

namespace InflightTable

inductive Act
  | tick (ms : ℕ)
  /-- An item goes out, is relayed, or is served in answer to a pull. -/
  | send (hash : ContentHash) (frames : ℕ) (targets : List PeerId)
  | ack (p : PeerId) (hash : ContentHash)
  | purge (p : PeerId)
  | wipe
  | retransmit
  /-- Frames went out again for a `Nak`, which puts the next retransmission off. -/
  | nakAnswered (hash : ContentHash)

/-- The `Ack` arm, and whether it reports a delivery. The zero hash answers a heartbeat. -/
def acked (inflight : ExtTreeMap ContentHash Inflight) (p : PeerId) (hash : ContentHash) :
    ExtTreeMap ContentHash Inflight × Bool :=
  if hash = 0 then (inflight, false)
  else
    match inflight[hash]? with
    | none => (inflight, false)
    | some inf =>
      let waiting := inf.pendingPeers.filter (· ≠ p)
      (if waiting = [] then inflight.erase hash
        else inflight.insert hash { inf with pendingPeers := waiting },
        inf.pendingPeers.contains p)

def nakAnswered (inflight : ExtTreeMap ContentHash Inflight) (now : ℕ) (hash : ContentHash) :
    ExtTreeMap ContentHash Inflight :=
  match inflight[hash]? with
  | none => inflight
  | some inf => inflight.insert hash { inf with lastSent := now }

/-- The callers of `track_inflight` stop before it when they send to nobody. -/
def step (s : InflightTable) : Act → Option InflightTable
  | .tick ms => some { s with now := s.now + ms }
  | .send hash frames targets =>
    if targets = [] then some s
    else some { s with inflight := trackInflight s.inflight s.now hash frames targets }
  | .ack p hash => some { s with inflight := (acked s.inflight p hash).1 }
  | .purge p => some { s with inflight := purgeInflight s.inflight p }
  | .wipe => some { s with inflight := ∅ }
  | .retransmit => some { s with inflight := retransmitTick s.inflight s.now }
  | .nakAnswered hash => some { s with inflight := nakAnswered s.inflight s.now hash }

def Waits (inflight : ExtTreeMap ContentHash Inflight) (hash : ContentHash) (p : PeerId) : Prop :=
  ∃ inf : Inflight, inflight[hash]? = some inf ∧ p ∈ inf.pendingPeers

/-- Too old, or sent too often. -/
def Spent (now : ℕ) (inf : Inflight) : Prop :=
  INFLIGHT_MAX_AGE < now - inf.firstSent ∨
    RETRANSMIT_INTERVAL ≤ now - inf.lastSent ∧ MAX_RETRANSMIT ≤ inf.attempts

/-- What ends the wait of a peer for its ack. -/
def Ends (s : InflightTable) (hash : ContentHash) (p : PeerId) : Act → Prop
  | .ack q h => q = p ∧ h = hash ∧ hash ≠ 0
  | .purge q => q = p
  | .wipe => True
  | .retransmit => ∃ inf ∈ s.inflight[hash]?, Spent s.now inf
  | _ => False

/-- Somebody waits for every entry. -/
def Awaited (inflight : ExtTreeMap ContentHash Inflight) : Prop :=
  ∀ (hash : ContentHash) (inf : Inflight), inflight[hash]? = some inf → inf.pendingPeers ≠ []

variable {s t u : InflightTable} {a : Act} {l l' : List Act} {hash h : ContentHash} {p q : PeerId}
  {inflight : ExtTreeMap ContentHash Inflight} {inf : Inflight} {now frames : ℕ}
  {targets : List PeerId}

theorem due_eq_done : inf.due now = .done ↔ Spent now inf := by
  unfold Inflight.due Spent
  split
  · rename_i hage
    simp [hage]
  · rename_i hage
    split
    · rename_i hlate
      simp [hage, Nat.not_le.mpr hlate]
    · rename_i hlate
      split
      · rename_i htries
        simp [htries, Nat.le_of_not_lt hlate]
      · rename_i htries
        simp [hage, htries]

theorem lookup_track : (trackInflight inflight now h frames targets)[hash]? =
    if h = hash then
      some ⟨frames, 0, now, now, (inflight[h]?.elim [] (·.pendingPeers)) ++
        targets.filter (· ∉ inflight[h]?.elim [] (·.pendingPeers))⟩
    else inflight[hash]? := by
  rw [trackInflight, OrderedMap.lookup_insert]
  cases inflight[h]? with
  | none => rfl
  | some inf => rfl

/-- A merge keeps who waits already. -/
theorem waits_track : Waits (trackInflight inflight now h frames targets) hash p ↔
    Waits inflight hash p ∨ h = hash ∧ p ∈ targets := by
  simp only [Waits, lookup_track]
  by_cases hh : h = hash
  · subst hh
    cases hinf : inflight[h]? with
    | none => simp
    | some inf =>
      by_cases hp : p ∈ inf.pendingPeers
      · simp [hp]
      · simp [hp]
  · simp [hh]

theorem waits_purge : Waits (purgeInflight inflight q) hash p ↔ Waits inflight hash p ∧ q ≠ p := by
  simp only [Waits, purgeInflight, ExtTreeMap.getElem?_filterMap']
  cases inflight[hash]? with
  | none => simp
  | some inf =>
    have hkept : p ∈ inf.pendingPeers.filter (· ≠ q) ↔ p ∈ inf.pendingPeers ∧ q ≠ p := by
      simp [ne_comm]
    simp only [Option.bind_some, Option.some.injEq, exists_eq_left', ← hkept]
    split
    · rename_i hnone
      rw [hnone]
      simp
    · simp

theorem waits_acked : Waits (acked inflight q h).1 hash p ↔
    Waits inflight hash p ∧ ¬ (q = p ∧ h = hash ∧ hash ≠ 0) := by
  unfold acked
  split
  · rename_i hzero
    simp only [hzero]
    refine (and_iff_left ?_).symm
    rintro ⟨-, rfl, hne⟩
    exact hne rfl
  · rename_i hzero
    split
    · rename_i hnone
      refine (and_iff_left_of_imp ?_).symm
      rintro ⟨inf, hinf, -⟩ ⟨-, rfl, -⟩
      rw [hnone] at hinf
      cases hinf
    · rename_i inf hinf
      have hkept : p ∈ inf.pendingPeers.filter (· ≠ q) ↔ p ∈ inf.pendingPeers ∧ q ≠ p := by
        simp [ne_comm]
      by_cases hh : h = hash
      · subst hh
        simp only [Waits, hinf, Option.some.injEq, exists_eq_left', ne_eq, hzero,
          not_false_eq_true, and_true]
        split
        · rename_i hnone
          rw [hnone] at hkept
          simpa using hkept
        · simpa using hkept
      · simp only [Waits, hh, false_and, and_false, not_false_eq_true, and_true]
        split
        · rw [OrderedMap.lookup_erase, if_neg hh]
        · rw [OrderedMap.lookup_insert, if_neg hh]

theorem waits_retransmit : Waits (retransmitTick inflight now) hash p ↔
    Waits inflight hash p ∧ ¬ ∃ inf ∈ inflight[hash]?, Spent now inf := by
  simp only [Waits, retransmitTick, ExtTreeMap.getElem?_filterMap', ← due_eq_done]
  cases inflight[hash]? with
  | none => simp
  | some inf => cases hdue : inf.due now <;> simp [hdue]

theorem waits_nakAnswered :
    Waits (nakAnswered inflight now h) hash p ↔ Waits inflight hash p := by
  unfold nakAnswered
  split
  · rfl
  · rename_i inf hinf
    by_cases hh : h = hash
    · subst hh
      simp [Waits, hinf]
    · simp [Waits, OrderedMap.lookup_insert, hh]

theorem Awaited.track (hi : Awaited inflight) (ht : targets ≠ []) :
    Awaited (trackInflight inflight now h frames targets) := by
  intro hash inf hinf
  rw [lookup_track] at hinf
  split at hinf
  · obtain rfl := Option.some.inj hinf
    cases hold : inflight[h]? with
    | none => simpa [hold] using ht
    | some old => exact List.append_ne_nil_of_left_ne_nil (hi h old hold) _
  · exact hi hash inf hinf

theorem awaited_purge : Awaited (purgeInflight inflight q) := by
  intro hash inf hinf
  rw [purgeInflight, ExtTreeMap.getElem?_filterMap'] at hinf
  obtain ⟨old, -, hinf⟩ := Option.bind_eq_some_iff.mp hinf
  split at hinf
  · cases hinf
  · rename_i hne
    obtain rfl := Option.some.inj hinf
    exact hne

theorem Awaited.acked (hi : Awaited inflight) : Awaited (acked inflight q h).1 := by
  unfold InflightTable.acked
  split
  · exact hi
  · split
    · exact hi
    · intro hash inf hinf
      simp only at hinf
      split at hinf
      · rw [OrderedMap.lookup_erase] at hinf
        split at hinf
        · cases hinf
        · exact hi hash inf hinf
      · rename_i hne
        rw [OrderedMap.lookup_insert] at hinf
        split at hinf
        · obtain rfl := Option.some.inj hinf
          exact hne
        · exact hi hash inf hinf

theorem Awaited.retransmit (hi : Awaited inflight) : Awaited (retransmitTick inflight now) := by
  intro hash inf hinf
  rw [retransmitTick, ExtTreeMap.getElem?_filterMap'] at hinf
  obtain ⟨old, hold, hinf⟩ := Option.bind_eq_some_iff.mp hinf
  split at hinf
  · cases hinf
  · obtain rfl := Option.some.inj hinf
    exact hi hash old hold
  · obtain rfl := Option.some.inj hinf
    exact hi hash old hold

theorem Awaited.nakAnswered (hi : Awaited inflight) : Awaited (nakAnswered inflight now h) := by
  unfold InflightTable.nakAnswered
  split
  · exact hi
  · rename_i old hold
    intro hash inf hinf
    rw [OrderedMap.lookup_insert] at hinf
    split at hinf
    · obtain rfl := Option.some.inj hinf
      exact hi h old hold
    · exact hi hash inf hinf

theorem Awaited.step (hs : Awaited s.inflight) (hstep : s.step a = some u) : Awaited u.inflight := by
  cases a with
  | send hash frames targets =>
    simp only [InflightTable.step] at hstep
    split at hstep
    · cases hstep
      exact hs
    · rename_i ht
      cases hstep
      exact hs.track ht
  | tick ms =>
    cases hstep
    exact hs
  | ack p hash =>
    cases hstep
    exact hs.acked
  | purge p =>
    cases hstep
    exact awaited_purge
  | wipe =>
    cases hstep
    intro hash inf hinf
    simp at hinf
  | retransmit =>
    cases hstep
    exact hs.retransmit
  | nakAnswered hash =>
    cases hstep
    exact hs.nakAnswered

/-- Who waits after a step: who was added by it, and who waited before and was not released. -/
theorem waits_step (hstep : s.step a = some u) : Waits u.inflight hash p ↔
    (∃ frames targets, a = .send hash frames targets ∧ p ∈ targets) ∨
      Waits s.inflight hash p ∧ ¬ s.Ends hash p a := by
  cases a with
  | send h frames targets =>
    simp only [InflightTable.step] at hstep
    split at hstep
    · rename_i hnone
      cases hstep
      simp [Ends, hnone]
    · cases hstep
      rw [waits_track]
      simp only [Act.send.injEq, Ends, not_false_eq_true, and_true]
      constructor
      · rintro (hw | ⟨rfl, hp⟩)
        · exact .inr hw
        · exact .inl ⟨frames, targets, ⟨rfl, rfl, rfl⟩, hp⟩
      · rintro (⟨f, ts, ⟨rfl, rfl, rfl⟩, hp⟩ | hw)
        · exact .inr ⟨rfl, hp⟩
        · exact .inl hw
  | tick ms =>
    cases hstep
    simp [Ends]
  | ack q h =>
    cases hstep
    simpa [Ends] using waits_acked
  | purge q =>
    cases hstep
    simpa [Ends] using waits_purge
  | wipe =>
    cases hstep
    simp [Ends, Waits]
  | retransmit =>
    cases hstep
    simpa [Ends] using waits_retransmit
  | nakAnswered h =>
    cases hstep
    simpa [Ends] using waits_nakAnswered

/-- A peer that waits no longer was released on the way. -/
theorem released (hr : Run step Always s l u) (hw : Waits s.inflight hash p)
    (hgone : ¬ Waits u.inflight hash p) :
    ∃ l₁ a l₂ t, l = l₁ ++ a :: l₂ ∧ Run step Always s l₁ t ∧ t.Ends hash p a := by
  induction hr with
  | nil => exact absurd hw hgone
  | @snoc l t u a hr _ hstep ih =>
    by_cases ht : Waits t.inflight hash p
    · refine ⟨l, a, [], t, rfl, hr, ?_⟩
      by_contra hends
      exact hgone ((waits_step hstep).mpr (.inr ⟨ht, hends⟩))
    · obtain ⟨l₁, b, l₂, v, rfl, hv, hends⟩ := ih ht
      exact ⟨l₁, b, l₂ ++ [a], v, by simp, hv, hends⟩

/-- In every state that is reached somebody waits for each entry. A step adds the peers
it sends to and releases those whose wait ends in it, and a peer that waits no longer has
acked or was purged since, or the entry was wiped or is spent. -/
theorem inflight_table (hr : Run step Always {} l s) :
    Awaited s.inflight ∧
      (∀ a u, s.step a = some u → ∀ hash p, Waits u.inflight hash p ↔
        (∃ frames targets, a = .send hash frames targets ∧ p ∈ targets) ∨
          Waits s.inflight hash p ∧ ¬ s.Ends hash p a) ∧
      ∀ l' u, Run step Always s l' u → ∀ hash p, Waits s.inflight hash p →
        ¬ Waits u.inflight hash p →
          ∃ l₁ a l₂ t, l' = l₁ ++ a :: l₂ ∧ Run step Always s l₁ t ∧ t.Ends hash p a := by
  refine ⟨?_, fun a u hstep hash p ↦ waits_step hstep, fun l' u hu hash p ↦ released hu⟩
  apply hr.invariant (I := fun s ↦ Awaited s.inflight) ?_ fun t a u ht _ hu ↦ ht.step hu
  intro hash inf hinf
  simp at hinf

/-- A second send under way when the first peer acks. -/
def mergeThenAck : List Act :=
  [.send 7 1 [1, 2], .tick 2000, .retransmit, .send 7 1 [3], .ack 1 7]

theorem inflight_table_mergeThenAck :
    ∃ s, Run step Always {} mergeThenAck s ∧ s.inflight[(7 : ContentHash)]?.map (·.pendingPeers) =
      some [2, 3] ∧ Awaited s.inflight := by
  have hrun : Run step Always {} mergeThenAck _ := run_of_isSome (by decide +kernel)
  exact ⟨_, hrun, by decide +kernel, (inflight_table hrun).1⟩

end InflightTable

end FluxSync.Daemon
