import Mathlib.Logic.Relation
import Mathlib.Order.Basic

namespace FluxSync.WaitFor

variable {ι L : Type} {wants : ι → L → Prop} {holder : L → Option ι} {i j : ι} {l l' : L}

/-- `i` waits for a lock that `j` holds. -/
def WaitsFor (wants : ι → L → Prop) (holder : L → Option ι) (i j : ι) : Prop :=
  ∃ l, wants i l ∧ holder l = some j

/-- The wait-for graph has a cycle, so every task on it holds a lock and waits
for another's. -/
def Deadlocked (wants : ι → L → Prop) (holder : L → Option ι) : Prop :=
  ∃ i, Relation.TransGen (WaitsFor wants holder) i i

theorem deadlocked_of_two (hi : holder l = some i) (hj : holder l' = some j)
    (hij : wants i l') (hji : wants j l) : Deadlocked wants holder :=
  ⟨i, .tail (.single ⟨l', hij, hj⟩) ⟨l, hji, hi⟩⟩

variable {α : Type} [Preorder α] {rank : L → α}

theorem rank_le_of_path (hr : ∀ i l l', holder l = some i → wants i l' → rank l < rank l')
    (h : Relation.TransGen (WaitsFor wants holder) i j) :
    ∃ l l', wants i l ∧ holder l' = some j ∧ rank l ≤ rank l' := by
  induction h with
  | single h =>
    obtain ⟨l, hw, hh⟩ := h
    exact ⟨l, l, hw, hh, le_rfl⟩
  | tail _ h ih =>
    obtain ⟨l, l', hw, hh, hle⟩ := ih
    obtain ⟨m, hm, hk⟩ := h
    exact ⟨l, m, hw, hk, hle.trans (hr _ _ _ hh hm).le⟩

/-- Locks taken in the order of a rank are never waited for in a cycle. -/
theorem not_deadlocked_of_rank (rank : L → α)
    (hr : ∀ i l l', holder l = some i → wants i l' → rank l < rank l') :
    ¬ Deadlocked wants holder := by
  rintro ⟨i, h⟩
  obtain ⟨l, l', hw, hh, hle⟩ := rank_le_of_path hr h
  exact (hr i l' l hh hw).not_ge hle

end FluxSync.WaitFor
