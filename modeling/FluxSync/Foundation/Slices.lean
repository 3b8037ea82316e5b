import Mathlib.Data.Finset.Insert
import Mathlib.Data.List.Basic
import Mathlib.Data.Nat.Notation
import Mathlib.Order.Basic

namespace FluxSync.Slices

variable {α β : Type} {n i : ℕ} {l c : List α} {b : β} {pieces : List β} {got : Finset ℕ}
  {slots xs ys : List (Option β)}

/-- Successive slices of `n` elements, the last one possibly shorter. -/
def chunks (n : ℕ) (l : List α) : List (List α) :=
  (List.range ((l.length + n - 1) / n)).map fun i ↦ (l.drop (i * n)).take n

theorem length_chunks : (chunks n l).length = (l.length + n - 1) / n := by
  rw [chunks, List.length_map, List.length_range]

theorem length_mem_chunks (h : c ∈ chunks n l) : c.length ≤ n := by
  obtain ⟨i, -, rfl⟩ := List.mem_map.mp h
  exact List.length_take_le _ _

theorem flatten_slices (n k : ℕ) (l : List α) :
    ((List.range k).map fun i ↦ (l.drop (i * n)).take n).flatten = l.take (k * n) := by
  induction k with
  | zero => rw [Nat.zero_mul, List.take_zero]; rfl
  | succ k ih =>
    rw [List.range_succ, List.map_append, List.flatten_append, ih, Nat.succ_mul, List.take_add]
    simp

theorem flatten_chunks (h : 0 < n) : (chunks n l).flatten = l := by
  rw [chunks, flatten_slices, List.take_of_length_le]
  have hlt := Nat.lt_div_mul_add h (a := l.length + n - 1)
  omega

/-- The indices of the slots in which nothing has arrived. -/
def gaps (slots : List (Option β)) : List ℕ :=
  (slots.zipIdx.filter fun x ↦ x.1.isNone).map Prod.snd

theorem gaps_eq : gaps slots = (List.range slots.length).filter (slots[·]?.any Option.isNone) := by
  induction slots using List.reverseRecOn with
  | nil => rfl
  | append_singleton l x ih =>
    have hfront : (List.range l.length).filter ((l ++ [x])[·]?.any Option.isNone) = gaps l := by
      rw [ih]
      refine List.filter_congr fun i hi ↦ ?_
      rw [List.getElem?_append_left (List.mem_range.mp hi)]
    rw [List.length_append, List.length_singleton, List.range_succ, List.filter_append, hfront,
      gaps, List.zipIdx_append, List.filter_append, List.map_append, ← gaps]
    cases x <;> simp

theorem gaps_append : gaps (xs ++ ys) = gaps xs ++ (gaps ys).map (xs.length + ·) := by
  rw [gaps_eq, gaps_eq, gaps_eq, List.length_append, List.range_add, List.filter_append,
    List.filter_map]
  congr 1
  · refine List.filter_congr fun i hi ↦ ?_
    rw [List.getElem?_append_left (List.mem_range.mp hi)]
  · congr 1
    refine List.filter_congr fun i _ ↦ ?_
    rw [Function.comp_apply, List.getElem?_append_right (Nat.le_add_right _ _), Nat.add_sub_cancel_left]

theorem length_gaps : (gaps xs).length = xs.countP Option.isNone := by
  conv_rhs => rw [← List.zipIdx_map_fst 0 xs, List.countP_map]
  rw [gaps, List.length_map, List.countP_eq_length_filter]
  rfl

theorem lt_of_mem_gaps (h : i ∈ gaps xs) : i < xs.length := by
  rw [gaps_eq] at h
  exact List.mem_range.mp (List.mem_filter.mp h).1

/-- Slots for `pieces`, of which those with an index in `got` have arrived. -/
structure Fills (pieces : List β) (got : Finset ℕ) (slots : List (Option β)) : Prop where
  length_eq : slots.length = pieces.length
  slot : ∀ i b, pieces[i]? = some b → slots[i]? = some (if i ∈ got then some b else none)

theorem fills_empty : Fills pieces ∅ (List.replicate pieces.length none) where
  length_eq := List.length_replicate
  slot := fun i b hb ↦ by
    have hlt := (List.getElem?_eq_some_iff.mp hb).1
    simp [hlt]

theorem Fills.set (h : Fills pieces got slots) (hb : pieces[i]? = some b) :
    Fills pieces (insert i got) (slots.set i (some b)) where
  length_eq := List.length_set.trans h.length_eq
  slot := fun j c hc ↦ by
    have hlt : j < slots.length := h.length_eq ▸ (List.getElem?_eq_some_iff.mp hc).1
    rw [List.getElem?_set]
    split
    case isTrue hij =>
      subst hij
      obtain rfl := Option.some.inj (hb.symm.trans hc)
      rw [if_pos hlt, if_pos (Finset.mem_insert_self _ _)]
    case isFalse hij =>
      rw [h.slot j c hc]
      simp only [Finset.mem_insert, Ne.symm hij, false_or]

theorem Fills.all_isSome_iff (h : Fills pieces got slots) :
    slots.all Option.isSome = true ↔ ∀ i < pieces.length, i ∈ got := by
  rw [List.all_eq_true]
  constructor
  · intro hall i hi
    have hs := h.slot i _ (List.getElem?_eq_getElem hi)
    have := hall _ (List.mem_of_getElem? hs)
    by_contra hn
    rw [if_neg hn] at this
    cases this
  · intro hgot s hs
    obtain ⟨i, hi⟩ := List.mem_iff_getElem?.mp hs
    have hlt : i < pieces.length := h.length_eq ▸ (List.getElem?_eq_some_iff.mp hi).1
    have heq := h.slot i _ (List.getElem?_eq_getElem hlt)
    rw [hi, if_pos (hgot i hlt)] at heq
    rw [Option.some.inj heq]
    rfl

/-- Once everything has arrived the slots read as the pieces, whatever the order was. -/
theorem Fills.collect (h : Fills pieces got slots) (hgot : ∀ i < pieces.length, i ∈ got) :
    slots.filterMap id = pieces := by
  have hslots : slots = pieces.map some := by
    refine List.ext_getElem? fun i ↦ ?_
    rw [List.getElem?_map]
    cases hp : pieces[i]? with
    | none =>
      have hle := List.getElem?_eq_none_iff.mp hp
      exact List.getElem?_eq_none_iff.mpr (h.length_eq ▸ hle)
    | some b =>
      have hlt := (List.getElem?_eq_some_iff.mp hp).1
      rw [h.slot i b hp, if_pos (hgot i hlt)]
      rfl
  rw [hslots, List.filterMap_map]
  exact List.filterMap_some

theorem Fills.gaps (h : Fills pieces got slots) :
    gaps slots = (List.range pieces.length).filter (· ∉ got) := by
  rw [gaps_eq, h.length_eq]
  refine List.filter_congr fun i hi ↦ ?_
  rw [h.slot i _ (List.getElem?_eq_getElem (List.mem_range.mp hi))]
  by_cases hgot : i ∈ got <;> simp [hgot]

end FluxSync.Slices
