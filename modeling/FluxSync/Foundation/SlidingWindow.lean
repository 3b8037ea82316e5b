import Mathlib.Data.Set.Insert
import Mathlib.Tactic.Common

namespace FluxSync.SlidingWindow

variable {k h n : ℕ} {b : BitVec k} {S : Set ℕ}

/-- `n` is not among the accepted numbers, and above or less than `k` below the
highest of them. -/
def Admissible (k : ℕ) (S : Set ℕ) (n : ℕ) : Prop := n ∉ S ∧ ∀ m ∈ S, m < n + k

/-- Bit `i` of `b` records that `h - i` is in `S`, whose highest element is `h`. -/
structure Marks (b : BitVec k) (h : ℕ) (S : Set ℕ) : Prop where
  highest : h ∈ S
  le : ∀ m ∈ S, m ≤ h
  bit : ∀ i < k, b.getLsbD i ↔ i ≤ h ∧ h - i ∈ S

theorem admissible_empty : Admissible k ∅ n := ⟨id, fun _ hm ↦ hm.elim⟩

theorem Marks.admissible_of_lt (hm : Marks b h S) (hn : h < n) : Admissible k S n := by
  refine ⟨fun hmem ↦ ?_, fun m hmem ↦ ?_⟩
  · have := hm.le n hmem
    omega
  · have := hm.le m hmem
    omega

theorem Marks.admissible_iff (hm : Marks b h S) (hn : n ≤ h) :
    Admissible k S n ↔ h - n < k ∧ b.getLsbD (h - n) = false := by
  have hsub : h - (h - n) = n := by omega
  constructor
  · rintro ⟨hmem, hlt⟩
    have hk : h - n < k := by
      have := hlt h hm.highest
      omega
    refine ⟨hk, Bool.eq_false_iff.mpr fun hb ↦ ?_⟩
    have := ((hm.bit _ hk).mp hb).2
    rw [hsub] at this
    exact hmem this
  · rintro ⟨hk, hb⟩
    refine ⟨fun hmem ↦ ?_, fun m hmem ↦ ?_⟩
    · have := (hm.bit _ hk).mpr ⟨by omega, by rwa [hsub]⟩
      simp [this] at hb
    · have := hm.le m hmem
      omega

theorem marks_one (n : ℕ) : Marks (1#k) n {n} where
  highest := rfl
  le := fun m hm ↦ le_of_eq hm
  bit := fun i hi ↦ by
    simp only [BitVec.getLsbD_one, Bool.and_eq_true, decide_eq_true_eq, Set.mem_singleton_iff]
    omega

/-- Moving the window up to a new highest number. A distance of `k` or more
shifts every mark out. -/
theorem Marks.advance (hm : Marks b h S) (hn : h < n) :
    Marks (b <<< (n - h) ||| 1#k) n (insert n S) where
  highest := Set.mem_insert n S
  le := by
    rintro m (rfl | hmem)
    · exact le_rfl
    · have := hm.le m hmem
      omega
  bit := by
    intro i hi
    have hshift : (b <<< (n - h)).getLsbD i ↔ n - h ≤ i ∧ b.getLsbD (i - (n - h)) := by
      simp only [BitVec.getLsbD_shiftLeft, Bool.and_eq_true, decide_eq_true_eq,
        Bool.not_eq_true', decide_eq_false_iff_not]
      exact and_congr_left fun _ ↦ by omega
    rw [BitVec.getLsbD_or, Bool.or_eq_true, hshift, BitVec.getLsbD_one, Bool.and_eq_true,
      decide_eq_true_eq, decide_eq_true_eq, Set.mem_insert_iff]
    constructor
    · rintro (⟨hle, hb⟩ | ⟨-, rfl⟩)
      · obtain ⟨hih, hmem⟩ := (hm.bit _ (by omega)).mp hb
        have : h - (i - (n - h)) = n - i := by omega
        exact ⟨by omega, .inr (this ▸ hmem)⟩
      · exact ⟨by omega, .inl (by omega)⟩
    · rintro ⟨hin, heq | hmem⟩
      · exact .inr ⟨by omega, by omega⟩
      · have hle := hm.le _ hmem
        have : h - (i - (n - h)) = n - i := by omega
        exact .inl ⟨by omega, (hm.bit _ (by omega)).mpr ⟨by omega, this ▸ hmem⟩⟩

/-- Marking a number below the highest one. -/
theorem Marks.record (hm : Marks b h S) (hn : n ≤ h) (hk : h - n < k) :
    Marks (b ||| 1#k <<< (h - n)) h (insert n S) where
  highest := Set.mem_insert_of_mem n hm.highest
  le := by
    rintro m (rfl | hmem)
    · exact hn
    · exact hm.le m hmem
  bit := by
    intro i hi
    have hone : (1#k <<< (h - n)).getLsbD i ↔ i = h - n := by
      simp only [BitVec.getLsbD_shiftLeft, BitVec.getLsbD_one, Bool.and_eq_true,
        decide_eq_true_eq, Bool.not_eq_true', decide_eq_false_iff_not]
      omega
    rw [BitVec.getLsbD_or, Bool.or_eq_true, hone, hm.bit i hi, Set.mem_insert_iff]
    constructor
    · rintro (⟨hle, hmem⟩ | rfl)
      · exact ⟨hle, .inr hmem⟩
      · exact ⟨by omega, .inl (by omega)⟩
    · rintro ⟨hle, heq | hmem⟩
      · exact .inr (by omega)
      · exact .inl ⟨hle, hmem⟩

end FluxSync.SlidingWindow
