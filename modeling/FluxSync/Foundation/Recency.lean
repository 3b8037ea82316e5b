import Mathlib

namespace FluxSync.Recency

variable {α κ : Type} [DecidableEq κ] {key : α → κ} {a b : α} {k : κ} {l : List α} {n : ℕ}

/-- What a log, newest first, says last about each key. -/
def latest (key : α → κ) : List α → List α
  | [] => []
  | a :: l => a :: (latest key l).filter (key · ≠ key a)

theorem latest_sublist : (latest key l).Sublist l := by
  induction l with
  | nil => exact .refl []
  | cons a l ih => exact (List.filter_sublist.trans ih).cons_cons a

theorem keys_nodup : ((latest key l).map key).Nodup := by
  induction l with
  | nil => exact List.nodup_nil
  | cons a l ih =>
    rw [latest, List.map_cons, List.nodup_cons]
    constructor
    · intro hmem
      obtain ⟨b, hb, hkey⟩ := List.mem_map.mp hmem
      have hne := (List.mem_filter.mp hb).2
      simp [hkey] at hne
    · exact ih.sublist (List.filter_sublist.map key)

/-- The entry kept for a key is the newest one of the log. -/
theorem find?_latest : (latest key l).find? (key · = k) = l.find? (key · = k) := by
  induction l with
  | nil => rfl
  | cons a l ih =>
    rw [latest]
    by_cases hk : key a = k
    · rw [List.find?_cons_of_pos (by simpa using hk), List.find?_cons_of_pos (by simpa using hk)]
    · rw [List.find?_cons_of_neg (by simpa using hk), List.find?_cons_of_neg (by simpa using hk),
        ← ih, List.find?_filter]
      congr 1
      funext b
      by_cases hb : key b = k
      · simp [hb, Ne.symm hk]
      · simp [hb]

theorem mem_latest_iff : a ∈ latest key l ↔ l.find? (key · = key a) = some a := by
  rw [← find?_latest]
  constructor
  · intro ha
    obtain ⟨b, hb⟩ := Option.isSome_iff_exists.mp
      (List.find?_isSome.mpr ⟨a, ha, by simp⟩ : ((latest key l).find? (key · = key a)).isSome)
    have hkey : key b = key a := by simpa using List.find?_some hb
    have hba : b = a :=
      List.inj_on_of_nodup_map keys_nodup (List.mem_of_find?_eq_some hb) ha hkey
    rw [hb, hba]
  · exact List.mem_of_find?_eq_some

theorem latest_of_nodup (hl : (l.map key).Nodup) : latest key l = l := by
  induction l with
  | nil => rfl
  | cons a l ih =>
    rw [List.map_cons, List.nodup_cons] at hl
    rw [latest, ih hl.2, List.filter_eq_self.mpr]
    intro b hb
    have hne : key b ≠ key a := fun heq ↦ hl.1 (List.mem_map.mpr ⟨b, hb, heq⟩)
    simpa using hne

/-- Among distinct keys a removal takes one entry at most, so one more entry is enough. -/
theorem take_filter_ne (hl : (l.map key).Nodup) :
    (l.filter (key · ≠ k)).take n = ((l.take (n + 1)).filter (key · ≠ k)).take n := by
  induction l generalizing n with
  | nil => simp
  | cons a l ih =>
    rw [List.map_cons, List.nodup_cons] at hl
    rw [List.take_succ_cons]
    by_cases hk : key a = k
    · have hrest : ∀ b ∈ l, key b ≠ k := by
        intro b hb heq
        exact hl.1 (List.mem_map.mpr ⟨b, hb, heq.trans hk.symm⟩)
      have hkeep : l.filter (key · ≠ k) = l :=
        List.filter_eq_self.mpr fun b hb ↦ by simpa using hrest b hb
      have hkeep' : (l.take n).filter (key · ≠ k) = l.take n :=
        List.filter_eq_self.mpr fun b hb ↦ by simpa using hrest b (List.mem_of_mem_take hb)
      rw [List.filter_cons_of_neg (by simpa using hk), List.filter_cons_of_neg (by simpa using hk),
        hkeep, hkeep', List.take_take, min_self]
    · rw [List.filter_cons_of_pos (by simpa using hk), List.filter_cons_of_pos (by simpa using hk)]
      cases n with
      | zero => rfl
      | succ n => rw [List.take_succ_cons, List.take_succ_cons, ih hl.2]

/-- The window of the newest keys moves on without the rest of the log. -/
theorem take_latest_cons :
    (latest key (a :: l)).take (n + 1) =
      a :: (((latest key l).take (n + 1)).filter (key · ≠ key a)).take n := by
  rw [latest, List.take_succ_cons, take_filter_ne keys_nodup]

theorem eraseP_key (hl : (l.map key).Nodup) : l.eraseP (key · = k) = l.filter (key · ≠ k) := by
  induction l with
  | nil => rfl
  | cons a l ih =>
    rw [List.map_cons, List.nodup_cons] at hl
    by_cases hk : key a = k
    · rw [List.eraseP_cons_of_pos (by simpa using hk), List.filter_cons_of_neg (by simpa using hk)]
      refine (List.filter_eq_self.mpr fun b hb ↦ ?_).symm
      have : key b ≠ k := fun heq ↦ hl.1 (List.mem_map.mpr ⟨b, hb, heq.trans hk.symm⟩)
      simpa using this
    · rw [List.eraseP_cons_of_neg (by simpa using hk), List.filter_cons_of_pos (by simpa using hk),
        ih hl.2]

end FluxSync.Recency
