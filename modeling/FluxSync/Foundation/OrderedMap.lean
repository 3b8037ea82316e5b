import Mathlib

namespace FluxSync.OrderedMap

open Std

variable {κ ν : Type} [Ord κ] [TransOrd κ] [LawfulEqOrd κ] {m : ExtTreeMap κ ν} {k a : κ} {v x : ν}

theorem lookup_insert [DecidableEq κ] : (m.insert k v)[a]? = if k = a then some v else m[a]? := by
  simp only [ExtTreeMap.getElem?_insert, LawfulEqCmp.compare_eq_iff_eq]

theorem lookup_erase [DecidableEq κ] : (m.erase k)[a]? = if k = a then none else m[a]? := by
  simp only [ExtTreeMap.getElem?_erase, LawfulEqCmp.compare_eq_iff_eq]

theorem lookup_insertIfNew (h : (m.insertIfNew k v)[a]? = some x) :
    k = a ∧ v = x ∧ m.contains k = false ∨ m[a]? = some x := by
  rw [ExtTreeMap.getElem?_insertIfNew] at h
  split at h
  case isTrue hnew =>
    refine .inl ⟨LawfulEqCmp.compare_eq_iff_eq.mp hnew.1, Option.some.inj h, ?_⟩
    exact Bool.eq_false_of_not_eq_true (mt ExtTreeMap.contains_iff_mem.mp hnew.2)
  case isFalse => exact .inr h

theorem lookup_filter {f : κ → ν → Bool} :
    (m.filter f)[a]? = some v ↔ m[a]? = some v ∧ f a v := by
  rw [ExtTreeMap.getElem?_filter', Option.filter_eq_some_iff]

theorem lookup_erase_all [DecidableEq κ] {l : List κ} :
    (l.foldl (fun m k ↦ m.erase k) m)[a]? = if a ∈ l then none else m[a]? := by
  induction l generalizing m with
  | nil => simp
  | cons k l ih =>
    rw [List.foldl_cons, ih, lookup_erase]
    by_cases ha : a ∈ l
    · simp [ha]
    · simp [ha, eq_comm]

theorem lookup_mark_all [DecidableEq κ] {l : List κ} :
    (l.foldl (fun m k ↦ m.insert k v) m)[a]? = if a ∈ l then some v else m[a]? := by
  induction l generalizing m with
  | nil => simp
  | cons k l ih =>
    rw [List.foldl_cons, ih, lookup_insert]
    by_cases ha : a ∈ l
    · simp [ha]
    · simp [ha, eq_comm]

theorem lookup_insert_all [DecidableEq κ] {l : List (κ × ν)}
    (h : (l.foldl (fun m e ↦ m.insert e.1 e.2) m)[a]? = some v) : m[a]? = some v ∨ (a, v) ∈ l := by
  induction l generalizing m with
  | nil => exact .inl h
  | cons e l ih =>
    obtain h | h := ih h
    · rw [lookup_insert] at h
      split at h
      · rename_i he
        obtain rfl := Option.some.inj h
        exact .inr (by simp [← he])
      · exact .inl h
    · exact .inr (List.mem_cons_of_mem _ h)

omit [LawfulEqOrd κ] in
/-- Entries that are put in one after the other are all there at the end. -/
theorem isSome_foldl {f : ExtTreeMap κ ν → κ × ν → ExtTreeMap κ ν} {l : List (κ × ν)}
    (hkeep : ∀ m e, m[a]?.isSome → (f m e)[a]?.isSome) (hput : ∀ m v, (f m (a, v))[a]?.isSome)
    (h : m[a]?.isSome ∨ ∃ v, (a, v) ∈ l) : (l.foldl f m)[a]?.isSome := by
  induction l generalizing m with
  | nil => simpa using h
  | cons e l ih =>
    refine ih ?_
    rcases h with h | ⟨v, h⟩
    · exact .inl (hkeep m e h)
    · rcases List.mem_cons.mp h with rfl | h
      · exact .inl (hput m v)
      · exact .inr ⟨v, h⟩

omit [LawfulEqOrd κ] in
theorem of_isSome_foldl {f : ExtTreeMap κ ν → κ × ν → ExtTreeMap κ ν} {l : List (κ × ν)}
    (hf : ∀ m e, (f m e)[a]?.isSome → m[a]?.isSome ∨ e.1 = a) (h : (l.foldl f m)[a]?.isSome) :
    m[a]?.isSome ∨ ∃ e ∈ l, e.1 = a := by
  induction l generalizing m with
  | nil => exact .inl h
  | cons e l ih =>
    obtain h | ⟨e', he', ha⟩ := ih h
    · exact (hf m e h).imp id fun ha ↦ ⟨e, by simp, ha⟩
    · exact .inr ⟨e', List.mem_cons_of_mem e he', ha⟩

theorem of_isSome_insert [DecidableEq κ] (h : (m.insert k v)[a]?.isSome) : m[a]?.isSome ∨ k = a := by
  rw [lookup_insert] at h
  split at h
  · exact .inr ‹_›
  · exact .inl h

theorem isSome_insert_all [DecidableEq κ] {l : List (κ × ν)}
    (h : m[a]?.isSome ∨ ∃ v, (a, v) ∈ l) :
    (l.foldl (fun m e ↦ m.insert e.1 e.2) m)[a]?.isSome := by
  refine isSome_foldl (fun m e h ↦ ?_) (fun m v ↦ by simp) h
  rw [lookup_insert]
  split
  · rfl
  · exact h

theorem keys_nodup : (m.toList.map Prod.fst).Nodup := by
  rw [List.Nodup, List.pairwise_map]
  exact ExtTreeMap.distinct_keys_toList.imp fun h heq ↦
    h (LawfulEqCmp.compare_eq_iff_eq.mpr heq)

theorem mem_entries : (k, v) ∈ m.toList ↔ m[k]? = some v :=
  ExtTreeMap.mem_toList_iff_getElem?_eq_some

/-- The keys kept by a test on the entries are distinct. -/
theorem filtered_keys_nodup (p : κ × ν → Bool) : ((m.toList.filter p).map Prod.fst).Nodup :=
  keys_nodup.sublist (List.filter_sublist.map Prod.fst)

end FluxSync.OrderedMap
