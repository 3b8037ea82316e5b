import Mathlib.Data.List.Induction
import Mathlib.Logic.Basic

namespace FluxSync.Runs

variable {σ α : Type} {step : σ → α → Option σ} {ok ok' : σ → α → Prop} {s t u : σ} {l : List α} {a : α}

/-- The labels `l` lead from `s` to the indexed state, and every step of the
way meets `ok` in the state it is taken from. -/
inductive Run (step : σ → α → Option σ) (ok : σ → α → Prop) (s : σ) : List α → σ → Prop
  | nil : Run step ok s [] s
  | snoc {l : List α} {t u : σ} {a : α} :
      Run step ok s l t → ok t a → step t a = some u → Run step ok s (l ++ [a]) u

def Always : σ → α → Prop := fun _ _ ↦ True

/-- An invariant over the labels seen so far and the state they lead to. -/
theorem Run.history {I : List α → σ → Prop} (h : Run step ok s l t) (h₀ : I [] s)
    (hs : ∀ l t a u, Run step ok s l t → I l t → ok t a → step t a = some u → I (l ++ [a]) u) :
    I l t := by
  induction h with
  | nil => exact h₀
  | snoc hr ha hstep ih => exact hs _ _ _ _ hr ih ha hstep

theorem Run.invariant {I : σ → Prop} (h : Run step ok s l t) (h₀ : I s)
    (hs : ∀ t a u, I t → ok t a → step t a = some u → I u) : I t :=
  h.history (I := fun _ t ↦ I t) h₀ (fun _ t a u _ hi ha hstep ↦ hs t a u hi ha hstep)

/-- A condition that the steps meet where an invariant holds. -/
theorem Run.guarantee {I : σ → Prop} (h : Run step ok s l t) (h₀ : I s)
    (hs : ∀ t a u, I t → ok t a → step t a = some u → I u) (hg : ∀ t a, I t → ok t a → ok' t a) :
    Run step ok' s l t := by
  induction h with
  | nil => exact .nil
  | snoc hr ha hstep ih => exact .snoc ih (hg _ _ (hr.invariant h₀ hs) ha) hstep

theorem Run.mono (h : Run step ok s l t) (hok : ∀ t a, ok t a → ok' t a) :
    Run step ok' s l t := by
  induction h with
  | nil => exact .nil
  | snoc _ ha hstep ih => exact .snoc ih (hok _ _ ha) hstep

/-- A run all of whose labels have a property, as a condition on its steps. -/
theorem Run.labels {p : α → Prop} (h : Run step ok s l t) (hl : ∀ a ∈ l, p a) :
    Run step (fun _ a ↦ p a) s l t := by
  induction h with
  | nil => exact .nil
  | snoc _ _ hstep ih =>
    exact .snoc (ih fun a ha ↦ hl a (List.mem_append_left _ ha)) (hl _ (by simp)) hstep

theorem run_nil : Run step ok s [] t ↔ t = s := by
  constructor
  · intro h
    generalize hl : ([] : List α) = l at h
    cases h with
    | nil => rfl
    | snoc => simp at hl
  · rintro rfl
    exact .nil

theorem run_snoc :
    Run step ok s (l ++ [a]) u ↔ ∃ t, Run step ok s l t ∧ ok t a ∧ step t a = some u := by
  constructor
  · intro h
    generalize hl : l ++ [a] = l' at h
    cases h with
    | nil => simp at hl
    | snoc hr ha hstep =>
      obtain ⟨rfl, hb⟩ := List.append_inj' hl rfl
      obtain rfl : a = _ := by simpa using hb
      exact ⟨_, hr, ha, hstep⟩
  · rintro ⟨t, hr, ha, hstep⟩
    exact .snoc hr ha hstep

theorem Run.deterministic (h : Run step ok s l t) (h' : Run step ok' s l u) : t = u := by
  induction h generalizing u with
  | nil => exact (run_nil.mp h').symm
  | snoc _ _ hstep ih =>
    obtain ⟨v, hv, _, hstep'⟩ := run_snoc.mp h'
    rw [ih hv] at hstep
    exact Option.some.inj (hstep.symm.trans hstep')

theorem Run.both (h : Run step ok s l t) (h' : Run step ok' s l t) :
    Run step (fun s a ↦ ok s a ∧ ok' s a) s l t := by
  induction h with
  | nil => exact .nil
  | snoc hr ha hstep ih =>
    obtain ⟨v, hv, ha', _⟩ := run_snoc.mp h'
    obtain rfl := hv.deterministic hr
    exact .snoc (ih hv) ⟨ha, ha'⟩ hstep

theorem Run.append {l' : List α} (h : Run step ok s l t) (h' : Run step ok t l' u) :
    Run step ok s (l ++ l') u := by
  induction h' with
  | nil => rwa [List.append_nil]
  | snoc _ ha hstep ih =>
    rw [← List.append_assoc]
    exact .snoc ih ha hstep

/-- Executing the labels one after the other gives a run. -/
theorem run_of_foldlM (h : l.foldlM step s = some t) : Run step Always s l t := by
  induction l using List.reverseRecOn generalizing t with
  | nil =>
    obtain rfl : s = t := by simpa using h
    exact .nil
  | append_singleton l a ih =>
    simp only [List.foldlM_append, Option.bind_eq_bind, Option.bind_eq_some_iff,
      List.foldlM_cons, List.foldlM_nil] at h
    obtain ⟨u, hu, v, hv, hvt⟩ := h
    obtain rfl : v = t := by simpa using hvt
    exact .snoc (ih hu) trivial hv

theorem run_of_isSome (h : (l.foldlM step s).isSome) :
    Run step Always s l ((l.foldlM step s).get h) :=
  run_of_foldlM (Option.some_get h).symm

/-- The labels can all be taken exactly when none of them is refused where it comes. -/
theorem exists_run_iff : (∃ t, Run step Always s l t) ↔
    ∀ l' a t, l' ++ [a] <+: l → Run step Always s l' t → (step t a).isSome := by
  induction l using List.reverseRecOn with
  | nil =>
    refine iff_of_true ⟨s, .nil⟩ ?_
    intro l' a t hl
    simp at hl
  | append_singleton l b ih =>
    constructor
    · rintro ⟨u, hu⟩ l' a t hl ht
      obtain ⟨v, hv, -, hstep⟩ := run_snoc.mp hu
      obtain hl | hl := List.prefix_concat_iff.mp hl
      · obtain ⟨rfl, hab⟩ := List.append_inj' hl rfl
        obtain rfl : a = b := by simpa using hab
        rw [ht.deterministic hv, hstep]
        rfl
      · exact ih.mp ⟨v, hv⟩ l' a t hl ht
    · intro hall
      obtain ⟨t, ht⟩ := ih.mpr fun l' a t hl ↦ hall l' a t (hl.trans (List.prefix_append l [b]))
      obtain ⟨u, hu⟩ := Option.isSome_iff_exists.mp (hall l b t List.prefix_rfl ht)
      exact ⟨u, .snoc ht trivial hu⟩

/-- Where every step can be taken, every list of labels is a run. -/
theorem exists_run (step : σ → α → Option σ) (s : σ) (l : List α) (h : ∀ t a, (step t a).isSome) :
    ∃ t, Run step Always s l t :=
  exists_run_iff.mpr fun _ a t _ _ ↦ h t a

theorem Run.foldlM (h : Run step ok s l t) : l.foldlM step s = some t := by
  induction h with
  | nil => rfl
  | snoc _ _ hstep ih => simp [List.foldlM_append, ih, hstep]

/-- Executing the labels, each after a test of the state it is taken from. -/
theorem run_of_checked {check : σ → α → Bool}
    (h : (l.foldlM (fun s a ↦ if check s a then step s a else none) s).isSome) :
    Run step (fun s a ↦ check s a) s l
      ((l.foldlM (fun s a ↦ if check s a then step s a else none) s).get h) := by
  have hrun := run_of_isSome h
  generalize (l.foldlM (fun s a ↦ if check s a then step s a else none) s).get h = t at hrun
  clear h
  induction hrun with
  | nil => exact .nil
  | snoc _ _ hstep ih =>
    obtain ⟨hc, hstep⟩ := Option.ite_none_right_eq_some.mp hstep
    exact .snoc ih hc hstep

/-- Where one step keeps `I` exactly when it meets `ok`, a run stays inside
`I` exactly when all its steps meet `ok`. -/
theorem run_guarded_iff {I : σ → Prop} (h₀ : I s)
    (hs : ∀ t a u, I t → step t a = some u → (I u ↔ ok t a)) (h : Run step Always s l t) :
    (∀ l' t', l' <+: l → Run step Always s l' t' → I t') ↔ Run step ok s l t := by
  induction h with
  | nil =>
    refine ⟨fun _ ↦ .nil, fun _ l' t' hl hr ↦ ?_⟩
    obtain rfl := List.prefix_nil.mp hl
    exact run_nil.mp hr ▸ h₀
  | @snoc l t u a hr _ hstep ih =>
    constructor
    · intro hI
      have hrun := ih.mp (fun l' t' hl hr' ↦ hI l' t' (hl.trans (List.prefix_append l [a])) hr')
      have ht := hI l t (List.prefix_append l [a]) hr
      have hu := hI (l ++ [a]) u List.prefix_rfl (.snoc hr trivial hstep)
      exact .snoc hrun ((hs t a u ht hstep).mp hu) hstep
    · intro hrun l' t' hl hr'
      obtain ⟨v, hv, ha, hstep'⟩ := run_snoc.mp hrun
      have hvt : v = t := hv.deterministic hr
      subst hvt
      have hI := ih.mpr hv
      rcases List.prefix_concat_iff.mp hl with rfl | hl
      · obtain rfl := hr'.deterministic (Run.snoc hr trivial hstep)
        exact (hs v a _ (hI l v List.prefix_rfl hr) hstep).mpr ha
      · exact hI l' t' hl hr'

/-- Where the steps that meet `ok` keep `I`, which implies `P`, and every other step breaks `P`. -/
theorem run_observed_iff {I P : σ → Prop} (h₀ : I s) (hP : ∀ t, I t → P t)
    (hs : ∀ t a u, I t → ok t a → step t a = some u → I u)
    (hbad : ∀ t a u, I t → ¬ ok t a → step t a = some u → ¬ P u) (h : Run step Always s l t) :
    (∀ l' t', l' <+: l → Run step Always s l' t' → P t') ↔ Run step ok s l t := by
  constructor
  · intro hobs
    induction h with
    | nil => exact .nil
    | @snoc l t u a hr _ hstep ih =>
      have hrun := ih fun l' t' hl hr' ↦ hobs l' t' (hl.trans (List.prefix_append l [a])) hr'
      have ht : I t := hrun.invariant h₀ hs
      refine .snoc hrun (by_contra fun hok ↦ ?_) hstep
      exact hbad t a u ht hok hstep (hobs _ u List.prefix_rfl (.snoc hr trivial hstep))
  · intro hrun l' t' hl hr'
    obtain ⟨l'', rfl⟩ := hl
    have hstart : Run step ok s l' t' := by
      induction l'' using List.reverseRecOn generalizing t with
      | nil =>
        rw [List.append_nil] at hrun
        exact hrun.deterministic hr' ▸ hrun
      | append_singleton l₂ a ih =>
        rw [← List.append_assoc] at hrun
        obtain ⟨v, hv, -, -⟩ := run_snoc.mp hrun
        exact ih (hv.mono fun _ _ _ ↦ trivial) hv
    exact hP t' (hstart.invariant h₀ hs)

/-- A run meets a condition on its steps when each of them does where it is taken. -/
theorem run_iff_forall_steps : Run step ok s l t ↔ Run step Always s l t ∧
    ∀ l' a t', l' ++ [a] <+: l → Run step Always s l' t' → ok t' a := by
  constructor
  · intro h
    refine ⟨h.mono fun _ _ _ ↦ trivial, ?_⟩
    induction h with
    | nil => exact fun l' a t' hl _ ↦ absurd hl (by simp)
    | @snoc l t u b hr hb hstep ih =>
      intro l' a t' hl hr'
      rcases List.prefix_concat_iff.mp hl with hl | hl
      · obtain ⟨rfl, hab⟩ := List.append_inj' hl rfl
        obtain rfl : a = b := by simpa using hab
        exact hr'.deterministic hr ▸ hb
      · exact ih l' a t' hl hr'
  · rintro ⟨h, hok⟩
    induction h with
    | nil => exact .nil
    | @snoc l t u a hr _ hstep ih =>
      exact .snoc (ih fun l' b t' hl hr' ↦ hok l' b t' (hl.trans (List.prefix_append l [a])) hr')
        (hok l a t List.prefix_rfl hr) hstep

variable {μ : Type} {watch : σ → α → μ → μ} {m : μ}

/-- A system next to a monitor that sees each step and cannot stop it. -/
def monitored (step : σ → α → Option σ) (watch : σ → α → μ → μ) (x : σ × μ) (a : α) :
    Option (σ × μ) :=
  (step x.1 a).map fun t ↦ (t, watch x.1 a x.2)

theorem monitored_eq_some {x y : σ × μ} :
    monitored step watch x a = some y ↔ step x.1 a = some y.1 ∧ y.2 = watch x.1 a x.2 := by
  simp only [monitored, Option.map_eq_some_iff]
  constructor
  · rintro ⟨t, ht, rfl⟩
    exact ⟨ht, rfl⟩
  · rintro ⟨h, hm⟩
    exact ⟨y.1, h, by rw [← hm]⟩

/-- Every run of the system is one of the monitored system. -/
theorem Run.monitored (h : Run step Always s l t) :
    ∃ m', Run (Runs.monitored step watch) Always (s, m) l (t, m') := by
  induction h with
  | nil => exact ⟨m, .nil⟩
  | @snoc l t u a _ _ hstep ih =>
    obtain ⟨m', hr⟩ := ih
    exact ⟨watch t a m', .snoc hr trivial (monitored_eq_some.mpr ⟨hstep, rfl⟩)⟩

end FluxSync.Runs
