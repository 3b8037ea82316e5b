import Mathlib.Data.List.Dedup
import Mathlib.Data.List.Perm.Subperm
import Mathlib.Tactic.Ring
import FluxSync.Daemon.Backoff

/-! ## The limiter on its own -/

namespace FluxSync.Redial

open Runs

structure Check where
  src : IpAddr
  now : ℚ

structure Answer extends Check where
  ok : Bool

/-- A limiter and what it has answered so far. -/
structure Served where
  clock : ℚ
  limiter : Limiter := []
  answers : List Answer := []

/-- Time does not go back; the victim is looked at where one is needed. -/
def serve (s : Served) (c : Check × IpAddr) : Option Served :=
  if s.clock ≤ c.1.now ∧ evicts s.limiter c.1.src c.1.now c.2 then
    let (limiter, ok) := s.limiter.checkAt c.1.src c.1.now c.2
    some ⟨c.1.now, limiter, s.answers ++ [⟨c.1, ok⟩]⟩
  else none

namespace Limiter

/-- `check_at` without its sweep and its cap. -/
def keepAt (k : Limiter) (c : Check) : Limiter × Bool :=
  let (b, ok) := ((k.bucket c.src c.now).refill c.now).tryConsume
  ((c.src, b) :: k.filter (·.1 ≠ c.src), ok)

/-- What a limiter that forgets nothing answers. -/
def unswept (l : List Check) : Limiter × List Answer :=
  l.foldl (fun s c ↦ ((s.1.keepAt c).1, s.2 ++ [⟨c, (s.1.keepAt c).2⟩])) ([], [])

/-- The bucket that a check at `now` takes its token from. -/
def refilled (l : Limiter) (src : IpAddr) (now : ℚ) : Bucket := (l.bucket src now).refill now

/-- One bucket for each source, with no debt. -/
structure Sound (l : Limiter) : Prop where
  nodup : (l.map Prod.fst).Nodup
  nonneg : ∀ x ∈ l, 0 ≤ x.2.tokens

variable {l k : Limiter} {src src' victim : IpAddr} {b : Bucket} {now t : ℚ} {c : Check}

theorem bucket_of_mem (hn : (l.map Prod.fst).Nodup) (h : (src, b) ∈ l) : l.bucket src now = b := by
  have hfound : (l.find? (·.1 = src)).isSome := List.find?_isSome.mpr ⟨_, h, by simp⟩
  obtain ⟨x, hx⟩ := Option.isSome_iff_exists.mp hfound
  have hsrc : x.1 = src := by simpa using List.find?_some hx
  have hsame : x = (src, b) := List.inj_on_of_nodup_map hn (List.mem_of_find?_eq_some hx) h hsrc
  rw [bucket, hx, hsame]
  rfl

theorem bucket_of_forall_not_mem (h : ∀ b, (src, b) ∉ l) : l.bucket src now = .new now := by
  have hbucket : (src, l.bucket src now) ∈ l ∨ l.bucket src now = .new now := bucket_mem_or_new
  rcases hbucket with hmem | hnew
  · exact absurd hmem (h _)
  · exact hnew

theorem bucket_cons_self : bucket ((src, b) :: l) src now = b := by
  simp [bucket]

theorem bucket_cons_ne (hne : src' ≠ src) :
    bucket ((src, b) :: l.filter (·.1 ≠ src)) src' now = l.bucket src' now := by
  have hkeep : (fun x : IpAddr × Bucket ↦ decide (decide (x.1 ≠ src) = true ∧
      decide (x.1 = src') = true)) = fun x ↦ decide (x.1 = src') := by
    funext x
    by_cases hx : x.1 = src'
    · simp [hx, hne]
    · simp [hx]
  simp only [bucket, List.find?_cons, Ne.symm hne, decide_false, List.find?_filter, hkeep]

/-- Whatever was in a bucket that idled for long enough, it is full again, as a new one is. -/
theorem refill_of_idle (hb : 0 ≤ b.tokens) (hi : IDLE_EVICT ≤ elapsed now b.lastRefill) :
    b.refill now = (Bucket.new now).refill now := by
  have hnew : (0 : ℚ) ≤ elapsed now now * REFILL_PER_SEC :=
    mul_nonneg (elapsed_nonneg now now) (by norm_num [REFILL_PER_SEC, REFILL_INTERVAL])
  have hold : (5 : ℚ) ≤ elapsed now b.lastRefill * REFILL_PER_SEC := by
    norm_num [REFILL_PER_SEC, REFILL_INTERVAL, IDLE_EVICT] at hi ⊢
    linarith
  simp only [Bucket.refill, Bucket.new, Bucket.mk.injEq, and_true]
  rw [min_eq_right, min_eq_right]
  · simp only [BUCKET_CAPACITY]
    linarith
  · simp only [BUCKET_CAPACITY]
    linarith

theorem elapsed_mono {since : ℚ} (h : t ≤ now) : elapsed t since ≤ elapsed now since :=
  max_le_max le_rfl (sub_le_sub_right h since)

/-- No later check can tell that the idle buckets are gone. -/
theorem Sound.refilled_sweep (hl : l.Sound) (h : t ≤ now) :
    (l.sweep t).refilled src now = l.refilled src now := by
  have hsub : ((l.sweep t).map Prod.fst).Nodup :=
    hl.nodup.sublist (List.filter_sublist.map Prod.fst)
  by_cases hmem : ∃ b, (src, b) ∈ l
  · obtain ⟨b, hb⟩ := hmem
    rw [refilled, refilled, bucket_of_mem hl.nodup hb]
    by_cases hidle : elapsed t b.lastRefill < IDLE_EVICT
    · have hkept : (src, b) ∈ l.sweep t := List.mem_filter.mpr ⟨hb, by simpa using hidle⟩
      rw [bucket_of_mem hsub hkept]
    · have hgone : ∀ b', (src, b') ∉ l.sweep t := by
        intro b' hb'
        obtain ⟨hb', hfresh⟩ := List.mem_filter.mp hb'
        obtain rfl : b' = b := congrArg Prod.snd (List.inj_on_of_nodup_map hl.nodup hb' hb rfl)
        exact hidle (by simpa using hfresh)
      have hlong : IDLE_EVICT ≤ elapsed now b.lastRefill := (not_lt.mp hidle).trans (elapsed_mono h)
      rw [bucket_of_forall_not_mem hgone, refill_of_idle (hl.nonneg _ hb) hlong]
  · have hnone : ∀ b, (src, b) ∉ l := fun b hb ↦ hmem ⟨b, hb⟩
    have hnone' : ∀ b, (src, b) ∉ l.sweep t := fun b hb ↦ hnone b (List.mem_filter.mp hb).1
    rw [refilled, refilled, bucket_of_forall_not_mem hnone, bucket_of_forall_not_mem hnone']

theorem refill_nonneg (hb : 0 ≤ b.tokens) : 0 ≤ (b.refill now).tokens :=
  (le_min hb (by norm_num [BUCKET_CAPACITY])).trans le_refill

theorem refill_le : (b.refill now).tokens ≤ 5 := min_le_right _ _

theorem tryConsume_nonneg (hb : 0 ≤ b.tokens) : 0 ≤ b.tryConsume.1.tokens := by
  rw [Bucket.tryConsume]
  split
  case isTrue h => exact sub_nonneg.mpr h
  case isFalse => exact hb

theorem Sound.bucket_nonneg (hl : l.Sound) : 0 ≤ (l.bucket src now).tokens := by
  have hbucket : (src, l.bucket src now) ∈ l ∨ l.bucket src now = .new now := bucket_mem_or_new
  rcases hbucket with hmem | hnew
  · exact hl.nonneg _ hmem
  · rw [hnew]
    norm_num [Bucket.new, BUCKET_CAPACITY]

theorem Sound.put (hl : l.Sound) (hb : 0 ≤ b.tokens) :
    Sound ((src, b) :: l.filter (·.1 ≠ src)) := by
  constructor
  · rw [List.map_cons, List.nodup_cons]
    refine ⟨?_, hl.nodup.sublist (List.filter_sublist.map Prod.fst)⟩
    intro hmem
    obtain ⟨x, hx, hsrc⟩ := List.mem_map.mp hmem
    exact absurd hsrc (by simpa using (List.mem_filter.mp hx).2)
  · intro x hx
    rcases List.mem_cons.mp hx with rfl | hx
    · exact hb
    · exact hl.nonneg x (List.mem_filter.mp hx).1

theorem Sound.sweep (hl : l.Sound) : (l.sweep t).Sound where
  nodup := hl.nodup.sublist (List.filter_sublist.map Prod.fst)
  nonneg x hx := hl.nonneg x (List.mem_filter.mp hx).1

theorem Sound.keepAt (hl : l.Sound) : (l.keepAt c).1.Sound :=
  hl.put (tryConsume_nonneg (refill_nonneg hl.bucket_nonneg))

/-- With fewer sources than the table has room for, none is pushed out. -/
theorem capped_eq_self {sources : List IpAddr} (hl : l.Sound) (hs : ∀ x ∈ l, x.1 ∈ sources)
    (hfew : sources.length < MAX_TRACKED_SOURCES) : l.capped src victim = l := by
  have hsub : l.map Prod.fst ⊆ sources := by
    intro x hx
    obtain ⟨y, hy, rfl⟩ := List.mem_map.mp hx
    exact hs y hy
  have hlen : l.length ≤ sources.length := by
    have := (List.subperm_of_subset hl.nodup hsub).length_le
    rwa [List.length_map] at this
  have huncrowded : l.crowded src = false := by
    rw [crowded, decide_eq_false (by omega), Bool.and_false]
  rw [capped, huncrowded]
  rfl

/-- The checks of two limiters agree where every bucket is the same once it is refilled. -/
def Agree (t : ℚ) (l k : Limiter) : Prop := ∀ src now, t ≤ now → l.refilled src now = k.refilled src now

/-- A check without the sweep answers as one with it does, and goes on so. -/
theorem Agree.check {sources : List IpAddr} (ha : Agree t l k) (hl : l.Sound) (victim : IpAddr)
    (hs : ∀ x ∈ l, x.1 ∈ sources) (hfew : sources.length < MAX_TRACKED_SOURCES) (ht : t ≤ c.now) :
    (l.checkAt c.src c.now victim).2 = (k.keepAt c).2 ∧
      Agree c.now (l.checkAt c.src c.now victim).1 (k.keepAt c).1 := by
  have hcap : (l.sweep c.now).capped c.src victim = l.sweep c.now :=
    capped_eq_self hl.sweep (fun x hx ↦ hs x (List.mem_filter.mp hx).1) hfew
  have hsame : (l.sweep c.now).refilled c.src c.now = k.refilled c.src c.now :=
    (hl.refilled_sweep le_rfl).trans (ha c.src c.now ht)
  rw [refilled, refilled] at hsame
  simp only [checkAt, keepAt, hcap, hsame]
  refine ⟨trivial, fun src' now' hnow ↦ ?_⟩
  rw [refilled, refilled]
  by_cases hne : src' = c.src
  · rw [hne, bucket_cons_self, bucket_cons_self]
  · rw [bucket_cons_ne hne, bucket_cons_ne hne]
    exact (hl.refilled_sweep hnow).trans (ha src' now' (ht.trans hnow))

theorem unswept_concat {cs : List Check} : unswept (cs ++ [c]) =
    (((unswept cs).1.keepAt c).1, (unswept cs).2 ++ [⟨c, ((unswept cs).1.keepAt c).2⟩]) := by
  rw [unswept, List.foldl_append]
  rfl

/-- Only the checks of a source touch its bucket. -/
theorem unswept_filter (cs : List Check) (src : IpAddr) :
    (∀ now, (unswept cs).1.bucket src now = (unswept (cs.filter (·.src = src))).1.bucket src now) ∧
      (unswept cs).2.filter (·.src = src) = (unswept (cs.filter (·.src = src))).2 := by
  induction cs using List.reverseRecOn with
  | nil => exact ⟨fun _ ↦ rfl, rfl⟩
  | append_singleton cs c ih =>
    obtain ⟨hbucket, hanswers⟩ := ih
    rw [unswept_concat, List.filter_append]
    by_cases hc : c.src = src
    · subst hc
      have hself : [c].filter (·.src = c.src) = [c] := by simp
      rw [hself, unswept_concat]
      simp only [keepAt, hbucket c.now, List.filter_append, hanswers]
      constructor
      · intro now
        rw [bucket_cons_self, bucket_cons_self]
      · simp
    · have hother : [c].filter (·.src = src) = [] := by simp [hc]
      rw [hother, List.append_nil]
      constructor
      · intro now
        rw [← hbucket now]
        exact bucket_cons_ne (Ne.symm hc)
      · rw [List.filter_append, hanswers]
        simp [hc]

end Limiter

variable {s u : Served} {c : Check × IpAddr} {src : IpAddr} {t₀ T : ℚ} {sources : List IpAddr}
  {l : List (Check × IpAddr)} {b : Bucket} {now : ℚ}

theorem serve_spec (h : serve s c = some u) : s.clock ≤ c.1.now ∧
    u = ⟨c.1.now, (s.limiter.checkAt c.1.src c.1.now c.2).1,
      s.answers ++ [⟨c.1, (s.limiter.checkAt c.1.src c.1.now c.2).2⟩]⟩ := by
  obtain ⟨⟨hclock, -⟩, h⟩ := Option.ite_none_right_eq_some.mp h
  exact ⟨hclock, (Option.some.inj h).symm⟩

/-- The limiter after some checks, against one that forgets nothing. -/
structure Faithful (sources : List IpAddr) (l : List (Check × IpAddr)) (s : Served) : Prop where
  sound : s.limiter.Sound
  known : ∀ x ∈ s.limiter, x.1 ∈ sources
  agree : Limiter.Agree s.clock s.limiter (Limiter.unswept (l.map Prod.fst)).1
  answers : s.answers = (Limiter.unswept (l.map Prod.fst)).2

theorem Limiter.Sound.checkAt {limiter : Limiter} {victim : IpAddr} (hl : limiter.Sound)
    (hcap : ((limiter.sweep now).capped src victim) = limiter.sweep now) :
    (limiter.checkAt src now victim).1.Sound := by
  simp only [Limiter.checkAt, hcap]
  exact hl.sweep.put (tryConsume_nonneg (refill_nonneg hl.sweep.bucket_nonneg))

theorem Faithful.serve (hs : Faithful sources l s) (hfew : sources.length < MAX_TRACKED_SOURCES)
    (hc : c.1.src ∈ sources) (h : serve s c = some u) : Faithful sources (l ++ [c]) u := by
  obtain ⟨hclock, rfl⟩ := serve_spec h
  have hcap : (s.limiter.sweep c.1.now).capped c.1.src c.2 = s.limiter.sweep c.1.now :=
    Limiter.capped_eq_self hs.sound.sweep (fun x hx ↦ hs.known x (List.mem_filter.mp hx).1) hfew
  obtain ⟨hanswer, hagree⟩ := hs.agree.check hs.sound c.2 hs.known hfew hclock
  constructor
  case sound => exact hs.sound.checkAt hcap
  case known =>
    intro x hx
    simp only [Limiter.checkAt, hcap] at hx
    rcases List.mem_cons.mp hx with rfl | hx
    · exact hc
    · exact hs.known x (List.mem_filter.mp (List.mem_filter.mp hx).1).1
  case agree =>
    rw [List.map_append, List.map_singleton, Limiter.unswept_concat]
    exact hagree
  case answers =>
    rw [List.map_append, List.map_singleton, Limiter.unswept_concat, hs.answers, hanswer]

/-- How many checks of the source were accepted in the window of length `T` from `t₀` on. -/
def Served.accepted (src : IpAddr) (t₀ T : ℚ) (s : Served) : ℕ :=
  s.answers.countP fun a ↦ a.src = src ∧ t₀ ≤ a.now ∧ a.now ≤ t₀ + T ∧ a.ok

/-- What a window has taken of a bucket is no more than what the bucket has given: `n` tokens up
to `clock`, where a check at `now` would find `tokens now`. -/
structure Bounded (t₀ T clock : ℚ) (n : ℕ) (tokens : ℚ → ℚ) : Prop where
  early : clock < t₀ → n = 0
  within : ∀ now, clock ≤ now → t₀ ≤ now → now ≤ t₀ + T → n + tokens now ≤ 5 + (now - t₀) / 6
  total : (n : ℚ) ≤ 5 + T / 6

/-- A check at `now` finds what is in the bucket and leaves the rest. -/
theorem Bounded.take {clock rest : ℚ} {n : ℕ} {tokens tokens' : ℚ → ℚ} {ok : Bool}
    (h : Bounded t₀ T clock n tokens) (hclock : clock ≤ now) (hfull : ∀ now', tokens' now' ≤ 5)
    (hrest : rest + (if ok then 1 else 0) = tokens now) (hnonneg : 0 ≤ rest)
    (hlater : ∀ now', now ≤ now' → tokens' now' ≤ rest + (now' - now) / 6) :
    Bounded t₀ T now (n + if t₀ ≤ now ∧ now ≤ t₀ + T ∧ ok then 1 else 0) tokens' := by
  by_cases hwin : t₀ ≤ now ∧ now ≤ t₀ + T
  · have hcount : ((n + if t₀ ≤ now ∧ now ≤ t₀ + T ∧ ok then 1 else 0 : ℕ) : ℚ) + rest =
        n + tokens now := by
      rw [← hrest]
      cases ok with
      | false => simp
      | true =>
        simp only [hwin, and_self, if_true]
        push_cast
        ring
    have hbefore := h.within now hclock hwin.1 hwin.2
    constructor
    case early => exact fun hlt ↦ absurd hwin.1 (not_le.mpr hlt)
    case within =>
      intro now' hnow _ _
      have := hlater now' hnow
      linarith
    case total => linarith
  · have hcount : (n + if t₀ ≤ now ∧ now ≤ t₀ + T ∧ ok then 1 else 0) = n := by
      rw [if_neg fun h ↦ hwin ⟨h.1, h.2.1⟩, Nat.add_zero]
    rw [hcount]
    constructor
    case early => exact fun hlt ↦ h.early (hclock.trans_lt hlt)
    case within =>
      -- The check came before the window: until then nothing was taken in it.
      intro now' hnow h₀ hT
      have hlt : now < t₀ := not_le.mp fun hle ↦ hwin ⟨hle, hnow.trans hT⟩
      rw [h.early (hclock.trans_lt hlt)]
      have := hfull now'
      push_cast
      linarith
    case total => exact h.total

theorem Bounded.wait {clock : ℚ} {n : ℕ} {tokens tokens' : ℚ → ℚ} (h : Bounded t₀ T clock n tokens)
    (hclock : clock ≤ now) (hsame : ∀ now', now ≤ now' → tokens' now' = tokens now') :
    Bounded t₀ T now n tokens' where
  early := fun hlt ↦ h.early (hclock.trans_lt hlt)
  within := by
    intro now' hnow h₀ hT
    rw [hsame now' hnow]
    exact h.within now' (hclock.trans hnow) h₀ hT
  total := h.total

theorem refill_le_of_later (h : b.lastRefill ≤ now) :
    (b.refill now).tokens ≤ b.tokens + (now - b.lastRefill) / 6 := by
  have helapsed : elapsed now b.lastRefill = now - b.lastRefill := max_eq_right (sub_nonneg.mpr h)
  have hrate : (now - b.lastRefill) * REFILL_PER_SEC = (now - b.lastRefill) / 6 := by
    norm_num [REFILL_PER_SEC, REFILL_INTERVAL]
    ring
  have hmin : (b.refill now).tokens ≤ b.tokens + elapsed now b.lastRefill * REFILL_PER_SEC :=
    min_le_left _ _
  rwa [helapsed, hrate] at hmin

theorem accepted_concat {a : Answer} {clock : ℚ} {limiter : Limiter} :
    Served.accepted src t₀ T ⟨clock, limiter, s.answers ++ [a]⟩ = s.accepted src t₀ T +
      if a.src = src ∧ t₀ ≤ a.now ∧ a.now ≤ t₀ + T ∧ a.ok then 1 else 0 := by
  simp only [Served.accepted, List.countP_append, List.countP_singleton, decide_eq_true_eq]

def Served.Bounded (src : IpAddr) (t₀ T : ℚ) (s : Served) : Prop :=
  Redial.Bounded t₀ T s.clock (s.accepted src t₀ T) fun now ↦ (s.limiter.refilled src now).tokens

theorem bounded_start (hT : 0 ≤ T) (clock : ℚ) : Served.Bounded src t₀ T ⟨clock, [], []⟩ where
  early := fun _ ↦ rfl
  within := by
    intro now _ h₀ _
    have hfull : (Limiter.refilled [] src now).tokens ≤ 5 := Limiter.refill_le
    show ((0 : ℕ) : ℚ) + (Limiter.refilled [] src now).tokens ≤ 5 + (now - t₀) / 6
    push_cast
    linarith
  total := by
    show ((0 : ℕ) : ℚ) ≤ 5 + T / 6
    push_cast
    linarith

/-- What a check takes it takes from the bucket. -/
theorem tryConsume_tokens : b.tryConsume.1.tokens + (if b.tryConsume.2 then 1 else 0) = b.tokens := by
  rw [Bucket.tryConsume]
  split
  case isTrue => simp
  case isFalse => simp

theorem tryConsume_lastRefill : b.tryConsume.1.lastRefill = b.lastRefill := by
  rw [Bucket.tryConsume]
  split <;> rfl

theorem Served.Bounded.serve (hs : s.Bounded src t₀ T) (hsound : s.limiter.Sound)
    (hcap : (s.limiter.sweep c.1.now).capped c.1.src c.2 = s.limiter.sweep c.1.now)
    (h : serve s c = some u) : u.Bounded src t₀ T := by
  obtain ⟨hclock, rfl⟩ := serve_spec h
  have hswept : ∀ src' now, c.1.now ≤ now → ((s.limiter.sweep c.1.now).bucket src' now).refill now =
      s.limiter.refilled src' now := fun src' now hnow ↦ hsound.refilled_sweep hnow
  let b := s.limiter.refilled c.1.src c.1.now
  have hcheck : s.limiter.checkAt c.1.src c.1.now c.2 =
      ((c.1.src, b.tryConsume.1) :: (s.limiter.sweep c.1.now).filter (·.1 ≠ c.1.src),
        b.tryConsume.2) := by
    simp only [Limiter.checkAt, hcap, hswept c.1.src c.1.now le_rfl, b]
  rw [Served.Bounded, accepted_concat, hcheck]
  by_cases hsrc : c.1.src = src
  · subst hsrc
    have hlast : b.tryConsume.1.lastRefill = c.1.now := tryConsume_lastRefill
    have htaken : Redial.Bounded t₀ T c.1.now
        (s.accepted c.1.src t₀ T + if t₀ ≤ c.1.now ∧ c.1.now ≤ t₀ + T ∧ b.tryConsume.2 then 1 else 0)
        fun now ↦ (b.tryConsume.1.refill now).tokens := by
      apply hs.take hclock
      case hfull => exact fun _ ↦ Limiter.refill_le
      case hrest => exact tryConsume_tokens
      case hnonneg => exact Limiter.tryConsume_nonneg (Limiter.refill_nonneg hsound.bucket_nonneg)
      case hlater =>
        intro now hnow
        rw [← hlast] at hnow ⊢
        exact refill_le_of_later hnow
    simp only [true_and]
    refine htaken.wait le_rfl fun now _ ↦ ?_
    rw [Limiter.refilled, Limiter.bucket_cons_self]
  · rw [if_neg fun h ↦ hsrc h.1, Nat.add_zero]
    refine Bounded.wait hs hclock fun now hnow ↦ ?_
    rw [Limiter.refilled, Limiter.bucket_cons_ne (Ne.symm hsrc), hswept src now hnow]

/-- What is known of every limiter that has served some checks of the given sources. -/
theorem served_run (hfew : sources.length < MAX_TRACKED_SOURCES) {clock : ℚ}
    (hr : Run serve (fun _ c ↦ c.1.src ∈ sources) ⟨clock, [], []⟩ l s) :
    Faithful sources l s ∧ ∀ src t₀ T, 0 ≤ T → s.Bounded src t₀ T := by
  apply hr.history (I := fun l s ↦ Faithful sources l s ∧ ∀ src t₀ T, 0 ≤ T → s.Bounded src t₀ T)
  · constructor
    · exact ⟨⟨List.nodup_nil, fun x hx ↦ absurd hx List.not_mem_nil⟩,
        fun x hx ↦ absurd hx List.not_mem_nil, fun _ _ _ ↦ rfl, rfl⟩
    · exact fun src t₀ T hT ↦ bounded_start hT clock
  · intro l s c u _ ⟨hs, hb⟩ hc hstep
    refine ⟨hs.serve hfew hc hstep, fun src t₀ T hT ↦ (hb src t₀ T hT).serve hs.sound ?_ hstep⟩
    exact Limiter.capped_eq_self hs.sound.sweep
      (fun x hx ↦ hs.known x (List.mem_filter.mp hx).1) hfew

/-- In a window of `T` seconds one source is let in at most `5 + T / 6` times, the answers to it
are those it would get alone, and those of a limiter that never forgets a bucket. -/
theorem limiter_bounds {clock : ℚ} (hr : Run serve Always ⟨clock, [], []⟩ l s)
    (hfew : (l.map (·.1.src)).dedup.length < 1024) :
    (∀ src t₀ T, 0 ≤ T → (s.accepted src t₀ T : ℚ) ≤ 5 + T / 6) ∧
      s.answers = (Limiter.unswept (l.map Prod.fst)).2 ∧
      ∀ src, s.answers.filter (·.src = src) =
        (Limiter.unswept ((l.map Prod.fst).filter (·.src = src))).2 := by
  have hlabels : ∀ c ∈ l, c.1.src ∈ (l.map (·.1.src)).dedup := fun c hc ↦
    List.mem_dedup.mpr (List.mem_map.mpr ⟨c, hc, rfl⟩)
  obtain ⟨hs, hb⟩ := served_run hfew (hr.labels hlabels)
  refine ⟨fun src t₀ T hT ↦ (hb src t₀ T hT).total, hs.answers, fun src ↦ ?_⟩
  rw [hs.answers]
  exact (Limiter.unswept_filter (l.map Prod.fst) src).2

/-- Six checks at once and one more token later; another source comes in between. -/
def burst : List (Check × IpAddr) :=
  [⟨.v4 1, 0⟩, ⟨.v4 1, 0⟩, ⟨.v4 1, 0⟩, ⟨.v4 1, 0⟩, ⟨.v4 1, 0⟩, ⟨.v4 1, 1⟩, ⟨.v4 2, 2⟩, ⟨.v4 1, 6⟩,
    ⟨.v4 1, 400⟩].map (·, .v4 1)

theorem limiter_bounds_burst : ∃ s, Run serve Always ⟨0, [], []⟩ burst s ∧
    s.accepted (.v4 1) 0 6 = 6 ∧ (s.accepted (.v4 1) 0 6 : ℚ) ≤ 5 + 6 / 6 := by
  have hrun : Run serve Always ⟨0, [], []⟩ burst _ := run_of_isSome (by decide +kernel)
  exact ⟨_, hrun, by decide +kernel,
    (limiter_bounds hrun (by decide +kernel)).1 (.v4 1) 0 6 (by norm_num)⟩

end FluxSync.Redial
