import Mathlib.Data.Rat.Defs
import Mathlib.Algebra.Order.Field.Rat
import Mathlib.Tactic.Linarith
import Mathlib.Tactic.NormNum
import FluxSync.Foundation.Runs
import FluxSync.Types

/-! ## Redials against the limiter of the peer

Instants and tokens are rationals, instants in seconds. -/

namespace FluxSync.Redial

open Runs

/-! ### `PeerBackoff` -/

def INITIAL_BASE : ℕ := 500

def CAP : ℕ := 8000

def MAX_SHIFT : ℕ := 4

def REFILL_INTERVAL : ℕ := 6

def FLOOR_MARGIN : ℕ := 500

def STEADY_STATE_FLOOR : ℕ := REFILL_INTERVAL * 1000 + FLOOR_MARGIN

/-- In milliseconds, as the other delays are. -/
def baseDelayForAttempt (attempt : UInt32) : ℕ := INITIAL_BASE <<< min attempt.toNat MAX_SHIFT

def jitterFloor (base : ℕ) : ℕ := if CAP ≤ base then STEADY_STATE_FLOOR else base / 2

/-- The draw is what the generator gives. -/
def fullJitter (base : ℕ) (draw : UInt64) : ℕ :=
  let span := base - jitterFloor base
  jitterFloor base + if span = 0 then 0 else (draw.toNat * (span + 1)) >>> 64

structure PeerBackoff where
  attempt : UInt32 := 0
  nextReadyAt : Option ℚ := none

namespace PeerBackoff

def ready (b : PeerBackoff) (now : ℚ) : Bool := b.nextReadyAt.all (· ≤ now)

def onAttemptFailed (b : PeerBackoff) (now : ℚ) (draw : UInt64) : PeerBackoff where
  attempt := if b.attempt = 0xffffffff then b.attempt else b.attempt + 1
  nextReadyAt := some (now + fullJitter (baseDelayForAttempt b.attempt) draw / 1000)

end PeerBackoff

/-! ### `HandshakeRateLimiter` -/

inductive IpAddr
  | v4 (ip : BitVec 32)
  | v6 (ip : BitVec 128)
  deriving DecidableEq

def BUCKET_CAPACITY : ℚ := 5

def REFILL_PER_SEC : ℚ := 1 / REFILL_INTERVAL

def MAX_TRACKED_SOURCES : ℕ := 1024

def IDLE_EVICT : ℚ := 300

structure Bucket where
  tokens : ℚ
  lastRefill : ℚ

def elapsed (now since : ℚ) : ℚ := max 0 (now - since)

namespace Bucket

def new (now : ℚ) : Bucket := ⟨BUCKET_CAPACITY, now⟩

def refill (b : Bucket) (now : ℚ) : Bucket :=
  ⟨min (b.tokens + elapsed now b.lastRefill * REFILL_PER_SEC) BUCKET_CAPACITY, now⟩

def tryConsume (b : Bucket) : Bucket × Bool :=
  if 1 ≤ b.tokens then ({ b with tokens := b.tokens - 1 }, true) else (b, false)

end Bucket

/-- A map from sources to buckets, in any order. -/
abbrev Limiter := List (IpAddr × Bucket)

namespace Limiter

def sweep (l : Limiter) (now : ℚ) : Limiter :=
  l.filter fun x ↦ elapsed now x.2.lastRefill < IDLE_EVICT

def crowded (l : Limiter) (src : IpAddr) : Bool :=
  l.all (·.1 ≠ src) && decide (MAX_TRACKED_SOURCES ≤ l.length)

/-- `min_by_key` may give any source of the least `last_refill`. -/
def oldest (l : Limiter) (victim : IpAddr) : Bool :=
  l.any fun x ↦ x.1 = victim && l.all fun y ↦ x.2.lastRefill ≤ y.2.lastRefill

/-- The table after its cap was looked at. -/
def capped (l : Limiter) (src victim : IpAddr) : Limiter :=
  if l.crowded src then l.filter (·.1 ≠ victim) else l

def bucket (l : Limiter) (src : IpAddr) (now : ℚ) : Bucket :=
  ((l.find? (·.1 = src)).map (·.2)).getD (.new now)

def checkAt (l : Limiter) (src : IpAddr) (now : ℚ) (victim : IpAddr) : Limiter × Bool :=
  let l := (l.sweep now).capped src victim
  let (b, ok) := ((l.bucket src now).refill now).tryConsume
  ((src, b) :: l.filter (·.1 ≠ src), ok)

end Limiter

/-! ### A dialer and the limiter of its peer -/

structure Link where
  clock : ℚ
  backoff : PeerBackoff := {}
  /-- An attempt was made and has not failed yet. -/
  dialing : Bool := false
  limiter : Limiter
  /-- What the limiter said to the attempts so far. -/
  verdicts : List Bool := []

inductive Act
  /-- The dialer makes an attempt. -/
  | dial (now : ℚ) (victim : IpAddr)
  /-- Its attempt fails. -/
  | fail (now : ℚ) (draw : UInt64)
  /-- Another source makes an attempt. -/
  | other (src : IpAddr) (now : ℚ) (victim : IpAddr)

/-- The victim, where one is needed, is the oldest source. -/
def evicts (l : Limiter) (src : IpAddr) (now : ℚ) (victim : IpAddr) : Bool :=
  !(l.sweep now).crowded src || (l.sweep now).oldest victim

def step (me : IpAddr) (s : Link) : Act → Option Link
  | .dial now victim =>
    if s.clock ≤ now ∧ s.backoff.ready now ∧ s.dialing = false ∧ evicts s.limiter me now victim then
      let (limiter, ok) := s.limiter.checkAt me now victim
      some { s with clock := now, dialing := true, limiter, verdicts := s.verdicts ++ [ok] }
    else none
  | .fail now draw =>
    if s.clock ≤ now ∧ s.dialing then
      some { s with clock := now, dialing := false, backoff := s.backoff.onAttemptFailed now draw }
    else none
  | .other src now victim =>
    if s.clock ≤ now ∧ src ≠ me ∧ evicts s.limiter src now victim then
      some { s with clock := now, limiter := (s.limiter.checkAt src now victim).1 }
    else none

/-- Nothing was tried yet, and the bucket is full if there is one. -/
structure Starts (me : IpAddr) (s : Link) : Prop where
  idle : s.dialing = false
  untried : s.verdicts = []
  full : ∀ b, (me, b) ∈ s.limiter → b.tokens = BUCKET_CAPACITY

variable {me src src' victim : IpAddr} {now : ℚ} {b : Bucket} {l : Limiter} {s s' : Link} {n : ℕ}
  {draw : UInt64} {attempt : UInt32}

theorem jitterFloor_le_fullJitter (base : ℕ) : jitterFloor base ≤ fullJitter base draw :=
  Nat.le_add_right _ _

/-- From the fifth attempt on the delay is longer than the refill of a token. -/
theorem steady_delay (h : 4 ≤ attempt.toNat) :
    6500 ≤ fullJitter (baseDelayForAttempt attempt) draw := by
  have hbase : baseDelayForAttempt attempt = 8000 := by
    rw [baseDelayForAttempt, MAX_SHIFT, min_eq_right h]
    rfl
  rw [hbase]
  exact jitterFloor_le_fullJitter 8000

theorem elapsed_nonneg (now since : ℚ) : 0 ≤ elapsed now since := le_max_left _ _

theorem le_elapsed (now since : ℚ) : now - since ≤ elapsed now since := le_max_right _ _

theorem le_refill : min b.tokens BUCKET_CAPACITY ≤ (b.refill now).tokens := by
  have hnonneg := elapsed_nonneg now b.lastRefill
  have hrate : (0 : ℚ) ≤ REFILL_PER_SEC := by norm_num [REFILL_PER_SEC, REFILL_INTERVAL]
  exact min_le_min_right _ (le_add_of_nonneg_right (mul_nonneg hnonneg hrate))

/-- A token comes back within the refill interval. -/
theorem one_le_refill (ht : 0 ≤ b.tokens) (h : b.lastRefill + 6 ≤ now) :
    1 ≤ (b.refill now).tokens := by
  have helapsed := le_elapsed now b.lastRefill
  refine le_min ?_ (by norm_num [BUCKET_CAPACITY])
  have hone : (1 : ℚ) ≤ elapsed now b.lastRefill * REFILL_PER_SEC := by
    norm_num [REFILL_PER_SEC, REFILL_INTERVAL]
    linarith
  linarith

theorem mem_swept (h : (src, b) ∈ (l.sweep now).capped src' victim) : (src, b) ∈ l := by
  rw [Limiter.capped] at h
  split at h
  · exact (List.mem_filter.mp (List.mem_filter.mp h).1).1
  · exact (List.mem_filter.mp h).1

/-- The bucket that is consulted is one of the table or a new one. -/
theorem bucket_mem_or_new : (src, l.bucket src now) ∈ l ∨ l.bucket src now = .new now := by
  rw [Limiter.bucket]
  cases h : l.find? (·.1 = src) with
  | none => exact .inr rfl
  | some x =>
    left
    have hsrc : x.1 = src := by simpa using List.find?_some h
    rw [← hsrc]
    exact List.mem_of_find?_eq_some h

theorem mem_checkAt_self (h : (src, b) ∈ (l.checkAt src now victim).1) :
    b = ((((l.sweep now).capped src victim).bucket src now).refill now).tryConsume.1 := by
  rcases List.mem_cons.mp h with h | h
  · exact (Prod.mk.inj h).2
  · have hne : src ≠ src := by simpa using (List.mem_filter.mp h).2
    exact absurd rfl hne

/-- Another source can only make the table forget a bucket. -/
theorem mem_checkAt_other (hne : src ≠ me) (h : (me, b) ∈ (l.checkAt src now victim).1) :
    (me, b) ∈ l := by
  rcases List.mem_cons.mp h with h | h
  · exact absurd (Prod.mk.inj h).1 hne.symm
  · exact mem_swept (List.mem_filter.mp h).1

/-- The dialer has spent no more than the bucket gives back, attempt by attempt. -/
structure Paced (me : IpAddr) (s : Link) : Prop where
  accepted : ∀ v ∈ s.verdicts, v = true
  tokens : ∀ b, (me, b) ∈ s.limiter → 0 ≤ b.tokens ∧ 5 - s.verdicts.length ≤ b.tokens
  refilled : s.verdicts ≠ [] → ∀ b, (me, b) ∈ s.limiter → b.lastRefill ≤ s.clock
  attempt : min (s.verdicts.length - if s.dialing then 1 else 0) 4 ≤ s.backoff.attempt.toNat
  waits : s.dialing = false → 5 ≤ s.verdicts.length → ∃ r, s.backoff.nextReadyAt = some r ∧
    ∀ b, (me, b) ∈ s.limiter → b.lastRefill + 6 ≤ r

theorem Starts.paced (h : Starts me s) : Paced me s where
  accepted := by
    rw [h.untried]
    exact fun v hv ↦ absurd hv List.not_mem_nil
  tokens := by
    intro b hb
    rw [h.full b hb, h.untried]
    norm_num [BUCKET_CAPACITY]
  refilled := fun hne ↦ absurd h.untried hne
  attempt := by simp [h.untried]
  waits := by
    intro _ hn
    rw [h.untried] at hn
    cases hn

/-- The bucket has a token when the dialer is ready, and keeps enough for the attempts to come. -/
theorem Paced.bucket (hs : Paced me s) (hready : s.backoff.ready now) (hidle : s.dialing = false)
    (hb : (me, b) ∈ s.limiter ∨ b = .new now) :
    1 ≤ (b.refill now).tokens ∧ 5 - (s.verdicts.length : ℚ) ≤ (b.refill now).tokens := by
  have hle : min b.tokens BUCKET_CAPACITY ≤ (b.refill now).tokens := le_refill
  rcases hb with hb | rfl
  · obtain ⟨hnonneg, htokens⟩ := hs.tokens b hb
    have hreserve : 5 - (s.verdicts.length : ℚ) ≤ (b.refill now).tokens := by
      refine (le_min htokens ?_).trans hle
      have : (0 : ℚ) ≤ s.verdicts.length := Nat.cast_nonneg _
      show 5 - (s.verdicts.length : ℚ) ≤ 5
      linarith
    refine ⟨?_, hreserve⟩
    by_cases hn : 5 ≤ s.verdicts.length
    · obtain ⟨r, hr, hwait⟩ := hs.waits hidle hn
      have hnow : r ≤ now := by simpa [PeerBackoff.ready, hr] using hready
      exact one_le_refill hnonneg ((hwait b hb).trans hnow)
    · have : (s.verdicts.length : ℚ) ≤ 4 := by exact_mod_cast (by omega : s.verdicts.length ≤ 4)
      linarith
  · have hfull : (5 : ℚ) ≤ ((Bucket.new now).refill now).tokens := by
      refine le_trans ?_ hle
      show (5 : ℚ) ≤ min 5 5
      norm_num
    have : (0 : ℚ) ≤ s.verdicts.length := Nat.cast_nonneg _
    exact ⟨by linarith, by linarith⟩

theorem Paced.dial (hs : Paced me s) (hready : s.backoff.ready now) (hidle : s.dialing = false) :
    Paced me { s with
      clock := now, dialing := true, limiter := (s.limiter.checkAt me now victim).1
      verdicts := s.verdicts ++ [(s.limiter.checkAt me now victim).2] } := by
  let l := (s.limiter.sweep now).capped me victim
  have hb : (me, l.bucket me now) ∈ s.limiter ∨ l.bucket me now = .new now :=
    bucket_mem_or_new.imp_left mem_swept
  obtain ⟨hone, hreserve⟩ := hs.bucket hready hidle hb
  have hspent : ((l.bucket me now).refill now).tryConsume =
      ({ (l.bucket me now).refill now with
        tokens := ((l.bucket me now).refill now).tokens - 1 }, true) := if_pos hone
  have hok : (s.limiter.checkAt me now victim).2 = true := congrArg Prod.snd hspent
  have hself : ∀ b, (me, b) ∈ (s.limiter.checkAt me now victim).1 →
      b.tokens = ((l.bucket me now).refill now).tokens - 1 ∧ b.lastRefill = now := by
    intro b hb
    have := mem_checkAt_self hb
    rw [this.trans (congrArg Prod.fst hspent)]
    exact ⟨rfl, rfl⟩
  rw [hok]
  constructor
  · intro v hv
    rcases List.mem_append.mp hv with hv | hv
    · exact hs.accepted v hv
    · exact List.mem_singleton.mp hv
  · intro b hb
    rw [(hself b hb).1, List.length_append, List.length_singleton]
    push_cast
    exact ⟨by linarith, by linarith⟩
  · intro _ b hb
    exact (hself b hb).2.le
  · have := hs.attempt
    rw [hidle] at this
    simpa using this
  · intro h
    cases h

theorem Paced.fail (hs : Paced me s) (hnow : s.clock ≤ now) (hdial : s.dialing = true) :
    Paced me { s with
      clock := now, dialing := false, backoff := s.backoff.onAttemptFailed now draw } where
  accepted := hs.accepted
  tokens := hs.tokens
  refilled := fun hne b hb ↦ (hs.refilled hne b hb).trans hnow
  attempt := by
    have hle := hs.attempt
    rw [hdial, if_pos rfl] at hle
    show min (s.verdicts.length - 0) 4 ≤ (if s.backoff.attempt = 0xffffffff then s.backoff.attempt
      else s.backoff.attempt + 1).toNat
    have hlt := s.backoff.attempt.toNat_lt
    split
    case isTrue hmax =>
      rw [hmax, show (0xffffffff : UInt32).toNat = 4294967295 from rfl]
      omega
    case isFalse hmax =>
      have hne : s.backoff.attempt.toNat ≠ 4294967295 := fun h ↦ hmax (UInt32.toNat_inj.mp h)
      rw [UInt32.toNat_add, UInt32.toNat_one]
      omega
  waits := by
    intro _ (hn : 5 ≤ s.verdicts.length)
    refine ⟨_, rfl, fun b hb ↦ ?_⟩
    have hle := hs.attempt
    rw [hdial, if_pos rfl] at hle
    have hsteady : 6500 ≤ fullJitter (baseDelayForAttempt s.backoff.attempt) draw :=
      steady_delay (by omega)
    have hlast : b.lastRefill ≤ now := (hs.refilled (by
      intro hnil
      rw [hnil] at hn
      cases hn) b hb).trans hnow
    have hsteady' : (6500 : ℚ) ≤ fullJitter (baseDelayForAttempt s.backoff.attempt) draw := by
      exact_mod_cast hsteady
    linarith

theorem Paced.other (hs : Paced me s) (hnow : s.clock ≤ now) (hne : src ≠ me) :
    Paced me { s with clock := now, limiter := (s.limiter.checkAt src now victim).1 } where
  accepted := hs.accepted
  tokens := fun b hb ↦ hs.tokens b (mem_checkAt_other hne hb)
  refilled := fun hne' b hb ↦ (hs.refilled hne' b (mem_checkAt_other hne hb)).trans hnow
  attempt := hs.attempt
  waits := by
    intro hidle hn
    obtain ⟨r, hr, hwait⟩ := hs.waits hidle hn
    exact ⟨r, hr, fun b hb ↦ hwait b (mem_checkAt_other hne hb)⟩

theorem Paced.step {a : Act} (hs : Paced me s) (h : step me s a = some s') : Paced me s' := by
  cases a with
  | dial now victim =>
    simp only [Redial.step, Option.ite_none_right_eq_some, Option.some.injEq] at h
    obtain ⟨⟨-, hready, hidle, -⟩, rfl⟩ := h
    exact hs.dial hready hidle
  | fail now draw =>
    simp only [Redial.step, Option.ite_none_right_eq_some, Option.some.injEq] at h
    obtain ⟨⟨hnow, hdial⟩, rfl⟩ := h
    exact hs.fail hnow hdial
  | other src now victim =>
    simp only [Redial.step, Option.ite_none_right_eq_some, Option.some.injEq] at h
    obtain ⟨⟨hnow, hne, -⟩, rfl⟩ := h
    exact hs.other hnow hne

/-- However the jitter falls, and whatever other sources do, the limiter of the peer takes every
attempt of a dialer that waits for its backoff. -/
theorem redials_accepted {s₀ : Link} {l : List Act} (h₀ : Starts me s₀)
    (hr : Run (Redial.step me) Always s₀ l s) : ∀ v ∈ s.verdicts, v = true := by
  have hs : Paced me s := hr.invariant h₀.paced fun _ _ _ hs _ h ↦ hs.step h
  exact hs.accepted

/-- The fastest draws, the first five attempts and two of the steady ones. -/
def fastest : List Act :=
  [.dial 0 (.v4 1), .fail 0 0, .dial (1 / 4) (.v4 1), .fail (1 / 4) 0, .dial (3 / 4) (.v4 1),
    .fail (3 / 4) 0, .dial (7 / 4) (.v4 1), .fail (7 / 4) 0, .dial (15 / 4) (.v4 1),
    .fail (15 / 4) 0, .other (.v4 2) 4 (.v4 1), .dial (41 / 4) (.v4 1), .fail (41 / 4) 0,
    .dial (67 / 4) (.v4 1)]

theorem redials_accepted_fastest :
    ∃ s, Run (Redial.step (.v4 1)) Always ⟨0, {}, false, [], []⟩ fastest s ∧
      s.verdicts.length = 7 ∧ ∀ v ∈ s.verdicts, v = true := by
  have hrun : Run (Redial.step (.v4 1)) Always ⟨0, {}, false, [], []⟩ fastest _ :=
    run_of_isSome (by decide +kernel)
  have hstart : Starts (.v4 1) ⟨0, {}, false, [], []⟩ :=
    ⟨rfl, rfl, fun b hb ↦ absurd hb List.not_mem_nil⟩
  exact ⟨_, hrun, by decide +kernel, redials_accepted hstart hrun⟩

end FluxSync.Redial
