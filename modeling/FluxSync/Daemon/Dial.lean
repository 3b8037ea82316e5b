import FluxSync.Daemon.Backoff
import FluxSync.Daemon.Initiator
import FluxSync.Transport.Slots

/-! ## Redial rounds and the one initiator slot -/

namespace FluxSync.Dial

open Std Runs Daemon Redial

variable {S : Type}

/-- In seconds. -/
def DISCOVERY_CACHE_TTL : ℚ := 120

structure ResolvedPeer where
  addr : SocketAddr
  lastSeen : ℚ

/-- What the redial tick reads. -/
structure World (S : Type) where
  now : ℚ
  syncOn : Bool
  publicKey : Key
  trusted : ExtTreeMap PeerId TrustedPeer
  transport : Transport S
  distinct : transport.DistinctHistories
  persistedPeerAddrs : ExtTreeMap PeerId SocketAddr
  discCache : ExtTreeMap PeerId ResolvedPeer
  backoff : ExtTreeMap PeerId PeerBackoff

namespace World

/-- `g.entry(id).or_insert_with(PeerBackoff::new).ready(now)`. -/
def ready (w : World S) (p : PeerId) : Bool := (w.backoff[p]?.getD {}).ready w.now

def addCandidate (candidates : List SocketAddr) (addr : SocketAddr) : List SocketAddr :=
  if addr ∈ candidates then candidates else candidates ++ [addr]

def addHint (w : World S) (p : PeerId) (candidates : List SocketAddr) : List SocketAddr :=
  match w.discCache[p]? with
  | some hint =>
    if elapsed w.now hint.lastSeen < DISCOVERY_CACHE_TTL then addCandidate candidates hint.addr
    else candidates
  | none => candidates

def historyFor (w : World S) (p : PeerId) : List SocketAddr :=
  match w.transport.connFor p with
  | some slot => (w.transport.conns slot).roamingHistory
  | none => []

def addPersisted (w : World S) (p : PeerId) (candidates : List SocketAddr) : List SocketAddr :=
  match w.persistedPeerAddrs[p]? with
  | some addr => addCandidate candidates addr
  | none => candidates

/-- The dials of the primary probe, when it makes any. -/
def primaryRound (w : World S) (p : PeerId) (peer : TrustedPeer) : Option (List SocketAddr) :=
  if w.transport.live .primary || w.transport.conn.lastPeerAddr.isNone || !w.ready p ||
      decide (peer.staticPub ≤ w.publicKey) then none
  else some (w.addHint p w.transport.conn.roamingHistory)

/-- The dials to one secondary. -/
def secondaryRound (w : World S) (p : PeerId) (peer : TrustedPeer) : Option (List SocketAddr) :=
  if w.transport.hasSessionFor p || !w.ready p || decide (peer.staticPub ≤ w.publicKey) then none
  else some (w.addHint p (w.addPersisted p (w.historyFor p)))

/-- The candidates one tick dials for `p`, each by a task of its own. -/
def redial (w : World S) (p : PeerId) : Option (List SocketAddr) :=
  if w.syncOn then
    match w.trusted[p]? with
    | some peer =>
      if w.transport.conn.lastPeerId = some p then w.primaryRound p peer
      else w.secondaryRound p peer
    | none => none
  else none

/-- `on_attempt_failed` of the peer's backoff. -/
def record (w : World S) (p : PeerId) (draw : UInt64) : World S :=
  { w with backoff := w.backoff.insert p ((w.backoff[p]?.getD {}).onAttemptFailed w.now draw) }

end World

/-- Where a call of `start_initiator` stands. -/
inductive Phase
  | spawned
  /-- It found the slot taken. -/
  | skipped
  | dialing (addr : SocketAddr) (hints : List SocketAddr)
  /-- Its msg1 is out. -/
  | waiting (hints : List SocketAddr)
  | linked
  /-- No hint is left and the slot is clear, but the backoff is not written yet. -/
  | exhausted
  | over
  deriving DecidableEq

/-- A call of `start_initiator` and the addresses it has sent a `HandshakeInit` to. -/
structure Task where
  peer : PeerId
  addrs : List SocketAddr
  phase : Phase := .spawned
  sent : List SocketAddr := []
  deriving DecidableEq

inductive Move
  | enter
  | send (ok : Bool)
  /-- The deadline passed, or the reply was refused. -/
  | fail
  | answer
  /-- `on_attempt_failed`. -/
  | record (draw : UInt64)
  deriving DecidableEq

namespace Task

def next (t : Task) : List SocketAddr → Task
  | addr :: hints => { t with phase := .dialing addr hints }
  | [] => { t with phase := .exhausted }

/-- One move of a task. `free` says that the slot is. -/
def move (t : Task) (free : Bool) : Move → Option Task
  | .enter =>
    match t.phase, t.addrs with
    | .spawned, [] => some { t with phase := .over }
    | .spawned, addr :: hints =>
      some (if free then { t with phase := .dialing addr hints } else { t with phase := .skipped })
    | _, _ => none
  | .send ok =>
    match t.phase with
    | .dialing addr hints =>
      some (if ok then { t with phase := .waiting hints, sent := t.sent ++ [addr] }
        else t.next hints)
    | _ => none
  | .fail =>
    match t.phase with
    | .waiting hints => some (t.next hints)
    | _ => none
  | .answer =>
    match t.phase with
    | .waiting _ => some { t with phase := .linked }
    | _ => none
  | .record _ =>
    match t.phase with
    | .exhausted => some { t with phase := .over }
    | _ => none

def holds (t : Task) : Bool :=
  match t.phase with
  | .dialing _ _ | .waiting _ => true
  | _ => false

def ended (t : Task) : Bool :=
  match t.phase with
  | .skipped | .linked | .over => true
  | _ => false

end Task

/-- The slot is free when a task enters, and a send succeeds. -/
def Move.unhindered (free : Bool) : Move → Bool
  | .enter => free
  | .send ok => ok
  | _ => true

inductive Holder
  | task (i : ℕ)
  | rekey
  deriving DecidableEq

structure Dialer (S : Type) where
  world : World S
  /-- `pending_initiator_tx`, by who filled it. -/
  slot : Option Holder
  tasks : List Task

inductive Act (S : Type)
  /-- Whatever else the daemon does. -/
  | world (w : World S)
  /-- The redial tick comes to a peer. -/
  | redial (p : PeerId)
  /-- A resolved peer or a pair command calls `start_initiator`. -/
  | start (p : PeerId) (addrs : List SocketAddr)
  | move (i : ℕ) (m : Move)
  | rekey
  | rekeyEnd

namespace Dialer

def spawn (s : Dialer S) (tasks : List Task) : Dialer S := { s with tasks := s.tasks ++ tasks }

/-- The tasks of a round, one for each candidate. -/
def spawnRound (s : Dialer S) (p : PeerId) (candidates : List SocketAddr) : Dialer S :=
  s.spawn (candidates.map fun addr ↦ { peer := p, addrs := [addr] })

/-- A task that starts to hold the slot fills it, one that ceases to hold it clears it. -/
def slotAfter (s : Dialer S) (i : ℕ) (t t' : Task) : Option Holder :=
  if t'.holds then some (.task i) else if t.holds then none else s.slot

def step (s : Dialer S) : Act S → Option (Dialer S)
  | .world w => some { s with world := w }
  | .redial p => (s.world.redial p).map (s.spawnRound p)
  | .start p addrs => some (s.spawn [{ peer := p, addrs := addrs }])
  | .move i m =>
    match s.tasks[i]? with
    | some t => (t.move s.slot.isNone m).map fun t' ↦
      { world := match m with
          | .record draw => s.world.record t.peer draw
          | _ => s.world
        slot := s.slotAfter i t t'
        tasks := s.tasks.set i t' }
    | none => none
  | .rekey => if s.slot = none then some { s with slot := some .rekey } else none
  | .rekeyEnd => if s.slot = some .rekey then some { s with slot := none } else none

/-- The addresses task `i` has sent a `HandshakeInit` to. -/
def sentBy (s : Dialer S) (i : ℕ) : List SocketAddr :=
  match s.tasks[i]? with
  | some t => t.sent
  | none => []

def endedAt (s : Dialer S) (i : ℕ) : Bool := s.tasks[i]?.any Task.ended

/-- The tasks from `first` on, `n` of them, enter while the slot is free and can send. -/
def Unhindered (first n : ℕ) (s : Dialer S) : Act S → Prop
  | .move i m => first ≤ i → i < first + n → m.unhindered s.slot.isNone
  | _ => True

end Dialer

variable {w : World S} {p : PeerId} {peer : TrustedPeer} {candidates : List SocketAddr}
  {addr : SocketAddr} {t t' : Task} {free : Bool} {m : Move} {s s' u : Dialer S} {a : Act S}
  {l : List (Act S)} {first i : ℕ}

/-! ### The candidates of a round -/

namespace World

theorem nodup_addCandidate (h : candidates.Nodup) (addr : SocketAddr) :
    (addCandidate candidates addr).Nodup := by
  rw [addCandidate]
  split
  case isTrue => exact h
  case isFalse hmem => exact List.nodup_append.mpr ⟨h, List.nodup_singleton addr, by
    intro x hx y hy
    rw [List.mem_singleton.mp hy]
    exact fun heq ↦ hmem (heq ▸ hx)⟩

theorem nodup_addHint (h : candidates.Nodup) : (w.addHint p candidates).Nodup := by
  rw [addHint]
  split
  · split
    · exact nodup_addCandidate h _
    · exact h
  · exact h

theorem nodup_addPersisted (h : candidates.Nodup) : (w.addPersisted p candidates).Nodup := by
  rw [addPersisted]
  split
  · exact nodup_addCandidate h _
  · exact h

theorem nodup_historyFor : (w.historyFor p).Nodup := by
  rw [historyFor]
  split
  · exact w.distinct _
  · exact List.nodup_nil

/-- A round dials no address twice. -/
theorem nodup_redial (h : w.redial p = some candidates) : candidates.Nodup := by
  rw [redial] at h
  split at h
  case isFalse => cases h
  case isTrue =>
    split at h
    case h_2 => cases h
    case h_1 =>
      split at h
      · rw [primaryRound, Option.ite_none_left_eq_some] at h
        rw [← Option.some.inj h.2]
        exact nodup_addHint (w.distinct .primary)
      · rw [secondaryRound, Option.ite_none_left_eq_some] at h
        rw [← Option.some.inj h.2]
        exact nodup_addHint (nodup_addPersisted nodup_historyFor)

end World

/-! ### One task with one hint -/

/-- The task of `addr` has sent its msg1, or is still about to. -/
inductive OnTrack (addr : SocketAddr) : Task → Prop
  | spawned {p : PeerId} : OnTrack addr ⟨p, [addr], .spawned, []⟩
  | dialing {p : PeerId} : OnTrack addr ⟨p, [addr], .dialing addr [], []⟩
  | waiting {p : PeerId} : OnTrack addr ⟨p, [addr], .waiting [], [addr]⟩
  | linked {p : PeerId} : OnTrack addr ⟨p, [addr], .linked, [addr]⟩
  | exhausted {p : PeerId} : OnTrack addr ⟨p, [addr], .exhausted, [addr]⟩
  | over {p : PeerId} : OnTrack addr ⟨p, [addr], .over, [addr]⟩

/-- The task will not send any more, and never has. -/
inductive Missed : Task → Prop
  | skipped {p : PeerId} {addrs : List SocketAddr} : Missed ⟨p, addrs, .skipped, []⟩
  | exhausted {p : PeerId} {addrs : List SocketAddr} : Missed ⟨p, addrs, .exhausted, []⟩
  | over {p : PeerId} {addrs : List SocketAddr} : Missed ⟨p, addrs, .over, []⟩

theorem OnTrack.move (h : OnTrack addr t) (hm : t.move free m = some t') :
    if m.unhindered free then OnTrack addr t' else Missed t' := by
  cases h <;> cases m <;> cases hm
  case spawned.enter =>
    cases free
    · exact .skipped
    · exact .dialing
  case dialing.send ok =>
    cases ok
    · exact .exhausted
    · exact .waiting
  case waiting.fail => exact .exhausted
  case waiting.answer => exact .linked
  case exhausted.record => exact .over

theorem Missed.move (h : Missed t) (hm : t.move free m = some t') : Missed t' := by
  cases h <;> cases m <;> cases hm
  exact .over

theorem OnTrack.sent (h : OnTrack addr t) (hend : t.ended) : addr ∈ t.sent := by
  cases h <;> first | exact List.mem_singleton_self addr | cases hend

theorem OnTrack.sent_subset (h : OnTrack addr t) : t.sent ⊆ [addr] := by
  cases h <;> simp

theorem Missed.sent (h : Missed t) : t.sent = [] := by cases h <;> rfl

namespace Dialer

/-- A step leaves a task alone or moves it. -/
theorem step_task (h : s.step a = some s') (ht : s.tasks[i]? = some t) :
    s'.tasks[i]? = some t ∨
      ∃ m t', a = .move i m ∧ t.move s.slot.isNone m = some t' ∧ s'.tasks[i]? = some t' := by
  have happend {x : List Task} : (s.tasks ++ x)[i]? = some t :=
    List.getElem?_append_left (List.getElem?_eq_some_iff.mp ht).1 ▸ ht
  cases a with
  | world w =>
    obtain rfl := Option.some.inj h
    exact .inl ht
  | redial p =>
    obtain ⟨candidates, -, rfl⟩ := Option.map_eq_some_iff.mp h
    exact .inl happend
  | start p addrs =>
    obtain rfl := Option.some.inj h
    exact .inl happend
  | move j m =>
    rw [step] at h
    split at h
    case h_2 => cases h
    case h_1 tj htj =>
      obtain ⟨t', hm, rfl⟩ := Option.map_eq_some_iff.mp h
      by_cases hij : j = i
      · subst hij
        obtain rfl := Option.some.inj (ht.symm.trans htj)
        have hlt := (List.getElem?_eq_some_iff.mp ht).1
        exact .inr ⟨m, t', rfl, hm, List.getElem?_set_self hlt⟩
      · exact .inl ((List.getElem?_set_ne hij).trans ht)
  | rekey =>
    rw [step, Option.ite_none_right_eq_some] at h
    obtain rfl := Option.some.inj h.2
    exact .inl ht
  | rekeyEnd =>
    rw [step, Option.ite_none_right_eq_some] at h
    obtain rfl := Option.some.inj h.2
    exact .inl ht

/-- Every task of the round is on track. -/
def RoundOnTrack (first : ℕ) (candidates : List SocketAddr) (s : Dialer S) : Prop :=
  ∀ i addr, candidates[i]? = some addr → ∃ t, s.tasks[first + i]? = some t ∧ OnTrack addr t

/-- Some task of the round has missed its candidate, the others are as they may be. -/
structure RoundMissed (first : ℕ) (candidates : List SocketAddr) (s : Dialer S) : Prop where
  missed : ∃ i < candidates.length, ∃ t, s.tasks[first + i]? = some t ∧ Missed t
  shape : ∀ i addr, candidates[i]? = some addr →
    ∃ t, s.tasks[first + i]? = some t ∧ (OnTrack addr t ∨ Missed t)

theorem roundOnTrack_spawnRound :
    RoundOnTrack s.tasks.length candidates (s.spawnRound p candidates) := by
  intro i addr haddr
  refine ⟨⟨p, [addr], .spawned, []⟩, ?_, .spawned⟩
  show (s.tasks ++ _)[s.tasks.length + i]? = _
  rw [List.getElem?_append_right (Nat.le_add_right _ _), Nat.add_sub_cancel_left,
    List.getElem?_map, haddr]
  rfl

/-- A hindered step is a move of a task of the round. -/
theorem not_unhindered {n : ℕ} (h : ¬ Unhindered first n s a) :
    ∃ i < n, ∃ m, a = .move (first + i) m ∧ m.unhindered s.slot.isNone = false := by
  cases a with
  | move j m =>
    simp only [Unhindered, Classical.not_imp, Bool.not_eq_true] at h
    obtain ⟨hle, hlt, hm⟩ := h
    obtain ⟨i, rfl⟩ := Nat.exists_eq_add_of_le hle
    exact ⟨i, Nat.add_lt_add_iff_left.mp hlt, m, rfl, hm⟩
  | _ => exact absurd trivial h

theorem RoundOnTrack.unhindered (hr : RoundOnTrack first candidates s)
    (ha : Unhindered first candidates.length s a) (h : s.step a = some s') :
    RoundOnTrack first candidates s' := by
  intro i addr haddr
  obtain ⟨t, ht, htrack⟩ := hr i addr haddr
  rcases step_task h ht with h' | ⟨m, t', rfl, hm, ht'⟩
  · exact ⟨t, h', htrack⟩
  · have hlt : i < candidates.length := (List.getElem?_eq_some_iff.mp haddr).1
    have hfree : m.unhindered s.slot.isNone :=
      ha (Nat.le_add_right first i) (Nat.add_lt_add_left hlt first)
    refine ⟨t', ht', ?_⟩
    simpa only [hfree, if_true] using htrack.move hm

theorem RoundMissed.step (hr : RoundMissed first candidates s) (h : s.step a = some s') :
    RoundMissed first candidates s' := by
  constructor
  · obtain ⟨i, hlt, t, ht, hmiss⟩ := hr.missed
    rcases step_task h ht with h' | ⟨m, t', rfl, hm, ht'⟩
    · exact ⟨i, hlt, t, h', hmiss⟩
    · exact ⟨i, hlt, t', ht', hmiss.move hm⟩
  · intro i addr haddr
    obtain ⟨t, ht, hshape⟩ := hr.shape i addr haddr
    rcases step_task h ht with h' | ⟨m, t', rfl, hm, ht'⟩
    · exact ⟨t, h', hshape⟩
    · refine ⟨t', ht', ?_⟩
      rcases hshape with htrack | hmiss
      · have := htrack.move hm
        split at this
        · exact .inl this
        · exact .inr this
      · exact .inr (hmiss.move hm)

theorem RoundOnTrack.hindered (hr : RoundOnTrack first candidates s)
    (ha : ¬ Unhindered first candidates.length s a) (h : s.step a = some s') :
    RoundMissed first candidates s' := by
  constructor
  · obtain ⟨i, hlt, m, rfl, hm⟩ := not_unhindered ha
    obtain ⟨t, ht, htrack⟩ := hr i _ (List.getElem?_eq_getElem hlt)
    rw [Dialer.step, ht] at h
    obtain ⟨t', hmove, rfl⟩ := Option.map_eq_some_iff.mp h
    refine ⟨i, hlt, t', List.getElem?_set_self (List.getElem?_eq_some_iff.mp ht).1, ?_⟩
    simpa only [hm, Bool.false_eq_true, if_false] using htrack.move hmove
  · intro i addr haddr
    obtain ⟨t, ht, htrack⟩ := hr i addr haddr
    rcases step_task h ht with h' | ⟨m, t', rfl, hm, ht'⟩
    · exact ⟨t, h', .inl htrack⟩
    · refine ⟨t', ht', ?_⟩
      have := htrack.move hm
      split at this
      · exact .inl this
      · exact .inr this

/-- The round stays on track as long as nothing hinders it, and no longer. -/
theorem round_cases (h₀ : RoundOnTrack first candidates s) (h : Run Dialer.step Always s l u) :
    (Run Dialer.step (Unhindered first candidates.length) s l u ∧
      RoundOnTrack first candidates u) ∨
    (¬ Run Dialer.step (Unhindered first candidates.length) s l u ∧
      RoundMissed first candidates u) := by
  induction h with
  | nil => exact .inl ⟨.nil, h₀⟩
  | @snoc l t u a hrun _ hstep ih =>
    rcases ih with ⟨hr, htrack⟩ | ⟨hr, hmiss⟩
    · by_cases ha : Unhindered first candidates.length t a
      · exact .inl ⟨.snoc hr ha hstep, htrack.unhindered ha hstep⟩
      · refine .inr ⟨fun hr' ↦ ha ?_, htrack.hindered ha hstep⟩
        obtain ⟨t', hr'', ha', -⟩ := run_snoc.mp hr'
        exact hr''.deterministic hr ▸ ha'
    · refine .inr ⟨fun hr' ↦ hr ?_, hmiss.step hstep⟩
      obtain ⟨t', hr'', -, -⟩ := run_snoc.mp hr'
      exact hr''.deterministic hrun ▸ hr''

/-- Every candidate of the round has been sent a `HandshakeInit` by a task of the round. -/
def Covered (first : ℕ) (candidates : List SocketAddr) (s : Dialer S) : Prop :=
  ∀ addr ∈ candidates, ∃ i < candidates.length, addr ∈ s.sentBy (first + i)

instance (s : Dialer S) : Decidable (Covered first candidates s) :=
  inferInstanceAs (Decidable (∀ addr ∈ candidates, ∃ i < candidates.length, _ ∈ _))

theorem sentBy_eq (ht : s.tasks[i]? = some t) : s.sentBy i = t.sent := by rw [sentBy, ht]

theorem RoundOnTrack.covered (hr : RoundOnTrack first candidates s)
    (hend : ∀ i < candidates.length, s.endedAt (first + i)) : Covered first candidates s := by
  intro addr haddr
  obtain ⟨i, hlt, rfl⟩ := List.mem_iff_getElem.mp haddr
  obtain ⟨t, ht, htrack⟩ := hr i _ (List.getElem?_eq_getElem hlt)
  have hended : t.ended := by simpa [endedAt, ht] using hend i hlt
  refine ⟨i, hlt, ?_⟩
  rw [sentBy_eq ht]
  exact htrack.sent hended

theorem RoundMissed.not_covered (hr : RoundMissed first candidates s) (hnodup : candidates.Nodup) :
    ¬ Covered first candidates s := by
  intro hcov
  obtain ⟨i, hlt, t, ht, hmiss⟩ := hr.missed
  obtain ⟨j, hj, hsent⟩ := hcov candidates[i] (List.getElem_mem hlt)
  obtain ⟨t', ht', hshape⟩ := hr.shape j _ (List.getElem?_eq_getElem hj)
  rw [sentBy_eq ht'] at hsent
  rcases hshape with htrack | hmiss'
  · have heq : candidates[i] = candidates[j] := List.mem_singleton.mp (htrack.sent_subset hsent)
    obtain rfl : i = j := (hnodup.getElem_inj_iff).mp heq
    obtain rfl := Option.some.inj (ht.symm.trans ht')
    rw [hmiss.sent] at hsent
    exact absurd hsent List.not_mem_nil
  · rw [hmiss'.sent] at hsent
    exact absurd hsent List.not_mem_nil

/-- A round that has ended has dialed every candidate exactly when no task of it found the slot
taken and every send succeeded. -/
theorem covered_iff (hround : s.world.redial p = some candidates)
    (h : Run Dialer.step Always (s.spawnRound p candidates) l u)
    (hend : ∀ i < candidates.length, u.endedAt (s.tasks.length + i)) :
    Covered s.tasks.length candidates u ↔
      Run Dialer.step (Unhindered s.tasks.length candidates.length)
        (s.spawnRound p candidates) l u := by
  rcases round_cases roundOnTrack_spawnRound h with ⟨hr, htrack⟩ | ⟨hr, hmiss⟩
  · exact iff_of_true (htrack.covered hend) hr
  · exact iff_of_false (hmiss.not_covered (World.nodup_redial hround)) hr

end Dialer

/-- A secondary with a persisted address and a fresh discovery hint. -/
def stranded : World Unit where
  now := 10
  syncOn := true
  publicKey := 1
  trusted := {(5, ⟨7, "desk"⟩)}
  transport := .new 0
  distinct := Transport.distinctHistories_new
  persistedPeerAddrs := {(5, Initiator.lan)}
  discCache := {(5, ⟨Initiator.tailnet, 4⟩)}
  backoff := ∅

def idle : Dialer Unit := ⟨stranded, none, []⟩

theorem redial_stranded : stranded.redial 5 = some [Initiator.lan, Initiator.tailnet] := by
  decide +kernel

/-- The second task starts once the first has given up. -/
def oneByOne : List (Act Unit) :=
  [.move 0 .enter, .move 0 (.send true), .move 0 .fail, .move 1 .enter, .move 0 (.record 0),
    .move 1 (.send true), .move 1 .fail, .move 1 (.record 0)]

theorem covered_iff_oneByOne :
    ∃ u, Run Dialer.step Always (idle.spawnRound 5 [Initiator.lan, Initiator.tailnet]) oneByOne u ∧
      (Dialer.Covered 0 [Initiator.lan, Initiator.tailnet] u ↔
        Run Dialer.step (Dialer.Unhindered 0 2)
          (idle.spawnRound 5 [Initiator.lan, Initiator.tailnet]) oneByOne u) := by
  have hrun : Run Dialer.step Always _ oneByOne _ :=
    run_of_isSome (s := idle.spawnRound 5 [Initiator.lan, Initiator.tailnet]) (by decide +kernel)
  exact ⟨_, hrun, Dialer.covered_iff (s := idle) redial_stranded hrun (by decide +kernel)⟩

/-- Both tasks of the round start at once. -/
def together : List (Act Unit) :=
  [.move 0 .enter, .move 1 .enter, .move 0 (.send true), .move 0 .fail, .move 0 (.record 0)]

theorem second_candidate_skipped :
    ∃ u, Run Dialer.step Always idle (.redial 5 :: together) u ∧
      (∀ i < 2, u.endedAt i) ∧ u.slot = none ∧ Initiator.lan ∈ u.sentBy 0 ∧
      ¬ Dialer.Covered 0 [Initiator.lan, Initiator.tailnet] u := by
  have hrun : Run Dialer.step Always idle (.redial 5 :: together) _ :=
    run_of_isSome (by decide +kernel)
  exact ⟨_, hrun, by decide +kernel⟩

end FluxSync.Dial
