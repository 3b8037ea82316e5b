import FluxSync.Core.Text
import FluxSync.Pipeline.Node

namespace FluxSync.Pipeline

open Std Mesh Runs

def RESYNC_PULL_TIMEOUT : ℕ := 60000

def MAX_RESYNC_HASHES : ℕ := 32

def MAX_PENDING_PULLS_PER_PEER : ℕ := 4 * MAX_RESYNC_HASHES

/-- The hashes asked of a peer, each with the time of the asking in milliseconds. -/
abbrev Asked := ExtTreeMap ContentHash ℕ

abbrev PendingPulls := ExtTreeMap PeerId Asked

/-- `asked_at.elapsed() < RESYNC_PULL_TIMEOUT`. -/
def fresh (now askedAt : ℕ) : Bool := now - askedAt < RESYNC_PULL_TIMEOUT

def missingResyncHashes (offered history outbox cleared pending : List String) : List String :=
  (offered.filter fun h ↦ !history.contains h && !outbox.contains h && !cleared.contains h &&
    !pending.contains h).take MAX_RESYNC_HASHES

def inFlightPullHashes (now : ℕ) (pulls : PendingPulls) : List String :=
  pulls.toList.flatMap fun e ↦ (e.2.toList.filter fun x ↦ fresh now x.2).map fun x ↦ hex32 x.1

/-- A peer's map goes when it is empty. -/
def putBack (pulls : PendingPulls) (p : PeerId) (perPeer : Asked) : PendingPulls :=
  if perPeer.isEmpty then pulls.erase p else pulls.insert p perPeer

def track (now : ℕ) : Asked → List String → Asked × List String
  | perPeer, [] => (perPeer, [])
  | perPeer, hexHash :: rest =>
    if MAX_PENDING_PULLS_PER_PEER ≤ perPeer.size then (perPeer, [])
    else
      match hex32Decode hexHash with
      | none => track now perPeer rest
      | some hash =>
        let (perPeer, tracked) := track now (perPeer.insert hash now) rest
        (perPeer, hexHash :: tracked)

def trackPendingPulls (now : ℕ) (pulls : PendingPulls) (p : PeerId) (missing : List String) :
    PendingPulls × List String :=
  let perPeer := (pulls.getD p ∅).filter fun _ askedAt ↦ fresh now askedAt
  let (perPeer, tracked) := track now perPeer missing
  (putBack pulls p perPeer, tracked)

def takePendingPull (now : ℕ) (pulls : PendingPulls) (p : PeerId) (hash : ContentHash) :
    PendingPulls × Bool :=
  match pulls[p]? with
  | none => (pulls, false)
  | some perPeer =>
    let perPeer := perPeer.filter fun _ askedAt ↦ fresh now askedAt
    (putBack pulls p (perPeer.erase hash), perPeer.contains hash)

/-- Why a peer has put an item on the wire. -/
inductive Cause
  /-- A user's copy, or another peer's item that is passed on. -/
  | copy
  /-- A `ResyncPull` of this daemon. -/
  | answer
  deriving DecidableEq

structure Sent where
  item : CompleteItem
  cause : Cause

/-- A pull for the hash went to the peer at this time, or an item with the hash
was seen for the first time from the peer. -/
structure Mark where
  peer : PeerId
  hash : ContentHash
  pulledAt : Option ℕ

/-- A `FrameReceivedClipboard` that was enqueued. -/
structure Handed where
  item : CompleteItem
  resync : Bool
  cause : Cause

/-- The receive loop's resync state, and what has happened. -/
structure Puller where
  now : ℕ := 0
  meshSeen : SeenSet := {}
  pendingPulls : PendingPulls := ∅
  sent : List Sent := []
  log : List Mark := []
  handed : List Handed := []

/-- What the daemon holds or has cleared when an offer comes. -/
structure Held where
  history : List String := []
  outbox : List String := []
  cleared : List String := []

inductive Traffic
  | tick (ms : ℕ)
  | copy (item : CompleteItem)
  | serve (item : CompleteItem)
  /-- The frames of an item that was sent are complete here, for the first time or
  again; `room` tells whether the event channel has a free place. -/
  | deliver (i : ℕ) (room : Bool)
  /-- The pulls are recorded `later` milliseconds after the ones in flight were read. -/
  | offer (p : PeerId) (hashes : List String) (held : Held) (later : ℕ)

namespace Puller

variable (env : Env)

/-- The daemon has sent the peer a pull for the hash. -/
def Pulled (s : Puller) (p : PeerId) (hash : ContentHash) : Prop :=
  ∃ m ∈ s.log, m.peer = p ∧ m.hash = hash ∧ m.pulledAt.isSome

instance (s : Puller) (p : PeerId) (hash : ContentHash) : Decidable (s.Pulled p hash) :=
  inferInstanceAs (Decidable (∃ m ∈ s.log, m.peer = p ∧ m.hash = hash ∧ m.pulledAt.isSome))

def resyncOffer (s : Puller) (p : PeerId) (hashes : List String) (held : Held) (later : ℕ) :
    Puller :=
  let missing := missingResyncHashes hashes held.history held.outbox held.cleared
    (inFlightPullHashes s.now s.pendingPulls)
  let now := s.now + later
  let (pendingPulls, tracked) := trackPendingPulls now s.pendingPulls p missing
  { s with
    now, pendingPulls
    log := (tracked.filterMap hex32Decode).map (⟨p, ·, some now⟩) ++ s.log }

def receive (s : Puller) (x : Sent) (room : Bool) : Puller :=
  let item := x.item
  if !verifyContentHash env item.kind item.payload item.hash then s
  else
    let (meshSeen, firstSight) := s.meshSeen.observe ⟨item.origin, item.eventSeq⟩
    if !firstSight then { s with meshSeen }
    else
      let (pendingPulls, resync) := takePendingPull s.now s.pendingPulls item.source item.hash
      { s with
        meshSeen, pendingPulls
        log := ⟨item.source, item.hash, none⟩ :: s.log
        handed := if room then ⟨item, resync, x.cause⟩ :: s.handed else s.handed }

/-- A peer serves only the hashes it was asked for. -/
def step (s : Puller) : Traffic → Option Puller
  | .tick ms => some { s with now := s.now + ms }
  | .copy item => some { s with sent := s.sent ++ [⟨item, .copy⟩] }
  | .serve item =>
    if s.Pulled item.source item.hash then some { s with sent := s.sent ++ [⟨item, .answer⟩] }
    else none
  | .deliver i room => s.sent[i]?.map (s.receive env · room)
  | .offer p hashes held later => some (s.resyncOffer p hashes held later)

/-- A flagged item was sent in answer to a pull for its hash to the peer it came from. -/
def Accurate (s : Puller) : Prop :=
  ∀ x ∈ s.handed, x.resync = true → x.cause = .answer ∧ s.Pulled x.item.source x.item.hash

instance (s : Puller) : Decidable s.Accurate := List.decidableBAll _ _

/-- The last pull for the hash to the peer, unless an item with the hash has been seen
for the first time from the peer since. -/
def unanswered (log : List Mark) (p : PeerId) (hash : ContentHash) : Option ℕ :=
  (log.find? fun m ↦ m.peer = p ∧ m.hash = hash).bind (·.pulledAt)

/-- A copy is first seen only while no pull to that peer for its hash is unanswered
and younger than the timeout. -/
def CopiesUnasked (s : Puller) : Traffic → Prop
  | .deliver i true => ∀ x ∈ s.sent[i]?, x.cause = .copy →
      verifyContentHash env x.item.kind x.item.payload x.item.hash →
      (s.meshSeen.observe ⟨x.item.origin, x.item.eventSeq⟩).2 →
      ((unanswered s.log x.item.source x.item.hash).filter (fresh s.now)) = none
  | _ => True

variable {env : Env} {s s' : Puller} {p q : PeerId} {hash h : ContentHash} {now ms : ℕ}
  {log marks : List Mark} {pulls : PendingPulls} {o o' : Option ℕ}

def pullOf (pulls : PendingPulls) (p : PeerId) (hash : ContentHash) : Option ℕ :=
  pulls[p]?.bind (·[hash]?)

theorem fresh_of_later (hf : fresh (now + ms) t = true) : fresh now t = true := by
  simp only [fresh, decide_eq_true_eq] at hf ⊢
  omega

/-- What has timed out stays so. -/
theorem live_later (h : o.filter (fresh now) = o'.filter (fresh now)) :
    o.filter (fresh (now + ms)) = o'.filter (fresh (now + ms)) := by
  have hlater (o : Option ℕ) : o.filter (fresh (now + ms)) =
      (o.filter (fresh now)).filter (fresh (now + ms)) := by
    cases o with
    | none => rfl
    | some t =>
      by_cases hf : fresh (now + ms) t
      · simp [Option.filter, hf, fresh_of_later hf]
      · by_cases hg : fresh now t <;> simp [Option.filter, hf, hg]
  rw [hlater o, hlater o', h]

theorem pullOf_putBack {perPeer : Asked} : pullOf (putBack pulls p perPeer) q h =
    if p = q then perPeer[h]? else pullOf pulls q h := by
  unfold putBack pullOf
  split
  · rename_i hempty
    rw [OrderedMap.lookup_erase]
    split
    · rw [Option.bind_none]
      rw [ExtTreeMap.isEmpty_iff] at hempty
      rw [hempty]
      rfl
    · rfl
  · rw [OrderedMap.lookup_insert]
    split
    · rfl
    · rfl

theorem track_lookup {perPeer : Asked} {missing : List String} :
    (track now perPeer missing).1[h]? =
      if h ∈ (track now perPeer missing).2.filterMap hex32Decode then some now
      else perPeer[h]? := by
  induction missing generalizing perPeer with
  | nil => simp [track]
  | cons x rest ih =>
    rw [track]
    split
    · simp
    · split
      · exact ih
      · rename_i hash hx
        simp only [ih, OrderedMap.lookup_insert, List.filterMap_cons, hx, List.mem_cons]
        by_cases hh : hash = h
        · simp [hh]
        · simp [hh, Ne.symm hh]

theorem lookup_sweep {perPeer : Asked} :
    (perPeer.filter fun _ askedAt ↦ fresh now askedAt)[h]? = perPeer[h]?.filter (fresh now) :=
  ExtTreeMap.getElem?_filter'

/-- What a registration leaves: the hashes it hands out, at the current time, and
of the rest what has not timed out. -/
theorem pullOf_track {missing : List String} :
    pullOf (trackPendingPulls now pulls p missing).1 q h =
      if p = q then
        if h ∈ (trackPendingPulls now pulls p missing).2.filterMap hex32Decode then some now
        else (pullOf pulls p h).filter (fresh now)
      else pullOf pulls q h := by
  have hold : (pulls.getD p ∅)[h]? = pullOf pulls p h := by
    rw [pullOf, ExtTreeMap.getD_eq_getD_getElem?]
    cases pulls[p]? with
    | none => rfl
    | some perPeer => rfl
  show pullOf (putBack pulls p _) q h = _
  rw [pullOf_putBack, track_lookup, lookup_sweep, hold]
  rfl

theorem pullOf_take : pullOf (takePendingPull now pulls p hash).1 q h =
    if p = q then if hash = h then none else (pullOf pulls p h).filter (fresh now)
    else pullOf pulls q h := by
  unfold takePendingPull
  split
  · rename_i hnone
    have hp : pullOf pulls p h = none := by rw [pullOf, hnone, Option.bind_none]
    by_cases hq : p = q
    · subst hq
      simp [hp]
    · simp [hq]
  · rename_i perPeer hsome
    have hp : pullOf pulls p h = perPeer[h]? := by rw [pullOf, hsome, Option.bind_some]
    rw [pullOf_putBack, OrderedMap.lookup_erase, lookup_sweep, hp]

/-- What is live in the table are the unanswered pulls. -/
def Agrees (now : ℕ) (pulls : PendingPulls) (log : List Mark) : Prop :=
  ∀ p h, (pullOf pulls p h).filter (fresh now) = (unanswered log p h).filter (fresh now)

theorem Agrees.later (ha : Agrees now pulls log) (ms : ℕ) : Agrees (now + ms) pulls log :=
  fun p h ↦ live_later (ha p h)

theorem unanswered_cons {m : Mark} : unanswered (m :: log) q h =
    if m.peer = q ∧ m.hash = h then m.pulledAt else unanswered log q h := by
  unfold unanswered
  by_cases hm : m.peer = q ∧ m.hash = h
  · rw [List.find?_cons_of_pos (by simpa using hm), if_pos hm]
    rfl
  · rw [List.find?_cons_of_neg (by simpa using hm), if_neg hm]

theorem unanswered_pulled {hashes : List ContentHash} :
    unanswered (hashes.map (⟨p, ·, some now⟩) ++ log) q h =
      if p = q ∧ h ∈ hashes then some now else unanswered log q h := by
  induction hashes with
  | nil => simp
  | cons x rest ih =>
    rw [List.map_cons, List.cons_append, unanswered_cons, ih]
    by_cases hp : p = q
    · by_cases hx : x = h
      · simp [hp, hx]
      · simp [hp, hx, Ne.symm hx]
    · simp [hp]

theorem Agrees.track (ha : Agrees now pulls log) (missing : List String) :
    Agrees now (trackPendingPulls now pulls p missing).1
      (((trackPendingPulls now pulls p missing).2.filterMap hex32Decode).map (⟨p, ·, some now⟩) ++
        log) := by
  intro q h
  rw [unanswered_pulled, pullOf_track]
  by_cases hp : p = q
  · subst hp
    rw [if_pos rfl]
    split
    · rename_i hh
      rw [if_pos ⟨rfl, hh⟩]
    · rename_i hh
      rw [if_neg (fun hc ↦ hh hc.2), ha p h, Option.filter_filter]
      simp only [Bool.and_self]
  · rw [if_neg hp, if_neg (fun hc ↦ hp hc.1)]
    exact ha q h

theorem take_snd : (takePendingPull now pulls p hash).2 =
    ((pullOf pulls p hash).filter (fresh now)).isSome := by
  unfold takePendingPull pullOf
  cases pulls[p]? with
  | none => rfl
  | some perPeer =>
    rw [Option.bind_some, ← lookup_sweep]
    exact ExtTreeMap.isSome_getElem?_eq_contains.symm

theorem Agrees.take (ha : Agrees now pulls log) (p : PeerId) (hash : ContentHash) :
    Agrees now (takePendingPull now pulls p hash).1 (⟨p, hash, none⟩ :: log) := by
  intro q h
  rw [unanswered_cons, pullOf_take]
  by_cases hp : p = q
  · subst hp
    by_cases hh : hash = h
    · simp [hh]
    · rw [if_pos rfl, if_neg hh, if_neg (fun hc ↦ hh hc.2), ← ha p h, Option.filter_filter]
      simp only [Bool.and_self]
  · rw [if_neg hp, if_neg (fun hc ↦ hp hc.1)]
    exact ha q h

/-- The table agrees with what happened, and only peers that were asked have served. -/
structure Kept (s : Puller) : Prop where
  agrees : Agrees s.now s.pendingPulls s.log
  served : ∀ x ∈ s.sent, x.cause = .answer → s.Pulled x.item.source x.item.hash

theorem Pulled.mono (hp : s.Pulled p hash) (hl : s'.log = marks ++ s.log) : s'.Pulled p hash := by
  obtain ⟨m, hm, h⟩ := hp
  exact ⟨m, by rw [hl]; exact List.mem_append_right marks hm, h⟩

theorem Pulled.cons {m : Mark} (hp : s.Pulled p hash) (hl : s'.log = m :: s.log) :
    s'.Pulled p hash :=
  hp.mono (hl.trans List.singleton_append.symm)

theorem Kept.receive {x : Sent} {room : Bool} (hk : s.Kept) : (s.receive env x room).Kept := by
  simp only [Puller.receive]
  split
  · exact hk
  · split
    · exact ⟨hk.agrees, hk.served⟩
    · refine ⟨hk.agrees.take _ _, fun y hy hc ↦ ?_⟩
      exact (hk.served y hy hc).cons rfl

theorem Kept.step {a : Traffic} (hk : s.Kept) (hs : s.step env a = some s') : s'.Kept := by
  cases a with
  | tick ms =>
    obtain rfl := Option.some.inj hs
    exact ⟨hk.agrees.later ms, hk.served⟩
  | copy item =>
    obtain rfl := Option.some.inj hs
    refine ⟨hk.agrees, fun x hx hc ↦ ?_⟩
    rcases List.mem_append.mp hx with hx | hx
    · exact hk.served x hx hc
    · obtain rfl := List.mem_singleton.mp hx
      cases hc
  | serve item =>
    obtain ⟨hpulled, hs⟩ := Option.ite_none_right_eq_some.mp hs
    obtain rfl := Option.some.inj hs
    refine ⟨hk.agrees, fun x hx hc ↦ ?_⟩
    rcases List.mem_append.mp hx with hx | hx
    · exact hk.served x hx hc
    · obtain rfl := List.mem_singleton.mp hx
      exact hpulled
  | deliver i room =>
    obtain ⟨x, -, rfl⟩ := Option.map_eq_some_iff.mp hs
    exact hk.receive
  | offer p hashes held later =>
    obtain rfl := Option.some.inj hs
    exact ⟨(hk.agrees.later later).track _, fun x hx hc ↦ (hk.served x hx hc).mono rfl⟩

/-- A delivery is flagged when the pull for it is unanswered. -/
theorem receive_handed {x : Sent} (room : Bool) (hk : s.Kept)
    (hv : verifyContentHash env x.item.kind x.item.payload x.item.hash = true)
    (hfirst : (s.meshSeen.observe ⟨x.item.origin, x.item.eventSeq⟩).2 = true) :
    (s.receive env x room).handed =
      if room then
        ⟨x.item, ((unanswered s.log x.item.source x.item.hash).filter (fresh s.now)).isSome,
          x.cause⟩ :: s.handed
      else s.handed := by
  simp only [receive, hv, hfirst, take_snd, hk.agrees x.item.source x.item.hash, Bool.not_true,
    Bool.false_eq_true, if_false]

theorem receive_unchanged {x : Sent} (room : Bool)
    (h : ¬ (verifyContentHash env x.item.kind x.item.payload x.item.hash = true ∧
      (s.meshSeen.observe ⟨x.item.origin, x.item.eventSeq⟩).2 = true)) :
    (s.receive env x room).handed = s.handed ∧ (s.receive env x room).log = s.log := by
  simp only [receive]
  split
  · exact ⟨rfl, rfl⟩
  · rename_i hv
    split
    · exact ⟨rfl, rfl⟩
    · rename_i hfirst
      exact absurd ⟨by simpa using hv, by simpa using hfirst⟩ h

theorem pulled_of_unanswered {t : ℕ} (h : unanswered s.log p hash = some t) :
    s.Pulled p hash := by
  obtain ⟨m, hm, ht⟩ := Option.bind_eq_some_iff.mp h
  have hmatch := List.find?_some hm
  simp only [decide_eq_true_eq] at hmatch
  exact ⟨m, List.mem_of_find?_eq_some hm, hmatch.1, hmatch.2, by rw [ht]; rfl⟩

theorem Accurate.of_eq (marks : List Mark) (h : s.Accurate) (hh : s'.handed = s.handed)
    (hl : s'.log = marks ++ s.log) : s'.Accurate := by
  intro x hx hr
  rw [hh] at hx
  obtain ⟨hc, hp⟩ := h x hx hr
  exact ⟨hc, hp.mono hl⟩

/-- A first sighting that is enqueued keeps the flags accurate unless it is a copy with an
unanswered pull. -/
theorem accurate_receive {x : Sent} (hk : s.Kept) (ha : s.Accurate)
    (hv : verifyContentHash env x.item.kind x.item.payload x.item.hash = true)
    (hfirst : (s.meshSeen.observe ⟨x.item.origin, x.item.eventSeq⟩).2 = true) :
    (s.receive env x true).Accurate ↔ (x.cause = .copy →
      (unanswered s.log x.item.source x.item.hash).filter (fresh s.now) = none) := by
  have hlog : (s.receive env x true).log = [⟨x.item.source, x.item.hash, none⟩] ++ s.log := by
    simp only [receive, hv, hfirst, Bool.not_true, Bool.false_eq_true, if_false]
    rfl
  have hhanded := receive_handed true hk hv hfirst
  rw [if_pos rfl] at hhanded
  constructor
  · intro hacc hcopy
    by_contra hlive
    have hsome : ((unanswered s.log x.item.source x.item.hash).filter (fresh s.now)).isSome :=
      Option.isSome_iff_ne_none.mpr hlive
    obtain ⟨hc, -⟩ := hacc _ (by rw [hhanded]; exact List.mem_cons_self) hsome
    rw [hcopy] at hc
    cases hc
  · intro hno y hy hr
    rw [hhanded] at hy
    rcases List.mem_cons.mp hy with rfl | hy
    · obtain ⟨t, ht⟩ := Option.isSome_iff_exists.mp hr
      refine ⟨?_, (pulled_of_unanswered (Option.filter_eq_some_iff.mp ht).1).mono hlog⟩
      cases hc : x.cause with
      | answer => rfl
      | copy =>
        rw [hno hc] at ht
        cases ht
    · obtain ⟨hc, hp⟩ := ha y hy hr
      exact ⟨hc, hp.mono hlog⟩

theorem accurate_step {a : Traffic} (hk : s.Kept) (ha : s.Accurate)
    (hs : s.step env a = some s') : s'.Accurate ↔ s.CopiesUnasked env a := by
  cases a with
  | tick ms =>
    obtain rfl := Option.some.inj hs
    exact iff_of_true ha trivial
  | copy item =>
    obtain rfl := Option.some.inj hs
    exact iff_of_true ha trivial
  | serve item =>
    obtain ⟨-, hs⟩ := Option.ite_none_right_eq_some.mp hs
    obtain rfl := Option.some.inj hs
    exact iff_of_true ha trivial
  | offer p hashes held later =>
    obtain rfl := Option.some.inj hs
    exact iff_of_true (ha.of_eq _ rfl rfl) trivial
  | deliver i room =>
    obtain ⟨x, hx, rfl⟩ := Option.map_eq_some_iff.mp hs
    by_cases hsight : verifyContentHash env x.item.kind x.item.payload x.item.hash = true ∧
        (s.meshSeen.observe ⟨x.item.origin, x.item.eventSeq⟩).2 = true
    · obtain ⟨hv, hfirst⟩ := hsight
      cases room with
      | true =>
        rw [accurate_receive hk ha hv hfirst]
        simp [CopiesUnasked, hx, hv, hfirst]
      | false =>
        refine iff_of_true (ha.of_eq [⟨x.item.source, x.item.hash, none⟩] ?_ ?_) trivial
        · rw [receive_handed false hk hv hfirst, if_neg (by simp)]
        · simp only [receive, hv, hfirst, Bool.not_true, Bool.false_eq_true, if_false]
          rfl
    · obtain ⟨hhanded, hlog⟩ := receive_unchanged room hsight
      refine iff_of_true (ha.of_eq [] hhanded hlog) ?_
      cases room with
      | true =>
        intro y hy _ hv hfirst
        obtain rfl : x = y := Option.some.inj (hx.symm.trans hy)
        exact absurd ⟨hv, hfirst⟩ hsight
      | false => trivial

theorem kept_start : Kept {} where
  agrees := fun p h ↦ by simp [pullOf, unanswered]
  served := by simp

theorem kept_run {l : List Traffic} (h : Run (step env) Always {} l s) : s.Kept :=
  h.invariant kept_start fun _ _ _ hk _ hs ↦ hk.step hs

/-- The flags are accurate in every state of a run exactly when no copy is first seen while a
pull for its hash to that peer is unanswered. -/
theorem flags_accurate_iff {l : List Traffic} (h : Run (step env) Always {} l s) :
    (∀ l' t, l' <+: l → Run (step env) Always {} l' t → t.Accurate) ↔
      Run (step env) (CopiesUnasked env) {} l s := by
  have hstep : ∀ (t : Puller) (a : Traffic) (u : Puller), t.Kept ∧ t.Accurate → t.step env a = some u →
      (u.Kept ∧ u.Accurate ↔ t.CopiesUnasked env a) := by
    intro t a u ht hu
    rw [← accurate_step ht.1 ht.2 hu]
    exact ⟨And.right, fun ha ↦ ⟨ht.1.step hu, ha⟩⟩
  have hstart : Kept {} ∧ Accurate {} := ⟨kept_start, by simp [Accurate]⟩
  rw [← run_guarded_iff (I := fun s ↦ Kept s ∧ Accurate s) hstart hstep h]
  refine forall₄_congr fun l' t _ hr ↦ ?_
  rw [and_iff_right (kept_run hr)]

/-- Every text has the hash zero. -/
def flat : Env := ⟨fun _ ↦ 0, fun _ ↦ none, fun _ _ ↦ ""⟩

/-- Peer 1's text, as it was copied there at the given number. -/
def note (seq : UInt64) : CompleteItem :=
  ⟨⟨0, 0, .text, [104, 105], false, 1, seq⟩, 1⟩

/-- An offered text is pulled and answered, and copied again later. -/
def pullThenCopy : List Traffic :=
  [.offer 1 [hex32 0] {} 0, .serve (note 1), .deliver 0 true, .copy (note 2), .deliver 1 true]

theorem flags_accurate_iff_pullThenCopy :
    ∃ s, Run (step flat) Always {} pullThenCopy s ∧ s.handed.map (·.resync) = [false, true] ∧
      ((∀ l' t, l' <+: pullThenCopy → Run (step flat) Always {} l' t → t.Accurate) ↔
        Run (step flat) (CopiesUnasked flat) {} pullThenCopy s) := by
  have hrun : Run (step flat) Always {} pullThenCopy _ := run_of_isSome (by decide +kernel)
  exact ⟨_, hrun, by decide +kernel, flags_accurate_iff hrun⟩

/-- The firewall drops the text at its first arrival, so it is in neither the history nor the
outbox when the peer offers it; the answer has the event id already seen. -/
def swallowedAnswer : List Traffic :=
  [.copy (note 1), .deliver 0 true, .offer 1 [hex32 0] {} 0, .serve (note 1), .deliver 1 true,
    .tick 1000, .copy (note 2), .deliver 2 true]

/-- The copy that follows takes the entry that the answer has left. -/
theorem swallowedAnswer_flags_copy :
    ∃ s, Run (step flat) Always {} swallowedAnswer s ∧ ¬ s.Accurate := by
  have hrun : Run (step flat) Always {} swallowedAnswer _ := run_of_isSome (by decide +kernel)
  exact ⟨_, hrun, by decide +kernel⟩

end Puller

end FluxSync.Pipeline
