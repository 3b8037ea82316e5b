import Mathlib.Data.Finset.Basic
import Mathlib.Data.List.DropRight
import FluxSync.Daemon.Shared
import FluxSync.Foundation.Runs
import FluxSync.Transport.Conn

namespace FluxSync.Transport.Replay

open Daemon Function Runs

/-! ## The first messages that were answered -/

/-- The initiator's ephemeral key: the first 32 bytes of its message. -/
abbrev Ephemeral := Vector UInt8 32

def ephemeral (msg1 : List UInt8) : Option Ephemeral :=
  if h : 32 ≤ msg1.length then some ⟨(msg1.take 32).toArray, by simp [h]⟩ else none

theorem ephemeral_isSome {msg1 : List UInt8} : (ephemeral msg1).isSome ↔ 32 ≤ msg1.length := by
  rw [ephemeral]
  split <;> simp_all

structure AnsweredInits where
  seen : Finset Ephemeral := ∅
  /-- The oldest first. -/
  order : List Ephemeral := []

namespace AnsweredInits

def CAP : ℕ := 4096

/-- `false` for a key that was answered before, and for a message too short to carry one. -/
def firstAnswer (g : AnsweredInits) (msg1 : List UInt8) : AnsweredInits × Bool :=
  match ephemeral msg1 with
  | none => (g, false)
  | some e =>
    if e ∈ g.seen then (g, false)
    else
      let seen := insert e g.seen
      let order := g.order ++ [e]
      if CAP < order.length then
        match order with
        | old :: rest => (⟨seen.erase old, rest⟩, true)
        | [] => (⟨seen, order⟩, true)
      else (⟨seen, order⟩, true)

variable {g : AnsweredInits} {e : Ephemeral} {l recorded : List Ephemeral} {msg1 : List UInt8}

/-- The set holds the keys of the queue, and these are the last ones recorded. -/
structure Aligned (g : AnsweredInits) (recorded : List Ephemeral) : Prop where
  seen : g.seen = g.order.toFinset
  nodup : g.order.Nodup
  last : g.order = recorded.rtake CAP

theorem length_rtake (n : ℕ) : (l.rtake n).length = min n l.length := by
  rw [List.rtake, List.length_drop]
  omega

theorem Aligned.length_le (h : g.Aligned recorded) : g.order.length ≤ CAP := by
  rw [h.last, length_rtake]
  exact Nat.min_le_left _ _

theorem Aligned.mem_seen (h : g.Aligned recorded) : e ∈ g.seen ↔ e ∈ recorded.rtake CAP := by
  rw [h.seen, List.mem_toFinset, h.last]

/-- A key more pushes the oldest one out of a full window. -/
theorem rtake_concat {n : ℕ} :
    (l ++ [e]).rtake n = if n < (l.rtake n).length + 1 then (l.rtake n ++ [e]).tail
      else l.rtake n ++ [e] := by
  rw [length_rtake, List.rtake, List.rtake, List.length_append, List.length_singleton]
  split
  case isTrue h =>
    have hsub : l.length + 1 - n = (l.length - n) + 1 := by omega
    rw [hsub, ← List.drop_append_of_le_length (by omega), List.tail_drop]
  case isFalse h =>
    have hle : l.length + 1 - n = 0 := by omega
    have hle' : l.length - n = 0 := by omega
    rw [hle, hle', List.drop_zero, List.drop_zero]

theorem aligned_new : ({} : AnsweredInits).Aligned [] :=
  ⟨List.toFinset_nil.symm, List.nodup_nil, rfl⟩

/-- A key that is not in the window is recorded, in the place of the oldest one. -/
theorem Aligned.record (h : g.Aligned recorded) (he : ephemeral msg1 = some e) (hnew : e ∉ g.seen) :
    (g.firstAnswer msg1).2 = true ∧ (g.firstAnswer msg1).1.Aligned (recorded ++ [e]) := by
  have hlast := rtake_concat (l := recorded) (e := e) (n := CAP)
  rw [← h.last] at hlast
  have horder : e ∉ g.order := by
    rwa [h.seen, List.mem_toFinset] at hnew
  have hnodup : (g.order ++ [e]).Nodup := by
    rw [List.nodup_append]
    refine ⟨h.nodup, List.nodup_singleton e, ?_⟩
    intro a ha b hb
    rw [List.mem_singleton.mp hb]
    exact fun hae ↦ horder (hae ▸ ha)
  have hseen : insert e g.seen = (g.order ++ [e]).toFinset := by
    rw [List.toFinset_append, ← h.seen, Finset.insert_eq, Finset.union_comm]
    rfl
  simp only [firstAnswer, he, if_neg hnew, List.length_append, List.length_singleton]
  split
  case isFalse hroom =>
    rw [if_neg hroom] at hlast
    exact ⟨rfl, hseen, hnodup, hlast.symm⟩
  case isTrue hfull =>
    rw [if_pos hfull] at hlast
    cases hcons : g.order ++ [e] with
    | nil => simp at hcons
    | cons old rest =>
      rw [hcons] at hnodup hseen hlast
      obtain ⟨hold, hrest⟩ := List.nodup_cons.mp hnodup
      refine ⟨rfl, ?_, hrest, hlast.symm⟩
      have hold : old ∉ rest.toFinset := fun h ↦ hold (List.mem_toFinset.mp h)
      dsimp only
      rw [hseen, List.toFinset_cons, Finset.erase_insert hold]

theorem Aligned.refuse (hnew : ∀ e, ephemeral msg1 = some e → e ∈ g.seen) :
    g.firstAnswer msg1 = (g, false) := by
  rw [firstAnswer]
  cases he : ephemeral msg1 with
  | none => rfl
  | some e => exact if_pos (hnew e he)

/-- What the calls have recorded, the last call's key at the end. -/
def answer (s : AnsweredInits × List Ephemeral) (msg1 : List UInt8) :
    AnsweredInits × List Ephemeral :=
  let (g, first) := s.1.firstAnswer msg1
  (g, if first then s.2 ++ (ephemeral msg1).toList else s.2)

theorem Aligned.answer (h : g.Aligned recorded) (msg1 : List UInt8) :
    (AnsweredInits.answer (g, recorded) msg1).1.Aligned (AnsweredInits.answer (g, recorded) msg1).2 := by
  by_cases hnew : ∀ e, ephemeral msg1 = some e → e ∈ g.seen
  · simp only [AnsweredInits.answer, refuse hnew]
    exact h
  · push Not at hnew
    obtain ⟨e, he, hnew⟩ := hnew
    obtain ⟨hfirst, haligned⟩ := h.record he hnew
    simp only [AnsweredInits.answer, hfirst, he, if_true, Option.toList_some]
    exact haligned

theorem aligned_answers (msgs : List (List UInt8)) :
    (msgs.foldl answer ({}, [])).1.Aligned (msgs.foldl answer ({}, [])).2 := by
  induction msgs using List.reverseRecOn with
  | nil => exact aligned_new
  | append_singleton msgs msg1 ih =>
    rw [List.foldl_append]
    exact ih.answer msg1

/-- Whom the guard lets pass: a message with a key that is not among the last ones. -/
theorem Aligned.firstAnswer_iff (h : g.Aligned recorded) :
    (g.firstAnswer msg1).2 = true ↔ ∃ e, ephemeral msg1 = some e ∧ e ∉ recorded.rtake CAP := by
  constructor
  · intro hfirst
    by_contra hno
    push Not at hno
    rw [refuse fun e he ↦ h.mem_seen.mpr (hno e he)] at hfirst
    cases hfirst
  · rintro ⟨e, he, hnew⟩
    exact (h.record he fun hmem ↦ hnew (h.mem_seen.mp hmem)).1

end AnsweredInits

/-! ## The responder -/

variable {S : Type}

/-- What `Responder::step` makes of a first message. -/
structure Opened (S : Type) where
  session : S
  msg2 : List UInt8
  remoteStatic : Key
  sasWords : List String

inductive Report
  | sasPairingStarted (id : PeerId)
  | peerSeen (id : PeerId) (name : String)
  | handshakeOk
  deriving DecidableEq

/-- What a responder shares with the daemon's other tasks. -/
structure World (S : Type) where
  transport : Transport S
  shared : Shared
  answered : AnsweredInits
  sent : List (SocketAddr × List UInt8)
  reports : List Report

/-- What a responder has read of the slots before it decides anything. -/
structure Snapshot where
  rekeyGeneration : Option UInt64 := none
  replacingLive : Bool := false
  secondaryGeneration : Option UInt64 := none

def Snapshot.expected (snap : Snapshot) : Option UInt64 :=
  snap.rekeyGeneration <|> snap.secondaryGeneration

inductive Outcome
  | replayed
  | failed
  /-- Another install came first, or the peer is no longer trusted. -/
  | lost
  | linked
  deriving DecidableEq

/-- Where a call of `run_responder` stands between two of its lock sections. -/
inductive Stage (S : Type)
  | received
  | opened (o : Opened S)
  | located (o : Opened S) (isPrimary : Bool)
  | surveyed (o : Opened S) (snap : Snapshot)
  | judged (o : Opened S) (snap : Snapshot) (couldAccept : Bool)
  | passed (o : Opened S) (snap : Snapshot)
  | admitted (o : Opened S) (snap : Snapshot)
  | trusting (o : Opened S) (snap : Snapshot) (name : String)
  | committing (o : Opened S) (snap : Snapshot) (name : String)
  | installed (o : Opened S) (snap : Snapshot) (name : String)
  | addressed (o : Opened S) (snap : Snapshot) (name : String)
  | done (outcome : Outcome)

/-- The arguments of a call, with what the Noise library makes of its message. -/
structure Inbound (S : Type) where
  initMsg : List UInt8
  src : SocketAddr
  opened : Option (Opened S)
  keystore : Bool

/-- What a section does not decide by itself: the clock, the entry that `min_by_key` picks, and
whether the disk and the socket take what is written to them. -/
structure Luck where
  now : UInt64
  victim : PeerId
  ok : Bool

section

variable (κ : Crypto) (call : Inbound S)

def contact (o : Opened S) : Contact :=
  ⟨κ.peerIdFor o.remoteStatic, o.remoteStatic, TOFU_PLACEHOLDER_NAME, call.src, o.sasWords⟩

def windowOpen (s : Shared) : Bool := s.pairingWindow.any fun deadline ↦ decide (s.now < deadline)

/-- The section that decides whether the peer is trusted, under the lock of the trusted set. -/
def admitPeer (luck : Luck) (w : World S) (o : Opened S) (snap : Snapshot) : World S × Stage S :=
  let c := contact κ call o
  match w.shared.trusted[c.peer]? with
  | some existing =>
    (w, if existing.staticPub ≠ o.remoteStatic then .done .failed else .trusting o snap existing.name)
  | none =>
    if !windowOpen w.shared || MAX_TOFU_TRUSTED_PEERS ≤ w.shared.trusted.size then
      (w, .done .failed)
    else
      let shared := w.shared.enroll c (tofuTrustedPeer o.remoteStatic)
      if !call.keystore then ({ w with shared }, .admitted o snap)
      else if luck.ok then
        let peersFile := upsertPeer shared.peersFile
          ⟨c.peer, o.remoteStatic, TOFU_PLACEHOLDER_NAME, some call.src⟩
        ({ w with shared := { shared with peersFile } }, .admitted o snap)
      else ({ w with shared := shared.distrust c.peer }, .done .failed)

/-- The install, at the generation that was read or into an empty slot. -/
def commit (luck : Luck) (w : World S) (o : Opened S) (snap : Snapshot) (name : String) :
    World S × Stage S :=
  let id := κ.peerIdFor o.remoteStatic
  let (transport, done) :=
    match snap.expected with
    | some expected =>
      w.transport.installSessionIfGenerationFor luck.now id o.session expected
    | none => w.transport.tryInstallSession luck.now id o.session
  ({ w with transport }, if done then .installed o snap name else .done .lost)

def persistLastAddr (luck : Luck) (s : Shared) (id : PeerId) : Shared :=
  match s.trusted[id]? with
  | some entry =>
    if call.keystore && isRedialableAddr call.src && luck.ok then
      { s with peersFile := upsertPeer s.peersFile ⟨id, entry.staticPub, entry.name, some call.src⟩ }
    else s
  | none => s

def respondSection (luck : Luck) (w : World S) : Stage S → Option (World S × Stage S)
  | .received =>
    some (w, match call.opened with
      | some o => .opened o
      | none => .done .failed)
  | .opened o => some (w, .located o (w.transport.conn.lastPeerId == some (κ.peerIdFor o.remoteStatic)))
  | .located o true =>
    some (w, .surveyed o
      { rekeyGeneration := some w.transport.conn.sessionGeneration
        replacingLive := w.transport.live .primary })
  | .located o false =>
    some (w, .surveyed o
      { secondaryGeneration := (w.transport.connFor (κ.peerIdFor o.remoteStatic)).map fun slot ↦
          (w.transport.conns slot).sessionGeneration })
  | .surveyed o snap =>
    some (w, .judged o snap
      (w.shared.trusted.contains (κ.peerIdFor o.remoteStatic) || windowOpen w.shared))
  -- A stranger's message is not recorded, so that it cannot crowd out the others.
  | .judged o snap false => some (w, .passed o snap)
  | .judged o snap true =>
    let (answered, first) := w.answered.firstAnswer call.initMsg
    some ({ w with answered }, if first then .passed o snap else .done .replayed)
  | .passed o snap => some (admitPeer κ call luck w o snap)
  | .admitted o snap =>
    (w.shared.park (contact κ call o) luck.victim).map fun shared ↦
      ({ w with
          shared
          reports := w.reports ++ [.sasPairingStarted (κ.peerIdFor o.remoteStatic)] },
        .trusting o snap TOFU_PLACEHOLDER_NAME)
  | .trusting o snap name =>
    -- A peer that was revoked meanwhile is not linked again.
    some (w, if snap.expected.isSome && !w.shared.trusted.contains (κ.peerIdFor o.remoteStatic) then
        .done .lost
      else .committing o snap name)
  | .committing o snap name => some (commit κ luck w o snap name)
  | .installed o snap name =>
    some ({ w with
        transport := w.transport.setPeerInfo luck.now (κ.peerIdFor o.remoteStatic) call.src },
      .addressed o snap name)
  | .addressed o snap name =>
    let id := κ.peerIdFor o.remoteStatic
    let shared := persistLastAddr call luck w.shared id
    if luck.ok then
      some ({ w with
          shared
          sent := w.sent ++ [(call.src, o.msg2)]
          reports := w.reports ++ (if snap.replacingLive then [] else [.peerSeen id name]) ++
            [.handshakeOk] },
        .done .linked)
    else some ({ w with shared }, .done .failed)
  | .done _ => none

/-- A section of this call, or anything that other tasks do in between. -/
inductive Act (S : Type)
  | respond (luck : Luck)
  | others (w : World S)

def respondStep (s : World S × Stage S) : Act S → Option (World S × Stage S)
  | .respond luck => respondSection κ call luck s.1 s.2
  | .others w => some (w, s.2)

end

namespace Stage

/-- Before the guard has let the message pass, or when it has refused it. -/
def guarded : Stage S → Bool
  | received | opened _ | located .. | surveyed .. | judged .. | done .replayed => true
  | _ => false

end Stage

variable {κ : Crypto} {call : Inbound S} {luck : Luck} {w : World S} {g : Stage S}
  {x : World S × Stage S}

theorem admit_unguarded {o : Opened S} {snap : Snapshot} :
    (admitPeer κ call luck w o snap).2.guarded = false := by
  simp only [admitPeer]
  split
  · split <;> rfl
  · split
    · rfl
    · split
      · rfl
      · split <;> rfl

theorem commit_unguarded {o : Opened S} {snap : Snapshot} {name : String} :
    (commit κ luck w o snap name).2.guarded = false := by
  simp only [commit]
  split <;> split <;> rfl

/-- No way leads from behind the guard to its refusal. -/
theorem unguarded_section (h : respondSection κ call luck w g = some x)
    (hg : g.guarded = false) : x.2.guarded = false := by
  cases g with
  | received | opened | located | surveyed | judged => cases hg
  | done => cases h
  | passed o snap =>
    obtain rfl := Option.some.inj h
    exact admit_unguarded
  | admitted o snap =>
    obtain ⟨shared, -, rfl⟩ := Option.map_eq_some_iff.mp h
    rfl
  | trusting o snap name =>
    obtain rfl := Option.some.inj h
    dsimp only
    split <;> rfl
  | committing o snap name =>
    obtain rfl := Option.some.inj h
    exact commit_unguarded
  | installed o snap name =>
    obtain rfl := Option.some.inj h
    rfl
  | addressed o snap name =>
    simp only [respondSection] at h
    split at h <;> obtain rfl := Option.some.inj h <;> rfl

theorem refused_unchanged {a : AnsweredInits} {msg1 : List UInt8} (h : (a.firstAnswer msg1).2 = false) :
    (a.firstAnswer msg1).1 = a := by
  simp only [AnsweredInits.firstAnswer] at h ⊢
  split
  case h_1 => rfl
  case h_2 e he =>
    simp only [he] at h
    split
    case isTrue => rfl
    case isFalse hnew =>
      rw [if_neg hnew] at h
      split at h
      · split at h <;> cases h
      · cases h

theorem replay_section {o : Opened S} {snap : Snapshot} {e : Ephemeral}
    (he : ephemeral call.initMsg = some e) (hseen : e ∈ w.answered.seen) :
    respondSection κ call luck w (.judged o snap true) = some (w, .done .replayed) := by
  have hrefuse : w.answered.firstAnswer call.initMsg = (w.answered, false) := by
    apply AnsweredInits.Aligned.refuse
    intro e' he'
    rwa [← Option.some.inj (he.symm.trans he')]
  simp only [respondSection, hrefuse, Bool.false_eq_true, if_false]

/-- A section that stays before the guard, or ends in its refusal, changes nothing: on a way
that ends there even the guard has recorded nothing. -/
theorem guarded_section (h : respondSection κ call luck w g = some x)
    (hg : g.guarded = true) (hx : x.2.guarded = true) : x.1 = w := by
  cases g with
  | received | opened | surveyed =>
    obtain rfl := Option.some.inj h
    rfl
  | located o isPrimary =>
    cases isPrimary with
    | false | true =>
      obtain rfl := Option.some.inj h
      rfl
  | judged o snap couldAccept =>
    cases couldAccept with
    | false =>
      obtain rfl := Option.some.inj h
      rfl
    | true =>
      simp only [respondSection, Option.some.injEq] at h
      subst h
      dsimp only at hx ⊢
      split at hx
      case isTrue => cases hx
      case isFalse hfirst => rw [refused_unchanged (Bool.eq_false_iff.mpr hfirst)]
  | done => cases h
  | passed | admitted | trusting | committing | installed | addressed => cases hg

/-- No section of the call has changed what the tasks share. -/
def Untouched (κ : Crypto) (call : Inbound S) (s : World S × Stage S) : Act S → Prop
  | .respond luck => ∀ u, respondStep κ call s (.respond luck) = some u → u.1 = s.1
  | .others _ => True

theorem guarded_of_step {s u : World S × Stage S} {a : Act S} (h : respondStep κ call s a = some u)
    (hu : u.2.guarded = true) : s.2.guarded = true := by
  cases a with
  | respond luck =>
    by_contra hs
    have := unguarded_section h (Bool.eq_false_iff.mpr hs)
    rw [hu] at this
    cases this
  | others w =>
    obtain rfl := Option.some.inj h
    exact hu

theorem untouched_run {s u : World S × Stage S} {l : List (Act S)}
    (h : Run (respondStep κ call) Always s l u) (hu : u.2.guarded = true) :
    Run (respondStep κ call) (Untouched κ call) s l u := by
  induction h with
  | nil => exact .nil
  | @snoc l t u a hr _ hstep ih =>
    have ht := guarded_of_step hstep hu
    refine .snoc (ih ht) ?_ hstep
    cases a with
    | others w => exact trivial
    | respond luck =>
      intro v hv
      obtain rfl := Option.some.inj (hv.symm.trans hstep)
      exact guarded_section hstep ht hu

/-- The guard lets a first message pass exactly when its key is not among the last 4096 that it
recorded, and in `run_responder` nothing comes of one that it refuses. -/
theorem replays_refused :
    (∀ msgs : List (List UInt8), ∀ s, s = msgs.foldl AnsweredInits.answer ({}, []) →
      s.1.seen = s.1.order.toFinset ∧ s.1.order.Nodup ∧ s.1.order.length ≤ 4096 ∧
        ∀ msg1, (s.1.firstAnswer msg1).2 = true ↔
          ∃ e, ephemeral msg1 = some e ∧ e ∉ s.2.rtake 4096) ∧
    ∀ (S : Type) (κ : Crypto) (call : Inbound S) (w : World S),
      (∀ luck o snap e, ephemeral call.initMsg = some e → e ∈ w.answered.seen →
        respondSection κ call luck w (.judged o snap true) = some (w, .done .replayed)) ∧
      ∀ (w' : World S) (l : List (Act S)),
        Run (respondStep κ call) Always (w, .received) l (w', .done .replayed) →
          Run (respondStep κ call) (Untouched κ call) (w, .received) l (w', .done .replayed) := by
  constructor
  · rintro msgs s rfl
    have h := AnsweredInits.aligned_answers msgs
    exact ⟨h.seen, h.nodup, h.length_le, fun msg1 ↦ h.firstAnswer_iff⟩
  · intro S κ call w
    constructor
    · intro luck o snap e he hseen
      exact replay_section he hseen
    · intro w' l h
      exact untouched_run h rfl

end FluxSync.Transport.Replay
