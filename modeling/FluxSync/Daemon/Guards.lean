import FluxSync.Foundation.Runs
import FluxSync.Transport.Conn

/-! ## What is sent once per session -/

namespace FluxSync.Guards

open Std Function Runs

variable {S : Type}

def SUPPORTED_CAPS : List String := ["core-1", "resync-1", "sas-confirm", "verify-restart", "file-1"]

def negotiateCaps (peerCaps : List String) : List String := peerCaps.filter SUPPORTED_CAPS.contains

/-- The fields of `PeerMeta` that the guards need. -/
structure PeerMeta where
  caps : List String := []
  verifyRestartSent : Bool := false

/-- The daemon as far as the two guards go. Each handler, command and tick runs in one step. -/
structure Node (S : Type) where
  transport : Transport S
  peerMeta : ExtTreeMap PeerId PeerMeta
  echoAckSent : List PeerId
  trusted : PeerId → Bool
  pendingPairs : PeerId → Bool
  /-- Whose session has decrypted the frame that the receive loop has in hand. -/
  hand : Option PeerId

inductive Message
  | bye
  | revoke
  | hello (caps : List String)
  | batteryStatus
  | pairConfirm (accept inSasFlow : Bool)
  | other

/-- The messages by which a peer ends its session. -/
def Message.parts : Message → Bool
  | .bye | .revoke | .pairConfirm false _ => true
  | _ => false

inductive Act (S : Type)
  | receive (p : PeerId)
  | message (m : Message) (now : UInt64)
  | revoke (p : PeerId) (saved wasPrimary : Bool) (now : UInt64)
  | reject (p : PeerId) (saved wasPrimary : Bool) (now : UInt64)
  /-- `Unpair` and `Toggle` off. -/
  | tearDownLinks (permanent : Bool)
  | closeSession (tracked : PeerId)
  /-- `Reconnect` and `DropPeer`. -/
  | dropSession
  /-- The primary misses its heartbeats, and a secondary takes over if there is one. -/
  | heartbeatTimeout (now : UInt64)
  | secondaryTimeout (p : PeerId)
  | reap (expired : List PeerId) (saved : Bool)
  | tryInstall (p : PeerId) (session : S) (now : UInt64)
  /-- `run_responder` has a `PeerConn` for the peer. -/
  | replace (p : PeerId) (session : S) (expectedGeneration now : UInt64)
  | rekey (p : PeerId) (session : S) (expectedGeneration now : UInt64)
  | setPeerInfo (p : PeerId) (addr : SocketAddr) (now : UInt64)
  /-- Other tasks enroll, park and confirm peers. -/
  | pairing (trusted pendingPairs : PeerId → Bool)

/-- The frames that are sent once per session. -/
inductive Notice
  | pairConfirm
  | pairVerifyStarted
  deriving DecidableEq

namespace Node

variable {n : Node S} {p : PeerId}

def boot (t : Transport S) : Node S := ⟨t, ∅, [], fun _ ↦ false, fun _ ↦ false, none⟩

def linked (n : Node S) (p : PeerId) : Bool := n.transport.linkedPeerIds.contains p

/-- `try_primary_failover`, where `dead` says that the link of the primary has gone. -/
def failover (n : Node S) (dead : Bool) (now : UInt64) : Node S :=
  if dead then { n with transport := (n.transport.promoteSecondary now).1 } else n

def unecho (n : Node S) (p : PeerId) : Node S :=
  { n with echoAckSent := n.echoAckSent.filter (· ≠ p) }

def forget (n : Node S) (p : PeerId) : Node S := { n with peerMeta := n.peerMeta.erase p }

def purge (n : Node S) (p : PeerId) : Node S := { n with transport := n.transport.purgePeer p }

def distrust (n : Node S) (p : PeerId) : Node S := { n with trusted := update n.trusted p false }

def unpend (n : Node S) (p : PeerId) : Node S :=
  { n with pendingPairs := update n.pendingPairs p false }

def metaFor (n : Node S) (p : PeerId) : PeerMeta := n.peerMeta[p]?.getD {}

/-- The guard of a frame. -/
def told (n : Node S) (p : PeerId) : Notice → Bool
  | .pairConfirm => n.echoAckSent.contains p
  | .pairVerifyStarted => (n.metaFor p).verifyRestartSent

def tell (n : Node S) (p : PeerId) : Notice → Node S
  | .pairConfirm => { n with echoAckSent := p :: n.echoAckSent }
  | .pairVerifyStarted =>
    { n with peerMeta := n.peerMeta.insert p { n.metaFor p with verifyRestartSent := true } }

/-- An accept outside a SAS flow from a trusted peer that knows `sas-confirm`, and a `Hello` from a
pending peer that knows `verify-restart`. -/
def calls (n : Node S) (p : PeerId) : Message → Option Notice
  | .pairConfirm true inSasFlow =>
    if !n.pendingPairs p && !inSasFlow && n.trusted p && (n.metaFor p).caps.contains "sas-confirm" then
      some .pairConfirm
    else none
  | .hello caps =>
    if n.pendingPairs p && (negotiateCaps caps).contains "verify-restart" then some .pairVerifyStarted
    else none
  | _ => none

/-- The frame that goes out once, if it has not. -/
def answer (n : Node S) (p : PeerId) (m : Message) : Option Notice :=
  (n.calls p m).filter fun k ↦ !n.told p k

def reply (n : Node S) (p : PeerId) (m : Message) : Node S :=
  match n.answer p m with
  | some k => n.tell p k
  | none => n

/-- The arms of `dispatch_inbound_frame` that touch a session or a guard. -/
def message (n : Node S) (p : PeerId) (now : UInt64) : Message → Node S
  | .bye =>
    let isPrimary := n.transport.conn.lastPeerId = some p
    ((({ n with transport := n.transport.dropSessionFor p }).forget p).unecho p).failover isPrimary now
  | .revoke =>
    let n := (((n.distrust p).unpend p).unecho p).purge p
    (n.forget p).failover (n.transport.conn.lastPeerId = some p) now
  | .hello caps =>
    { n with
      peerMeta := n.peerMeta.insert p { n.metaFor p with caps := negotiateCaps caps } }.reply p
        (.hello caps)
  | .batteryStatus => { n with peerMeta := n.peerMeta.insert p (n.metaFor p) }
  | .pairConfirm true inSasFlow => n.reply p (.pairConfirm true inSasFlow)
  | .pairConfirm false _ =>
    let n := (((n.unpend p).unecho p).distrust p).purge p
    (n.forget p).failover (n.transport.conn.lastPeerId = some p) now
  | .other => n

/-- What `Revoke` and a rejecting `PairConfirm` of the user end with. -/
def tearDown (n : Node S) (p : PeerId) (wasPrimary : Bool) (now : UInt64) : Node S :=
  (((n.distrust p).purge p).forget p).failover wasPrimary now

def tearDownLinks (n : Node S) (permanent : Bool) : Node S :=
  let ids := n.transport.linkedPeerIds
  { n with
    transport := ids.foldl (fun t p ↦ if permanent then t.purgePeer p else t.dropSessionFor p) n.transport
    peerMeta := ids.foldl (fun m p ↦ m.erase p) n.peerMeta }

/-- The primary slot is closed if it still has the peer that the FSM tracks. -/
def closeSession (n : Node S) (tracked : PeerId) : Node S :=
  let occupant := n.transport.conn.lastPeerId
  if tracked ≠ 0 && occupant.any (· ≠ tracked) && n.transport.live .primary then n
  else { n with transport := n.transport.dropSession }

def reap (n : Node S) (expired : List PeerId) (saved : Bool) : Node S :=
  let n' := expired.foldl (fun n p ↦ ((n.unpend p).distrust p).purge p) n
  if saved then n' else { n' with trusted := n.trusted, pendingPairs := n.pendingPairs }

end Node

def step (n : Node S) : Act S → Option (Node S)
  | .receive p => if n.hand.isNone && n.linked p then some { n with hand := some p } else none
  | .message m now => n.hand.map fun p ↦ { n.message p now m with hand := none }
  | .revoke p saved wasPrimary now => some (if saved then n.tearDown p wasPrimary now else n)
  | .reject p saved wasPrimary now =>
    if n.pendingPairs p then some (if saved then (n.unpend p).tearDown p wasPrimary now else n)
    else none
  | .tearDownLinks permanent => some (n.tearDownLinks permanent)
  | .closeSession tracked => some (n.closeSession tracked)
  | .dropSession => some { n with transport := n.transport.dropSession }
  | .heartbeatTimeout now => if n.transport.live .primary then some (n.failover true now) else none
  | .secondaryTimeout p =>
    if (n.transport.liveSecondaries.map Prod.fst).contains p then
      some { n with transport := n.transport.dropSessionFor p }
    else none
  | .reap expired saved => if expired.all n.pendingPairs then some (n.reap expired saved) else none
  | .tryInstall p session now =>
    some { n with transport := (n.transport.tryInstallSession now p session).1 }
  | .replace p session g now | .rekey p session g now =>
    if n.trusted p then
      some { n with transport := (n.transport.installSessionIfGenerationFor now p session g).1 }
    else none
  | .setPeerInfo p addr now => some { n with transport := n.transport.setPeerInfo now p addr }
  | .pairing trusted pendingPairs => some { n with trusted := trusted, pendingPairs := pendingPairs }

variable {n u : Node S} {a : Act S} {p q : PeerId} {k : Notice} {m : Message} {now : UInt64}

namespace Act

/-- The frame of a guarded kind that the step sends, and to whom. -/
def sent (n : Node S) : Act S → Option (PeerId × Notice)
  | .message m _ => n.hand.bind fun p ↦ (n.answer p m).map fun k ↦ (p, k)
  | _ => none

/-- The peer with whom a handshake opens a session. A rekey of a session that is up opens none. -/
def opens (n : Node S) : Act S → Option PeerId
  | .tryInstall p session now =>
    if (n.transport.tryInstallSession now p session).2 then some p else none
  | .replace p session g now =>
    if n.trusted p && (n.transport.installSessionIfGenerationFor now p session g).2 then some p
    else none
  | .rekey p session g now =>
    if n.trusted p && !n.linked p && (n.transport.installSessionIfGenerationFor now p session g).2 then
      some p
    else none
  | _ => none

/-- The peer's session ends, or a new one takes its place. -/
def ends (n : Node S) (a : Act S) (p : PeerId) : Bool :=
  n.linked p && (a.opens n == some p || (step n a).any fun u ↦ !u.linked p)

/-- Whose guards the step clears, by the way in which it ends a session. -/
def clears (n : Node S) (p : PeerId) (k : Notice) : Act S → Bool
  | .message m _ => m.parts && n.hand == some p
  | .revoke q saved _ _ | .reject q saved _ _ => k = .pairVerifyStarted && saved && q == p
  | .tearDownLinks _ => k = .pairVerifyStarted && n.linked p
  | _ => false

/-- A session with a guard set ends in a way that clears it, and a guard is set while the session is
still up. -/
def tidy (n : Node S) (a : Act S) : Bool :=
  (n.transport.linkedPeerIds.all fun p ↦ [Notice.pairConfirm, .pairVerifyStarted].all fun k ↦
    !(a.ends n p && n.told p k) || a.clears n p k) &&
    (a.sent n).all fun e ↦ n.linked e.1

theorem tidy_guard (ha : a.tidy n) (he : a.ends n p) (hg : n.told p k) : a.clears n p k := by
  have hp : p ∈ n.transport.linkedPeerIds := by
    rw [ends, Bool.and_eq_true, Node.linked] at he
    simpa using he.1
  rw [tidy, Bool.and_eq_true] at ha
  have hk : k ∈ [Notice.pairConfirm, .pairVerifyStarted] := by cases k <;> simp
  have h := List.all_eq_true.mp (List.all_eq_true.mp ha.1 p hp) k hk
  rwa [he, hg] at h

theorem tidy_sent (ha : a.tidy n) (h : a.sent n = some (p, k)) : n.linked p := by
  rw [tidy, Bool.and_eq_true, h] at ha
  exact ha.2

end Act

namespace Node

theorem told_congr (hm : u.peerMeta = n.peerMeta) (he : u.echoAckSent = n.echoAckSent) :
    u.told p k = n.told p k := by
  cases k with
  | pairConfirm => exact congrArg (fun l : List PeerId ↦ l.contains p) he
  | pairVerifyStarted => rw [told, told, metaFor, metaFor, hm]

@[simp] theorem told_failover {dead : Bool} : (n.failover dead now).told p k = n.told p k := by
  cases dead <;> exact told_congr rfl rfl

theorem told_unecho : (n.unecho q).told p .pairConfirm ↔ p ≠ q ∧ n.told p .pairConfirm := by
  simp [told, unecho, and_comm]

theorem told_forget :
    (n.forget q).told p .pairVerifyStarted ↔ p ≠ q ∧ n.told p .pairVerifyStarted := by
  by_cases h : p = q
  · subst h
    simp [told, metaFor, forget]
  · simp [told, metaFor, forget, OrderedMap.lookup_erase, h, Ne.symm h]

/-- A received `Bye`, `Revoke` or reject clears both guards. -/
theorem told_parted : ((n.forget q).unecho q).told p k ↔ p ≠ q ∧ n.told p k := by
  cases k with
  | pairConfirm => exact told_unecho
  | pairVerifyStarted => exact told_forget

theorem told_tell {k' : Notice} (h : (n.tell q k').told p k) : n.told p k ∨ p = q ∧ k = k' := by
  cases k' with
  | pairConfirm =>
    cases k with
    | pairConfirm => simpa [tell, told, or_comm] using h
    | pairVerifyStarted => exact .inl h
  | pairVerifyStarted =>
    cases k with
    | pairConfirm => exact .inl h
    | pairVerifyStarted =>
      by_cases hp : p = q
      · exact .inr ⟨hp, rfl⟩
      · exact .inl (by simpa [tell, told, metaFor, OrderedMap.lookup_insert, Ne.symm hp] using h)

theorem told_reply (h : (n.reply q m).told p k) : n.told p k ∨ p = q ∧ n.answer q m = some k := by
  rw [reply] at h
  split at h
  · rename_i k' hk
    exact (told_tell h).imp_right fun ⟨hp, hk'⟩ ↦ ⟨hp, hk' ▸ hk⟩
  · exact .inl h

theorem told_hello {caps : List String} :
    told { n with peerMeta := n.peerMeta.insert q { n.metaFor q with caps := caps } } p k =
      n.told p k := by
  cases k with
  | pairConfirm => rfl
  | pairVerifyStarted =>
    by_cases hp : q = p
    · subst hp
      simp [told, metaFor]
    · simp [told, metaFor, OrderedMap.lookup_insert, hp]

theorem answer_hello {caps caps' : List String} :
    answer { n with peerMeta := n.peerMeta.insert q { n.metaFor q with caps := caps } } p
      (.hello caps') = n.answer p (.hello caps') := by
  simp only [answer, told_hello, calls]

/-- After a message a guard is set that was set before, unless the message ends the session, or the
frame that it guards has gone out. -/
theorem told_message (h : (n.message q now m).told p k) :
    n.told p k ∧ (m.parts → p ≠ q) ∨ p = q ∧ n.answer q m = some k := by
  have hparted (h : ((n.forget q).unecho q).told p k) : n.told p k ∧ (m.parts → p ≠ q) ∨
      p = q ∧ n.answer q m = some k := .inl ⟨(told_parted.mp h).2, fun _ ↦ (told_parted.mp h).1⟩
  cases m with
  | bye =>
    rw [message, told_failover] at h
    exact hparted (told_congr rfl rfl ▸ h)
  | revoke =>
    rw [message, told_failover] at h
    exact hparted (told_congr rfl rfl ▸ h)
  | hello caps =>
    rcases told_reply h with h | ⟨hp, h⟩
    · exact .inl ⟨told_hello ▸ h, by simp [Message.parts]⟩
    · exact .inr ⟨hp, answer_hello ▸ h⟩
  | batteryStatus => exact .inl ⟨told_hello ▸ h, by simp [Message.parts]⟩
  | pairConfirm accept inSasFlow =>
    cases accept with
    | true => exact (told_reply h).imp_left fun h ↦ ⟨h, by simp [Message.parts]⟩
    | false =>
      rw [message, told_failover] at h
      exact hparted (told_congr rfl rfl ▸ h)
  | other => exact .inl ⟨h, by simp [Message.parts]⟩

theorem told_tearDown {wasPrimary : Bool} (h : (n.tearDown q wasPrimary now).told p k) :
    n.told p k ∧ (k = .pairVerifyStarted → p ≠ q) := by
  rw [tearDown, told_failover] at h
  cases k with
  | pairConfirm => exact ⟨h, by simp⟩
  | pairVerifyStarted =>
    obtain ⟨hne, h⟩ := told_forget.mp h
    exact ⟨h, fun _ ↦ hne⟩

theorem told_tearDownLinks {permanent : Bool} (h : (n.tearDownLinks permanent).told p k) :
    n.told p k ∧ (k = .pairVerifyStarted → n.linked p = false) := by
  cases k with
  | pairConfirm => exact ⟨h, by simp⟩
  | pairVerifyStarted =>
    simp only [told, metaFor, tearDownLinks, OrderedMap.lookup_erase_all] at h ⊢
    by_cases hp : p ∈ n.transport.linkedPeerIds
    · simp [hp] at h
    · exact ⟨by simpa [hp] using h, fun _ ↦ by simp [linked, hp]⟩

theorem told_reap {expired : List PeerId} {saved : Bool} :
    (n.reap expired saved).told p k = n.told p k := by
  have hpurged : (expired.foldl (fun n p ↦ ((n.unpend p).distrust p).purge p) n).told p k =
      n.told p k := by
    induction expired generalizing n with
    | nil => rfl
    | cons q expired ih => exact ih.trans (told_congr rfl rfl)
  cases saved <;> exact hpurged

end Node

/-- After a step a guard is set that was set before and that the step does not clear, unless its frame
has gone out. -/
theorem told_step (h : step n a = some u) (hk : u.told p k) :
    n.told p k ∧ a.clears n p k = false ∨ a.sent n = some (p, k) := by
  cases a with
  | receive q | replace q | rekey q | secondaryTimeout q =>
    obtain ⟨-, h⟩ := Option.ite_none_right_eq_some.mp h
    obtain rfl := Option.some.inj h
    exact .inl ⟨hk, rfl⟩
  | closeSession tracked =>
    refine .inl ⟨?_, rfl⟩
    rw [← Option.some.inj h, Node.closeSession] at hk
    split at hk <;> exact hk
  | dropSession | tryInstall | setPeerInfo | pairing =>
    obtain rfl := Option.some.inj h
    exact .inl ⟨hk, rfl⟩
  | heartbeatTimeout now =>
    obtain ⟨-, h⟩ := Option.ite_none_right_eq_some.mp h
    obtain rfl := Option.some.inj h
    exact .inl ⟨Node.told_failover ▸ hk, rfl⟩
  | reap expired saved =>
    obtain ⟨-, h⟩ := Option.ite_none_right_eq_some.mp h
    obtain rfl := Option.some.inj h
    exact .inl ⟨Node.told_reap ▸ hk, rfl⟩
  | revoke q saved wasPrimary now =>
    obtain rfl := Option.some.inj h
    cases saved with
    | false => exact .inl ⟨hk, by simp [Act.clears]⟩
    | true =>
      obtain ⟨hold, hne⟩ := Node.told_tearDown hk
      exact .inl ⟨hold, by simpa [Act.clears] using fun hk ↦ Ne.symm (hne hk)⟩
  | reject q saved wasPrimary now =>
    obtain ⟨-, h⟩ := Option.ite_none_right_eq_some.mp h
    obtain rfl := Option.some.inj h
    cases saved with
    | false => exact .inl ⟨hk, by simp [Act.clears]⟩
    | true =>
      obtain ⟨hold, hne⟩ := Node.told_tearDown hk
      exact .inl ⟨hold, by simpa [Act.clears] using fun hk ↦ Ne.symm (hne hk)⟩
  | tearDownLinks permanent =>
    obtain rfl := Option.some.inj h
    obtain ⟨hold, hlinked⟩ := Node.told_tearDownLinks hk
    exact .inl ⟨hold, by simpa [Act.clears] using hlinked⟩
  | message m now =>
    obtain ⟨q, hq, rfl⟩ := Option.map_eq_some_iff.mp h
    have hk' : (n.message q now m).told p k := hk
    rcases Node.told_message hk' with ⟨hold, hne⟩ | ⟨rfl, hans⟩
    · refine .inl ⟨hold, ?_⟩
      simp only [Act.clears, hq, Bool.and_eq_false_iff, beq_eq_false_iff_ne, ne_eq, Option.some_inj]
      by_cases hm : m.parts
      · exact .inr (Ne.symm (hne hm))
      · exact .inl (by simpa using hm)
    · exact .inr (by simp [Act.sent, hq, hans])

/-- A frame that goes out once ends no session and opens none. -/
theorem step_sent (h : step n a = some u) (hs : a.sent n = some (p, k)) :
    u.transport = n.transport ∧ a.opens n = none := by
  cases a with
  | message m now =>
    obtain ⟨q, hq, rfl⟩ := Option.map_eq_some_iff.mp h
    refine ⟨?_, rfl⟩
    have hreply : ∀ n : Node S, (n.reply q m).transport = n.transport := by
      intro n
      rw [Node.reply]
      split
      · rename_i k' _
        cases k' <;> rfl
      · rfl
    cases m with
    | hello caps => exact hreply _
    | pairConfirm accept inSasFlow =>
      cases accept with
      | true => exact hreply _
      | false => simp [Act.sent, hq, Node.answer, Node.calls] at hs
    | _ => simp [Act.sent, hq, Node.answer, Node.calls] at hs
  | _ => simp [Act.sent] at hs

/-- With whom the last step opened a session, and what has been sent to whom since its session opened. -/
structure Noted where
  opened : Option PeerId := none
  said : List (PeerId × Notice) := []

def note (n : Node S) (a : Act S) (w : Noted) : Noted where
  opened := a.opens n
  said := (w.said.filter fun e ↦ a.opens n ≠ some e.1) ++ (a.sent n).toList

/-- The daemon with a record of its sessions. -/
abbrev notedStep : Node S × Noted → Act S → Option (Node S × Noted) := monitored step note

/-- The guards are those of the sessions that are up. -/
structure Current (x : Node S × Noted) : Prop where
  linked : ∀ p k, x.1.told p k → x.1.linked p
  said : ∀ p k, x.1.told p k → (p, k) ∈ x.2.said
  opened : ∀ p k, x.2.opened = some p → x.1.told p k = false

variable {t : Transport S} {w : Noted} {l : List (Act S)}

theorem current_boot : Current (.boot t, {}) where
  linked p k h := by cases k <;> simp [Node.boot, Node.told, Node.metaFor] at h
  said p k h := by cases k <;> simp [Node.boot, Node.told, Node.metaFor] at h
  opened p k h := by simp at h

/-- A guard that a tidy step leaves set is of a session that neither ends nor gives way to a new one. -/
theorem ends_of_tidy (ha : a.tidy n) (hold : n.told p k) (hc : a.clears n p k = false) :
    a.ends n p = false := by
  by_contra he
  rw [Bool.not_eq_false] at he
  rw [Act.tidy_guard ha he hold] at hc
  exact Bool.noConfusion hc

theorem Current.step {x y : Node S × Noted} (hx : Current x) (ha : a.tidy x.1)
    (h : notedStep x a = some y) : Current y := by
  obtain ⟨hs, hw⟩ := monitored_eq_some.mp h
  have hkept : ∀ p k, y.1.told p k → y.1.linked p ∧ (p, k) ∈ y.2.said ∧ a.opens x.1 ≠ some p := by
    intro p k hk
    rw [hw, note]
    rcases told_step hs hk with ⟨hold, hc⟩ | hsent
    · have hlinked := hx.linked p k hold
      have he := ends_of_tidy ha hold hc
      simp only [Act.ends, hlinked, hs, Bool.true_and, Option.any_some, Bool.or_eq_false_iff,
        beq_eq_false_iff_ne, Bool.not_eq_false'] at he
      refine ⟨he.2, List.mem_append_left _ ?_, he.1⟩
      exact List.mem_filter.mpr ⟨hx.said p k hold, by simpa using he.1⟩
    · obtain ⟨htransport, hopens⟩ := step_sent hs hsent
      refine ⟨?_, by simp [hsent], by simp [hopens]⟩
      rw [Node.linked, htransport]
      exact Act.tidy_sent ha hsent
  constructor
  · exact fun p k hk ↦ (hkept p k hk).1
  · exact fun p k hk ↦ (hkept p k hk).2.1
  · intro p k hopened
    rw [hw] at hopened
    by_contra hk
    exact (hkept p k (by simpa using hk)).2.2 hopened

/-- In a run where each session with a guard set ends in a way that clears it, both guards are clear
when a session opens, and the first frame in it that calls for an answer gets it. -/
theorem guards_reset (h : Run notedStep (fun x a ↦ a.tidy x.1) (.boot t, {}) l (n, w)) :
    (∀ p k, w.opened = some p → n.told p k = false) ∧
      ∀ p m k now, n.hand = some p → n.calls p m = some k → (p, k) ∉ w.said →
        (Act.message m now).sent n = some (p, k) := by
  have hn : Current (n, w) := h.invariant current_boot fun _ _ _ hi ha hs ↦ hi.step ha hs
  refine ⟨hn.opened, fun p m k now hp hcalls hsaid ↦ ?_⟩
  have hclear : n.told p k = false := by
    by_contra hk
    exact hsaid (hn.said p k (by simpa using hk))
  simp [Act.sent, hp, Node.answer, hcalls, hclear]

/-- A trusted peer links and confirms out of any flow, and is answered. -/
def answered : List (Act Unit) :=
  [.pairing (· == 1) fun _ ↦ false, .tryInstall 1 () 0, .receive 1,
    .message (.hello ["sas-confirm", "verify-restart"]) 0, .receive 1,
    .message (.pairConfirm true false) 0]

/-- The session ends with a `Bye`, and the peer comes back and confirms again. -/
def byeAndBack : List (Act Unit) :=
  answered ++ [.receive 1, .message .bye 0, .tryInstall 1 () 0, .receive 1,
    .message (.hello ["sas-confirm", "verify-restart"]) 0, .receive 1]

theorem byeAndBack_tidy :
    (byeAndBack.foldlM (fun x a ↦ if Act.tidy x.1 a then notedStep x a else none)
      (.boot (.new 0), {})).isSome := by
  decide +kernel

theorem guards_reset_byeAndBack :
    ∃ n w, Run notedStep (fun x a ↦ a.tidy x.1) (.boot (.new 0), {}) byeAndBack (n, w) ∧
      n.hand = some 1 ∧ n.calls 1 (.pairConfirm true false) = some .pairConfirm ∧
      (1, Notice.pairConfirm) ∉ w.said ∧
      (∀ p k, w.opened = some p → n.told p k = false) ∧
        ∀ p m k now, n.hand = some p → n.calls p m = some k → (p, k) ∉ w.said →
          (Act.message m now).sent n = some (p, k) :=
  ⟨_, _, run_of_checked byeAndBack_tidy, by decide +kernel, by decide +kernel, by decide +kernel,
    guards_reset (run_of_checked byeAndBack_tidy)⟩

/-- The session ends with a missed heartbeat. -/
def silentAndBack : List (Act Unit) :=
  answered ++ [.heartbeatTimeout 0, .closeSession 1, .tryInstall 1 () 0]

/-- The peer says hello again, and its accept is at hand. -/
def confirmsAgain : List (Act Unit) :=
  silentAndBack ++ [.receive 1, .message (.hello ["sas-confirm", "verify-restart"]) 0, .receive 1]

theorem silentAndBack_runs :
    (silentAndBack.foldlM notedStep ((.boot (.new 0), {}) : Node Unit × Noted)).isSome := by
  decide +kernel

theorem confirmsAgain_runs :
    (confirmsAgain.foldlM notedStep ((.boot (.new 0), {}) : Node Unit × Noted)).isSome := by
  decide +kernel

/-- A new session opens with the guard of the old one, and the accept is not answered. -/
theorem silentAndBack_unanswered :
    (∃ n w, Run notedStep Always (.boot (.new 0), {}) silentAndBack (n, w) ∧
      w.opened = some 1 ∧ n.told 1 .pairConfirm) ∧
      ∃ n w, Run notedStep Always (.boot (.new 0), {}) confirmsAgain (n, w) ∧
        n.hand = some 1 ∧ n.calls 1 (.pairConfirm true false) = some .pairConfirm ∧
        (1, Notice.pairConfirm) ∉ w.said ∧
        (Act.message (.pairConfirm true false) 0).sent n = none :=
  ⟨⟨_, _, run_of_isSome silentAndBack_runs, by decide +kernel, by decide +kernel⟩,
    ⟨_, _, run_of_isSome confirmsAgain_runs, by decide +kernel, by decide +kernel, by decide +kernel,
      by decide +kernel⟩⟩

end FluxSync.Guards
