import FluxSync.Core.Fsm
import FluxSync.Daemon.Shared
import FluxSync.Transport.Conn

/-! ## The initiator and the datagrams in front of its reply -/

namespace FluxSync

def SocketAddr.port : SocketAddr → BitVec 16
  | .v4 _ port => port
  | .v6 _ port _ _ => port

end FluxSync

namespace FluxSync.Initiator

open Std Daemon

variable {S : Type}

abbrev Datagram := SocketAddr × List UInt8

/-- The responder's ephemeral key and the tag over an empty payload. -/
def IK_MSG2_LEN : ℕ := 32 + 16

/-- Why an attempt failed. -/
inductive Failure
  | send
  | timeout
  | closed
  | crypto
  deriving DecidableEq

/-- The source address is not compared, only its port. -/
def couldBeReply (peerAddr : SocketAddr) (d : Datagram) : Bool :=
  d.1.port == peerAddr.port && d.2.length == IK_MSG2_LEN

/-- On the datagrams delivered before the deadline. `last` is how the wait for one more ends. -/
def awaitMsg2 (peerAddr : SocketAddr) (last : Failure) :
    List Datagram → Except Failure (List UInt8)
  | [] => .error last
  | (src, msg) :: incoming =>
    if couldBeReply peerAddr (src, msg) then .ok msg else awaitMsg2 peerAddr last incoming

/-- What an attempt meets outside the daemon. -/
structure Attempt (S : Type) where
  /-- `Initiator::finish` of the state that wrote msg1. -/
  finish : List UInt8 → Option S
  sent : Bool
  incoming : List Datagram
  last : Failure
  /-- `peers.json` can be written. -/
  saves : Bool

/-- Send msg1, wait for msg2, spend the state on it. -/
def Attempt.exchange (a : Attempt S) (peerAddr : SocketAddr) : Except Failure S :=
  if a.sent then do
    let msg2 ← awaitMsg2 peerAddr a.last a.incoming
    match a.finish msg2 with
    | some session => .ok session
    | none => .error .crypto
  else .error .send

/-- The parts of the daemon an initiator reads and writes once it has a session. -/
structure Node (S : Type) where
  now : UInt64
  transport : Transport S
  trusted : ExtTreeMap PeerId TrustedPeer
  pendingPairs : ExtTreeMap PeerId PendingPair
  peersFile : Option (List StoredPeer)
  events : List Event
  rekeys : ℕ

/-- The peer that is dialed. -/
structure Target (S : Type) where
  peer : PeerId
  staticPub : Key
  name : String
  addr : SocketAddr
  /-- `fingerprint_from_handshake_hash` of a session. -/
  sasWords : S → List String

namespace Node

def persistLastAddr (n : Node S) (saves : Bool) (p : PeerId) (addr : SocketAddr) : Node S :=
  match n.peersFile, n.trusted[p]? with
  | some file, some entry =>
    if isRedialableAddr addr && saves then
      { n with peersFile := some (upsertPeer file ⟨p, entry.staticPub, entry.name, some addr⟩) }
    else n
  | _, _ => n

def emit (n : Node S) (events : List Event) : Node S := { n with events := n.events ++ events }

/-- The pending entry of a fresh pairing. `victim` is what the cap evicts. -/
def park (n : Node S) (c : Contact) (victim : PeerId) : Node S :=
  { n with pendingPairs := (parkPending n.pendingPairs n.now.toNat c victim).getD n.pendingPairs }

/-- What `run_initiator` does with a session. `gate` is present where the SAS gate is engaged. -/
def link (n : Node S) (t : Target S) (gate : Option PeerId) (saves : Bool) (session : S) : Node S :=
  if !n.trusted.contains t.peer then n
  else
    let (transport, installed) := n.transport.tryInstallSession n.now t.peer session
    if !installed then { n with transport := transport }
    else
      let n := { n with transport := transport.setPeerInfo n.now t.peer t.addr }
      let n := n.persistLastAddr saves t.peer t.addr
      let n := match gate with
        | some victim =>
          (n.park ⟨t.peer, t.staticPub, t.name, t.addr, t.sasWords session⟩ victim).emit
            [.sasPairingStarted t.peer]
        | none => n
      n.emit [.peerSeen t.peer t.name, .handshakeOk]

/-- What `run_rekey_initiator` does with a session. -/
def relink (n : Node S) (t : Target S) (expectedGeneration : UInt64) (saves : Bool)
    (session : S) : Node S :=
  if !n.trusted.contains t.peer then n
  else
    let (transport, installed) :=
      n.transport.installSessionIfGenerationFor n.now t.peer session expectedGeneration
    if !installed then { n with transport := transport }
    else
      let n := { n with
        transport := transport.setPeerInfo n.now t.peer t.addr
        rekeys := n.rekeys + 1 }
      (n.persistLastAddr saves t.peer t.addr).emit [.handshakeOk]

end Node

/-- The node is the one the reply finds. -/
def runInitiator (n : Node S) (t : Target S) (gate : Option PeerId) (a : Attempt S) :
    Except Failure (Node S) := do
  let session ← a.exchange t.addr
  return n.link t gate a.saves session

def runRekeyInitiator (n : Node S) (t : Target S) (expectedGeneration : UInt64) (a : Attempt S) :
    Except Failure (Node S) := do
  let session ← a.exchange t.addr
  return n.relink t expectedGeneration a.saves session

/-- Whatever comes before the genuine reply from the dialed port is of another port or of
another length, or is that reply. -/
def Unpreceded (peerAddr : SocketAddr) (genuine : List UInt8) (incoming : List Datagram) : Prop :=
  ∃ early src late, incoming = early ++ (src, genuine) :: late ∧ src.port = peerAddr.port ∧
    ∀ d ∈ early, d.1.port = peerAddr.port → d.2.length = IK_MSG2_LEN → d.2 = genuine

variable {n : Node S} {t : Target S} {gate : Option PeerId} {g : UInt64} {a : Attempt S} {s : S}
  {peerAddr : SocketAddr} {last : Failure} {incoming : List Datagram} {d : Datagram}
  {genuine m : List UInt8}

theorem couldBeReply_iff :
    couldBeReply peerAddr d ↔ d.1.port = peerAddr.port ∧ d.2.length = IK_MSG2_LEN := by
  simp [couldBeReply]

/-- The state is spent on the first datagram that could be a reply. -/
theorem awaitMsg2_eq_ok : awaitMsg2 peerAddr last incoming = .ok m ↔
    (incoming.find? (couldBeReply peerAddr)).map Prod.snd = some m := by
  induction incoming with
  | nil => simp [awaitMsg2]
  | cons d incoming ih =>
    obtain ⟨src, msg⟩ := d
    rw [awaitMsg2, List.find?_cons]
    cases couldBeReply peerAddr (src, msg) with
    | true => simp
    | false => simpa using ih

theorem awaitMsg2_genuine (hlen : genuine.length = IK_MSG2_LEN) :
    awaitMsg2 peerAddr last incoming = .ok genuine ↔ Unpreceded peerAddr genuine incoming := by
  rw [awaitMsg2_eq_ok]
  constructor
  · intro h
    obtain ⟨⟨src, msg⟩, hfind, rfl⟩ := Option.map_eq_some_iff.mp h
    obtain ⟨hreply, early, late, rfl, hearly⟩ := List.find?_eq_some_iff_append.mp hfind
    refine ⟨early, src, late, rfl, (couldBeReply_iff.mp hreply).1, fun d hd hport hd48 ↦ ?_⟩
    have hskip : couldBeReply peerAddr d = false := by simpa using hearly d hd
    have hreply' := couldBeReply_iff.mpr ⟨hport, hd48⟩
    rw [hskip] at hreply'
    cases hreply'
  · rintro ⟨early, src, late, rfl, hport, hearly⟩
    have hsrc : couldBeReply peerAddr (src, genuine) := couldBeReply_iff.mpr ⟨hport, hlen⟩
    induction early with
    | nil => simp [hsrc]
    | cons d early ih =>
      rw [List.cons_append, List.find?_cons]
      cases hd : couldBeReply peerAddr d with
      | true =>
        obtain ⟨hp, hl⟩ := couldBeReply_iff.mp hd
        simp [hearly d List.mem_cons_self hp hl]
      | false => exact ih fun d' hd' ↦ hearly d' (List.mem_cons_of_mem d hd')

theorem exchange_eq_ok : a.exchange peerAddr = .ok s ↔
    a.sent ∧ ∃ m, awaitMsg2 peerAddr a.last a.incoming = .ok m ∧ a.finish m = some s := by
  rw [Attempt.exchange]
  cases a.sent with
  | false => simp
  | true =>
    cases awaitMsg2 peerAddr a.last a.incoming with
    | error e => simp [bind, Except.bind]
    | ok m => cases h : a.finish m <;> simp [bind, Except.bind, h]

theorem runInitiator_eq :
    runInitiator n t gate a = (a.exchange t.addr).map (n.link t gate a.saves) := by
  rw [runInitiator]
  cases a.exchange t.addr <;> rfl

theorem runRekeyInitiator_eq :
    runRekeyInitiator n t g a = (a.exchange t.addr).map (n.relink t g a.saves) := by
  rw [runRekeyInitiator]
  cases a.exchange t.addr <;> rfl

/-- Where only the genuine reply is accepted, the exchange succeeds with it or not at all. -/
theorem exchange_genuine (hfinish : ∀ m, (a.finish m).isSome ↔ m = genuine)
    (hlen : genuine.length = IK_MSG2_LEN) : a.exchange peerAddr = .ok s ↔
      a.finish genuine = some s ∧ a.sent ∧ Unpreceded peerAddr genuine a.incoming := by
  rw [exchange_eq_ok]
  constructor
  · rintro ⟨hsent, m, hm, hs⟩
    obtain rfl : m = genuine := (hfinish m).mp (by rw [hs]; rfl)
    exact ⟨hs, hsent, (awaitMsg2_genuine hlen).mp hm⟩
  · rintro ⟨hs, hsent, h⟩
    exact ⟨hsent, genuine, (awaitMsg2_genuine hlen).mpr h, hs⟩

/-- A continuation of the exchange is reached with the genuine session exactly when the
exchange is. -/
theorem exchange_then (hfinish : ∀ m, (a.finish m).isSome ↔ m = genuine)
    (hlen : genuine.length = IK_MSG2_LEN) (k : S → Node S) :
    (∃ s, a.finish genuine = some s ∧ (a.exchange peerAddr).map k = .ok (k s)) ↔
      a.sent ∧ Unpreceded peerAddr genuine a.incoming := by
  constructor
  · rintro ⟨s, -, h⟩
    cases hx : a.exchange peerAddr with
    | error e =>
      rw [hx] at h
      cases h
    | ok s' => exact ((exchange_genuine hfinish hlen).mp hx).2
  · intro h
    obtain ⟨s, hs⟩ := Option.isSome_iff_exists.mp ((hfinish genuine).mpr rfl)
    have hx : a.exchange peerAddr = .ok s := (exchange_genuine hfinish hlen).mpr ⟨hs, h⟩
    exact ⟨s, hs, by rw [hx]; rfl⟩

/-- Both initiators complete with the genuine reply exactly when nothing that looks like one
comes before it. -/
theorem completes_iff (hfinish : ∀ m, (a.finish m).isSome ↔ m = genuine)
    (hlen : genuine.length = IK_MSG2_LEN) :
    ((∃ s, a.finish genuine = some s ∧
        runInitiator n t gate a = .ok (n.link t gate a.saves s)) ↔
      a.sent ∧ Unpreceded t.addr genuine a.incoming) ∧
    ((∃ s, a.finish genuine = some s ∧
        runRekeyInitiator n t g a = .ok (n.relink t g a.saves s)) ↔
      a.sent ∧ Unpreceded t.addr genuine a.incoming) := by
  rw [runInitiator_eq, runRekeyInitiator_eq]
  exact ⟨exchange_then hfinish hlen _, exchange_then hfinish hlen _⟩

def lan : SocketAddr := .v4 0xc0a80105 47000

def tailnet : SocketAddr := .v4 0x64400105 47000

/-- The daemon that is dialed at the second of its two addresses. -/
def dialed : Target Unit := ⟨5, 7, "desk", tailnet, fun _ ↦ []⟩

def trusting : Node Unit := ⟨0, .new 0, {(5, ⟨7, "desk"⟩)}, ∅, none, [], 0⟩

def reply (ephemeral : UInt8) : List UInt8 := List.replicate IK_MSG2_LEN ephemeral

/-- A state that accepts the reply with the ephemeral key 2. -/
def onlySecond (incoming : List Datagram) : Attempt Unit where
  finish m := if m = reply 2 then some () else none
  sent := true
  incoming := incoming
  last := .timeout
  saves := true

theorem onlySecond_finish (incoming : List Datagram) (m : List UInt8) :
    ((onlySecond incoming).finish m).isSome ↔ m = reply 2 := by
  simp [onlySecond]

/-- Junk, and a reply of another port, before the genuine one. -/
theorem completes_iff_stray :
    (∃ s, (onlySecond [(lan, [1]), (.v4 1 9, reply 1), (lan, reply 2)]).finish (reply 2) = some s ∧
      runInitiator trusting dialed none
          (onlySecond [(lan, [1]), (.v4 1 9, reply 1), (lan, reply 2)]) =
        .ok (trusting.link dialed none true s)) ∧
    (∃ s, (onlySecond [(lan, [1]), (.v4 1 9, reply 1), (lan, reply 2)]).finish (reply 2) = some s ∧
      runRekeyInitiator trusting dialed 0
          (onlySecond [(lan, [1]), (.v4 1 9, reply 1), (lan, reply 2)]) =
        .ok (trusting.relink dialed 0 true s)) := by
  have h : Unpreceded dialed.addr (reply 2) [(lan, [1]), (.v4 1 9, reply 1), (lan, reply 2)] :=
    ⟨[(lan, [1]), (.v4 1 9, reply 1)], lan, [], rfl, rfl, by decide⟩
  have hiff := @completes_iff _ trusting dialed none 0 _ _
    (onlySecond_finish [(lan, [1]), (.v4 1 9, reply 1), (lan, reply 2)]) rfl
  exact ⟨hiff.1.mpr ⟨rfl, h⟩, hiff.2.mpr ⟨rfl, h⟩⟩

/-- The reply to the first hint comes while the second is dialed, and the handshake fails. -/
theorem late_reply_spends_state :
    (∀ m, ((onlySecond [(lan, reply 1), (tailnet, reply 2)]).finish m).isSome ↔ m = reply 2) ∧
      (reply 2).length = IK_MSG2_LEN ∧
      runInitiator trusting dialed none (onlySecond [(lan, reply 1), (tailnet, reply 2)]) =
        .error .crypto ∧
      runRekeyInitiator trusting dialed 0 (onlySecond [(lan, reply 1), (tailnet, reply 2)]) =
        .error .crypto :=
  ⟨onlySecond_finish _, rfl, rfl, rfl⟩

end FluxSync.Initiator
