import FluxSync.Types

namespace FluxSync

open Std Function

variable {S : Type}

structure PeerConn (S : Type) where
  peerAddr : Option SocketAddr
  lastPeerAddr : Option SocketAddr
  lastPeerId : Option PeerId
  session : Option S
  sessionGeneration : UInt64
  roamingHistory : List SocketAddr
  lastRxMs : UInt64
  lastRoamMs : UInt64
  sessionEstablishedAtMs : UInt64
  bytesSinceEstablished : UInt64

def PeerConn.new (now : UInt64) : PeerConn S where
  peerAddr := none
  lastPeerAddr := none
  lastPeerId := none
  session := none
  sessionGeneration := 0
  roamingHistory := []
  lastRxMs := now
  lastRoamMs := 0
  sessionEstablishedAtMs := 0
  bytesSinceEstablished := 0

/-- The identity of a shared `PeerConn`. A holder keeps the one it resolved
after the entry has left `extra`, so a later entry of the same peer is another slot. -/
inductive Slot
  | primary
  | secondary (id : PeerId) (allocation : ℕ)
  deriving DecidableEq

structure Transport (S : Type) where
  conns : Slot → PeerConn S
  extra : ExtTreeMap PeerId ℕ
  allocated : ℕ

namespace Transport

def new (now : UInt64) : Transport S := ⟨fun _ ↦ .new now, ∅, 0⟩

def conn (t : Transport S) : PeerConn S := t.conns .primary

def live (t : Transport S) (s : Slot) : Bool := (t.conns s).session.isSome

def modify (t : Transport S) (s : Slot) (f : PeerConn S → PeerConn S) : Transport S :=
  { t with conns := update t.conns s (f (t.conns s)) }

section

variable {t : Transport S} {s : Slot} {id : PeerId} {n : ℕ} {f g : PeerConn S → PeerConn S}

theorem conn_modify_primary : (t.modify .primary f).conn = f t.conn := by
  simp [modify, conn]

theorem conn_modify_secondary : (t.modify (.secondary id n) f).conn = t.conn := by
  simp [modify, conn]

theorem extra_modify : (t.modify s f).extra = t.extra := rfl

theorem live_modify_ne {s' : Slot} (h : s' ≠ s) : (t.modify s f).live s' = t.live s' := by
  simp [modify, live, h]

theorem live_modify_self : (t.modify s f).live s = (f (t.conns s)).session.isSome := by
  simp [modify, live]

theorem modify_modify :
    (t.modify s f).modify s g = t.modify s (g ∘ f) := by
  simp [modify]

theorem live_primary_eq : t.live .primary = t.conn.session.isSome := rfl

end

def storeSession (t : Transport S) (s : Slot) (session : Option S) : Transport S :=
  t.modify s fun c ↦ { c with session := session }

def storeLastPeerId (t : Transport S) (s : Slot) (id : PeerId) : Transport S :=
  t.modify s fun c ↦ { c with lastPeerId := some id }

def bumpGeneration (t : Transport S) (s : Slot) : Transport S :=
  t.modify s fun c ↦ { c with sessionGeneration := c.sessionGeneration + 1 }

def storeEstablished (t : Transport S) (s : Slot) (now : UInt64) : Transport S :=
  t.modify s fun c ↦ { c with sessionEstablishedAtMs := now, bytesSinceEstablished := 0 }

def storePeerAddr (t : Transport S) (s : Slot) (addr : Option SocketAddr) : Transport S :=
  t.modify s fun c ↦ { c with peerAddr := addr }

def storeLastPeerAddr (t : Transport S) (s : Slot) (addr : SocketAddr) : Transport S :=
  t.modify s fun c ↦ { c with lastPeerAddr := some addr }

/-- `h.insert(0, addr); h.truncate(5)` unless the address is there already. -/
def recordAddr (h : List SocketAddr) (addr : SocketAddr) : List SocketAddr :=
  if addr ∈ h then h else (addr :: h).take 5

def pushHistory (t : Transport S) (s : Slot) (addr : SocketAddr) : Transport S :=
  t.modify s fun c ↦ { c with roamingHistory := recordAddr c.roamingHistory addr }

/-- The test `acquire_conn` makes on the two values it read from the primary slot. -/
def reusesPrimary (cur : Option PeerId) (live : Bool) (id : PeerId) : Bool :=
  cur == some id || cur.isNone || !live

/-- `extra.entry(id).or_insert_with(..)`. -/
def extraEntry (t : Transport S) (now : UInt64) (id : PeerId) : Transport S × Slot :=
  match t.extra[id]? with
  | some n => (t, .secondary id n)
  | none =>
    ({ conns := update t.conns (.secondary id t.allocated) (.new now)
       extra := t.extra.insert id t.allocated
       allocated := t.allocated + 1 },
      .secondary id t.allocated)

def acquireConn (t : Transport S) (now : UInt64) (id : PeerId) : Transport S × Slot :=
  if reusesPrimary t.conn.lastPeerId (t.live .primary) id then (t, .primary)
  else t.extraEntry now id

def connFor (t : Transport S) (id : PeerId) : Option Slot :=
  if t.conn.lastPeerId = some id then some .primary
  else t.extra[id]?.map (.secondary id)

def setPeerInfo (t : Transport S) (now : UInt64) (id : PeerId) (addr : SocketAddr) :
    Transport S :=
  let (t, target) := t.acquireConn now id
  (((t.storePeerAddr target (some addr)).storeLastPeerAddr target addr).storeLastPeerId target
    id).pushHistory target addr

def installSession (t : Transport S) (now : UInt64) (id : PeerId) (session : S) : Transport S :=
  let (t, target) := t.acquireConn now id
  (((t.storeSession target (some session)).storeLastPeerId target id).bumpGeneration
    target).storeEstablished target now

def tryInstallSession (t : Transport S) (now : UInt64) (id : PeerId) (session : S) :
    Transport S × Bool :=
  let (t, target) := t.acquireConn now id
  if t.live target then (t, false)
  else
    ((((t.storeSession target (some session)).storeLastPeerId target id).bumpGeneration
      target).storeEstablished target now, true)

def installSessionIfGenerationFor (t : Transport S) (now : UInt64) (id : PeerId) (session : S)
    (expectedGeneration : UInt64) : Transport S × Bool :=
  match t.connFor id with
  | none => (t, false)
  | some target =>
    if (t.conns target).sessionGeneration ≠ expectedGeneration then (t, false)
    else
      ((((t.storeSession target (some session)).bumpGeneration target).storeLastPeerId target
        id).storeEstablished target now, true)

def dropSession (t : Transport S) : Transport S :=
  (t.storeSession .primary none).bumpGeneration .primary

def dropSessionFor (t : Transport S) (id : PeerId) : Transport S :=
  match t.connFor id with
  | none => t
  | some c => (t.storeSession c none).bumpGeneration c

def removeExtra (t : Transport S) (id : PeerId) : Transport S :=
  { t with extra := t.extra.erase id }

def purgePeer (t : Transport S) (id : PeerId) : Transport S :=
  (t.dropSessionFor id).removeExtra id

def hasSessionFor (t : Transport S) (id : PeerId) : Bool :=
  match t.connFor id with
  | some c => t.live c
  | none => false

def liveSecondaries (t : Transport S) : List (PeerId × ℕ) :=
  t.extra.toList.filter fun e ↦ t.live (.secondary e.1 e.2)

def linkedPeerIds (t : Transport S) : List PeerId :=
  (if t.live .primary then t.conn.lastPeerId.toList else []) ++ t.liveSecondaries.map Prod.fst

/-- The first section of `promote_secondary`: the first live secondary in key
order leaves `extra`. -/
def detachSecondary (t : Transport S) : Option (Transport S × PeerId × ℕ) :=
  t.liveSecondaries.head?.map fun e ↦ (t.removeExtra e.1, e.1, e.2)

/-- What the primary slot takes over from the promoted `PeerConn` besides its session and id. -/
def adoptAddr (t : Transport S) (sec : PeerConn S) : Transport S :=
  t.modify .primary fun c ↦
    { c with
      peerAddr := sec.peerAddr
      lastPeerAddr := sec.peerAddr <|> c.lastPeerAddr
      lastRxMs := sec.lastRxMs }

def promoteSecondary (t : Transport S) (now : UInt64) : Transport S × Option PeerId :=
  match t.detachSecondary with
  | none => (t, none)
  | some (t, id, n) =>
    match (t.conns (.secondary id n)).session with
    | none => (t, none)
    | some session =>
      let t := t.storeSession (.secondary id n) none
      let t := (t.storeSession .primary (some session)).storeLastPeerId .primary id
      let t := (t.adoptAddr (t.conns (.secondary id n))).bumpGeneration .primary
      (t.storeEstablished .primary now, some id)

end Transport

end FluxSync
