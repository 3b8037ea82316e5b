import FluxSync.Transport.Conn

namespace FluxSync.Transport

open Std Function

variable {N : Type}

/-- A session with the peer it was installed for. The daemon keeps no such
record, and nothing below branches on it. -/
structure Installed (N : Type) where
  peer : PeerId
  noise : N

/-- The calls that resolve their slot by `acquire_conn`. -/
inductive Errand (N : Type)
  | installSession (noise : N)
  | tryInstallSession (noise : N)
  | setPeerInfo (addr : SocketAddr)

/-- The calls that resolve their slot by `conn_for`. -/
inductive Visit (N : Type)
  | installSessionIfGenerationFor (noise : N) (expectedGeneration : UInt64)
  | dropSessionFor (purge : Bool)

inductive Op (N : Type)
  | acquire (e : Errand N) (id : PeerId)
  | visit (v : Visit N) (id : PeerId)
  | dropSession
  | promoteSecondary
  | recv (src : SocketAddr) (body : List UInt8)

/-- What `recv` has found out about the datagram it holds. -/
structure Datagram where
  src : SocketAddr
  body : List UInt8

structure Received where
  src : SocketAddr
  peerId : PeerId
  plaintext : List UInt8
  /-- The peer the session that decrypted it was installed for. -/
  decryptedBy : PeerId

/-- The next lock section of a call. -/
inductive Pc (N : Type)
  | idle
  | acquireReadId (e : Errand N) (id : PeerId)
  | acquireReadLive (e : Errand N) (id : PeerId) (cur : Option PeerId)
  | acquireExtra (e : Errand N) (id : PeerId)
  | install (noise : N) (id : PeerId) (slot : Slot)
  | tryInstall (noise : N) (id : PeerId) (slot : Slot)
  | setPeerAddr (addr : SocketAddr) (id : PeerId) (slot : Slot)
  | setLastPeerAddr (addr : SocketAddr) (id : PeerId) (slot : Slot)
  | setLastPeerId (addr : SocketAddr) (id : PeerId) (slot : Slot)
  | pushHistory (addr : SocketAddr) (slot : Slot)
  | stampId (id : PeerId) (slot : Slot) (bumps : Bool)
  | bumpGeneration (slot : Slot)
  | storeEstablished (slot : Slot)
  | connForReadId (v : Visit N) (id : PeerId)
  | connForExtra (v : Visit N) (id : PeerId)
  | casInstall (noise : N) (id : PeerId) (slot : Slot) (expectedGeneration : UInt64)
  | dropStore (slot : Slot) (purge : Option PeerId)
  | dropBump (slot : Slot) (purge : Option PeerId)
  | removeExtra (id : PeerId)
  | promoteDetach
  | promoteTake (id : PeerId) (allocation : ℕ)
  | promoteStore (id : PeerId) (allocation : ℕ) (session : Installed N)
  | promoteStampId (id : PeerId) (allocation : ℕ)
  | promoteReadAddr (id : PeerId) (allocation : ℕ)
  | promoteStoreAddr (id : PeerId) (allocation : ℕ) (addr : Option SocketAddr)
  | promoteStoreLastAddr (id : PeerId) (allocation : ℕ) (addr : SocketAddr)
  | promoteLastRx (id : PeerId) (allocation : ℕ)
  | recvReadId (d : Datagram)
  | recvReadExtra (d : Datagram) (cur : Option PeerId)
  | recvTry (d : Datagram) (candidates : List (PeerId × Slot))
  | recvCount (r : Received) (slot : Slot) (len : ℕ)
  | recvRoam (r : Received) (slot : Slot)
  | recvLastRx (r : Received) (slot : Slot)

def Op.entry : Op N → Pc N
  | .acquire e id => .acquireReadId e id
  | .visit v id => .connForReadId v id
  | .dropSession => .dropStore .primary none
  | .promoteSecondary => .promoteDetach
  | .recv src body => .recvReadId ⟨src, body⟩

def Errand.onSlot (id : PeerId) (slot : Slot) : Errand N → Pc N
  | .installSession noise => .install noise id slot
  | .tryInstallSession noise => .tryInstall noise id slot
  | .setPeerInfo addr => .setPeerAddr addr id slot

def Visit.onSlot (id : PeerId) (slot : Slot) : Visit N → Pc N
  | .installSessionIfGenerationFor noise g => .casInstall noise id slot g
  | .dropSessionFor purge => .dropStore slot (if purge then some id else none)

/-- Where `conn_for` found nothing, only a purge goes on. -/
def Visit.unresolved (id : PeerId) : Visit N → Pc N
  | .dropSessionFor true => .removeExtra id
  | _ => .idle

def ROAM_MIN_INTERVAL_MS : UInt64 := 30000

def roamAllowed (nowMs lastRoamMs : UInt64) : Bool :=
  ROAM_MIN_INTERVAL_MS.toNat ≤ nowMs.toNat - lastRoamMs.toNat

/-- The `peer_addr` section of `recv`. Only this section writes `last_roam_ms`,
so its compare-and-exchange succeeds. -/
def roam {S : Type} (c : PeerConn S) (src : SocketAddr) (now : UInt64) : PeerConn S :=
  if c.peerAddr ≠ some src ∧ roamAllowed now c.lastRoamMs then
    { c with
      peerAddr := some src
      lastPeerAddr := some src
      lastRoamMs := now
      roamingHistory := recordAddr c.roamingHistory src }
  else c

/-- `recv`'s candidates after the primary slot's, in key order. -/
def extraCandidates (t : Transport (Installed N)) : List (PeerId × Slot) :=
  t.extra.toList.map fun e ↦ (e.1, .secondary e.1 e.2)

/-- One lock section, and where the call stands after it. -/
def advance (decrypt : N → List UInt8 → N × Option (List UInt8)) (t : Transport (Installed N))
    (now : UInt64) : Pc N → Transport (Installed N) × Pc N
  | .idle => (t, .idle)
  | .acquireReadId e id => (t, .acquireReadLive e id t.conn.lastPeerId)
  | .acquireReadLive e id cur =>
    (t, if reusesPrimary cur (t.live .primary) id then e.onSlot id .primary else .acquireExtra e id)
  | .acquireExtra e id => ((t.extraEntry now id).1, e.onSlot id (t.extraEntry now id).2)
  | .install noise id slot => (t.storeSession slot (some ⟨id, noise⟩), .stampId id slot true)
  | .tryInstall noise id slot =>
    if t.live slot then (t, .idle)
    else (t.storeSession slot (some ⟨id, noise⟩), .stampId id slot true)
  | .setPeerAddr addr id slot => (t.storePeerAddr slot (some addr), .setLastPeerAddr addr id slot)
  | .setLastPeerAddr addr id slot => (t.storeLastPeerAddr slot addr, .setLastPeerId addr id slot)
  | .setLastPeerId addr id slot => (t.storeLastPeerId slot id, .pushHistory addr slot)
  | .pushHistory addr slot => (t.pushHistory slot addr, .idle)
  | .stampId id slot bumps =>
    (t.storeLastPeerId slot id, if bumps then .bumpGeneration slot else .storeEstablished slot)
  | .bumpGeneration slot => (t.bumpGeneration slot, .storeEstablished slot)
  | .storeEstablished slot => (t.storeEstablished slot now, .idle)
  | .connForReadId v id =>
    (t, if t.conn.lastPeerId = some id then v.onSlot id .primary else .connForExtra v id)
  | .connForExtra v id =>
    (t, match t.extra[id]? with
      | some n => v.onSlot id (.secondary id n)
      | none => v.unresolved id)
  | .casInstall noise id slot g =>
    if (t.conns slot).sessionGeneration ≠ g then (t, .idle)
    else
      ((t.storeSession slot (some ⟨id, noise⟩)).bumpGeneration slot, .stampId id slot false)
  | .dropStore slot purge => (t.storeSession slot none, .dropBump slot purge)
  | .dropBump slot purge =>
    (t.bumpGeneration slot, match purge with
      | some id => .removeExtra id
      | none => .idle)
  | .removeExtra id => (t.removeExtra id, .idle)
  | .promoteDetach =>
    match t.detachSecondary with
    | some (t, id, n) => (t, .promoteTake id n)
    | none => (t, .idle)
  | .promoteTake id n =>
    match (t.conns (.secondary id n)).session with
    | some session => (t.storeSession (.secondary id n) none, .promoteStore id n session)
    | none => (t, .idle)
  | .promoteStore id n session => (t.storeSession .primary (some session), .promoteStampId id n)
  | .promoteStampId id n => (t.storeLastPeerId .primary id, .promoteReadAddr id n)
  | .promoteReadAddr id n => (t, .promoteStoreAddr id n (t.conns (.secondary id n)).peerAddr)
  | .promoteStoreAddr id n addr =>
    (t.storePeerAddr .primary addr, match addr with
      | some a => .promoteStoreLastAddr id n a
      | none => .promoteLastRx id n)
  | .promoteStoreLastAddr id n addr => (t.storeLastPeerAddr .primary addr, .promoteLastRx id n)
  | .promoteLastRx id n =>
    (t.modify .primary fun c ↦ { c with lastRxMs := (t.conns (.secondary id n)).lastRxMs },
      .bumpGeneration .primary)
  | .recvReadId d => (t, .recvReadExtra d t.conn.lastPeerId)
  | .recvReadExtra d cur =>
    (t, .recvTry d (cur.toList.map (fun id ↦ (id, .primary)) ++ t.extraCandidates))
  | .recvTry _ [] => (t, .idle)
  | .recvTry d ((id, slot) :: rest) =>
    match (t.conns slot).session with
    | none => (t, .recvTry d rest)
    | some session =>
      let (noise, result) := decrypt session.noise d.body
      (t.storeSession slot (some { session with noise := noise }), match result with
        | some plaintext => .recvCount ⟨d.src, id, plaintext, session.peer⟩ slot d.body.length
        | none => .recvTry d rest)
  | .recvCount r slot len =>
    (t.modify slot fun c ↦
      { c with bytesSinceEstablished := c.bytesSinceEstablished + UInt64.ofNat len },
      .recvRoam r slot)
  | .recvRoam r slot => (t.modify slot fun c ↦ roam c r.src now, .recvLastRx r slot)
  | .recvLastRx _ slot => (t.modify slot fun c ↦ { c with lastRxMs := now }, .idle)

/-- The frame `recv` returns at its last section. -/
def returned : Pc N → Option Received
  | .recvLastRx r _ => some r
  | _ => none

/-- Any number of calls in progress over one transport. -/
structure Calls (N : Type) where
  transport : Transport (Installed N)
  tasks : ℕ → Pc N
  received : List Received

inductive Act (N : Type)
  | start (i : ℕ) (op : Op N)
  | lockSection (i : ℕ) (now : UInt64)

def Calls.init (now : UInt64) : Calls N := ⟨.new now, fun _ ↦ .idle, []⟩

def Calls.step (decrypt : N → List UInt8 → N × Option (List UInt8)) (s : Calls N) :
    Act N → Option (Calls N)
  | .start i op =>
    match s.tasks i with
    | .idle => some { s with tasks := update s.tasks i op.entry }
    | _ => none
  | .lockSection i now =>
    match s.tasks i with
    | .idle => none
    | pc =>
      some
        { transport := (advance decrypt s.transport now pc).1
          tasks := update s.tasks i (advance decrypt s.transport now pc).2
          received := s.received ++ (returned pc).toList }

end FluxSync.Transport
