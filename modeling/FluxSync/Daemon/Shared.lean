import FluxSync.Types

namespace FluxSync.Daemon

open Std Function

structure TrustedPeer where
  staticPub : Key
  name : String
  deriving DecidableEq

structure PendingPair where
  staticPub : Key
  name : String
  sasWords : List String
  src : SocketAddr
  expiresAt : ℕ
  deriving DecidableEq

/-- An entry of `peers.json`, with its hex and address texts decoded. -/
structure StoredPeer where
  peerId : PeerId
  staticPub : Key
  name : String
  lastAddr : Option SocketAddr
  deriving DecidableEq

structure Inflight where
  frames : ℕ
  attempts : ℕ
  lastSent : ℕ
  firstSent : ℕ
  pendingPeers : List PeerId
  deriving DecidableEq

/-- The state the daemon's tasks share, with the clock in milliseconds. -/
structure Shared where
  now : ℕ
  trusted : ExtTreeMap PeerId TrustedPeer
  pendingPairs : ExtTreeMap PeerId PendingPair
  pairingWindow : Option ℕ
  peersFile : List StoredPeer
  /-- The task that holds `trusted` across an await. -/
  trustedBy : Option ℕ
  /-- The task that holds `peers_disk_lock`. -/
  diskBy : Option ℕ
  /-- The peers with a live session. -/
  linked : List PeerId
  inflight : ExtTreeMap ContentHash Inflight
  /-- Parked as pending since it was last admitted or accepted. No task reads it. -/
  parked : PeerId → Bool
  /-- Accepted by the local user since it was last admitted. No task reads it. -/
  confirmed : PeerId → Bool

def MAX_PENDING_PAIRS : ℕ := 64

def MAX_TOFU_TRUSTED_PEERS : ℕ := 256

def MAX_PERSISTED_PEERS : ℕ := 64

def PAIRING_WINDOW : ℕ := 90000

def PEERS_PERSIST_ATTEMPTS : ℕ := 3

def RETRANSMIT_INTERVAL : ℕ := 2000

def MAX_RETRANSMIT : ℕ := 6

def INFLIGHT_MAX_AGE : ℕ := 90000

def TOFU_PLACEHOLDER_NAME : String := "New Peer"

/-- What a handshake or a pair command knows of the peer it is about. -/
structure Contact where
  peer : PeerId
  staticPub : Key
  name : String
  addr : SocketAddr
  sasWords : List String

def tofuTrustedPeer (remoteStatic : Key) : TrustedPeer := ⟨remoteStatic, TOFU_PLACEHOLDER_NAME⟩

def upsertPeer (peers : List StoredPeer) (entry : StoredPeer) : List StoredPeer :=
  peers.filter (fun p ↦ p.peerId ≠ entry.peerId) ++ [entry]

/-- `load_trusted_peers`, with the entries' addresses left out. -/
def loadTrustedPeers (κ : Crypto) (stored : List StoredPeer) : List (PeerId × TrustedPeer) :=
  ((stored.filter fun p ↦ κ.validPubkey p.staticPub).map fun p ↦
    (κ.peerIdFor p.staticPub, ⟨p.staticPub, p.name⟩)).take MAX_PERSISTED_PEERS

/-- The entry `save_current_peers` writes for a trusted peer. -/
def storedPeer (existing : List StoredPeer) (peerId : PeerId) (peer : TrustedPeer) : StoredPeer where
  peerId := peerId
  staticPub := peer.staticPub
  name := peer.name
  lastAddr := ((existing.reverse.find? fun p ↦ p.peerId = peerId).bind (·.lastAddr))

def isRedialableAddr : SocketAddr → Bool
  | .v4 ip _ =>
    ip ≠ 0 && ip.extractLsb' 28 4 ≠ 0xe#4 && ip.extractLsb' 16 16 ≠ 0xa9fe#16
  | .v6 ip _ _ _ =>
    ip ≠ 0 && ip.extractLsb' 120 8 ≠ 0xff#8 && ip.extractLsb' 118 10 ≠ 0x3fa#10

/-- `retain(|_, p| p.expires_at > now)`. -/
def sweep (pending : ExtTreeMap PeerId PendingPair) (now : ℕ) : ExtTreeMap PeerId PendingPair :=
  pending.filter fun _ p ↦ now < p.expiresAt

/-- `victim` is an entry `min_by_key(|(_, p)| p.expires_at)` can pick. -/
def soonest (pending : ExtTreeMap PeerId PendingPair) (victim : PeerId) : Bool :=
  match pending[victim]? with
  | some e => pending.toList.all fun x ↦ e.expiresAt ≤ x.2.expiresAt
  | none => false

/-- The pending section of `run_initiator`, `run_responder` and the
`PairVerifyStarted` handler: sweep, evict one entry at the cap, insert. -/
def parkPending (pending : ExtTreeMap PeerId PendingPair) (now : ℕ) (c : Contact)
    (victim : PeerId) : Option (ExtTreeMap PeerId PendingPair) :=
  let entry : PendingPair := ⟨c.staticPub, c.name, c.sasWords, c.addr, now + PAIRING_WINDOW⟩
  let swept := sweep pending now
  if swept.size < MAX_PENDING_PAIRS then some (swept.insert c.peer entry)
  else if soonest swept victim then some ((swept.erase victim).insert c.peer entry)
  else none

def trackInflight (inflight : ExtTreeMap ContentHash Inflight) (now : ℕ) (hash : ContentHash)
    (frames : ℕ) (peers : List PeerId) : ExtTreeMap ContentHash Inflight :=
  let waiting := match inflight[hash]? with
    | some inf => inf.pendingPeers
    | none => []
  inflight.insert hash ⟨frames, 0, now, now, waiting ++ peers.filter (· ∉ waiting)⟩

/-- `purge_peer_from_inflight`. -/
def purgeInflight (inflight : ExtTreeMap ContentHash Inflight) (p : PeerId) :
    ExtTreeMap ContentHash Inflight :=
  inflight.filterMap fun _ inf ↦
    match inf.pendingPeers.filter (· ≠ p) with
    | [] => none
    | waiting => some { inf with pendingPeers := waiting }

/-- What the retransmit tick makes of one entry: dropped, left for later, or sent again. -/
inductive Due
  | done
  | wait
  | resend

def Inflight.due (inf : Inflight) (now : ℕ) : Due :=
  if INFLIGHT_MAX_AGE < now - inf.firstSent then .done
  else if now - inf.lastSent < RETRANSMIT_INTERVAL then .wait
  else if MAX_RETRANSMIT ≤ inf.attempts then .done
  else .resend

def retransmitTick (inflight : ExtTreeMap ContentHash Inflight) (now : ℕ) :
    ExtTreeMap ContentHash Inflight :=
  inflight.filterMap fun _ inf ↦
    match inf.due now with
    | .done => none
    | .wait => some inf
    | .resend => some { inf with attempts := inf.attempts + 1, lastSent := now }

/-- The peers a tick resends to, with the number of frames for each. -/
def retransmitJobs (inflight : ExtTreeMap ContentHash Inflight) (now : ℕ) : List (PeerId × ℕ) :=
  inflight.toList.flatMap fun e ↦
    match e.2.due now with
    | .resend => e.2.pendingPeers.map fun p ↦ (p, e.2.frames)
    | _ => []

namespace Shared

/-- Insert `c` into the trusted set on the word of a pair command or of the pairing window. -/
def enroll (s : Shared) (c : Contact) (peer : TrustedPeer) : Shared :=
  let fresh := !s.trusted.contains c.peer
  { s with
    trusted := s.trusted.insert c.peer peer
    confirmed := if fresh then update s.confirmed c.peer false else s.confirmed
    parked :=
      if fresh && !s.pendingPairs.contains c.peer then update s.parked c.peer false else s.parked }

def distrust (s : Shared) (p : PeerId) : Shared := { s with trusted := s.trusted.erase p }

def park (s : Shared) (c : Contact) (victim : PeerId) : Option Shared :=
  (parkPending s.pendingPairs s.now c victim).map fun pending ↦
    { s with pendingPairs := pending, parked := update s.parked c.peer true }

def unpend (s : Shared) (p : PeerId) : Shared :=
  { s with pendingPairs := s.pendingPairs.erase p }

def link (s : Shared) (p : PeerId) : Shared :=
  if p ∈ s.linked then s else { s with linked := s.linked ++ [p] }

def unlink (s : Shared) (p : PeerId) : Shared := { s with linked := s.linked.filter (· ≠ p) }

end Shared

end FluxSync.Daemon
