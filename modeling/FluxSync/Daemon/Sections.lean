import FluxSync.Daemon.Tasks

namespace FluxSync.Daemon

open Std Function

namespace Shared

/-- The end of a call into `peers.rs`: `run_responder` still holds `trusted`,
drops its insert on failure, and releases the lock. -/
def settle (s : Shared) (k : Caller) (ok : Bool) : Shared :=
  match k with
  | .tofu c _ => { if ok then s else s.distrust c.peer with trustedBy := none }
  | _ => s

end Shared

def advanceHandshake (i : ℕ) (ch : Choice) (s : Shared) : HandshakePc → Option Next
  | .resolve c known =>
    if s.trustedBy ≠ none then none
    else match s.trusted[c.peer]? with
    | some existing =>
      if existing.staticPub ≠ c.staticPub then Pc.idle.toNext s else (respond c known).toNext s
    | none =>
      if (s.pairingWindow.any fun deadline ↦ s.now < deadline) = false then Pc.idle.toNext s
      else if MAX_TOFU_TRUSTED_PEERS ≤ s.trusted.size then Pc.idle.toNext s
      else
        (Pc.peers (.upsert (.tofu c known)
          ⟨c.peer, c.staticPub, TOFU_PLACEHOLDER_NAME, some c.addr⟩)).toNext
          { s.enroll c (tofuTrustedPeer c.staticPub) with trustedBy := some i }
  | .tofuPark c known =>
    (s.park { c with name := TOFU_PLACEHOLDER_NAME } ch.victim).bind (respond c known).toNext
  | .recheck c role =>
    if s.trustedBy ≠ none then none
    else (if s.trusted.contains c.peer then Pc.handshake (.install c role) else .idle).toNext s
  | .install c role =>
    let installs := match role with
      | .initiator _ => decide (c.peer ∉ s.linked)
      | .rekey => ch.ok
      | .responder known => if known then ch.ok else decide (c.peer ∉ s.linked)
    if installs then
      (Pc.peers (.lastAddr c.peer c.addr (.handshake c role))).toNext (s.link c.peer)
    else Pc.idle.toNext s
  | .gatedPark c => (s.park c ch.victim).bind Pc.idle.toNext

def advancePeers (i : ℕ) (ch : Choice) (s : Shared) : PeersPc → Option Next
  | .lastAddr p addr k =>
    if isRedialableAddr addr = false then (k.resume true).toNext s
    else if s.trustedBy ≠ none then none
    else match s.trusted[p]? with
    | some t => (Pc.peers (.upsert k ⟨p, t.staticPub, t.name, some addr⟩)).toNext s
    | none => (k.resume true).toNext s
  | .upsert k entry =>
    if s.diskBy ≠ none then none
    else if ch.readable then
      (Pc.peers (.upsertWrite k 0 (upsertPeer s.peersFile entry))).toNext
        { s with diskBy := some i }
    else (k.resume false).toNext (s.settle k false)
  | .upsertWrite k attempt stored =>
    if ch.ok then
      (k.resume true).toNext ({ s with peersFile := stored, diskBy := none }.settle k true)
    else if attempt + 1 < PEERS_PERSIST_ATTEMPTS then
      (Pc.peers (.upsertWrite k (attempt + 1) stored)).toNext s
    else (k.resume false).toNext ({ s with diskBy := none }.settle k false)
  | .save k =>
    if s.diskBy ≠ none then none
    else
      (Pc.peers (.snapshot k 0 (if ch.readable then s.peersFile else []))).toNext
        { s with diskBy := some i }
  | .snapshot k attempt existing =>
    if s.trustedBy ≠ none ∨ ¬ ch.order.Perm s.trusted.keys then none
    else
      (Pc.peers (.saveWrite k attempt
        (ch.order.filterMap fun p ↦ s.trusted[p]?.map (storedPeer existing p)))).toNext s
  | .saveWrite k attempt stored =>
    if ch.ok then (k.resume true).toNext { s with peersFile := stored, diskBy := none }
    else if attempt + 1 < PEERS_PERSIST_ATTEMPTS then
      (Pc.peers (.snapshot k (attempt + 1) (if ch.readable then s.peersFile else []))).toNext s
    else (k.resume false).toNext { s with diskBy := none }

def advancePair (s : Shared) : PairPc → Option Next
  | .cap c =>
    if s.trustedBy ≠ none then none
    else if s.trusted.contains c.peer = false ∧ MAX_PERSISTED_PEERS ≤ s.trusted.size then
      Pc.idle.toNext s
    else (Pc.pair (.confirmed c)).toNext s
  | .confirmed c =>
    if s.trustedBy ≠ none then none
    else
      (Pc.pair (.insert c (s.trusted.contains c.peer && !s.pendingPairs.contains c.peer))).toNext s
  | .insert c already =>
    if s.trustedBy ≠ none then none
    else
      (Pc.peers (.upsert (.pair c already) ⟨c.peer, c.staticPub, c.name, none⟩)).toNext
        (s.enroll c ⟨c.staticPub, c.name⟩)
  | .rollback p => if s.trustedBy ≠ none then none else Pc.idle.toNext (s.distrust p)
  | .dial c already => some ⟨s, .idle, some (.handshake (.recheck c (.initiator !already)))⟩

def advancePending (ch : Choice) (s : Shared) : PendingPc → Option Next
  | .pairShow => Pc.idle.toNext { s with pairingWindow := some (s.now + PAIRING_WINDOW) }
  | .pairPending => Pc.idle.toNext { s with pendingPairs := sweep s.pendingPairs s.now }
  | .accept p =>
    if s.pendingPairs.contains p then
      Pc.idle.toNext
        { s.unpend p with
          parked := update s.parked p false
          confirmed := update s.confirmed p true }
    else Pc.idle.toNext s
  | .remoteAccept p =>
    Pc.idle.toNext
      { s with
        pendingPairs := match s.pendingPairs[p]? with
          | some e => s.pendingPairs.insert p { e with expiresAt := s.now + PAIRING_WINDOW }
          | none => s.pendingPairs }
  | .verifyTrusted c =>
    if s.trustedBy ≠ none then none
    else match s.trusted[c.peer]? with
    | some t =>
      (Pc.pending (.verifyPending { c with staticPub := t.staticPub, name := t.name })).toNext s
    | none => Pc.idle.toNext s
  | .verifyPending c =>
    -- `ch.ok` says that the published state shows a live SAS flow of this peer
    (if s.pendingPairs.contains c.peer || ch.ok || decide (c.peer ∉ s.linked) then Pc.idle
      else .pending (.verifyPark c)).toNext s
  | .verifyPark c => (s.park c ch.victim).bind Pc.idle.toNext

/-- The trusted records a failed caller puts back. -/
def Caller.removedTrusted : Caller → List (PeerId × TrustedPeer)
  | .revoke p removed => (removed.map fun t ↦ (p, t)).toList
  | .reject p removed _ => (removed.map fun t ↦ (p, t)).toList
  | .reap _ removed => removed
  | _ => []

/-- The pending entries a failed caller puts back. -/
def Caller.removedPending : Caller → List (PeerId × PendingPair)
  | .reject p _ pend => [(p, pend)]
  | .reap expired _ => expired
  | _ => []

namespace Shared

def distrustAll (s : Shared) (peers : List PeerId) : Shared :=
  { s with trusted := peers.foldl (fun m p ↦ m.erase p) s.trusted }

def retrust (s : Shared) (removed : List (PeerId × TrustedPeer)) : Shared :=
  { s with trusted := removed.foldl (fun m e ↦ m.insert e.1 e.2) s.trusted }

/-- A reject inserts the entry it removed; the reaper leaves an entry that has
come back meanwhile. -/
def repend (s : Shared) (k : Caller) : Shared :=
  { s with
    pendingPairs := match k with
      | .reap expired _ =>
        expired.foldl (fun m e ↦ if m.contains e.1 then m else m.insert e.1 e.2) s.pendingPairs
      | k => k.removedPending.foldl (fun m e ↦ m.insert e.1 e.2) s.pendingPairs
    parked := fun p ↦ s.parked p || k.removedPending.any fun e ↦ e.1 == p }

end Shared

def advanceTeardown (s : Shared) : TeardownPc → Option Next
  | .rejectTake p =>
    match s.pendingPairs[p]? with
    | some pend => (Pc.teardown (.rejectRemove p pend)).toNext (s.unpend p)
    | none => Pc.idle.toNext s
  | .rejectRemove p pend =>
    if s.trustedBy ≠ none then none
    else (Pc.peers (.save (.reject p s.trusted[p]? pend))).toNext (s.distrust p)
  | .revokeRemove p =>
    if s.trustedBy ≠ none then none
    else (Pc.peers (.save (.revoke p s.trusted[p]?))).toNext (s.distrust p)
  | .unpairClone =>
    if s.trustedBy ≠ none then none else (Pc.teardown (.unpairClear s.trusted)).toNext s
  | .unpairClear snapshot =>
    if s.trustedBy ≠ none then none
    else (Pc.peers (.save (.unpair snapshot))).toNext { s with trusted := ∅ }
  | .unpairRestore snapshot =>
    if s.trustedBy ≠ none then none else Pc.idle.toNext { s with trusted := snapshot }
  | .unpairLinks => (Pc.teardown (.purge s.linked (.forget s.linked))).toNext s
  | .reaperSweep =>
    let expired := s.pendingPairs.toList.filter fun e ↦ e.2.expiresAt ≤ s.now
    (if expired.isEmpty then Pc.idle else .teardown (.reaperRemove expired)).toNext
      { s with pendingPairs := sweep s.pendingPairs s.now }
  | .reaperRemove expired =>
    if s.trustedBy ≠ none then none
    else
      let ids := expired.map Prod.fst
      let removed := ids.filterMap fun p ↦ s.trusted[p]?.map fun t ↦ (p, t)
      (Pc.teardown (.purge ids (.save (.reap expired removed)))).toNext (s.distrustAll ids)
  | .retrust k =>
    if s.trustedBy ≠ none then none
    else (Pc.teardown (.repend k)).toNext (s.retrust k.removedTrusted)
  | .repend k => Pc.idle.toNext (s.repend k)
  | .purge [] next => next.pc.toNext s
  | .purge (p :: rest) next => (Pc.teardown (.purge rest next)).toNext (s.unlink p)
  | .forget [] => Pc.idle.toNext s
  | .forget (p :: rest) =>
    (Pc.teardown (.forget rest)).toNext { s with inflight := purgeInflight s.inflight p }
  | .remoteRevokeRemove p =>
    if s.trustedBy ≠ none then none
    else
      (if s.trusted.contains p then Pc.peers (.save (.remoteRevoke p))
        else .teardown (.remoteRevokePending p)).toNext (s.distrust p)
  | .remoteRevokePending p => (Pc.teardown (.purge [p] .done)).toNext (s.unpend p)
  | .remoteRejectPending p => (Pc.teardown (.remoteRejectRemove p)).toNext (s.unpend p)
  | .remoteRejectRemove p =>
    if s.trustedBy ≠ none then none
    else
      (if s.trusted.contains p then Pc.peers (.save (.remoteReject p))
        else .teardown (.purge [p] .done)).toNext (s.distrust p)

/-- Where a data frame that passed the gate leads. -/
def DataFrame.admitted (p : PeerId) : DataFrame → Pc
  | .item none => .idle
  | .item (some it) => .data (.fanList it)
  | d => .data (.resync p d)

/-- The peers an item goes to, of those listed as linked. -/
def Item.targets (it : Item) (s : Shared) (listed : List PeerId) : List PeerId :=
  listed.filter fun p ↦ p ∉ it.excluded && !s.pendingPairs.contains p && it.accepts p

def advanceData (s : Shared) : DataPc → Option Next
  | .gatePending p d => (Pc.data (.gateTrusted p d (s.pendingPairs.contains p))).toNext s
  | .gateTrusted p d stillPending =>
    if s.trustedBy ≠ none then none
    else (if stillPending || !s.trusted.contains p then Pc.idle else d.admitted p).toNext s
  | .resync p d =>
    (if p ∉ s.linked then Pc.idle
      else match d with
        | .resyncOffer true => .data (.send [(p, 1)] .resyncPull .done)
        | .resyncPull served => .data (.serve p served)
        | _ => .idle).toNext s
  | .serve _ [] => Pc.idle.toNext s
  | .serve p ((hash, frames) :: rest) =>
    (Pc.data (.send [(p, frames)] .item (.served hash frames p rest))).toNext s
  | .hello p =>
    (if s.pendingPairs.contains p then Pc.idle
      else .data (.send [(p, 1)] .resyncOffer .done)).toNext s
  | .fanList it => (Pc.data (.fanFilter it s.linked)).toNext s
  | .fanFilter it listed =>
    let targets := it.targets s listed
    (if targets.isEmpty || it.frames = 0 then Pc.idle
      else .data (.send (targets.map fun p ↦ (p, it.frames)) .item
        (.track it.hash it.frames targets))).toNext s
  | .send [] _ k => k.pc.toNext s
  | .send ((_, 0) :: rest) what k => (Pc.data (.send rest what k)).toNext s
  | .send ((p, n + 1) :: rest) what k => (Pc.data (.send ((p, n) :: rest) what k)).toNext s
  | .track hash frames peers next =>
    (match next with
      | some (p, rest) => Pc.data (.serve p rest)
      | none => .idle).toNext
      { s with inflight := trackInflight s.inflight s.now hash frames peers }
  | .nak p hash frames =>
    (if (s.inflight[hash]?.any fun inf ↦ p ∈ inf.pendingPeers) && frames ≠ 0 then
        Pc.data (.send [(p, frames)] .item (.touch hash))
      else .idle).toNext s
  | .nakTouch hash =>
    Pc.idle.toNext
      { s with
        inflight := match s.inflight[hash]? with
          | some inf => s.inflight.insert hash { inf with lastSent := s.now }
          | none => s.inflight }
  | .retransmit =>
    let jobs := retransmitJobs s.inflight s.now
    some
      ⟨{ s with inflight := retransmitTick s.inflight s.now }, .idle,
        if jobs.isEmpty then none else some (.data (.send jobs .item .done))⟩

/-- One lock section of task `i`. It cannot run while another task holds its lock. -/
def advance (i : ℕ) (ch : Choice) (s : Shared) : Pc → Option Next
  | .idle => none
  | .handshake pc => advanceHandshake i ch s pc
  | .peers pc => advancePeers i ch s pc
  | .pair pc => advancePair s pc
  | .pending pc => advancePending ch s pc
  | .teardown pc => advanceTeardown s pc
  | .data pc => advanceData s pc

/-- What starts a task. -/
inductive Op
  | responder (c : Contact) (known : Bool)
  | dial (c : Contact)
  | rekey (c : Contact)
  | pair (c : Contact)
  | pairShow
  | pairPending
  | accept (p : PeerId)
  | reject (p : PeerId)
  | revoke (p : PeerId)
  | unpair
  | copy (it : Item)
  | dataFrame (p : PeerId) (d : DataFrame)
  | hello (p : PeerId)
  | nak (p : PeerId) (hash : ContentHash) (frames : ℕ)
  | remoteRevoke (p : PeerId)
  | remoteReject (p : PeerId)
  | remoteAccept (p : PeerId)
  | verifyStarted (c : Contact)
  | roam (p : PeerId) (addr : SocketAddr)
  | retransmit
  | reaperTick

def Op.entry : Op → Pc
  | .responder c known => .handshake (.resolve c known)
  | .dial c => .handshake (.recheck c (.initiator false))
  | .rekey c => .handshake (.recheck c .rekey)
  | .pair c => .pair (.cap c)
  | .pairShow => .pending .pairShow
  | .pairPending => .pending .pairPending
  | .accept p => .pending (.accept p)
  | .reject p => .teardown (.rejectTake p)
  | .revoke p => .teardown (.revokeRemove p)
  | .unpair => .teardown .unpairClone
  | .copy it => .data (.fanList it)
  | .dataFrame p d => .data (.gatePending p d)
  | .hello p => .data (.hello p)
  | .nak p hash frames => .data (.nak p hash frames)
  | .remoteRevoke p => .teardown (.remoteRevokeRemove p)
  | .remoteReject p => .teardown (.remoteRejectPending p)
  | .remoteAccept p => .pending (.remoteAccept p)
  | .verifyStarted c => .pending (.verifyTrusted c)
  | .roam p addr => .peers (.lastAddr p addr .roam)
  | .retransmit => .data .retransmit
  | .reaperTick => .teardown .reaperSweep

/-- The main loop runs commands one at a time as task 0, the receive loop is
task 1, the reaper task 2; handshakes and resends are spawned. -/
def Op.task : Op → ℕ → Bool
  | .responder .. | .dial _ | .rekey _ => fun i ↦ 3 ≤ i
  | .pair _ | .pairShow | .pairPending | .accept _ | .reject _ | .revoke _ | .unpair | .copy _ =>
    fun i ↦ i = 0
  | .reaperTick => fun i ↦ i = 2
  | _ => fun i ↦ i = 1

/-- The peer whose session decrypted the frame an operation handles. -/
def Op.source : Op → Option PeerId
  | .dataFrame p _ | .hello p | .nak p _ _ | .remoteRevoke p | .remoteReject p | .remoteAccept p
  | .roam p _ => some p
  | .verifyStarted c => some c.peer
  | _ => none

/-- The contact of an operation is a peer's key under the id computed from it. -/
def Op.contact : Op → Option Contact
  | .responder c _ | .dial c | .rekey c | .pair c => some c
  | _ => none

def Op.admissible (κ : Crypto) (s : Shared) (op : Op) : Bool :=
  (op.source.all fun p ↦ p ∈ s.linked) &&
    op.contact.all fun c ↦ c.peer = κ.peerIdFor c.staticPub && κ.validPubkey c.staticPub

structure System where
  sh : Shared
  tasks : ℕ → Pc

inductive Act
  | start (i : ℕ) (op : Op)
  | lockSection (i : ℕ) (ch : Choice)
  | elapse (d : ℕ)
  /-- A session ends: a `Bye`, a missed heartbeat or a switch-off. -/
  | drop (p : PeerId)
  | ack (hash : ContentHash) (p : PeerId)
  /-- A security wipe clears the inflight table. -/
  | wipe
  /-- The process ends at this point, and the next one boots. -/
  | crash (readable : Bool)

namespace Shared

def boot (κ : Crypto) (s : Shared) (readable : Bool) : Shared where
  now := s.now
  trusted :=
    (loadTrustedPeers κ (if readable then s.peersFile else [])).foldl (fun m e ↦ m.insert e.1 e.2) ∅
  pendingPairs := ∅
  pairingWindow := none
  peersFile := s.peersFile
  trustedBy := none
  diskBy := none
  linked := []
  inflight := ∅
  parked := fun _ ↦ false
  confirmed := s.confirmed

def acked (s : Shared) (hash : ContentHash) (p : PeerId) : Shared :=
  { s with
    inflight := match s.inflight[hash]? with
      | some inf =>
        match inf.pendingPeers.filter (· ≠ p) with
        | [] => s.inflight.erase hash
        | waiting => s.inflight.insert hash { inf with pendingPeers := waiting }
      | none => s.inflight }

end Shared

namespace System

/-- A section's end. The task it spawned gets the slot chosen for it; none is
chosen where a pair command has no address to dial or an initiator is under way. -/
def proceed (d : System) (i : ℕ) (spawn : Option ℕ) (n : Next) : Option System :=
  let d' : System := ⟨n.sh, update d.tasks i n.pc⟩
  match n.spawned, spawn with
  | some pc, some j =>
    match d'.tasks j with
    | .idle => if 3 ≤ j then some { d' with tasks := update d'.tasks j pc } else none
    | _ => none
  | _, _ => some d'

def step (κ : Crypto) (d : System) : Act → Option System
  | .start i op =>
    match d.tasks i with
    | .idle =>
      if op.task i && op.admissible κ d.sh then some { d with tasks := update d.tasks i op.entry }
      else none
    | _ => none
  | .lockSection i ch => (advance i ch d.sh (d.tasks i)).bind (d.proceed i ch.spawn)
  | .elapse t => some { d with sh := { d.sh with now := d.sh.now + t } }
  | .drop p => some { d with sh := d.sh.unlink p }
  | .ack hash p => some { d with sh := d.sh.acked hash p }
  | .wipe => some { d with sh := { d.sh with inflight := ∅ } }
  | .crash readable => some ⟨d.sh.boot κ readable, fun _ ↦ .idle⟩

/-- A first boot: nothing on disk, nobody trusted. -/
def init : System where
  sh :=
    { now := 0
      trusted := ∅
      pendingPairs := ∅
      pairingWindow := none
      peersFile := []
      trustedBy := none
      diskBy := none
      linked := []
      inflight := ∅
      parked := fun _ ↦ false
      confirmed := fun _ ↦ false }
  tasks := fun _ ↦ .idle

end System

end FluxSync.Daemon
