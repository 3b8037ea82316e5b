import FluxSync.Daemon.Shared

namespace FluxSync.Daemon

open Std

/-- Which handshake task of `handshake.rs` is running. `sasGate` is
`start_initiator`'s flag; `known` says that the transport has a `PeerConn` for the peer. -/
inductive Role
  | initiator (sasGate : Bool)
  | rekey
  | responder (known : Bool)
  deriving DecidableEq

/-- Who waits for a call into `peers.rs`. -/
inductive Caller
  | tofu (c : Contact) (known : Bool)
  | pair (c : Contact) (alreadyConfirmed : Bool)
  | handshake (c : Contact) (role : Role)
  | roam
  | revoke (p : PeerId) (removedTrusted : Option TrustedPeer)
  | reject (p : PeerId) (removedTrusted : Option TrustedPeer) (removedPending : PendingPair)
  | unpair (snapshot : ExtTreeMap PeerId TrustedPeer)
  | reap (expired : List (PeerId × PendingPair)) (removed : List (PeerId × TrustedPeer))
  | remoteRevoke (p : PeerId)
  | remoteReject (p : PeerId)

/-- An item to fan out: a local copy, or one to relay, with the peers it does
not go back to and the kind check of each peer's capabilities. -/
structure Item where
  hash : ContentHash
  frames : ℕ
  excluded : List PeerId
  accepts : PeerId → Bool

/-- An inbound frame that `blocks_until_confirmed`, with what it leads to. -/
inductive DataFrame
  | item (relay : Option Item)
  | resyncOffer (pulls : Bool)
  | resyncPull (served : List (ContentHash × ℕ))

inductive Payload
  | item
  | resyncOffer
  | resyncPull
  deriving DecidableEq

inductive AfterSend
  | done
  | track (hash : ContentHash) (frames : ℕ) (peers : List PeerId)
  | served (hash : ContentHash) (frames : ℕ) (p : PeerId) (rest : List (ContentHash × ℕ))
  | touch (hash : ContentHash)

inductive AfterPurge
  | done
  | forget (peers : List PeerId)
  | save (k : Caller)

/-- Lock sections of `run_initiator`, `run_rekey_initiator` and `run_responder`. -/
inductive HandshakePc
  | resolve (c : Contact) (known : Bool)
  | tofuPark (c : Contact) (known : Bool)
  | recheck (c : Contact) (role : Role)
  | install (c : Contact) (role : Role)
  | gatedPark (c : Contact)

/-- Lock sections of `persist_last_addr`, `upsert_peer_persist` and `save_peers_with_retry`. -/
inductive PeersPc
  | lastAddr (p : PeerId) (addr : SocketAddr) (k : Caller)
  | upsert (k : Caller) (entry : StoredPeer)
  | upsertWrite (k : Caller) (attempt : ℕ) (stored : List StoredPeer)
  | save (k : Caller)
  | snapshot (k : Caller) (attempt : ℕ) (existing : List StoredPeer)
  | saveWrite (k : Caller) (attempt : ℕ) (stored : List StoredPeer)

/-- Lock sections of `PairFromUri`, `PairAccept` and `PairFromPin`. -/
inductive PairPc
  | cap (c : Contact)
  | confirmed (c : Contact)
  | insert (c : Contact) (alreadyConfirmed : Bool)
  | rollback (p : PeerId)
  | dial (c : Contact) (alreadyConfirmed : Bool)

/-- Lock sections of the other readers and writers of the pending map. -/
inductive PendingPc
  | pairShow
  | pairPending
  | accept (p : PeerId)
  | remoteAccept (p : PeerId)
  | verifyTrusted (c : Contact)
  | verifyPending (c : Contact)
  | verifyPark (c : Contact)

/-- Lock sections of `Revoke`, a rejecting `PairConfirm`, `Unpair`, the reaper,
and a `Revoke` or a rejecting `PairConfirm` received from a peer. -/
inductive TeardownPc
  | rejectTake (p : PeerId)
  | rejectRemove (p : PeerId) (removedPending : PendingPair)
  | revokeRemove (p : PeerId)
  | unpairClone
  | unpairClear (snapshot : ExtTreeMap PeerId TrustedPeer)
  | unpairRestore (snapshot : ExtTreeMap PeerId TrustedPeer)
  | unpairLinks
  | reaperSweep
  | reaperRemove (expired : List (PeerId × PendingPair))
  | retrust (k : Caller)
  | repend (k : Caller)
  | purge (peers : List PeerId) (next : AfterPurge)
  | forget (peers : List PeerId)
  | remoteRevokeRemove (p : PeerId)
  | remoteRevokePending (p : PeerId)
  | remoteRejectPending (p : PeerId)
  | remoteRejectRemove (p : PeerId)

/-- Lock sections of the inbound gate and of every egress path. -/
inductive DataPc
  | gatePending (p : PeerId) (d : DataFrame)
  | gateTrusted (p : PeerId) (d : DataFrame) (stillPending : Bool)
  | resync (p : PeerId) (d : DataFrame)
  | serve (p : PeerId) (items : List (ContentHash × ℕ))
  | hello (p : PeerId)
  | fanList (it : Item)
  | fanFilter (it : Item) (listed : List PeerId)
  | send (jobs : List (PeerId × ℕ)) (what : Payload) (k : AfterSend)
  | track (hash : ContentHash) (frames : ℕ) (peers : List PeerId)
      (next : Option (PeerId × List (ContentHash × ℕ)))
  | nak (p : PeerId) (hash : ContentHash) (frames : ℕ)
  | nakTouch (hash : ContentHash)
  | retransmit

/-- The next lock section of a task. -/
inductive Pc
  | idle
  | handshake (pc : HandshakePc)
  | peers (pc : PeersPc)
  | pair (pc : PairPc)
  | pending (pc : PendingPc)
  | teardown (pc : TeardownPc)
  | data (pc : DataPc)

/-- What a section does not decide by itself: outcomes of disk calls and
installs, `HashMap` orders, and the slot a spawned task gets. -/
structure Choice where
  ok : Bool
  readable : Bool
  order : List PeerId
  victim : PeerId
  spawn : Option ℕ

/-- A section's outcome: the shared state, where the task stands, and a task it spawns. -/
structure Next where
  sh : Shared
  pc : Pc
  spawned : Option Pc

def Pc.toNext (pc : Pc) (s : Shared) : Option Next := some ⟨s, pc, none⟩

/-- A gated initiator parks its peer last. -/
def afterHandshake (c : Contact) : Role → Pc
  | .initiator true => .handshake (.gatedPark c)
  | _ => .idle

/-- `run_responder` after the trust decision. -/
def respond (c : Contact) (known : Bool) : Pc :=
  .handshake (if known then .recheck c (.responder true) else .install c (.responder false))

/-- Where the caller of an upsert or a save goes on, given the result. -/
def Caller.resume (ok : Bool) : Caller → Pc
  | .tofu c known => if ok then .handshake (.tofuPark c known) else .idle
  | .pair c already => .pair (if ok then .dial c already else .rollback c.peer)
  | .handshake c role => afterHandshake c role
  | .roam => .idle
  | .revoke p removed =>
    .teardown (if ok then .purge [p] (.forget [p]) else .retrust (.revoke p removed))
  | .reject p removed pend =>
    .teardown (if ok then .purge [p] (.forget [p]) else .retrust (.reject p removed pend))
  | .unpair snapshot => .teardown (if ok then .unpairLinks else .unpairRestore snapshot)
  | .reap expired removed => if ok then .idle else .teardown (.retrust (.reap expired removed))
  | .remoteRevoke p => .teardown (.remoteRevokePending p)
  | .remoteReject p => .teardown (.purge [p] .done)

def AfterPurge.pc : AfterPurge → Pc
  | .done => .idle
  | .forget peers => .teardown (.forget peers)
  | .save k => .peers (.save k)

def AfterSend.pc : AfterSend → Pc
  | .done => .idle
  | .track hash frames peers => .data (.track hash frames peers none)
  | .served hash frames p rest => .data (.track hash frames [p] (some (p, rest)))
  | .touch hash => .data (.nakTouch hash)

end FluxSync.Daemon
