import FluxSync.Core.Dedup
import FluxSync.Core.Fsm
import FluxSync.Core.Text
import FluxSync.Foundation.OrderedMap

namespace FluxSync

open Std

inductive HistorySource
  | localCopy
  | remote
  deriving DecidableEq

structure HistoryItem where
  kind : Kind
  preview : String
  time : String
  source : HistorySource
  sensitive : Bool
  lamport : UInt64
  hash : String
  favorite : Bool
  resync : Bool
  sourcePeerId : Option String
  createdMs : UInt64
  deriving DecidableEq

/-- A parked item as clients see it. -/
structure PendingItem where
  hash : String
  kind : Kind
  preview : String
  sensitive : Bool
  direction : Direction
  peerId : Option String
  deriving DecidableEq

/-- What a parked item needs once it is approved. -/
structure PendingPayload where
  direction : Direction
  kind : Kind
  payload : ByteArray
  sensitive : Bool
  hash : ContentHash
  peerId : Option PeerId
  deriving DecidableEq

/-- The fields of `State` that `App` reads or writes after boot. -/
structure State where
  phase : String := "idle"
  on : Bool := false
  batteryLevel : UInt8 := 255
  charging : Bool := false
  peerId : PeerId := 0
  peerName : String := ""
  trustedPeerName : Option String := none
  peerPlatform : String := ""
  peerCaps : List String := []
  peerBattery : UInt8 := 255
  peerCharging : Bool := false
  /-- Newest first. -/
  history : List HistoryItem := []
  status : Status := .inactive
  firewall : FirewallPolicy
  pending : List PendingItem := []
  vaultWipeGen : UInt64 := 0
  historyRetentionSecs : UInt64 := 86400
  delivered : ExtTreeMap String (List String) := ∅
  sasPhase : String := "idle"
  sasPeer : Option PeerId := none

/-- Every field of the single-peer projection but the trusted name. -/
def State.forgetPeer (s : State) : State :=
  { s with
    peerName := "", peerPlatform := "", peerCaps := [], peerId := 0
    peerBattery := 255, peerCharging := false }

def State.resetSas (s : State) : State := { s with sasPhase := "idle", sasPeer := none }

def statusFor (state : State) : Status := if state.on then .syncing else .inactive

/-- A peer's clock value is believed up to this bound. -/
def LAMPORT_OBSERVE_MAX : UInt64 := 0x10000000000

def observeLamport (counter seen : UInt64) : UInt64 :=
  let m := max counter (min seen LAMPORT_OBSERVE_MAX)
  if m = 0xffffffffffffffff then m else m + 1

/-- `App` without the per-peer coordinator that the daemon does not call. -/
structure App where
  phase : Phase := .idle
  state : State
  clock : UInt64 := 0
  dedup : DedupRing := {}
  /-- `config.firewall`. -/
  firewall : FirewallPolicy
  lastPairedPeerId : PeerId := 0
  pendingPayloads : ExtTreeMap String PendingPayload := ∅
  otherLinkedPeers : Finset PeerId := ∅

/-- The action the item was held back from. -/
def PendingPayload.held (p : PendingPayload) : Action :=
  match p.direction with
  | .outbound => .sendItem p.hash p.kind p.payload p.sensitive
  | .inbound => .writeClipboard p.kind p.payload p.sensitive

structure WallClock where
  hhmm : String
  unixMillis : UInt64

def HISTORY_SOFT_CAP : ℕ := 50

/-- Keeps every favorite and the first `n` other rows. -/
def keepNonFavorites : ℕ → List HistoryItem → List HistoryItem
  | _, [] => []
  | n, h :: l =>
    if h.favorite then h :: keepNonFavorites n l
    else
      match n with
      | 0 => keepNonFavorites 0 l
      | n + 1 => h :: keepNonFavorites n l

def capHistoryKeepingFavorites : List HistoryItem → List HistoryItem :=
  keepNonFavorites HISTORY_SOFT_CAP

def Phase.name : Phase → String
  | .idle => "idle"
  | .discovering => "discovering"
  | .handshaking => "handshaking"
  | .linked => "linked"

/-- What the pre-transition mutations leave to be read after the transition. -/
structure Prelude where
  app : App
  suppressAction : Bool := false
  suppressResyncApply : Bool := false
  pendingDropped : List ContentHash := []

namespace App

def new (firewall : FirewallPolicy) : App where
  state := { firewall }
  firewall := firewall

def setFirewall (app : App) (policy : FirewallPolicy) : App :=
  { app with firewall := policy, state := { app.state with firewall := policy } }

def HISTORY_RETENTION_CHOICES : List UInt64 := [3600, 86400, 7 * 86400, 0]

def saturatingMul (a b : UInt64) : UInt64 :=
  if a.toNat * b.toNat < 2 ^ 64 then a * b else 0xffffffffffffffff

/-- The flag is whether a row was removed. -/
def expireHistory (app : App) (nowMs : UInt64) : App × Bool :=
  let secs := app.state.historyRetentionSecs
  if secs = 0 then (app, false)
  else
    let maxAgeMs := saturatingMul secs 1000
    let kept := app.state.history.filter fun h ↦
      h.favorite || h.createdMs == 0 || saturatingSub nowMs h.createdMs ≤ maxAgeMs
    ({ app with state := { app.state with history := kept } },
      kept.length != app.state.history.length)

/-- A retention period that is not offered is refused. -/
def setHistoryRetention (app : App) (secs nowMs : UInt64) : Option App :=
  if secs ∈ HISTORY_RETENTION_CHOICES then
    some ({ app with state := { app.state with historyRetentionSecs := secs } }.expireHistory
      nowMs).1
  else none

/-- The flag is whether the ack is new for a row of the history. -/
def markDelivered (app : App) (hash : ContentHash) (device : String) : App × Bool :=
  let key := hex32 hash
  let history := app.state.history
  if !history.any (·.hash == key) then (app, false)
  else
    let delivered := app.state.delivered.filter fun k _ ↦ history.any (·.hash == k)
    let devices := delivered[key]?.getD []
    if device ∈ devices then
      ({ app with state := { app.state with delivered := delivered.insert key devices } }, false)
    else
      ({ app with
          state := { app.state with delivered := delivered.insert key (devices ++ [device]) } },
        true)

def setOtherLinkedPeers (app : App) (peers : List PeerId) : App :=
  { app with otherLinkedPeers := peers.toFinset }

def otherPeersLinked (app : App) : Bool := app.otherLinkedPeers ≠ ∅

/-- A repeat of a row moves to the top and keeps its pin. -/
def pushHistory (app : App) (item : HistoryItem) : App :=
  let same := fun h : HistoryItem ↦
    h.hash == item.hash && h.kind == item.kind && h.preview == item.preview
  let history :=
    match app.state.history.findIdx? same with
    | some pos =>
      let pinned := app.state.history[pos]?.any (·.favorite)
      { item with favorite := item.favorite || pinned } :: app.state.history.eraseIdx pos
    | none => item :: app.state.history
  let capped :=
    if HISTORY_SOFT_CAP < history.length then capHistoryKeepingFavorites history else history
  { app with state := { app.state with history := capped } }

/-- The newest rows of the restored list seed the ring, the oldest of them first. -/
def restoreHistory (app : App) (items : List HistoryItem) : App :=
  let history := capHistoryKeepingFavorites items
  let seeds := (history.take app.dedup.capacity).reverse.filterMap (hex32Decode ·.hash)
  { app with
    state := { app.state with history }
    dedup := seeds.foldl (fun r h ↦ (r.observe h).1) app.dedup }

def stripSyncAction (dir : Direction) (actions : List Action) : List Action :=
  actions.filter fun
    | .sendItem .. => dir ≠ .outbound
    | .writeClipboard .. => dir ≠ .inbound
    | _ => true

/-- A hash that is already parked stays as it is. -/
def parkPending (app : App) (dir : Direction) (kind : Kind) (sensitive : Bool)
    (hash : ContentHash) (payload : ByteArray) (preview : String) (peerId : Option PeerId) : App :=
  let key := hex32 hash
  if app.pendingPayloads.contains key then app
  else
    { app with
      pendingPayloads := app.pendingPayloads.insert key
        { direction := dir, kind, payload, sensitive, hash, peerId }
      state := { app.state with
        pending := app.state.pending ++
          [{ hash := key, kind, preview := trim preview, sensitive, direction := dir
             peerId := peerId.map hex32 }] } }

/-- The gate for one item of the given data, before or after its transition. -/
def gateItem (app : App) (dir : Direction) (kind : Kind) (sensitive : Bool) (hash : ContentHash)
    (payload : ByteArray) (preview : String) (peerId : Option PeerId) (actions : List Action) :
    App × List Action :=
  match app.firewall.decide kind sensitive dir with
  | .pass => (app, actions)
  | .block => (app, stripSyncAction dir actions)
  | .defer =>
    (app.parkPending dir kind sensitive hash payload preview peerId, stripSyncAction dir actions)

def applyFirewall (app : App) (event : Event) (actions : List Action) : App × List Action :=
  match event with
  | .localClipboardChange hash kind payload preview sensitive _ =>
    app.gateItem .outbound kind sensitive hash payload preview none actions
  | .frameReceivedClipboard hash kind payload preview sensitive _ _ peerId =>
    app.gateItem .inbound kind sensitive hash payload preview (some peerId) actions
  | _ => (app, actions)

/-- Approve or deny outside the state machine. -/
def resolvePending (app : App) (hash : String) (allow : Bool) : App × List Action :=
  let state := { app.state with pending := app.state.pending.filter (·.hash != hash) }
  match app.pendingPayloads[hash]? with
  | none => ({ app with state }, [.emitState])
  | some p =>
    let app := { app with state, pendingPayloads := app.pendingPayloads.erase hash }
    if allow then (app, [p.held, .emitState]) else (app, [.emitState])

def dropPendingAll (app : App) : App :=
  { app with pendingPayloads := ∅, state := { app.state with pending := [] } }

/-- The parked items of one peer go, their content hashes are returned. -/
def dropPendingFor (app : App) (peerId : PeerId) : App × List ContentHash :=
  let dropped := app.pendingPayloads.toList.filter fun kp ↦ kp.2.peerId == some peerId
  let keys := dropped.map Prod.fst
  ({ app with
      pendingPayloads := app.pendingPayloads.filter fun _ p ↦ p.peerId != some peerId
      state := { app.state with
        pending := app.state.pending.filter fun p ↦ !keys.contains p.hash } },
    dropped.map (·.2.hash))

/-- A different identity while a link is up or coming up. -/
def isPeerMismatch (app : App) (otherId : PeerId) : Bool :=
  app.state.peerName ≠ "" && app.state.peerId ≠ otherId &&
    (app.phase ≠ .idle && app.phase ≠ .discovering)

variable (blake3 : ByteArray → ContentHash)

/-- The digest the ring is keyed by, which is not the sender's wire field. -/
def contentDigest (kind : Kind) (payload : ByteArray) : ContentHash :=
  if kind = .image ∨ kind = .file then blake3 payload
  else
    match String.fromUTF8? payload with
    | some text => blake3 (canonText text).toUTF8
    | none => blake3 payload

/-- The mutations that the transition expects to find done. -/
def preTransition (app : App) (event : Event) (wall : WallClock) : Prelude :=
  match event with
  | .toggleOn => { app := { app with state := { app.state with on := true } } }
  | .toggleOff => { app := { app with state := { app.state with on := false } } }
  | .peerSeen peerId name =>
    let app := { app with state := { app.state with peerName := name } }
    if peerId = 0 then { app }
    else
      -- A pairing with another peer than the last one forgets what the last one left.
      let (app, pendingDropped) :=
        if app.lastPairedPeerId ≠ 0 ∧ peerId ≠ app.lastPairedPeerId then
          if app.otherPeersLinked then app.dropPendingFor app.lastPairedPeerId
          else
            let app := { app with state := { app.state with history := [] } }.dropPendingAll
            ({ app with
                state := { app.state with vaultWipeGen := app.state.vaultWipeGen + 1 } }, [])
        else (app, [])
      { app := { app with lastPairedPeerId := peerId, state := { app.state with peerId } }
        pendingDropped }
  | .batteryChangedSelf level charging =>
    { app := { app with state := { app.state with batteryLevel := level, charging } } }
  | .batteryChangedPeer level charging =>
    { app := { app with
        state := { app.state with peerBattery := level, peerCharging := charging } } }
  | .peerPlatform platform =>
    { app := { app with state := { app.state with peerPlatform := platform } } }
  | .peerCaps caps => { app := { app with state := { app.state with peerCaps := caps } } }
  | .localClipboardChange hash kind _ preview sensitive lamport =>
    let (dedup, fresh) := app.dedup.observeClipboard hash wall.unixMillis
    let app := { app with clock := observeLamport app.clock lamport, dedup }
    if !fresh then { app, suppressAction := true }
    else if sensitive then { app }
    else
      { app := app.pushHistory
          { kind, preview := trim preview, time := wall.hhmm, source := .localCopy, sensitive
            lamport, hash := hex32 hash, favorite := false, resync := false, sourcePeerId := none
            createdMs := wall.unixMillis } }
  | .frameReceivedClipboard hash kind payload preview sensitive lamport resync peerId =>
    let app := { app with clock := observeLamport app.clock lamport }
    let computed := contentDigest blake3 kind payload
    -- A resync delivery of content already held is a duplicate outside the echo window too.
    if resync && app.dedup.contains computed then
      { app, suppressAction := true, suppressResyncApply := resync }
    else
      let (dedup, fresh) := app.dedup.observeClipboard computed wall.unixMillis
      let app := { app with dedup }
      if !fresh then { app, suppressAction := true, suppressResyncApply := resync }
      else if !sensitive && app.firewall.decide kind sensitive .inbound == .pass then
        { app := app.pushHistory
            { kind, preview := trim preview, time := wall.hhmm, source := .remote, sensitive
              lamport, hash := hex32 hash, favorite := false, resync
              sourcePeerId := some (hex32 peerId), createdMs := wall.unixMillis }
          suppressResyncApply := resync }
      else { app, suppressResyncApply := resync }
  | .peerLost peerId =>
    let state := { app.state with peerBattery := 255, peerCharging := false }
    if state.sasPeer = some peerId ∧
        state.sasPhase ∈ ["showing", "peer_confirmed", "local_confirmed"] then
      { app := { app with state := state.resetSas } }
    else { app := { app with state } }
  | .primaryFailover peerId name platform caps =>
    let state :=
      { app.state with
        peerName := name, peerPlatform := platform, peerCaps := caps
        peerBattery := 255, peerCharging := false }
    if peerId = 0 then { app := { app with state } }
    else { app := { app with lastPairedPeerId := peerId, state := { state with peerId } } }
  | .untrustedPeerSeen _ =>
    let app := { app with state := { app.state.forgetPeer with history := [] } }.dropPendingAll
    { app := { app with
        state :=
          ({ app.state with vaultWipeGen := app.state.vaultWipeGen + 1 } : State).resetSas } }
  | .ghostTimeout =>
    if app.phase = .linked then { app }
    else
      let (app', pendingDropped) :=
        ({ app with state := app.state.forgetPeer } : App).dropPendingFor app.state.peerId
      { app := { app' with state := app'.state.resetSas }, pendingDropped }
  | .manualUnpair =>
    let app :=
      ({ app with
          state := { app.state.forgetPeer with on := false, trustedPeerName := none } } :
        App).dropPendingAll
    { app := { app with state := app.state.resetSas } }
  | .sasPairingStarted peerId =>
    { app := { app with
        state := { app.state with sasPhase := "showing", sasPeer := some peerId } } }
  | .sasLocalConfirmed peerId =>
    if app.state.sasPeer = some peerId then
      { app := { app with
          state := { app.state with
            sasPhase :=
              if app.state.sasPhase ∈ ["peer_confirmed", "confirmed"] then "confirmed"
              else "local_confirmed" } } }
    else { app }
  | .sasPeerConfirmed peerId =>
    if app.state.sasPeer = some peerId then
      { app := { app with
          state := { app.state with
            sasPhase :=
              if app.state.sasPhase ∈ ["local_confirmed", "confirmed"] then "confirmed"
              else "peer_confirmed" } } }
    else { app }
  | .sasPeerRejected peerId =>
    if app.state.sasPeer = some peerId then
      { app := { app with state := { app.state with sasPhase := "peer_rejected" } } }
    else { app }
  | .sasReset => { app := { app with state := app.state.resetSas } }
  | .setTrustedPeer name =>
    { app := { app with state := { app.state with trustedPeerName := some name } } }
  | .setFavorite hash favorite =>
    { app := { app with
        state := { app.state with
          history := app.state.history.map fun h ↦
            if h.hash = hash then { h with favorite } else h } } }
  | .clearHistory includeFavorites =>
    { app := { app with
        state := { app.state with
          history := if includeFavorites then [] else app.state.history.filter (·.favorite)
          vaultWipeGen := app.state.vaultWipeGen + 1 } } }
  | .peerRevoked peerId =>
    let (app, pendingDropped) := app.dropPendingFor peerId
    if peerId ≠ 0 ∧ peerId = app.state.peerId then
      { app := { app with state := { app.state.forgetPeer with trustedPeerName := none } }
        pendingDropped }
    else { app, pendingDropped }
  | _ => { app }

/-- The events after which `EmitState` is among the actions in any case. -/
def alwaysEmits : Event → Bool
  | .toggleOn | .toggleOff | .batteryChangedSelf .. | .batteryChangedPeer .. | .peerSeen ..
  | .peerLost _ | .manualUnpair | .untrustedPeerSeen _ | .ghostTimeout | .setTrustedPeer _
  | .setFavorite .. | .clearHistory _ | .frameReceivedClipboard .. | .localClipboardChange ..
  | .sasPairingStarted _ | .sasLocalConfirmed _ | .sasPeerConfirmed _ | .sasPeerRejected _
  | .sasReset | .peerRevoked _ => true
  | _ => false

/-- A resync delivery never replaces what is on the clipboard now. -/
def stripResyncApply (actions : List Action) : List Action :=
  let isWrite : Action → Bool := fun | .writeClipboard .. => true | _ => false
  let kept := actions.filter (!isWrite ·)
  if actions.any isWrite then kept ++ [.resyncApplySuppressed] else kept

/-- An unread battery (255) is not sent. -/
def realBattery (state : State) (actions : List Action) : List Action :=
  actions.filterMap fun
    | .sendBattery .. =>
      if state.batteryLevel = 255 then none
      else some (.sendBattery state.batteryLevel state.charging)
    | a => some a

def ensureEmit (actions : List Action) : List Action :=
  if .emitState ∈ actions then actions else actions ++ [.emitState]

/-- The transition and what follows it. -/
def postTransition (p : Prelude) (event : Event) : App × List Action :=
  let (next, actions) := transition p.app.phase event
  let (app, actions) := p.app.applyFirewall event actions
  let actions :=
    if p.pendingDropped = [] then actions else actions ++ [.pendingDropped p.pendingDropped]
  let actions := if p.suppressResyncApply then stripResyncApply actions else actions
  let actions := realBattery app.state actions
  let newStatus := statusFor app.state
  let actions := if app.state.status ≠ newStatus then ensureEmit actions else actions
  let actions := if alwaysEmits event then ensureEmit actions else actions
  ({ app with
      phase := next
      state := { app.state with phase := next.name, status := newStatus } }, actions)

def handle (app : App) (event : Event) (wall : WallClock) : App × List Action :=
  match event with
  | .resolvePending hash allow => app.resolvePending hash allow
  | event =>
    let mismatch :=
      match event with
      | .peerSeen peerId _ => app.isPeerMismatch peerId
      | _ => false
    if mismatch then (app, [])
    else
      let p := app.preTransition blake3 event wall
      if p.suppressAction then
        match event with
        | .frameReceivedClipboard hash .. => (p.app, [.duplicateDropped, .ackItem hash])
        | _ => (p.app, [.duplicateDropped])
      else postTransition p event

end App

end FluxSync
