import FluxSync.Core.Policy

namespace FluxSync

inductive Phase
  | idle
  | discovering
  | handshaking
  | linked
  deriving DecidableEq

inductive LogLevel
  | ok
  | info
  | sync
  | warn
  | err
  deriving DecidableEq

structure LogEntry where
  level : LogLevel
  msg : String
  deriving DecidableEq

inductive Event
  | toggleOn
  | toggleOff
  | peerSeen (peerId : PeerId) (name : String)
  | peerPlatform (platform : String)
  | peerCaps (caps : List String)
  | peerLost (peerId : PeerId)
  | handshakeOk
  | handshakeTimeout
  | setTrustedPeer (name : String)
  | untrustedPeerSeen (name : String)
  | ghostTimeout
  | manualUnpair
  | networkChanged
  | batteryChangedSelf (level : UInt8) (charging : Bool)
  | batteryChangedPeer (level : UInt8) (charging : Bool)
  | localClipboardChange (hash : ContentHash) (kind : Kind) (payload : ByteArray)
      (preview : String) (sensitive : Bool) (lamport : UInt64)
  | frameReceivedClipboard (hash : ContentHash) (kind : Kind) (payload : ByteArray)
      (preview : String) (sensitive : Bool) (lamport : UInt64) (resync : Bool) (peerId : PeerId)
  | reconnect
  | meshPeersChanged
  | primaryFailover (peerId : PeerId) (name platform : String) (caps : List String)
  | setFavorite (hash : String) (favorite : Bool)
  | clearHistory (includeFavorites : Bool)
  | resolvePending (hash : String) (allow : Bool)
  | sasPairingStarted (peerId : PeerId)
  | sasLocalConfirmed (peerId : PeerId)
  | sasPeerConfirmed (peerId : PeerId)
  | sasPeerRejected (peerId : PeerId)
  | sasReset
  | peerRevoked (peerId : PeerId)

inductive Action
  | startDiscovery
  | stopDiscovery
  | sendHandshake (peerId : PeerId)
  | dropPeer
  | openSession
  | closeSession
  | sendItem (hash : ContentHash) (kind : Kind) (payload : ByteArray) (sensitive : Bool)
  | ackItem (hash : ContentHash)
  | writeClipboard (kind : Kind) (payload : ByteArray) (sensitive : Bool)
  | emitState
  | emitLog (entry : LogEntry)
  | burstReplay
  | sendBattery (level : UInt8) (charging : Bool)
  | duplicateDropped
  | resyncApplySuppressed
  | pendingDropped (hashes : List ContentHash)
  deriving DecidableEq

variable {phase : Phase} {e : Event} {a : Action}

def divCeil (n d : ℕ) : ℕ := (n + d - 1) / d

def receivedLabel (kind : Kind) (payload : ByteArray) (preview : String) : String :=
  match kind with
  | .image =>
    "Clipboard updated — image, " ++ toString (divCeil payload.size 1024) ++ " KB from peer."
  | .file => "File received — " ++ toString (divCeil payload.size 1024) ++ " KB from peer."
  | _ => "Clipboard updated — " ++ toString preview.length ++ " chars from peer."

/-- The rows in the order of the source, the first that applies decides. -/
def transition : Phase → Event → Phase × List Action
  | _, .toggleOff =>
    (.idle, [.closeSession, .stopDiscovery, .emitState, .emitLog ⟨.info, "Sync turned off."⟩])
  | _, .manualUnpair =>
    (.idle, [.closeSession, .stopDiscovery, .dropPeer, .emitState,
      .emitLog ⟨.info, "Unpaired from peer."⟩])
  | .idle, .toggleOn =>
    (.discovering, [.startDiscovery, .emitState,
      .emitLog ⟨.info, "Sync turned on. Looking for peers."⟩])
  | .discovering, .peerSeen peerId name =>
    (.handshaking, [.sendHandshake peerId,
      .emitLog ⟨.info, "Discovered peer \"" ++ name ++ "\"."⟩])
  | .discovering, .networkChanged =>
    (.discovering, [.stopDiscovery, .startDiscovery,
      .emitLog ⟨.warn, "Network changed. Searching again."⟩])
  | _, .untrustedPeerSeen _ =>
    (.discovering, [.dropPeer, .emitState,
      .emitLog ⟨.warn, "Peer cryptographic mismatch detected. Unpairing."⟩, .startDiscovery])
  | .discovering, .ghostTimeout | .handshaking, .ghostTimeout =>
    (.discovering, [.dropPeer, .emitState,
      .emitLog ⟨.warn, "Reconnection timeout. Returning to scan mode."⟩, .startDiscovery])
  -- `App.handle` overwrites the battery level.
  | .handshaking, .handshakeOk =>
    (.linked, [.openSession, .burstReplay, .sendBattery 100 false, .emitState,
      .emitLog ⟨.ok, "Handshake complete. Link is live."⟩])
  | .handshaking, .handshakeTimeout | .handshaking, .peerLost _ =>
    (.discovering, [.emitLog ⟨.warn, "Handshake interrupted or timed out. Retrying."⟩,
      .startDiscovery])
  | .handshaking, .peerSeen .. => (.handshaking, [])
  | .linked, .localClipboardChange hash kind payload _ sensitive _ =>
    (.linked, [.sendItem hash kind payload sensitive])
  | .linked, .frameReceivedClipboard hash kind payload preview sensitive _ _ _ =>
    (.linked, [.writeClipboard kind payload sensitive, .ackItem hash, .emitState,
      .emitLog ⟨.ok, receivedLabel kind payload preview⟩])
  | .linked, .peerSeen .. => (.linked, [.emitState, .emitLog ⟨.ok, "Peer identity confirmed."⟩])
  | .linked, .peerLost _ =>
    (.discovering, [.closeSession, .emitState,
      .emitLog ⟨.warn, "Peer offline. Searching again."⟩, .startDiscovery])
  | .linked, .batteryChangedSelf level charging =>
    (.linked, [.sendBattery level charging, .emitState])
  | phase, .batteryChangedSelf .. | phase, .batteryChangedPeer .. => (phase, [.emitState])
  | phase, .peerPlatform _ => (phase, [.emitState])
  | phase, .peerCaps _ => (phase, [.emitState])
  | phase, .meshPeersChanged => (phase, [.emitState])
  | phase, .primaryFailover .. => (phase, [.emitState])
  | .linked, .reconnect => (.linked, [.burstReplay])
  | .discovering, .reconnect => (.discovering, [.startDiscovery])
  | .handshaking, .reconnect => (.handshaking, [])
  | .linked, .networkChanged => (.linked, [])
  | .handshaking, .networkChanged => (.discovering, [.startDiscovery])
  | phase, .frameReceivedClipboard hash .. =>
    (phase, [.ackItem hash,
      .emitLog ⟨.warn, "Clipboard frame received before link established — acked, not applied."⟩])
  | phase, _ => (phase, [])

/-- Content leaving for the peers or for the clipboard of this device. -/
def Action.transfers : Action → Bool
  | .sendItem .. | .writeClipboard .. => true
  | _ => false

theorem transition_transfers (ha : a ∈ (transition phase e).2) (ht : a.transfers) :
    phase = .linked := by
  cases phase with
  | linked => rfl
  | _ => cases e <;> simp_all [transition, Action.transfers] <;> grind

/-- The link leaves `idle` through `ToggleOn` and a rejected identity only. -/
theorem transition_idle (h : (transition .idle e).1 ≠ .idle) :
    e = .toggleOn ∨ ∃ name, e = .untrustedPeerSeen name := by
  cases e <;> simp_all [transition]

end FluxSync
