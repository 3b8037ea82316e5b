import FluxSync.Types

namespace FluxSync.Proto

def PROTOCOL_VERSION : UInt8 := 2

def MAX_PAYLOAD : ℕ := 16 * 1024 * 1024

def MAX_CHUNK_DATA : ℕ := 1024

def MAX_FRAME_PLAINTEXT : ℕ := 1232 - 1 - 12 - 16

def MAX_CHUNKS : UInt16 := 16384

structure HandshakeInit where
  peerId : PeerId
  ephemeralPub : Key
  staticPub : Key
  lamport : UInt64
  deriving DecidableEq

structure HandshakeResp where
  peerId : PeerId
  ephemeralPub : Key
  staticPub : Key
  lamport : UInt64
  deriving DecidableEq

structure ClipboardItem where
  lamport : UInt64
  hash : ContentHash
  kind : Kind
  payload : List UInt8
  sensitive : Bool
  wallTimeMs : UInt64
  origin : PeerId
  eventSeq : UInt64
  deriving DecidableEq

structure BatteryStatus where
  lamport : UInt64
  level : UInt8
  charging : Bool
  deriving DecidableEq

structure Heartbeat where
  lamport : UInt64
  rttHint : Option UInt32
  deriving DecidableEq

structure Chunk where
  itemId : ContentHash
  idx : UInt16
  total : UInt16
  data : List UInt8
  deriving DecidableEq

structure Ack where
  lamport : UInt64
  hash : ContentHash
  deriving DecidableEq

structure Nak where
  itemId : ContentHash
  wantHeader : Bool
  missing : List UInt16
  deriving DecidableEq

structure Hello where
  name : String
  platform : String
  caps : List String
  deriving DecidableEq

inductive Msg
  | handshakeInit (init : HandshakeInit)
  | handshakeResp (resp : HandshakeResp)
  | clipboardItem (item : ClipboardItem)
  | batteryStatus (status : BatteryStatus)
  | heartbeat (heartbeat : Heartbeat)
  | chunk (chunk : Chunk)
  | ack (ack : Ack)
  | nak (nak : Nak)
  | bye
  | revoke
  | hello (hello : Hello)
  | resyncOffer (hashes : List String)
  | resyncPull (hashes : List String)
  | pairConfirm (accept : Bool)
  | pairVerifyStarted
  deriving DecidableEq

structure Frame where
  version : UInt8
  msg : Msg
  deriving DecidableEq

end FluxSync.Proto
