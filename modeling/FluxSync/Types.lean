import FluxSync.Foundation.OrderedMap

namespace FluxSync

/-- The 32 bytes of a peer id read big-endian, so that ids are ordered as the arrays are. -/
abbrev PeerId := BitVec 256

instance : Std.TransOrd PeerId := BitVec.instTransOrd

instance : LawfulBEq PeerId := inferInstance

/-- A static public key, as its 32 bytes. -/
abbrev Key := BitVec 256

/-- A BLAKE3 content hash, as its 32 bytes. -/
abbrev ContentHash := BitVec 256

inductive SocketAddr
  | v4 (ip : BitVec 32) (port : BitVec 16)
  | v6 (ip : BitVec 128) (port : BitVec 16) (flowinfo scopeId : BitVec 32)
  deriving DecidableEq

/-- An item's origin device and its number among that device's items. -/
structure EventId where
  origin : PeerId
  seq : UInt64
  deriving DecidableEq

inductive Kind
  | text
  | url
  | code
  | image
  | file
  deriving DecidableEq

/-- The two functions of `fluxsync-crypto` that peer records are checked against. -/
structure Crypto where
  /-- `BLAKE3(static_pub)`. -/
  peerIdFor : Key → PeerId
  /-- `validate_peer_pubkey`: neither zero nor of low order. -/
  validPubkey : Key → Bool

end FluxSync
