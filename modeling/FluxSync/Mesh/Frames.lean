import FluxSync.Foundation.OrderedMap
import FluxSync.Foundation.Slices
import FluxSync.Proto.Codec

namespace FluxSync.Mesh

open Std Proto Slices

/-- What `build_item_frames` puts into the frames of one item. -/
structure Item where
  lamport : UInt64
  hash : ContentHash
  kind : Kind
  payload : List UInt8
  sensitive : Bool
  origin : PeerId
  eventSeq : UInt64
  deriving DecidableEq

/-- An item all of whose bytes have come in from `source`. -/
structure CompleteItem extends Item where
  source : PeerId
  deriving DecidableEq

/-- The item with the given bytes in its own frame. -/
def Item.frame (item : Item) (payload : List UInt8) : Frame where
  version := PROTOCOL_VERSION
  msg := .clipboardItem
    { lamport := item.lamport, hash := item.hash, kind := item.kind, payload
      sensitive := item.sensitive, wallTimeMs := 0, origin := item.origin
      eventSeq := item.eventSeq }

def Item.chunkFrame (item : Item) (total : ℕ) (data : List UInt8) (idx : ℕ) : Frame where
  version := PROTOCOL_VERSION
  msg := .chunk { itemId := item.hash, idx := .ofNat idx, total := .ofNat total, data }

/-- An empty header and the chunks. -/
def chunkedFrames (cbor : Ciborium) (item : Item) : List (List UInt8) :=
  let pieces := chunks MAX_CHUNK_DATA item.payload
  (encode cbor (item.frame [])).toOption.toList ++
    pieces.zipIdx.filterMap fun (data, idx) ↦
      (encode cbor (item.chunkFrame pieces.length data idx)).toOption

def buildItemFrames (cbor : Ciborium) (item : Item) : List (List UInt8) :=
  if item.payload.length ≤ MAX_CHUNK_DATA then
    match encode cbor (item.frame item.payload) with
    | .ok bytes => if bytes.length ≤ MAX_FRAME_PLAINTEXT then [bytes] else chunkedFrames cbor item
    | .error _ => []
  else chunkedFrames cbor item

structure Reassembly where
  metadata : Option (UInt64 × Kind × Bool)
  origin : PeerId
  eventSeq : UInt64
  chunks : List (Option (List UInt8))
  lastUpdate : ℕ
  firstSeen : ℕ
  source : PeerId
  itemHash : ContentHash

abbrev ReassemblyMap := ExtTreeMap ContentHash Reassembly

def reassemblyKey (blake3 : ByteArray → ContentHash) (source : PeerId) (itemId : ContentHash) :
    ContentHash :=
  blake3 ⟨(bytes32 source ++ bytes32 itemId).toArray⟩

/-- The least recently updated entry, the first one where several are. -/
def oldest (map : ReassemblyMap) : Option ContentHash :=
  match map.toList with
  | [] => none
  | e :: rest =>
    some (rest.foldl (fun m e ↦ if e.2.lastUpdate < m.2.lastUpdate then e else m) e).1

/-- At most five transfers are open, a sixth evicts. -/
def makeRoom (map : ReassemblyMap) (key : ContentHash) : ReassemblyMap :=
  if !map.contains key && 5 ≤ map.size then
    match oldest map with
    | some k => map.erase k
    | none => map
  else map

/-- The transfer under `key` with the given header fields, where all its chunks are there. -/
def Reassembly.complete (r : Reassembly) (source : PeerId) (hash : ContentHash) :
    Option CompleteItem :=
  match r.metadata with
  | some (lamport, kind, sensitive) =>
    if r.chunks.all Option.isSome then
      some
        { source, origin := r.origin, eventSeq := r.eventSeq, hash, kind, sensitive, lamport
          payload := (r.chunks.filterMap id).flatten }
    else none
  | none => none

/-- A finished transfer leaves the map. -/
def settle (map : ReassemblyMap) (key : ContentHash) (r : Reassembly)
    (complete : Option CompleteItem) : ReassemblyMap × Option CompleteItem :=
  match complete with
  | some c => (map.erase key, some c)
  | none => (map.insert key r, none)

/-- A header's entry, opened or brought up to date. -/
def Reassembly.headed (entry : Option Reassembly) (peerId : PeerId) (item : ClipboardItem)
    (now : ℕ) : Reassembly :=
  let metadata := some (item.lamport, item.kind, item.sensitive)
  let r := entry.getD
    { metadata, origin := item.origin, eventSeq := item.eventSeq, chunks := [], lastUpdate := now
      firstSeen := now, source := peerId, itemHash := item.hash }
  { r with metadata, origin := item.origin, eventSeq := item.eventSeq, lastUpdate := now }

/-- A chunk's entry, opened or brought up to date. -/
def Reassembly.filled (entry : Option Reassembly) (peerId : PeerId) (c : Chunk) (now : ℕ) :
    Reassembly :=
  let empty := List.replicate c.total.toNat none
  let r := entry.getD
    { metadata := none, origin := 0, eventSeq := 0, chunks := empty, lastUpdate := now
      firstSeen := now, source := peerId, itemHash := c.itemId }
  let slots := if r.chunks = [] then empty else r.chunks
  { r with
    lastUpdate := now
    chunks := if c.idx.toNat < slots.length then slots.set c.idx.toNat (some c.data) else slots }

/-- An item frame without payload announces a chunked transfer, also after its chunks. -/
def receiveHeader (map : ReassemblyMap) (key : ContentHash) (peerId : PeerId)
    (item : ClipboardItem) (now : ℕ) : ReassemblyMap × Option CompleteItem :=
  let map := makeRoom map key
  let r := Reassembly.headed map[key]? peerId item now
  settle map key r (if r.chunks = [] then none else r.complete peerId item.hash)

def receiveChunk (map : ReassemblyMap) (key : ContentHash) (peerId : PeerId) (c : Chunk)
    (now : ℕ) : ReassemblyMap × Option CompleteItem :=
  if MAX_CHUNKS < c.total ∨ c.total = 0 then (map, none)
  else
    let map := makeRoom map key
    let r := Reassembly.filled map[key]? peerId c now
    settle map key r (r.complete peerId c.itemId)

/-- The item as it came in its own frame. -/
def inlineItem (peerId : PeerId) (item : ClipboardItem) : CompleteItem where
  source := peerId
  lamport := item.lamport
  hash := item.hash
  kind := item.kind
  payload := item.payload
  sensitive := item.sensitive
  origin := item.origin
  eventSeq := item.eventSeq

/-- The part of `dispatch_inbound_frame` that collects an item's bytes, up to where a
complete item goes on to be verified. -/
def receive (blake3 : ByteArray → ContentHash) (map : ReassemblyMap) (peerId : PeerId)
    (msg : Msg) (now : ℕ) : ReassemblyMap × Option CompleteItem :=
  match msg with
  | .clipboardItem item =>
    if item.payload = [] then receiveHeader map (reassemblyKey blake3 peerId item.hash) peerId item now
    else (map, some (inlineItem peerId item))
  | .chunk c => receiveChunk map (reassemblyKey blake3 peerId c.itemId) peerId c now
  | _ => (map, none)

/-- The cleanup tick: transfers 60 seconds old or idle for 5 go. Times are in milliseconds. -/
def cleanup (map : ReassemblyMap) (now : ℕ) : ReassemblyMap :=
  map.filter fun _ r ↦ now - r.firstSeen < 60000 && now - r.lastUpdate < 5000

end FluxSync.Mesh
