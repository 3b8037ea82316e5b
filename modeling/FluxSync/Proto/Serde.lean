import FluxSync.Foundation.Cbor
import FluxSync.Proto.Types

namespace FluxSync.Proto

open Cbor

/-- The two forms of a byte field, of which only the first is written today. -/
inductive ByteForm
  | string
  | array

def ByteForm.ser : ByteForm → List UInt8 → Value
  | .string, b => .bytes b
  | .array, b => .array (b.map fun x ↦ .uint x.toUInt64)

def bytes32 (x : BitVec 256) : List UInt8 := bigEndian 32 x.toNat

def struct (fields : List (String × Value)) : Value := .map (fields.map fun (k, v) ↦ (.text k, v))

/-- A variant with its content, externally tagged. -/
def tagged (name : String) (content : Value) : Value := .map [(.text name, content)]

/-- A plain `[u8; 32]`. -/
def tuple32 (x : BitVec 256) : Value := ByteForm.array.ser (bytes32 x)

def serKind : Kind → Value
  | .text => .text "text"
  | .url => .text "url"
  | .code => .text "code"
  | .image => .text "image"
  | .file => .text "file"

variable (form : String → ByteForm)

def ClipboardItem.ser (item : ClipboardItem) : Value :=
  struct [("lamport", .uint item.lamport), ("hash", (form "hash").ser (bytes32 item.hash)),
    ("kind", serKind item.kind), ("payload", (form "payload").ser item.payload),
    ("sensitive", .bool item.sensitive), ("wall_time_ms", .uint item.wallTimeMs),
    ("origin", (form "origin").ser (bytes32 item.origin)), ("event_seq", .uint item.eventSeq)]

def Chunk.ser (c : Chunk) : Value :=
  struct [("item_id", (form "item_id").ser (bytes32 c.itemId)), ("idx", .uint c.idx.toUInt64),
    ("total", .uint c.total.toUInt64), ("data", (form "data").ser c.data)]

def Ack.ser (a : Ack) : Value :=
  struct [("lamport", .uint a.lamport), ("hash", (form "hash").ser (bytes32 a.hash))]

def Nak.ser (nak : Nak) : Value :=
  struct [("item_id", (form "item_id").ser (bytes32 nak.itemId)),
    ("want_header", .bool nak.wantHeader),
    ("missing", .array (nak.missing.map fun i ↦ .uint i.toUInt64))]

def HandshakeInit.ser (h : HandshakeInit) : Value :=
  struct [("peer_id", tuple32 h.peerId), ("ephemeral_pub", tuple32 h.ephemeralPub),
    ("static_pub", tuple32 h.staticPub), ("lamport", .uint h.lamport)]

def HandshakeResp.ser (h : HandshakeResp) : Value :=
  struct [("peer_id", tuple32 h.peerId), ("ephemeral_pub", tuple32 h.ephemeralPub),
    ("static_pub", tuple32 h.staticPub), ("lamport", .uint h.lamport)]

def BatteryStatus.ser (b : BatteryStatus) : Value :=
  struct [("lamport", .uint b.lamport), ("level", .uint b.level.toUInt64),
    ("charging", .bool b.charging)]

def Heartbeat.ser (h : Heartbeat) : Value :=
  struct [("lamport", .uint h.lamport),
    ("rtt_hint", h.rttHint.elim .null fun rtt ↦ .uint rtt.toUInt64)]

def Hello.ser (h : Hello) : Value :=
  struct [("name", .text h.name), ("platform", .text h.platform),
    ("caps", .array (h.caps.map .text))]

def serHashes (hashes : List String) : Value := struct [("hashes", .array (hashes.map .text))]

def Msg.serAs : Msg → Value
  | .handshakeInit h => tagged "HandshakeInit" h.ser
  | .handshakeResp h => tagged "HandshakeResp" h.ser
  | .clipboardItem item => tagged "ClipboardItem" (item.ser form)
  | .batteryStatus b => tagged "BatteryStatus" b.ser
  | .heartbeat h => tagged "Heartbeat" h.ser
  | .chunk c => tagged "Chunk" (c.ser form)
  | .ack a => tagged "Ack" (a.ser form)
  | .nak n => tagged "Nak" (n.ser form)
  | .bye => .text "Bye"
  | .revoke => .text "Revoke"
  | .hello h => tagged "Hello" h.ser
  | .resyncOffer hashes => tagged "ResyncOffer" (serHashes hashes)
  | .resyncPull hashes => tagged "ResyncPull" (serHashes hashes)
  | .pairConfirm accept => tagged "PairConfirm" (struct [("accept", .bool accept)])
  | .pairVerifyStarted => .text "PairVerifyStarted"

/-- A frame in the serde data model, each byte field in the form given for its name. -/
def Frame.serAs (f : Frame) : Value :=
  struct [("version", .uint f.version.toUInt64), ("msg", f.msg.serAs form)]

def Frame.ser (f : Frame) : Value := f.serAs fun _ ↦ .string

def u64 : Value → Option UInt64
  | .uint n => some n
  | _ => none

def u32 : Value → Option UInt32
  | .uint n => if n.toNat < 2 ^ 32 then some n.toUInt32 else none
  | _ => none

def u16 : Value → Option UInt16
  | .uint n => if n.toNat < 2 ^ 16 then some n.toUInt16 else none
  | _ => none

def u8 : Value → Option UInt8
  | .uint n => if n.toNat < 2 ^ 8 then some n.toUInt8 else none
  | _ => none

def boolean : Value → Option Bool
  | .bool b => some b
  | _ => none

def string : Value → Option String
  | .text s => some s
  | _ => none

def optional {α : Type} (de : Value → Option α) : Value → Option (Option α)
  | .null => some none
  | v => (de v).map some

/-- `deserialize_seq`, which reads a byte string as the sequence of its bytes. -/
def seq {α : Type} (de : Value → Option α) : Value → Option (List α)
  | .array items => items.mapM de
  | .bytes b => b.mapM fun x ↦ de (.uint x.toUInt64)
  | _ => none

/-- `cbor_bytes::deserialize`. -/
def byteBuf : Value → Option (List UInt8)
  | .bytes b => some b
  | .array items => items.mapM u8
  | _ => none

def ofBytes32 (b : List UInt8) : Option (BitVec 256) :=
  if b.length = 32 then some (.ofNat 256 (ofBigEndian b)) else none

/-- `array32::deserialize`. -/
def array32 (v : Value) : Option (BitVec 256) := byteBuf v >>= ofBytes32

def deTuple32 (v : Value) : Option (BitVec 256) := seq u8 v >>= ofBytes32

/-- `deserialize_identifier`. -/
def identifier : Value → Option String
  | .text s => some s
  | .bytes b => String.fromUTF8? ⟨b.toArray⟩
  | _ => none

/-- What a derived visitor collects of a struct: unknown and repeated fields are refused. -/
def fields (names : List String) : Value → Option (List (String × Value))
  | .map entries => do
    let found ← entries.mapM fun (k, v) ↦ (identifier k).map fun k ↦ (k, v)
    if (found.map Prod.fst).Nodup ∧ ∀ k ∈ found.map Prod.fst, k ∈ names then some found else none
  | _ => none

def required {α : Type} (found : List (String × Value)) (name : String)
    (de : Value → Option α) : Option α :=
  found.lookup name >>= de

/-- A field with `#[serde(default)]`, or a missing `Option`. -/
def defaulted {α : Type} (found : List (String × Value)) (name : String) (default : α)
    (de : Value → Option α) : Option α :=
  (found.lookup name).elim (some default) de

/-- The name of an enum's variant, and its content where the value has one. -/
def variant : Value → Option (String × Option Value)
  | .text s => some (s, none)
  | .map [(k, v)] => (identifier k).map fun k ↦ (k, some v)
  | _ => none

def deKind (v : Value) : Option Kind := do
  match ← variant v with
  | ("text", _) => some .text
  | ("url", _) => some .url
  | ("code", _) => some .code
  | ("image", _) => some .image
  | ("file", _) => some .file
  | _ => none

def ClipboardItem.de (v : Value) : Option ClipboardItem := do
  let found ← fields ["lamport", "hash", "kind", "payload", "sensitive", "wall_time_ms", "origin",
    "event_seq"] v
  return {
    lamport := ← required found "lamport" u64
    hash := ← required found "hash" array32
    kind := ← required found "kind" deKind
    payload := ← required found "payload" byteBuf
    sensitive := ← required found "sensitive" boolean
    wallTimeMs := ← required found "wall_time_ms" u64
    origin := ← required found "origin" array32
    eventSeq := ← required found "event_seq" u64 }

def Chunk.de (v : Value) : Option Chunk := do
  let found ← fields ["item_id", "idx", "total", "data"] v
  return {
    itemId := ← required found "item_id" array32
    idx := ← required found "idx" u16
    total := ← required found "total" u16
    data := ← required found "data" byteBuf }

def Ack.de (v : Value) : Option Ack := do
  let found ← fields ["lamport", "hash"] v
  return { lamport := ← required found "lamport" u64, hash := ← required found "hash" array32 }

def Nak.de (v : Value) : Option Nak := do
  let found ← fields ["item_id", "want_header", "missing"] v
  return {
    itemId := ← required found "item_id" array32
    wantHeader := ← required found "want_header" boolean
    missing := ← required found "missing" (seq u16) }

def HandshakeInit.de (v : Value) : Option HandshakeInit := do
  let found ← fields ["peer_id", "ephemeral_pub", "static_pub", "lamport"] v
  return {
    peerId := ← required found "peer_id" deTuple32
    ephemeralPub := ← required found "ephemeral_pub" deTuple32
    staticPub := ← required found "static_pub" deTuple32
    lamport := ← required found "lamport" u64 }

def HandshakeResp.de (v : Value) : Option HandshakeResp := do
  let found ← fields ["peer_id", "ephemeral_pub", "static_pub", "lamport"] v
  return {
    peerId := ← required found "peer_id" deTuple32
    ephemeralPub := ← required found "ephemeral_pub" deTuple32
    staticPub := ← required found "static_pub" deTuple32
    lamport := ← required found "lamport" u64 }

def BatteryStatus.de (v : Value) : Option BatteryStatus := do
  let found ← fields ["lamport", "level", "charging"] v
  return {
    lamport := ← required found "lamport" u64
    level := ← required found "level" u8
    charging := ← required found "charging" boolean }

def Heartbeat.de (v : Value) : Option Heartbeat := do
  let found ← fields ["lamport", "rtt_hint"] v
  return {
    lamport := ← required found "lamport" u64
    rttHint := ← defaulted found "rtt_hint" none (optional u32) }

def Hello.de (v : Value) : Option Hello := do
  let found ← fields ["name", "platform", "caps"] v
  return {
    name := ← required found "name" string
    platform := ← defaulted found "platform" "" string
    caps := ← defaulted found "caps" [] (seq string) }

def deHashes (v : Value) : Option (List String) := do
  required (← fields ["hashes"] v) "hashes" (seq string)

def dePairConfirm (v : Value) : Option Bool := do
  required (← fields ["accept"] v) "accept" boolean

def Msg.de (v : Value) : Option Msg := do
  match ← variant v with
  | ("HandshakeInit", some v) => (HandshakeInit.de v).map .handshakeInit
  | ("HandshakeResp", some v) => (HandshakeResp.de v).map .handshakeResp
  | ("ClipboardItem", some v) => (ClipboardItem.de v).map .clipboardItem
  | ("BatteryStatus", some v) => (BatteryStatus.de v).map .batteryStatus
  | ("Heartbeat", some v) => (Heartbeat.de v).map .heartbeat
  | ("Chunk", some v) => (Chunk.de v).map .chunk
  | ("Ack", some v) => (Ack.de v).map .ack
  | ("Nak", some v) => (Nak.de v).map .nak
  | ("Bye", _) => some .bye
  | ("Revoke", _) => some .revoke
  | ("Hello", some v) => (Hello.de v).map .hello
  | ("ResyncOffer", some v) => (deHashes v).map .resyncOffer
  | ("ResyncPull", some v) => (deHashes v).map .resyncPull
  | ("PairConfirm", some v) => (dePairConfirm v).map .pairConfirm
  | ("PairVerifyStarted", _) => some .pairVerifyStarted
  | _ => none

def Frame.de (v : Value) : Option Frame := do
  let found ← fields ["version", "msg"] v
  return { version := ← required found "version" u8, msg := ← required found "msg" Msg.de }

variable {form : String → ByteForm} {b : List UInt8}

@[simp] theorem u64_ser (x : UInt64) : u64 (.uint x) = some x := rfl

@[simp] theorem boolean_ser (x : Bool) : boolean (.bool x) = some x := rfl

@[simp] theorem string_ser (x : String) : string (.text x) = some x := rfl

@[simp] theorem u8_ser (x : UInt8) : u8 (.uint x.toUInt64) = some x := by
  have h : x.toNat < 2 ^ 8 := x.toNat_lt
  simpa [u8] using h

@[simp] theorem u16_ser (x : UInt16) : u16 (.uint x.toUInt64) = some x := by
  have h : x.toNat < 2 ^ 16 := x.toNat_lt
  simpa [u16] using h

@[simp] theorem u32_ser (x : UInt32) : u32 (.uint x.toUInt64) = some x := by
  have h : x.toNat < 2 ^ 32 := x.toNat_lt
  simpa [u32] using h

/-- Items that read back one by one read back together. -/
theorem mapM_map {α β : Type} (de : β → Option α) (ser : α → β) (h : ∀ a, de (ser a) = some a)
    (l : List α) : (l.map ser).mapM de = some l := by
  induction l with
  | nil => rfl
  | cons a l ih => simp [h, ih]

theorem bytes32_length (x : BitVec 256) : (bytes32 x).length = 32 := length_bigEndian

theorem ofBytes32_bytes32 (x : BitVec 256) : ofBytes32 (bytes32 x) = some x := by
  have hx : ofBigEndian (bytes32 x) = x.toNat := ofBigEndian_bigEndian x.isLt
  rw [ofBytes32, if_pos (bytes32_length x), hx, BitVec.ofNat_toNat, BitVec.setWidth_eq]

/-- Both forms of a byte field read alike. -/
@[simp] theorem byteBuf_ser (f : ByteForm) : byteBuf (f.ser b) = some b := by
  cases f with
  | string => rfl
  | array => exact mapM_map _ _ u8_ser b

@[simp] theorem array32_ser (f : ByteForm) (x : BitVec 256) :
    array32 (f.ser (bytes32 x)) = some x := by
  rw [array32, byteBuf_ser]
  exact ofBytes32_bytes32 x

@[simp] theorem deTuple32_ser (x : BitVec 256) : deTuple32 (tuple32 x) = some x := by
  have h : seq u8 (tuple32 x) = some (bytes32 x) := mapM_map _ _ u8_ser (bytes32 x)
  rw [deTuple32, h]
  exact ofBytes32_bytes32 x

@[simp] theorem seq_u16_ser (l : List UInt16) :
    seq u16 (.array (l.map fun i ↦ .uint i.toUInt64)) = some l := mapM_map _ _ u16_ser l

@[simp] theorem seq_string_ser (l : List String) : seq string (.array (l.map .text)) = some l :=
  mapM_map string .text string_ser l

@[simp] theorem deKind_ser (k : Kind) : deKind (serKind k) = some k := by
  cases k <;> rfl

/-- A struct's own fields come back as they were written. -/
theorem fields_struct {names : List String} {fs : List (String × Value)}
    (hnames : fs.map Prod.fst = names) (hnodup : names.Nodup) :
    fields names (struct fs) = some fs := by
  subst hnames
  have hfound : (fs.map fun (k, v) ↦ (Value.text k, v)).mapM (fun (k, v) ↦
      (identifier k).map fun k ↦ (k, v)) = some fs :=
    mapM_map _ (fun (k, v) ↦ (Value.text k, v)) (fun _ ↦ rfl) fs
  simp only [fields, struct, hfound, Option.bind_eq_bind, Option.bind_some]
  rw [if_pos ⟨hnodup, fun k hk ↦ hk⟩]

@[simp] theorem ClipboardItem.de_ser (item : ClipboardItem) : ClipboardItem.de (item.ser form) = some item := by
  simp [ClipboardItem.de, ClipboardItem.ser, fields_struct, required, List.lookup]

@[simp] theorem Chunk.de_ser (c : Chunk) : Chunk.de (c.ser form) = some c := by
  simp [Chunk.de, Chunk.ser, fields_struct, required, List.lookup]

@[simp] theorem Ack.de_ser (a : Ack) : Ack.de (a.ser form) = some a := by
  simp [Ack.de, Ack.ser, fields_struct, required, List.lookup]

@[simp] theorem Nak.de_ser (nak : Nak) : Nak.de (nak.ser form) = some nak := by
  simp [Nak.de, Nak.ser, fields_struct, required, List.lookup]

@[simp] theorem HandshakeInit.de_ser (h : HandshakeInit) : HandshakeInit.de h.ser = some h := by
  simp [HandshakeInit.de, HandshakeInit.ser, fields_struct, required, List.lookup]

@[simp] theorem HandshakeResp.de_ser (h : HandshakeResp) : HandshakeResp.de h.ser = some h := by
  simp [HandshakeResp.de, HandshakeResp.ser, fields_struct, required, List.lookup]

@[simp] theorem BatteryStatus.de_ser (b : BatteryStatus) : BatteryStatus.de b.ser = some b := by
  simp [BatteryStatus.de, BatteryStatus.ser, fields_struct, required, List.lookup]

@[simp] theorem Heartbeat.de_ser (h : Heartbeat) : Heartbeat.de h.ser = some h := by
  obtain ⟨lamport, rtt⟩ := h
  cases rtt <;>
    simp [Heartbeat.de, Heartbeat.ser, fields_struct, required, defaulted, optional, List.lookup]

@[simp] theorem Hello.de_ser (h : Hello) : Hello.de h.ser = some h := by
  simp [Hello.de, Hello.ser, fields_struct, required, defaulted, List.lookup]

@[simp] theorem deHashes_ser (hashes : List String) : deHashes (serHashes hashes) = some hashes := by
  simp [deHashes, serHashes, fields_struct, required, List.lookup]

@[simp] theorem dePairConfirm_ser (accept : Bool) :
    dePairConfirm (struct [("accept", .bool accept)]) = some accept := by
  simp [dePairConfirm, fields_struct, required, List.lookup]

@[simp] theorem Msg.de_serAs (msg : Msg) : Msg.de (msg.serAs form) = some msg := by
  cases msg <;> simp [Msg.de, Msg.serAs, variant, tagged, identifier]

/-- A frame reads back from each of its forms. -/
theorem Frame.de_serAs (f : Frame) : Frame.de (f.serAs form) = some f := by
  simp [Frame.de, Frame.serAs, fields_struct, required, List.lookup]

end FluxSync.Proto
