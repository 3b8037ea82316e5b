import FluxSync.Proto.Serde

namespace FluxSync.Proto

open Cbor

inductive ProtoError
  | version (got expected : UInt8)
  | payloadTooLarge (n : ℕ)
  | chunkDataTooLarge (n : ℕ)
  | chunkTotalTooLarge (total : UInt16)
  | chunkTotalZero
  | chunkIndexOutOfRange (idx total : UInt16)
  | nakMissingTooLarge (n : ℕ)
  | batteryLevel (level : UInt8)
  | helloNameTooLong (n : ℕ)
  | helloPlatformTooLong (n : ℕ)
  | helloNameNotPrintable
  | helloPlatformNotAsciiPrintable
  | helloCapsTooMany (n : ℕ)
  | helloCapTooLong (n : ℕ)
  | helloCapNotAsciiPrintable
  | resyncTooManyHashes (n : ℕ)
  | resyncHashMalformed
  | cbor
  deriving DecidableEq

/-- `ciborium` on the serde data model: writing to a buffer succeeds, and what was written reads
back up to its recursion limit. -/
structure Ciborium where
  put : Value → List UInt8
  get : List UInt8 → Option Value
  get_put : ∀ v, v.Fits 256 → get (put v) = some v

def Ciborium.write (cbor : Ciborium) (f : Frame) : List UInt8 := cbor.put f.ser

def Ciborium.read (cbor : Ciborium) (bytes : List UInt8) : Option Frame :=
  cbor.get bytes >>= Frame.de

/-- Unicode category Cc. -/
def isControl (c : Char) : Bool := c.toNat < 0x20 || (0x7F ≤ c.toNat && c.toNat ≤ 0x9F)

def isBidiOrFormatChar (c : Char) : Bool :=
  let n := c.toNat
  (0x200B ≤ n && n ≤ 0x200F) || (0x202A ≤ n && n ≤ 0x202E) || (0x2066 ≤ n && n ≤ 0x2069)
    || n == 0xFEFF

/-- All bytes from space to `~`: a byte of a longer character is above them. -/
def isAsciiPrintableCap (s : String) : Bool := s.toList.all fun c ↦ 0x20 ≤ c.toNat && c.toNat ≤ 0x7E

def isValidResyncHash (s : String) : Bool :=
  s.utf8ByteSize == 64 && s.toList.all fun c ↦ c.isDigit || ('a' ≤ c && c ≤ 'f')

def validateResyncMsg (hashes : List String) : Except ProtoError Unit :=
  if 32 < hashes.length then .error (.resyncTooManyHashes hashes.length)
  else if hashes.any fun h ↦ !isValidResyncHash h then .error .resyncHashMalformed
  else .ok ()

def validateItem (item : ClipboardItem) : Except ProtoError Unit :=
  if MAX_PAYLOAD < item.payload.length then .error (.payloadTooLarge item.payload.length)
  else .ok ()

def validateChunk (chunk : Chunk) : Except ProtoError Unit :=
  if MAX_CHUNK_DATA < chunk.data.length then .error (.chunkDataTooLarge chunk.data.length)
  else if chunk.total = 0 then .error .chunkTotalZero
  else if MAX_CHUNKS < chunk.total then .error (.chunkTotalTooLarge chunk.total)
  else if chunk.total ≤ chunk.idx then .error (.chunkIndexOutOfRange chunk.idx chunk.total)
  else .ok ()

def validateNak (nak : Nak) : Except ProtoError Unit :=
  if 512 < nak.missing.length then .error (.nakMissingTooLarge nak.missing.length) else .ok ()

def validateHello (h : Hello) : Except ProtoError Unit :=
  if 256 < h.name.utf8ByteSize then .error (.helloNameTooLong h.name.utf8ByteSize)
  else if 16 < h.platform.utf8ByteSize then .error (.helloPlatformTooLong h.platform.utf8ByteSize)
  else if h.name.toList.any fun c ↦ isControl c || isBidiOrFormatChar c then
    .error .helloNameNotPrintable
  else if !isAsciiPrintableCap h.platform then .error .helloPlatformNotAsciiPrintable
  else if 32 < h.caps.length then .error (.helloCapsTooMany h.caps.length)
  else if h.caps.any fun c ↦ 64 < c.utf8ByteSize then
    .error (.helloCapTooLong ((h.caps.map String.utf8ByteSize).foldl max 0))
  else if h.caps.any fun c ↦ !isAsciiPrintableCap c then .error .helloCapNotAsciiPrintable
  else .ok ()

def validate (frame : Frame) : Except ProtoError Unit :=
  match frame.msg with
  | .clipboardItem item => validateItem item
  | .chunk chunk => validateChunk chunk
  | .nak nak => validateNak nak
  | .batteryStatus b => if 100 < b.level then .error (.batteryLevel b.level) else .ok ()
  | .hello h => validateHello h
  | .resyncOffer hashes | .resyncPull hashes => validateResyncMsg hashes
  | _ => .ok ()

def encode (cbor : Ciborium) (frame : Frame) : Except ProtoError (List UInt8) := do
  if frame.version ≠ PROTOCOL_VERSION then throw (.version frame.version PROTOCOL_VERSION)
  validate frame
  return cbor.write frame

def decode (cbor : Ciborium) (bytes : List UInt8) : Except ProtoError Frame := do
  let some frame := cbor.read bytes | throw .cbor
  if frame.version ≠ PROTOCOL_VERSION then throw (.version frame.version PROTOCOL_VERSION)
  validate frame
  return frame

variable {cbor : Ciborium} {msg : Msg} {frame : Frame} {bytes : List UInt8}

theorem encode_eq_ok : encode cbor frame = .ok bytes ↔
    frame.version = PROTOCOL_VERSION ∧ validate frame = .ok () ∧ bytes = cbor.write frame := by
  by_cases hv : frame.version = PROTOCOL_VERSION
  · cases hval : validate frame with
    | error e => simp [encode, hv, hval, bind, Except.bind]
    | ok u => simp [encode, hv, hval, bind, Except.bind, pure, Except.pure, eq_comm]
  · simp [encode, hv, bind, Except.bind, throw, throwThe, MonadExceptOf.throw]

theorem decode_eq_ok : decode cbor bytes = .ok frame ↔
    cbor.read bytes = some frame ∧ frame.version = PROTOCOL_VERSION ∧ validate frame = .ok () := by
  cases hr : cbor.read bytes with
  | none => simp [decode, hr, throw, throwThe, MonadExceptOf.throw]
  | some f =>
    by_cases hv : f.version = PROTOCOL_VERSION
    · cases hval : validate f with
      | error e => simp [decode, hr, hv, hval, bind, Except.bind]; grind
      | ok u => simp [decode, hr, hv, hval, bind, Except.bind, pure, Except.pure]; grind
    · simp [decode, hr, hv, bind, Except.bind, throw, throwThe, MonadExceptOf.throw]; grind

/-- The bounds on a message's fields. -/
def Msg.Bounded : Msg → Prop
  | .clipboardItem item => item.payload.length ≤ MAX_PAYLOAD
  | .chunk c => c.data.length ≤ MAX_CHUNK_DATA ∧ c.total ≠ 0 ∧ c.total ≤ MAX_CHUNKS ∧
      c.idx < c.total
  | .nak n => n.missing.length ≤ 512
  | .batteryStatus b => b.level ≤ 100
  | .hello h => h.name.utf8ByteSize ≤ 256 ∧ h.platform.utf8ByteSize ≤ 16 ∧
      (∀ c ∈ h.name.toList, isControl c = false ∧ isBidiOrFormatChar c = false) ∧
      isAsciiPrintableCap h.platform ∧ h.caps.length ≤ 32 ∧
      ∀ c ∈ h.caps, c.utf8ByteSize ≤ 64 ∧ isAsciiPrintableCap c
  | .resyncOffer hashes | .resyncPull hashes => hashes.length ≤ 32 ∧
      ∀ h ∈ hashes, isValidResyncHash h
  | _ => True

theorem validateResyncMsg_eq_ok {hashes : List String} : validateResyncMsg hashes = .ok () ↔
    hashes.length ≤ 32 ∧ ∀ h ∈ hashes, isValidResyncHash h := by
  rw [validateResyncMsg]
  split
  case isTrue h => exact iff_of_false nofun fun ⟨hle, _⟩ ↦ absurd hle (Nat.not_le.mpr h)
  split
  case isTrue h =>
    obtain ⟨x, hx, hbad⟩ := List.any_eq_true.mp h
    exact iff_of_false nofun fun ⟨_, hall⟩ ↦ by simp [hall x hx] at hbad
  case isFalse hle h => simpa using ⟨Nat.not_lt.mp hle, by simpa using h⟩

theorem validateHello_eq_ok {h : Hello} : validateHello h = .ok () ↔ (Msg.hello h).Bounded := by
  simp only [validateHello, Msg.Bounded]
  grind

theorem validate_eq_ok : validate frame = .ok () ↔ frame.msg.Bounded := by
  obtain ⟨version, msg⟩ := frame
  cases msg with
  | clipboardItem item => simp [validate, validateItem, Msg.Bounded]
  | chunk c =>
    simp only [validate, validateChunk, Msg.Bounded]
    grind
  | nak n => simp [validate, validateNak, Msg.Bounded]
  | batteryStatus b => simp [validate, Msg.Bounded]
  | hello h => exact validateHello_eq_ok
  | resyncOffer hashes => exact validateResyncMsg_eq_ok
  | resyncPull hashes => exact validateResyncMsg_eq_ok
  | _ => exact iff_of_true rfl trivial

variable {form : String → ByteForm} {n depth : ℕ}

theorem fits_uint {n : UInt64} : (Value.uint n).Fits (depth + 1) := trivial

theorem ByteForm.ser_fits {f : ByteForm} {b : List UInt8} (h : b.length < 2 ^ 64) :
    (f.ser b).Fits (depth + 2) := by
  cases f with
  | string => exact h
  | array =>
    refine ⟨by rwa [List.length_map], fun v hv ↦ ?_⟩
    obtain ⟨x, -, rfl⟩ := List.mem_map.mp hv
    exact fits_uint

theorem bytes32_fits {f : ByteForm} {x : BitVec 256} : (f.ser (bytes32 x)).Fits (depth + 2) :=
  ByteForm.ser_fits (by rw [bytes32_length]; decide)

theorem texts_fit {l : List String} (hlen : l.length < 2 ^ 64)
    (h : ∀ s ∈ l, s.utf8ByteSize < 2 ^ 64) : (Value.array (l.map .text)).Fits (depth + 2) := by
  refine ⟨by rwa [List.length_map], fun v hv ↦ ?_⟩
  obtain ⟨s, hs, rfl⟩ := List.mem_map.mp hv
  exact h s hs

/-- The names and contents of a struct's fields. -/
def FieldsFit (depth : ℕ) (fs : List (String × Value)) : Prop :=
  ∀ e ∈ fs, e.1.utf8ByteSize < 2 ^ 64 ∧ e.2.Fits (depth + 1)

theorem fieldsFit_nil : FieldsFit depth [] := nofun

theorem FieldsFit.cons {k : String} {v : Value} {fs : List (String × Value)}
    (hk : k.utf8ByteSize < 2 ^ 64) (hv : v.Fits (depth + 1)) (h : FieldsFit depth fs) :
    FieldsFit depth ((k, v) :: fs) :=
  List.forall_mem_cons.mpr ⟨⟨hk, hv⟩, h⟩

theorem struct_fits {fs : List (String × Value)} (h : FieldsFit depth fs)
    (hlen : fs.length < 2 ^ 64) : (struct fs).Fits (depth + 2) := by
  refine ⟨by rwa [List.length_map], fun v hv ↦ ?_⟩
  obtain ⟨e, he, rfl⟩ := List.mem_map.mp hv
  exact h e he

theorem tagged_fits {name : String} {v : Value} (hname : name.utf8ByteSize < 2 ^ 64)
    (h : v.Fits (depth + 1)) : (tagged name v).Fits (depth + 2) :=
  struct_fits (.cons hname h fieldsFit_nil) (by simp)

theorem serHashes_fits {hashes : List String} (h : (Msg.resyncOffer hashes).Bounded) :
    (serHashes hashes).Fits (depth + 3) := by
  have hsize : ∀ s ∈ hashes, s.utf8ByteSize < 2 ^ 64 := by
    intro s hs
    have := h.2 s hs
    simp only [isValidResyncHash, Bool.and_eq_true, beq_iff_eq] at this
    rw [this.1]
    decide
  exact struct_fits (.cons (by decide) (texts_fit (h.1.trans_lt (by decide)) hsize) fieldsFit_nil)
    (by simp)

theorem serKind_fits {k : Kind} : (serKind k).Fits (depth + 1) := by
  have hfit : ∀ s ∈ ["text", "url", "code", "image", "file"],
      (Value.text s).Fits (depth + 1) := by
    intro s hs
    have hall : ∀ s ∈ ["text", "url", "code", "image", "file"], s.utf8ByteSize < 2 ^ 64 := by decide
    exact hall s hs
  cases k <;> exact hfit _ (by simp)

theorem ClipboardItem.ser_fits {item : ClipboardItem} (h : (Msg.clipboardItem item).Bounded) :
    (item.ser form).Fits (depth + 3) := by
  have hp : item.payload.length < 2 ^ 64 := Nat.lt_of_le_of_lt h (by decide)
  refine struct_fits ?_ (by simp)
  refine .cons (by decide) fits_uint (.cons (by decide) bytes32_fits ?_)
  refine .cons (by decide) serKind_fits (.cons (by decide) (ByteForm.ser_fits hp) ?_)
  refine .cons (by decide) trivial (.cons (by decide) fits_uint ?_)
  exact .cons (by decide) bytes32_fits (.cons (by decide) fits_uint fieldsFit_nil)

theorem Hello.ser_fits {h : Hello} (hb : (Msg.hello h).Bounded) : h.ser.Fits (depth + 3) := by
  obtain ⟨hname, hplatform, -, -, hlen, hcaps⟩ := hb
  have hname' : h.name.utf8ByteSize < 2 ^ 64 := hname.trans_lt (by decide)
  have hplatform' : h.platform.utf8ByteSize < 2 ^ 64 := hplatform.trans_lt (by decide)
  have hcaps' : (Value.array (h.caps.map .text)).Fits (depth + 2) :=
    texts_fit (hlen.trans_lt (by decide)) fun s hs ↦ (hcaps s hs).1.trans_lt (by decide)
  exact struct_fits (.cons (by decide) hname' (.cons (by decide) hplatform'
    (.cons (by decide) hcaps' fieldsFit_nil))) (by simp)

theorem Nak.ser_fits {n : Nak} (h : (Msg.nak n).Bounded) : (n.ser form).Fits (depth + 3) := by
  have hlen : n.missing.length < 2 ^ 64 := Nat.lt_of_le_of_lt h (by decide)
  have hmissing : (Value.array (n.missing.map fun i ↦ .uint i.toUInt64)).Fits (depth + 2) := by
    refine ⟨by rwa [List.length_map], fun v hv ↦ ?_⟩
    obtain ⟨i, -, rfl⟩ := List.mem_map.mp hv
    exact fits_uint
  exact struct_fits (.cons (by decide) bytes32_fits (.cons (by decide) trivial
    (.cons (by decide) hmissing fieldsFit_nil))) (by simp)

theorem Chunk.ser_fits {c : Chunk} (h : (Msg.chunk c).Bounded) : (c.ser form).Fits (depth + 3) := by
  have hdata : c.data.length < 2 ^ 64 := h.1.trans_lt (by decide)
  exact struct_fits (.cons (by decide) bytes32_fits (.cons (by decide) fits_uint
    (.cons (by decide) fits_uint (.cons (by decide) (ByteForm.ser_fits hdata) fieldsFit_nil))))
    (by simp)

theorem Heartbeat.ser_fits {h : Heartbeat} : h.ser.Fits (depth + 3) := by
  have hrtt : (h.rttHint.elim .null fun rtt ↦ .uint rtt.toUInt64 : Value).Fits (depth + 2) := by
    cases h.rttHint <;> trivial
  exact struct_fits (.cons (by decide) fits_uint (.cons (by decide) hrtt fieldsFit_nil)) (by simp)

theorem Msg.serAs_fits {msg : Msg} (h : msg.Bounded) : (msg.serAs form).Fits (depth + 4) := by
  cases msg with
  | clipboardItem item => exact tagged_fits (by decide) (ClipboardItem.ser_fits h)
  | hello hello => exact tagged_fits (by decide) (Hello.ser_fits h)
  | nak n => exact tagged_fits (by decide) (Nak.ser_fits h)
  | chunk c => exact tagged_fits (by decide) (Chunk.ser_fits h)
  | resyncOffer hashes => exact tagged_fits (by decide) (serHashes_fits h)
  | resyncPull hashes => exact tagged_fits (by decide) (serHashes_fits h)
  | heartbeat hb => exact tagged_fits (by decide) Heartbeat.ser_fits
  | handshakeInit h =>
    refine tagged_fits (by decide) (struct_fits ?_ (by simp))
    exact .cons (by decide) bytes32_fits (.cons (by decide) bytes32_fits
      (.cons (by decide) bytes32_fits (.cons (by decide) fits_uint fieldsFit_nil)))
  | handshakeResp h =>
    refine tagged_fits (by decide) (struct_fits ?_ (by simp))
    exact .cons (by decide) bytes32_fits (.cons (by decide) bytes32_fits
      (.cons (by decide) bytes32_fits (.cons (by decide) fits_uint fieldsFit_nil)))
  | ack a =>
    refine tagged_fits (by decide) (struct_fits ?_ (by simp))
    exact .cons (by decide) fits_uint (.cons (by decide) bytes32_fits fieldsFit_nil)
  | batteryStatus b =>
    refine tagged_fits (by decide) (struct_fits ?_ (by simp))
    exact .cons (by decide) fits_uint (.cons (by decide) fits_uint
      (.cons (by decide) trivial fieldsFit_nil))
  | pairConfirm accept =>
    exact tagged_fits (by decide) (struct_fits (.cons (by decide) trivial fieldsFit_nil) (by simp))
  | bye => exact (by decide : "Bye".utf8ByteSize < 2 ^ 64)
  | revoke => exact (by decide : "Revoke".utf8ByteSize < 2 ^ 64)
  | pairVerifyStarted => exact (by decide : "PairVerifyStarted".utf8ByteSize < 2 ^ 64)

/-- A frame within its bounds is within what CBOR can hold, in each of its forms. -/
theorem Frame.serAs_fits (h : frame.msg.Bounded) : (frame.serAs form).Fits 256 := by
  have hmsg : (frame.msg.serAs form).Fits 255 := Msg.serAs_fits h
  exact struct_fits (.cons (by decide) fits_uint (.cons (by decide) hmsg fieldsFit_nil))
    (by simp)

theorem Ciborium.read_put (h : (frame.serAs form).Fits 256) :
    cbor.read (cbor.put (frame.serAs form)) = some frame := by
  rw [read, cbor.get_put _ h]
  exact frame.de_serAs

theorem decode_encode (h : encode cbor frame = .ok bytes) : decode cbor bytes = .ok frame := by
  obtain ⟨hv, hval, rfl⟩ := encode_eq_ok.mp h
  exact decode_eq_ok.mpr ⟨cbor.read_put (Frame.serAs_fits (validate_eq_ok.mp hval)), hv, hval⟩

/-- Frames within their bounds are told apart by what is written. -/
theorem write_injective {f g : Frame} (hf : f.msg.Bounded) (hg : g.msg.Bounded)
    (h : cbor.write f = cbor.write g) : f = g := by
  have hr : cbor.read (cbor.write f) = some f := cbor.read_put (Frame.serAs_fits hf)
  have hr' : cbor.read (cbor.write g) = some g := cbor.read_put (Frame.serAs_fits hg)
  rw [h, hr'] at hr
  exact (Option.some.inj hr).symm

/-- What is encoded decodes to itself, what is decoded is within bounds and encodes again, and the
two forms of the byte fields are read alike. -/
theorem codec_round_trip (cbor : Ciborium) :
    (∀ frame bytes, encode cbor frame = .ok bytes → decode cbor bytes = .ok frame) ∧
      (∀ bytes frame, decode cbor bytes = .ok frame → frame.version = PROTOCOL_VERSION ∧
        frame.msg.Bounded ∧
          ∃ bytes', encode cbor frame = .ok bytes' ∧ decode cbor bytes' = .ok frame) ∧
      ∀ (frame : Frame) form, (frame.serAs form).Fits 256 → frame.ser.Fits 256 →
        decode cbor (cbor.put (frame.serAs form)) = decode cbor (cbor.put frame.ser) := by
  refine ⟨fun frame bytes ↦ decode_encode, fun bytes frame h ↦ ?_, fun frame form hform hser ↦ ?_⟩
  · obtain ⟨-, hv, hval⟩ := decode_eq_ok.mp h
    have henc : encode cbor frame = .ok (cbor.write frame) := encode_eq_ok.mpr ⟨hv, hval, rfl⟩
    exact ⟨hv, validate_eq_ok.mp hval, _, henc, decode_encode henc⟩
  · have h : cbor.read (cbor.put (frame.serAs form)) = cbor.read (cbor.put frame.ser) :=
      (cbor.read_put hform).trans (cbor.read_put hser).symm
    simp only [decode, h]

/-- RFC 8949 as `ciborium` writes it. -/
def standardCbor : Ciborium where
  put := Value.write
  get bytes := (readValue 256 bytes).map Prod.fst
  get_put v h := by
    have hread : readValue 256 (v.write ++ []) = some (v, []) := readValue_write h
    rw [List.append_nil] at hread
    rw [hread]
    rfl

def anAck : Frame := { version := 2, msg := .ack { lamport := 24, hash := 0xFF } }

/-- An acknowledgement of an older build. -/
theorem codec_round_trip_anAck :
    decode standardCbor (standardCbor.put (anAck.serAs fun _ ↦ .array)) = .ok anAck := by
  have hb : anAck.msg.Bounded := trivial
  obtain ⟨hround, -, hforms⟩ := codec_round_trip standardCbor
  rw [hforms anAck _ (Frame.serAs_fits hb) (Frame.serAs_fits hb)]
  exact hround anAck _ (encode_eq_ok.mpr ⟨rfl, rfl, rfl⟩)

end FluxSync.Proto
