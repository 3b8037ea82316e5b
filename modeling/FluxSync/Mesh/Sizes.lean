import FluxSync.Foundation.CborSize
import FluxSync.Mesh.Reassembly

/-! ## Frames and datagrams -/

namespace FluxSync.Mesh

open Proto Cbor Slices

variable {item : Item} {i n : ℕ} {data : List UInt8}

theorem length_write_frame (f : Frame) : (standardCbor.write f).length = f.ser.size := length_write _

/-- The names that stand in an item, a chunk or a `Nak`. -/
theorem utf8ByteSize_names :
    "version".utf8ByteSize = 7 ∧ "msg".utf8ByteSize = 3 ∧
      "ClipboardItem".utf8ByteSize = 13 ∧ "lamport".utf8ByteSize = 7 ∧ "hash".utf8ByteSize = 4 ∧
      "kind".utf8ByteSize = 4 ∧ "payload".utf8ByteSize = 7 ∧ "sensitive".utf8ByteSize = 9 ∧
      "wall_time_ms".utf8ByteSize = 12 ∧ "origin".utf8ByteSize = 6 ∧
      "event_seq".utf8ByteSize = 9 ∧ "Chunk".utf8ByteSize = 5 ∧ "item_id".utf8ByteSize = 7 ∧
      "idx".utf8ByteSize = 3 ∧ "total".utf8ByteSize = 5 ∧ "data".utf8ByteSize = 4 ∧
      "Nak".utf8ByteSize = 3 ∧ "want_header".utf8ByteSize = 11 ∧ "missing".utf8ByteSize = 7 := by
  decide +kernel

theorem size_version : headSize PROTOCOL_VERSION.toUInt64.toNat = 1 := rfl

theorem size_kind (k : Kind) : (serKind k).size ≤ 6 := by
  cases k <;> decide +kernel

/-- An empty item fits into a datagram with much room left. -/
theorem size_header : (item.frame []).ser.size ≤ 204 := by
  have hlamport : headSize item.lamport.toNat ≤ 9 := headSize_le
  have hseq : headSize item.eventSeq.toNat ≤ 9 := headSize_le
  have hkind := size_kind item.kind
  simp only [Item.frame, Frame.ser, Frame.serAs, Msg.serAs, ClipboardItem.ser, tagged, struct,
    ByteForm.ser, List.map_cons, List.map_nil, List.length_cons, List.length_nil, Value.size,
    entriesSize, bytes32_length, utf8ByteSize_names, size_version]
  generalize headSize item.lamport.toNat = a at *
  generalize headSize item.eventSeq.toNat = b at *
  simp only [headSize]
  norm_num
  omega

/-- A chunk's own bytes come with at most 89 others. -/
theorem size_chunk (total : ℕ) (h : data.length ≤ MAX_CHUNK_DATA) :
    (item.chunkFrame total data i).ser.size ≤ MAX_CHUNK_DATA + 89 := by
  have hword (x : UInt16) : headSize x.toUInt64.toNat ≤ 3 := by
    rw [UInt16.toNat_toUInt64]
    exact headSize_word x.toNat_lt
  have hidx := hword (.ofNat i)
  have htotal := hword (.ofNat total)
  have hdata : headSize data.length ≤ 3 := headSize_word (h.trans_lt (by decide))
  simp only [Item.chunkFrame, Frame.ser, Frame.serAs, Msg.serAs, Chunk.ser, tagged, struct,
    ByteForm.ser, List.map_cons, List.map_nil, List.length_cons, List.length_nil, Value.size,
    entriesSize, bytes32_length, utf8ByteSize_names, size_version]
  generalize headSize (UInt16.ofNat i).toUInt64.toNat = a at *
  generalize headSize (UInt16.ofNat total).toUInt64.toNat = b at *
  generalize headSize data.length = c at *
  simp only [headSize]
  norm_num
  omega

/-- The item goes out in one frame. -/
def Inline (item : Item) : Prop :=
  item.payload.length ≤ MAX_CHUNK_DATA ∧
    (standardCbor.write (item.frame item.payload)).length ≤ MAX_FRAME_PLAINTEXT

theorem encode_payload (h : item.payload.length ≤ MAX_PAYLOAD) :
    encode standardCbor (item.frame item.payload) =
      .ok (standardCbor.write (item.frame item.payload)) := by
  refine encode_eq_ok.mpr ⟨rfl, ?_, rfl⟩
  simp only [validate, Item.frame, validateItem, if_neg (Nat.not_lt.mpr h)]

theorem buildItemFrames_inline (h : item.payload.length ≤ MAX_PAYLOAD) (hin : Inline item) :
    buildItemFrames standardCbor item = [standardCbor.write (item.frame item.payload)] := by
  rw [buildItemFrames, if_pos hin.1, encode_payload h]
  exact if_pos hin.2

theorem buildItemFrames_chunked (h : item.payload.length ≤ MAX_PAYLOAD) (hout : ¬ Inline item) :
    buildItemFrames standardCbor item = chunkedFrames standardCbor item := by
  rw [buildItemFrames]
  split
  case isTrue hsmall =>
    rw [encode_payload h]
    exact if_neg fun hfits ↦ hout ⟨hsmall, hfits⟩
  case isFalse => rfl

/-- Only what has a payload is cut into chunks. -/
theorem sized_of_not_inline (h : item.payload.length ≤ MAX_PAYLOAD) (hout : ¬ Inline item) :
    item.Sized where
  pos := by
    refine Nat.pos_of_ne_zero fun hnil ↦ hout ⟨hnil ▸ Nat.zero_le _, ?_⟩
    rw [List.length_eq_zero_iff.mp hnil, length_write_frame]
    exact size_header.trans (by decide)
  le := h

/-- Every frame of an item fits into a datagram. An item that does not go out in one frame has a
header and one frame for each 1024 bytes, and frame `i + 1` names chunk `i` of all of them. -/
theorem frames_fit (h : item.payload.length ≤ MAX_PAYLOAD) :
    (∀ bytes ∈ buildItemFrames standardCbor item, bytes.length ≤ MAX_FRAME_PLAINTEXT) ∧
      (Inline item → (buildItemFrames standardCbor item).length = 1) ∧
      (¬ Inline item →
        (buildItemFrames standardCbor item).length = 1 + (item.payload.length + 1023) / 1024 ∧
        ∀ i < (item.payload.length + 1023) / 1024, ∃ bytes c,
          (buildItemFrames standardCbor item)[i + 1]? = some bytes ∧
          decode standardCbor bytes = .ok ⟨PROTOCOL_VERSION, .chunk c⟩ ∧ c.idx.toNat = i ∧
          c.total.toNat = (item.payload.length + 1023) / 1024) := by
  refine ⟨?_, fun hin ↦ ?_, fun hout ↦ ?_⟩
  · by_cases hin : Inline item
    · rw [buildItemFrames_inline h hin]
      intro bytes hmem
      rw [List.mem_singleton.mp hmem]
      exact hin.2
    · have hz := sized_of_not_inline h hin
      rw [buildItemFrames_chunked h hin, hz.chunkedFrames_eq]
      intro bytes hmem
      rcases List.mem_cons.mp hmem with rfl | hmem
      · rw [length_write_frame]
        exact size_header.trans (by decide)
      · obtain ⟨⟨data, idx⟩, hx, rfl⟩ := List.mem_map.mp hmem
        have hpiece : item.pieces[idx]? = some data := List.mem_zipIdx_iff_getElem?.mp hx
        rw [length_write_frame]
        exact (size_chunk _ (length_mem_chunks (List.mem_of_getElem? hpiece))).trans (by decide)
  · rw [buildItemFrames_inline h hin]
    rfl
  · have hz := sized_of_not_inline h hout
    have hcount : item.pieces.length = (item.payload.length + 1023) / 1024 := length_chunks
    rw [buildItemFrames_chunked h hout, hz.chunkedFrames_eq, ← hcount]
    constructor
    · rw [List.length_cons, List.length_map, List.length_zipIdx, Nat.add_comm]
    · intro i hi
      have hpiece : item.pieces[i]? = some item.pieces[i] := List.getElem?_eq_getElem hi
      refine ⟨_, item.chunk item.pieces[i] i, ?_, hz.decode_chunk hpiece, hz.idx hi, hz.total⟩
      rw [List.getElem?_cons_succ, List.getElem?_map, List.getElem?_zipIdx, hpiece]
      simp

/-- A header and two chunks. -/
theorem frames_fit_anItem :
    (∀ bytes ∈ buildItemFrames standardCbor anItem, bytes.length ≤ MAX_FRAME_PLAINTEXT) ∧
      (buildItemFrames standardCbor anItem).length = 3 ∧
      ∃ bytes c, (buildItemFrames standardCbor anItem)[2]? = some bytes ∧
        decode standardCbor bytes = .ok ⟨PROTOCOL_VERSION, .chunk c⟩ ∧ c.idx.toNat = 1 := by
  have hout : ¬ Inline anItem := fun hin ↦ absurd hin.1 (anItem_length ▸ by decide)
  obtain ⟨hfit, -, hchunked⟩ := frames_fit anItem_sized.le
  obtain ⟨hcount, hchunk⟩ := hchunked hout
  rw [anItem_length] at hcount hchunk
  obtain ⟨bytes, c, hbytes, hdecode, hidx, -⟩ := hchunk 1 (by decide)
  exact ⟨hfit, hcount, bytes, c, hbytes, hdecode, hidx⟩

end FluxSync.Mesh
