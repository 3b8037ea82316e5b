import FluxSync.Foundation.Runs
import FluxSync.Mesh.Frames

namespace FluxSync.Mesh

open Std Proto Slices Runs

variable {cbor : Ciborium} {blake3 : ByteArray → ContentHash} {item : Item} {peer : PeerId}
  {map : ReassemblyMap} {key : ContentHash} {now : ℕ} {got : Finset ℕ} {hdr : Bool}
  {r : Reassembly} {i : ℕ} {b : List UInt8}

def Item.pieces (item : Item) : List (List UInt8) := chunks MAX_CHUNK_DATA item.payload

def Item.header (item : Item) : ClipboardItem where
  lamport := item.lamport
  hash := item.hash
  kind := item.kind
  payload := []
  sensitive := item.sensitive
  wallTimeMs := 0
  origin := item.origin
  eventSeq := item.eventSeq

def Item.chunk (item : Item) (data : List UInt8) (idx : ℕ) : Chunk where
  itemId := item.hash
  idx := .ofNat idx
  total := .ofNat item.pieces.length
  data := data

def Item.from (item : Item) (peer : PeerId) : CompleteItem := { item with source := peer }

/-- The bounds every item comes with. -/
structure Item.Sized (item : Item) : Prop where
  pos : 0 < item.payload.length
  le : item.payload.length ≤ MAX_PAYLOAD

theorem Item.Sized.pieces_pos (h : item.Sized) : 0 < item.pieces.length := by
  have := h.pos
  rw [pieces, length_chunks]
  simp only [MAX_CHUNK_DATA]
  omega

theorem Item.Sized.pieces_le (h : item.Sized) : item.pieces.length ≤ 16384 := by
  have := h.le
  rw [pieces, length_chunks]
  simp only [MAX_CHUNK_DATA, MAX_PAYLOAD] at *
  omega

theorem Item.Sized.total (h : item.Sized) :
    (UInt16.ofNat item.pieces.length).toNat = item.pieces.length := by
  have := h.pieces_le
  exact UInt16.toNat_ofNat_of_lt' (by simp only [UInt16.size]; omega)

theorem Item.Sized.idx (h : item.Sized) (hi : i < item.pieces.length) :
    (UInt16.ofNat i).toNat = i := by
  have := h.pieces_le
  exact UInt16.toNat_ofNat_of_lt' (by simp only [UInt16.size]; omega)

theorem Item.Sized.encode_header (cbor : Ciborium) (_h : item.Sized) :
    encode cbor (item.frame []) = .ok (cbor.write (item.frame [])) := by
  refine encode_eq_ok.mpr ⟨rfl, ?_, rfl⟩
  simp [validate, Item.frame, validateItem]

theorem Item.Sized.encode_inline (h : item.Sized) :
    encode cbor (item.frame item.payload) = .ok (cbor.write (item.frame item.payload)) := by
  refine encode_eq_ok.mpr ⟨rfl, ?_, rfl⟩
  simp only [validate, Item.frame, validateItem, if_neg (Nat.not_lt.mpr h.le)]

theorem Item.Sized.encode_chunk (cbor : Ciborium) (h : item.Sized) {data : List UInt8}
    (hd : item.pieces[i]? = some data) :
    encode cbor (item.chunkFrame item.pieces.length data i) =
      .ok (cbor.write (item.chunkFrame item.pieces.length data i)) := by
  have hi : i < item.pieces.length := (List.getElem?_eq_some_iff.mp hd).1
  have htotal := h.total
  have hidx := h.idx hi
  have hle := h.pieces_le
  have hpos := h.pieces_pos
  have hlen : data.length ≤ MAX_CHUNK_DATA := length_mem_chunks (List.mem_of_getElem? hd)
  refine encode_eq_ok.mpr ⟨rfl, ?_, rfl⟩
  have hne : UInt16.ofNat item.pieces.length ≠ 0 := by
    intro h0
    rw [h0] at htotal
    exact hpos.ne htotal
  have hmax : ¬ MAX_CHUNKS < UInt16.ofNat item.pieces.length := by
    rw [UInt16.lt_iff_toNat_lt, htotal]
    simp only [MAX_CHUNKS]
    exact Nat.not_lt.mpr hle
  have hin : ¬ UInt16.ofNat item.pieces.length ≤ UInt16.ofNat i := by
    rw [UInt16.le_iff_toNat_le, htotal, hidx]
    omega
  simp only [validate, Item.chunkFrame, validateChunk, if_neg (Nat.not_lt.mpr hlen), if_neg hne,
    if_neg hmax, if_neg hin]

theorem Item.Sized.chunkedFrames_eq (h : item.Sized) :
    chunkedFrames cbor item = cbor.write (item.frame []) ::
      item.pieces.zipIdx.map fun (data, idx) ↦
        cbor.write (item.chunkFrame item.pieces.length data idx) := by
  simp only [chunkedFrames, h.encode_header cbor, Except.toOption, Option.toList_some,
    List.singleton_append, List.cons.injEq, true_and]
  rw [← List.filterMap_eq_map]
  refine List.filterMap_congr fun x hx ↦ ?_
  obtain ⟨data, idx⟩ := x
  have hd := List.mem_zipIdx_iff_getElem?.mp hx
  change (encode cbor (item.chunkFrame item.pieces.length data idx)).toOption = _
  rw [h.encode_chunk cbor hd]
  rfl

/-- An item goes out inline, or as a header and its chunks. -/
theorem Item.Sized.buildItemFrames_cases (cbor : Ciborium) (h : item.Sized) :
    buildItemFrames cbor item = [cbor.write (item.frame item.payload)] ∨
      buildItemFrames cbor item = chunkedFrames cbor item := by
  rw [buildItemFrames]
  split
  · rw [h.encode_inline]
    dsimp only
    split
    · exact .inl rfl
    · exact .inr rfl
  · exact .inr rfl

/-- The chunks in `got`, and the header where `hdr` is set, as an entry of the map. -/
structure Partial (item : Item) (got : Finset ℕ) (hdr : Bool) (r : Reassembly) : Prop where
  metadata : r.metadata = if hdr then some (item.lamport, item.kind, item.sensitive) else none
  origin : hdr = true → r.origin = item.origin ∧ r.eventSeq = item.eventSeq
  slots : (r.chunks = [] ∧ got = ∅) ∨ Fills item.pieces got r.chunks

/-- What the map holds of the item. -/
def Shows (item : Item) (got : Finset ℕ) (hdr : Bool) : Option Reassembly → Prop
  | none => got = ∅ ∧ hdr = false
  | some r => Partial item got hdr r

def Done (item : Item) (got : Finset ℕ) (hdr : Bool) : Prop :=
  hdr = true ∧ ∀ i < item.pieces.length, i ∈ got

theorem lookup_makeRoom : (makeRoom map key)[key]? = map[key]? := by
  rw [makeRoom]
  split
  case isTrue h =>
    have habsent : map[key]? = none := by
      have := (Bool.and_eq_true_iff.mp h).1
      rw [ExtTreeMap.contains_eq_isSome_getElem?, Option.not_isSome] at this
      exact Option.isNone_iff_eq_none.mp this
    split
    · rw [OrderedMap.lookup_erase, habsent, ite_self]
    · rfl
  · rfl

theorem lookup_settle {c : Option CompleteItem} :
    (settle map key r c).1[key]? = if c.isSome then none else some r := by
  cases c with
  | none => simp [settle]
  | some c => simp [settle]

theorem settle_snd {c : Option CompleteItem} : (settle map key r c).2 = c := by
  cases c <;> rfl

theorem Partial.complete_eq (peer : PeerId) (h : Partial item got hdr r) (hf : Fills item.pieces got r.chunks) :
    (Done item got hdr → r.complete peer item.hash = some (item.from peer)) ∧
      (¬ Done item got hdr → r.complete peer item.hash = none) := by
  cases hhdr : hdr with
  | false =>
    subst hhdr
    have hm : r.metadata = none := h.metadata
    refine ⟨fun hd ↦ absurd hd.1 (by decide), fun _ ↦ ?_⟩
    simp [Reassembly.complete, hm]
  | true =>
    subst hhdr
    have hm : r.metadata = some (item.lamport, item.kind, item.sensitive) := h.metadata
    obtain ⟨horigin, hseq⟩ := h.origin rfl
    constructor
    · intro hd
      have hall := hf.all_isSome_iff.mpr hd.2
      have hflat : (item.pieces).flatten = item.payload := flatten_chunks (by decide)
      simp only [Reassembly.complete, hm, hall, if_true, hf.collect hd.2, hflat, horigin, hseq]
      rfl
    · intro hd
      have hall : ¬ r.chunks.all Option.isSome = true := fun hall ↦
        hd ⟨rfl, hf.all_isSome_iff.mp hall⟩
      simp only [Reassembly.complete, hm, if_neg hall]

theorem Fills.ne_nil {slots : List (Option (List UInt8))} (hz : item.Sized)
    (hf : Fills item.pieces got slots) : slots ≠ [] := by
  have hpos := hz.pieces_pos
  rintro rfl
  have := hf.length_eq
  rw [List.length_nil] at this
  omega

theorem partial_headed {entry : Option Reassembly} (h : Shows item got hdr entry) :
    Partial item got true (.headed entry peer item.header now) := by
  refine ⟨rfl, fun _ ↦ ⟨rfl, rfl⟩, ?_⟩
  cases entry with
  | none => exact .inl ⟨rfl, h.1⟩
  | some r => exact h.slots

theorem partial_filled (peer : PeerId) (now : ℕ) {entry : Option Reassembly} {data : List UInt8} (hz : item.Sized)
    (h : Shows item got hdr entry) (hd : item.pieces[i]? = some data) :
    Partial item (insert i got) hdr (.filled entry peer (item.chunk data i) now) ∧
      Fills item.pieces (insert i got)
        (Reassembly.filled entry peer (item.chunk data i) now).chunks := by
  have hi : i < item.pieces.length := (List.getElem?_eq_some_iff.mp hd).1
  have hidx : (item.chunk data i).idx.toNat = i := hz.idx hi
  have hempty : Fills item.pieces ∅
      (List.replicate (item.chunk data i).total.toNat none) := by
    rw [show (item.chunk data i).total.toNat = item.pieces.length from hz.total]
    exact fills_empty
  have hset : ∀ slots, Fills item.pieces got slots → Fills item.pieces (insert i got)
      (if (item.chunk data i).idx.toNat < slots.length
        then slots.set (item.chunk data i).idx.toNat (some (item.chunk data i).data)
        else slots) := by
    intro slots hf
    rw [hidx, if_pos (hf.length_eq ▸ hi)]
    exact hf.set hd
  cases entry with
  | none =>
    obtain ⟨rfl, rfl⟩ := h
    have hfill : Fills item.pieces (insert i ∅)
        (Reassembly.filled none peer (item.chunk data i) now).chunks := by
      simp only [Reassembly.filled, Option.getD_none, ite_self]
      exact hset _ hempty
    exact ⟨⟨rfl, nofun, .inr hfill⟩, hfill⟩
  | some r =>
    have hfill : Fills item.pieces (insert i got)
        (Reassembly.filled (some r) peer (item.chunk data i) now).chunks := by
      simp only [Reassembly.filled, Option.getD_some]
      apply hset
      obtain ⟨hnil, rfl⟩ | hf := h.slots
      · rwa [if_pos hnil]
      · rwa [if_neg (Fills.ne_nil hz hf)]
    exact ⟨⟨h.metadata, h.origin, .inr hfill⟩, hfill⟩

/-- What one of the item's frames leaves under its key, and hands on. -/
def Advances (item : Item) (peer : PeerId) (key : ContentHash) (got : Finset ℕ) (hdr : Bool)
    (out : ReassemblyMap × Option CompleteItem) : Prop :=
  (Done item got hdr → out.2 = some (item.from peer) ∧ out.1[key]? = none) ∧
    (¬ Done item got hdr → out.2 = none ∧ Shows item got hdr out.1[key]?)

theorem advances_settle (hp : Partial item got hdr r) {c : Option CompleteItem}
    (hdone : Done item got hdr → c = some (item.from peer)) (hopen : ¬ Done item got hdr → c = none) :
    Advances item peer key got hdr (settle map key r c) := by
  simp only [Advances, settle_snd, lookup_settle]
  refine ⟨fun hd ↦ ?_, fun hd ↦ ?_⟩
  · rw [hdone hd]
    exact ⟨rfl, rfl⟩
  · rw [hopen hd]
    exact ⟨rfl, hp⟩

theorem receiveHeader_advances (peer : PeerId) (now : ℕ) (hz : item.Sized) (h : Shows item got hdr map[key]?) :
    Advances item peer key got true (receiveHeader map key peer item.header now) := by
  have hp : Partial item got true
      (.headed (makeRoom map key)[key]? peer item.header now) := by
    rw [lookup_makeRoom]
    exact partial_headed h
  obtain ⟨hnil, rfl⟩ | hf := hp.slots
  · have hn : ¬ Done item ∅ true := fun hd ↦
      absurd (hd.2 0 hz.pieces_pos) (Finset.notMem_empty 0)
    exact advances_settle hp (fun hd ↦ absurd hd hn) fun _ ↦ if_pos hnil
  · obtain ⟨hdone, hopen⟩ := hp.complete_eq peer hf
    have hne := Fills.ne_nil hz hf
    exact advances_settle hp (fun hd ↦ (if_neg hne).trans (hdone hd))
      fun hd ↦ (if_neg hne).trans (hopen hd)

theorem receiveChunk_advances (peer : PeerId) (now : ℕ) (hz : item.Sized) (h : Shows item got hdr map[key]?)
    {data : List UInt8} (hd : item.pieces[i]? = some data) :
    Advances item peer key (insert i got) hdr
      (receiveChunk map key peer (item.chunk data i) now) := by
  have hpos := hz.pieces_pos
  have htotal : (item.chunk data i).total.toNat = item.pieces.length := hz.total
  have hvalid : ¬ (MAX_CHUNKS < (item.chunk data i).total ∨ (item.chunk data i).total = 0) := by
    have hle := hz.pieces_le
    rintro (hlt | h0)
    · rw [UInt16.lt_iff_toNat_lt, htotal] at hlt
      exact Nat.not_lt.mpr hle hlt
    · rw [h0] at htotal
      exact hpos.ne htotal
  rw [← lookup_makeRoom] at h
  have hp := partial_filled peer now hz h hd
  obtain ⟨hdone, hopen⟩ := hp.1.complete_eq peer hp.2
  rw [receiveChunk, if_neg hvalid]
  exact advances_settle hp.1 hdone hopen

structure Receiver where
  map : ReassemblyMap
  /-- The complete items handed on to be verified, in order. -/
  handed : List CompleteItem

inductive Delivery
  | datagram (peer : PeerId) (bytes : List UInt8) (now : ℕ)
  | cleanup (now : ℕ)

def Receiver.step (cbor : Ciborium) (blake3 : ByteArray → ContentHash) (s : Receiver) :
    Delivery → Option Receiver
  | .datagram peer bytes now =>
    match decode cbor bytes with
    | .ok frame =>
      let (map, complete) := receive blake3 s.map peer frame.msg now
      some ⟨map, s.handed ++ complete.toList⟩
    | .error _ => some s
  | .cleanup now => some { s with map := cleanup s.map now }

/-- The content hash of the transfer a frame belongs to. -/
def transferOf : Msg → Option ContentHash
  | .clipboardItem item => some item.hash
  | .chunk c => some c.itemId
  | _ => none

/-- A copy of one of the item's frames, sent by `peer`. -/
def Delivery.Of (cbor : Ciborium) (item : Item) (peer : PeerId) : Delivery → Prop
  | .datagram source bytes _ => source = peer ∧ bytes ∈ buildItemFrames cbor item
  | .cleanup _ => False

/-- A tick, or a datagram of another transfer. -/
def Delivery.Foreign (cbor : Ciborium) (item : Item) (peer : PeerId) : Delivery → Prop
  | .datagram source bytes _ => ∀ frame, decode cbor bytes = .ok frame → source = peer →
      transferOf frame.msg ≠ some item.hash
  | .cleanup _ => True

/-- Other traffic may come in between, as long as it neither evicts nor times out the transfer. -/
def Undisturbed (cbor : Ciborium) (blake3 : ByteArray → ContentHash) (item : Item) (peer : PeerId)
    (s : Receiver) (a : Delivery) : Prop :=
  a.Of cbor item peer ∨ a.Foreign cbor item peer ∧ ∀ s', s.step cbor blake3 a = some s' →
    s'.map[reassemblyKey blake3 peer item.hash]? = s.map[reassemblyKey blake3 peer item.hash]?

/-- Nothing but the item has been handed on under its hash and sender. -/
def Exact (item : Item) (peer : PeerId) (handed : List CompleteItem) : Prop :=
  ∀ c ∈ handed, c.source = peer → c.hash = item.hash → c = item.from peer

variable {s s' : Receiver} {a : Delivery} {l : List Delivery} {msg : Msg}

theorem complete_source {c : CompleteItem} {hash : ContentHash}
    (h : r.complete peer hash = some c) : c.source = peer ∧ c.hash = hash := by
  rw [Reassembly.complete] at h
  split at h
  · split at h
    · obtain rfl := Option.some.inj h
      exact ⟨rfl, rfl⟩
    · cases h
  · cases h

theorem receive_source {c : CompleteItem} (h : (receive blake3 map peer msg now).2 = some c) :
    c.source = peer ∧ transferOf msg = some c.hash := by
  cases msg with
  | clipboardItem item =>
    simp only [receive] at h
    split at h
    · rw [receiveHeader, settle_snd] at h
      split at h
      · cases h
      · obtain ⟨hs, hh⟩ := complete_source h
        exact ⟨hs, congrArg some hh.symm⟩
    · obtain rfl := Option.some.inj h
      exact ⟨rfl, rfl⟩
  | chunk ch =>
    simp only [receive, receiveChunk] at h
    split at h
    · cases h
    · rw [settle_snd] at h
      obtain ⟨hs, hh⟩ := complete_source h
      exact ⟨hs, congrArg some hh.symm⟩
  | _ => cases h

theorem Exact.append {handed : List CompleteItem} {c : Option CompleteItem}
    (h : Exact item peer handed)
    (hc : ∀ x, c = some x → x.source = peer → x.hash = item.hash → x = item.from peer) :
    Exact item peer (handed ++ c.toList) := by
  intro x hx hs hh
  obtain hx | hx := List.mem_append.mp hx
  · exact h x hx hs hh
  · exact hc x (Option.mem_toList.mp hx) hs hh

theorem step_datagram {frame : Frame} {bytes : List UInt8} (hd : decode cbor bytes = .ok frame)
    (hs : s.step cbor blake3 (.datagram peer bytes now) = some s') :
    s'.map = (receive blake3 s.map peer frame.msg now).1 ∧
      s'.handed = s.handed ++ (receive blake3 s.map peer frame.msg now).2.toList := by
  simp only [Receiver.step, hd, Option.some.injEq] at hs
  subst hs
  exact ⟨rfl, rfl⟩

theorem Delivery.Foreign.exact (hf : a.Foreign cbor item peer)
    (hs : s.step cbor blake3 a = some s') (h : Exact item peer s.handed) :
    Exact item peer s'.handed := by
  cases a with
  | cleanup now =>
    cases hs
    exact h
  | datagram source bytes now =>
    cases hd : decode cbor bytes with
    | error e =>
      simp only [Receiver.step, hd, Option.some.injEq] at hs
      exact hs ▸ h
    | ok frame =>
      rw [(step_datagram hd hs).2]
      refine h.append fun x hx hsource hhash ↦ ?_
      obtain ⟨hx', ht⟩ := receive_source hx
      exact absurd (ht.trans (congrArg some hhash)) (hf frame hd (hx'.symm.trans hsource))

theorem Item.Sized.decode_inline (hz : item.Sized) :
    decode cbor (cbor.write (item.frame item.payload)) = .ok (item.frame item.payload) :=
  decode_encode hz.encode_inline

theorem Item.Sized.decode_header (hz : item.Sized) :
    decode cbor (cbor.write (item.frame [])) = .ok (item.frame []) :=
  decode_encode (hz.encode_header cbor)

theorem Item.Sized.decode_chunk (hz : item.Sized) {data : List UInt8}
    (hd : item.pieces[i]? = some data) :
    decode cbor (cbor.write (item.chunkFrame item.pieces.length data i)) =
      .ok (item.chunkFrame item.pieces.length data i) :=
  decode_encode (hz.encode_chunk cbor hd)

theorem Item.Sized.header_bounded (hz : item.Sized) : (item.frame []).msg.Bounded :=
  validate_eq_ok.mp (encode_eq_ok.mp (hz.encode_header standardCbor)).2.1

theorem Item.Sized.chunk_bounded (hz : item.Sized) {data : List UInt8}
    (hd : item.pieces[i]? = some data) :
    (item.chunkFrame item.pieces.length data i).msg.Bounded :=
  validate_eq_ok.mp (encode_eq_ok.mp (hz.encode_chunk standardCbor hd)).2.1

def Delivered (l : List Delivery) (peer : PeerId) (bytes : List UInt8) : Prop :=
  ∃ now, .datagram peer bytes now ∈ l

theorem delivered_snoc {bytes : List UInt8} : Delivered (l ++ [a]) peer bytes ↔
    Delivered l peer bytes ∨ ∃ now, a = .datagram peer bytes now := by
  simp only [Delivered, List.mem_append, List.mem_singleton, exists_or, eq_comm]

/-- A single frame hands its item on whenever it comes in. -/
theorem inline_step (hz : item.Sized)
    (hb : buildItemFrames cbor item = [cbor.write (item.frame item.payload)])
    (ha : a.Of cbor item peer) (hs : s.step cbor blake3 a = some s') :
    s'.handed = s.handed ++ [item.from peer] := by
  cases a with
  | cleanup => exact ha.elim
  | datagram source bytes now =>
    obtain ⟨rfl, hmem⟩ := ha
    rw [hb, List.mem_singleton] at hmem
    subst hmem
    have hne : item.payload ≠ [] := List.length_pos_iff.mp hz.pos
    rw [(step_datagram hz.decode_inline hs).2]
    simp only [receive, Item.frame, if_neg hne]
    rfl

theorem inline_run (hz : item.Sized)
    (hb : buildItemFrames cbor item = [cbor.write (item.frame item.payload)])
    (hrun : Run (Receiver.step cbor blake3) (Undisturbed cbor blake3 item peer) ⟨map, []⟩ l s) :
    Exact item peer s.handed ∧
      (Delivered l peer (cbor.write (item.frame item.payload)) → item.from peer ∈ s.handed) := by
  refine hrun.history (I := fun l s ↦ Exact item peer s.handed ∧
    (Delivered l peer (cbor.write (item.frame item.payload)) → item.from peer ∈ s.handed))
    ⟨by simp [Exact], by simp [Delivered]⟩ fun l t a u _ ⟨hexact, hin⟩ hok hstep ↦ ?_
  obtain ha | ⟨hf, -⟩ := hok
  · have hh := inline_step hz hb ha hstep
    rw [hh]
    exact ⟨hexact.append (c := some _) fun x hx _ _ ↦ (Option.some.inj hx).symm, fun _ ↦ by simp⟩
  · refine ⟨hf.exact hstep hexact, fun hd ↦ ?_⟩
    have hkeep : ∀ c ∈ t.handed, c ∈ u.handed := by
      cases a with
      | cleanup =>
        cases hstep
        exact fun c ↦ id
      | datagram source bytes now =>
        cases hdec : decode cbor bytes with
        | error e =>
          simp only [Receiver.step, hdec, Option.some.injEq] at hstep
          exact fun c hc ↦ hstep ▸ hc
        | ok frame =>
          rw [(step_datagram hdec hstep).2]
          exact fun c hc ↦ List.mem_append_left _ hc
    obtain hd | ⟨now, rfl⟩ := delivered_snoc.mp hd
    · exact hkeep _ (hin hd)
    · exact absurd rfl (hf _ hz.decode_inline rfl)

/-- What of the item the frame with these bytes brings. -/
def Brings (cbor : Ciborium) (item : Item) (bytes : List UInt8) (got : Finset ℕ) (hdr : Bool) : Prop :=
  (bytes = cbor.write (item.frame []) → hdr = true) ∧
    ∀ i data, item.pieces[i]? = some data →
      bytes = cbor.write (item.chunkFrame item.pieces.length data i) → i ∈ got

theorem brings_header (hz : item.Sized) : Brings cbor item (cbor.write (item.frame [])) got true := by
  refine ⟨fun _ ↦ rfl, fun i data hd h ↦ ?_⟩
  have hmsg := congrArg Frame.msg (write_injective hz.header_bounded (hz.chunk_bounded hd) h)
  cases hmsg

theorem brings_chunk (hz : item.Sized) {data : List UInt8} (hd : item.pieces[i]? = some data) :
    Brings cbor item (cbor.write (item.chunkFrame item.pieces.length data i)) (insert i got)
      hdr := by
  refine ⟨fun h ↦ ?_, fun j data' hj h ↦ ?_⟩
  · have hmsg := congrArg Frame.msg (write_injective (hz.chunk_bounded hd) hz.header_bounded h)
    cases hmsg
  · have hmsg := congrArg Frame.msg
      (write_injective (hz.chunk_bounded hd) (hz.chunk_bounded hj) h)
    simp only [Item.chunkFrame, Msg.chunk.injEq, Chunk.mk.injEq] at hmsg
    have hidx := congrArg UInt16.toNat hmsg.2.1
    rw [hz.idx (List.getElem?_eq_some_iff.mp hd).1,
      hz.idx (List.getElem?_eq_some_iff.mp hj).1] at hidx
    exact hidx ▸ Finset.mem_insert_self i got

theorem chunked_step (hz : item.Sized) (hb : buildItemFrames cbor item = chunkedFrames cbor item)
    (ha : a.Of cbor item peer) (hs : s.step cbor blake3 a = some s')
    (h : Shows item got hdr s.map[reassemblyKey blake3 peer item.hash]?) :
    ∃ got' hdr' c, got ⊆ got' ∧ (hdr = true → hdr' = true) ∧ s'.handed = s.handed ++ c.toList ∧
      Advances item peer (reassemblyKey blake3 peer item.hash) got' hdr' (s'.map, c) ∧
      ∀ bytes now, a = .datagram peer bytes now → Brings cbor item bytes got' hdr' := by
  cases a with
  | cleanup => exact ha.elim
  | datagram source bytes now =>
    obtain ⟨rfl, hmem⟩ := ha
    rw [hb, hz.chunkedFrames_eq, List.mem_cons, List.mem_map] at hmem
    obtain rfl | ⟨⟨data, idx⟩, hx, rfl⟩ := hmem
    · obtain ⟨hmap, hhanded⟩ := step_datagram hz.decode_header hs
      have hadv := receiveHeader_advances source now hz h
      refine ⟨got, true, _, subset_rfl, fun _ ↦ rfl, hhanded, ?_, ?_⟩
      · rw [hmap]
        exact hadv
      · rintro _ _ ⟨⟩
        exact brings_header hz
    · have hd : item.pieces[idx]? = some data := List.mem_zipIdx_iff_getElem?.mp hx
      obtain ⟨hmap, hhanded⟩ := step_datagram (hz.decode_chunk hd) hs
      have hadv := receiveChunk_advances source now hz h hd
      refine ⟨insert idx got, hdr, _, Finset.subset_insert idx got, id, hhanded, ?_, ?_⟩
      · rw [hmap]
        exact hadv
      · rintro _ _ ⟨⟩
        exact brings_chunk hz hd

/-- What has come in of a chunked item is held under its key, until all of it is handed on. -/
def Collected (cbor : Ciborium) (blake3 : ByteArray → ContentHash) (item : Item) (peer : PeerId)
    (l : List Delivery) (s : Receiver) : Prop :=
  Exact item peer s.handed ∧ ∃ got hdr,
    Shows item got hdr s.map[reassemblyKey blake3 peer item.hash]? ∧ ¬ Done item got hdr ∧
      (item.from peer ∈ s.handed ∨
        ∀ bytes, Delivered l peer bytes → Brings cbor item bytes got hdr)

theorem Brings.mono {bytes : List UInt8} {got' : Finset ℕ} {hdr' : Bool}
    (h : Brings cbor item bytes got hdr) (hgot : got ⊆ got') (hhdr : hdr = true → hdr' = true) :
    Brings cbor item bytes got' hdr' :=
  ⟨fun hb ↦ hhdr (h.1 hb), fun i data hd hb ↦ hgot (h.2 i data hd hb)⟩

theorem step_handed (hs : s.step cbor blake3 a = some s') : s.handed ⊆ s'.handed := by
  cases a with
  | cleanup =>
    cases hs
    exact List.Subset.refl _
  | datagram source bytes now =>
    cases hd : decode cbor bytes with
    | error e =>
      simp only [Receiver.step, hd, Option.some.injEq] at hs
      exact hs ▸ List.Subset.refl _
    | ok frame =>
      rw [(step_datagram hd hs).2]
      exact List.subset_append_left _ _

/-- Every frame of the item is one that `Foreign` traffic does not carry. -/
theorem Delivery.Foreign.not_frame (hz : item.Sized) (hf : a.Foreign cbor item peer)
    {bytes : List UInt8} (ha : a = .datagram peer bytes now) : Brings cbor item bytes got hdr := by
  subst ha
  refine ⟨?_, ?_⟩
  · rintro rfl
    exact absurd rfl (hf _ hz.decode_header rfl)
  · rintro i data hd rfl
    exact absurd rfl (hf _ (hz.decode_chunk hd) rfl)

theorem chunked_run (hz : item.Sized) (hb : buildItemFrames cbor item = chunkedFrames cbor item)
    (hmap : map[reassemblyKey blake3 peer item.hash]? = none)
    (hrun : Run (Receiver.step cbor blake3) (Undisturbed cbor blake3 item peer) ⟨map, []⟩ l s) :
    Collected cbor blake3 item peer l s := by
  refine hrun.history (I := Collected cbor blake3 item peer) ?_ ?_
  · refine ⟨by simp [Exact], ∅, false, ?_, fun hd ↦ absurd hd.1 (by decide), .inr ?_⟩
    · simp only [hmap]
      exact ⟨rfl, rfl⟩
    · rintro bytes ⟨now, h⟩
      cases h
  · rintro l t a u - ⟨hexact, got, hdr, hshows, hopen, hin⟩ (ha | ⟨hf, hkeep⟩) hstep
    · obtain ⟨got', hdr', c, hgot, hhdr, hhanded, hadv, hbrings⟩ :=
        chunked_step hz hb ha hstep hshows
      by_cases hd : Done item got' hdr'
      · obtain ⟨rfl, hnone⟩ := hadv.1 hd
        refine ⟨hhanded ▸ hexact.append fun x hx _ _ ↦ (Option.some.inj hx).symm, ∅, false, ?_,
          fun hd ↦ absurd hd.1 (by decide), .inl (by simp [hhanded])⟩
        rw [hnone]
        exact ⟨rfl, rfl⟩
      · obtain ⟨rfl, hshows'⟩ := hadv.2 hd
        refine ⟨hhanded ▸ hexact.append nofun, got', hdr', hshows', hd, ?_⟩
        refine hin.imp (fun hin ↦ step_handed hstep hin) fun hin bytes hdel ↦ ?_
        obtain hdel | ⟨now, rfl⟩ := delivered_snoc.mp hdel
        · exact (hin bytes hdel).mono hgot hhdr
        · exact hbrings bytes now rfl
    · refine ⟨hf.exact hstep hexact, got, hdr, hkeep u hstep ▸ hshows, hopen, ?_⟩
      refine hin.imp (fun hin ↦ step_handed hstep hin) fun hin bytes hdel ↦ ?_
      obtain hdel | ⟨now, rfl⟩ := delivered_snoc.mp hdel
      · exact hin bytes hdel
      · exact hf.not_frame hz rfl

theorem Collected.handed (hz : item.Sized) (h : Collected cbor blake3 item peer l s)
    (hall : ∀ bytes ∈ chunkedFrames cbor item, Delivered l peer bytes) :
    item.from peer ∈ s.handed := by
  obtain ⟨-, got, hdr, -, hopen, hin⟩ := h
  refine hin.resolve_right fun hbrings ↦ hopen ?_
  rw [hz.chunkedFrames_eq] at hall
  refine ⟨(hbrings _ (hall _ List.mem_cons_self)).1 rfl, fun i hi ↦ ?_⟩
  have hd : item.pieces[i]? = some item.pieces[i] := List.getElem?_eq_getElem hi
  refine (hbrings _ (hall _ ?_)).2 i _ hd rfl
  have hmem : (item.pieces[i], i) ∈ item.pieces.zipIdx := List.mem_zipIdx_iff_getElem?.mpr hd
  exact List.mem_cons_of_mem _ (List.mem_map_of_mem hmem)

/-- An item whose frames have all come in, in any order and with any repetition, has been
handed on, and nothing else has been under its hash. -/
theorem Item.handed_on (hz : item.Sized)
    (hmap : map[reassemblyKey blake3 peer item.hash]? = none)
    (hrun : Run (Receiver.step cbor blake3) (Undisturbed cbor blake3 item peer) ⟨map, []⟩ l s)
    (hall : ∀ bytes ∈ buildItemFrames cbor item, Delivered l peer bytes) :
    item.from peer ∈ s.handed ∧ Exact item peer s.handed := by
  obtain hb | hb := hz.buildItemFrames_cases cbor
  · obtain ⟨hexact, hin⟩ := inline_run hz hb hrun
    exact ⟨hin (hall _ (hb ▸ List.mem_singleton_self _)), hexact⟩
  · have hcollected := chunked_run hz hb hmap hrun
    exact ⟨hcollected.handed hz (hb ▸ hall), hcollected.1⟩

theorem step_isSome : (s.step cbor blake3 a).isSome := by
  cases a with
  | cleanup => rfl
  | datagram source bytes now =>
    cases hd : decode cbor bytes <;> simp [Receiver.step, hd]

def anItem : Item where
  lamport := 3
  hash := 0xAB
  kind := .text
  payload := List.replicate 1500 0x61
  sensitive := false
  origin := 5
  eventSeq := 9

theorem anItem_length : anItem.payload.length = 1500 := List.length_replicate

theorem anItem_sized : anItem.Sized := ⟨anItem_length ▸ by decide, anItem_length ▸ by decide⟩

theorem anItem_pieces : anItem.pieces.length = 2 := by
  rw [Item.pieces, length_chunks, anItem_length]
  rfl

/-- The chunks before the header, and all of them twice. -/
def headerLast : List Delivery :=
  let frames := (buildItemFrames standardCbor anItem).reverse
  (frames ++ frames).map fun bytes ↦ .datagram 7 bytes 0

theorem Item.handed_on_headerLast :
    ∃ s, Run (Receiver.step standardCbor fun _ ↦ 0)
      (Undisturbed standardCbor (fun _ ↦ 0) anItem 7) ⟨∅, []⟩ headerLast s ∧
        anItem.from 7 ∈ s.handed := by
  obtain ⟨s, hrun⟩ := exists_run (Receiver.step standardCbor fun _ ↦ 0) ⟨∅, []⟩ headerLast
    fun _ _ ↦ step_isSome
  have hof : ∀ a ∈ headerLast, a.Of standardCbor anItem 7 := by
    intro a ha
    obtain ⟨bytes, hb, rfl⟩ := List.mem_map.mp ha
    exact ⟨rfl, List.mem_reverse.mp ((List.mem_append.mp hb).elim id id)⟩
  have hrun' : Run (Receiver.step standardCbor fun _ ↦ 0)
      (Undisturbed standardCbor (fun _ ↦ 0) anItem 7) ⟨∅, []⟩ headerLast s :=
    (hrun.labels hof).mono fun _ _ ↦ .inl
  refine ⟨s, hrun', (anItem.handed_on anItem_sized rfl hrun' fun bytes hb ↦ ⟨0, ?_⟩).1⟩
  exact List.mem_map_of_mem (List.mem_append_left _ (List.mem_reverse.mpr hb))

end FluxSync.Mesh
