import FluxSync.Mesh.Repair

/-! ## Requests and datagrams -/

namespace FluxSync.Mesh

open Std Proto Cbor Slices Runs

variable {r : Reassembly} {nak : Nak} {p : PeerId} {slots : List (Option (List UInt8))}
  {cbor : Ciborium} {n i : ℕ}

/-- The frame of the `Nak` tick. -/
def nakFrame (nak : Nak) : Frame where
  version := PROTOCOL_VERSION
  msg := .nak nak

theorem encode_nakFrame (h : nak.missing.length ≤ NAK_MISSING_PER_FRAME) :
    encode cbor (nakFrame nak) = .ok (cbor.write (nakFrame nak)) := by
  refine encode_eq_ok.mpr ⟨rfl, ?_, rfl⟩
  have hmax : ¬ 512 < nak.missing.length := by
    simp only [NAK_MISSING_PER_FRAME] at h
    omega
  simp only [validate, nakFrame, validateNak, if_neg hmax]

theorem size_nakFrame : (nakFrame nak).ser.size =
    83 + headSize nak.missing.length + (nak.missing.map fun i ↦ headSize i.toNat).sum := by
  simp only [nakFrame, Frame.ser, Frame.serAs, Msg.serAs, Nak.ser, tagged, struct,
    ByteForm.ser, List.map_cons, List.map_nil, List.length_cons, List.length_nil, Value.size,
    entriesSize, bytes32_length, utf8ByteSize_names, size_version, List.length_map]
  rw [itemsSize_map]
  simp only [Value.size, UInt16.toNat_toUInt64, headSize]
  norm_num
  omega

/-- The bytes of the indices that a `Nak` names: one below 24, two below 256, three from there. -/
def missingBytes (slots : List (Option (List UInt8))) : ℕ :=
  let short := (slots.take 24).countP Option.isNone
  let middle := ((slots.drop 24).take 232).countP Option.isNone
  let long := (slots.drop 256).countP Option.isNone
  short + 2 * middle + 3 * min long (NAK_MISSING_PER_FRAME - (short + middle))

theorem sum_headSize {l : List ℕ} {c : ℕ} (h : ∀ i ∈ l, headSize i = c) :
    (l.map headSize).sum = c * l.length := by
  rw [List.map_congr_left h, List.map_const', List.sum_replicate, smul_eq_mul, Nat.mul_comm]

theorem sum_gaps (h : slots.length ≤ MAX_CHUNKS.toNat) :
    (((gaps slots).take NAK_MISSING_PER_FRAME).map headSize).sum = missingBytes slots := by
  replace h : slots.length ≤ 16384 := h
  generalize hshort : slots.take 24 = short
  generalize hmiddle : (slots.drop 24).take 232 = middle
  generalize hlong : slots.drop 256 = long
  have hslots : slots = short ++ (middle ++ long) := by
    have hrest : slots.drop 24 = (slots.drop 24).take 232 ++ slots.drop 256 := by
      conv_lhs => rw [← List.take_append_drop 232 (slots.drop 24), List.drop_drop]
    rw [← hshort, ← hmiddle, ← hlong, ← hrest, List.take_append_drop]
  have hlen₁ : short.length = min 24 slots.length := hshort ▸ List.length_take
  have hlen₂ : middle.length = min 232 (slots.length - 24) := by
    rw [← hmiddle, List.length_take, List.length_drop]
  have hlen₃ : long.length = slots.length - 256 := hlong ▸ List.length_drop
  have hsum₁ : ∀ i ∈ gaps short, headSize i = 1 := by
    intro i hi
    have hlt := lt_of_mem_gaps hi
    exact headSize_short (by omega)
  have hsum₂ : ∀ i ∈ (gaps middle).map (short.length + ·), headSize i = 2 := by
    intro i hi
    obtain ⟨j, hj, rfl⟩ := List.mem_map.mp hi
    have hlt := lt_of_mem_gaps hj
    exact headSize_byte (by omega) (by omega)
  have hsum₃ : ∀ i ∈ (((gaps long).map (middle.length + ·)).map (short.length + ·)).take
      (NAK_MISSING_PER_FRAME - ((gaps short).length + (gaps middle).length)), headSize i = 3 := by
    intro i hi
    obtain ⟨k, hk, rfl⟩ := List.mem_map.mp (List.mem_of_mem_take hi)
    obtain ⟨j, hj, rfl⟩ := List.mem_map.mp hk
    have hlt := lt_of_mem_gaps hj
    exact headSize_two (by omega) (by omega)
  have hcount₁ : (gaps short).length ≤ 24 := by
    have hle := List.countP_le_length (p := Option.isNone) (l := short)
    rw [length_gaps]
    omega
  have hcount₂ : (gaps middle).length ≤ 232 := by
    have hle := List.countP_le_length (p := Option.isNone) (l := middle)
    rw [length_gaps]
    omega
  have hgaps : (gaps slots).take NAK_MISSING_PER_FRAME = gaps short ++
      ((gaps middle).map (short.length + ·) ++
        (((gaps long).map (middle.length + ·)).map (short.length + ·)).take
          (NAK_MISSING_PER_FRAME - ((gaps short).length + (gaps middle).length))) := by
    simp only [NAK_MISSING_PER_FRAME]
    rw [hslots, gaps_append, gaps_append, List.map_append, List.take_append,
      List.take_of_length_le (by omega), List.take_append,
      List.take_of_length_le (by rw [List.length_map]; omega), List.length_map, Nat.sub_sub]
  rw [hgaps, List.map_append, List.map_append, List.sum_append, List.sum_append,
    sum_headSize hsum₁, sum_headSize hsum₂, sum_headSize hsum₃, missingBytes, hshort, hmiddle, hlong]
  simp only [List.length_take, List.length_map, length_gaps]
  omega

theorem missingBytes_le (h : slots.length ≤ MAX_CHUNKS.toNat) :
    missingBytes slots ≤ 3 * ((gaps slots).take NAK_MISSING_PER_FRAME).length := by
  rw [← sum_gaps h, Nat.mul_comm, ← smul_eq_mul, ← List.length_map (f := headSize)]
  refine List.sum_le_card_nsmul _ 3 fun x hx ↦ ?_
  obtain ⟨i, hi, rfl⟩ := List.mem_map.mp hx
  have hlt := lt_of_mem_gaps (List.mem_of_mem_take hi)
  replace h : slots.length ≤ 16384 := h
  exact headSize_word (by omega)

/-- What a `Nak` for an entry takes. -/
theorem size_nak (hnak : r.nak = some (p, nak)) (h : r.chunks.length ≤ MAX_CHUNKS.toNat) :
    (nakFrame nak).ser.size = 83 + headSize ((gaps r.chunks).take NAK_MISSING_PER_FRAME).length +
      missingBytes r.chunks := by
  obtain ⟨-, -, rfl⟩ := nak_eq_some hnak
  have hidx : ∀ i ∈ (gaps r.chunks).take NAK_MISSING_PER_FRAME, (UInt16.ofNat i).toNat = i := by
    intro i hi
    have hlt := lt_of_mem_gaps (List.mem_of_mem_take hi)
    replace h : r.chunks.length ≤ 16384 := h
    exact UInt16.toNat_ofNat_of_lt' (by simp only [UInt16.size]; omega)
  rw [size_nakFrame, ← sum_gaps h, ← List.map_take, List.length_map, List.map_map]
  congr 2
  exact List.map_congr_left fun i hi ↦ congrArg headSize (hidx i hi)

theorem nak_none (h : r.nak = none) : gaps r.chunks = [] := by
  rw [Reassembly.nak] at h
  split at h
  · rename_i hnil
    rw [hnil]
    rfl
  · simp only [ite_eq_left_iff, reduceCtorEq, imp_false, not_not] at h
    simpa [NAK_MISSING_PER_FRAME, List.take_eq_nil_iff] using h.1

/-- Every `Nak` fits into a datagram exactly as long as the first 400 missing indices of each
transfer take at most 1117 bytes. -/
theorem nak_fits_iff {blake3 : ByteArray → ContentHash} {l : List Delivery} {s : Receiver}
    (hrun : Run (Receiver.step cbor blake3) Always ⟨∅, []⟩ l s) :
    (∀ p nak, (p, nak) ∈ buildPendingNaks s.map → ∃ bytes,
        encode standardCbor (nakFrame nak) = .ok bytes ∧ bytes.length ≤ MAX_FRAME_PLAINTEXT) ↔
      ∀ (k : ContentHash) (r : Reassembly), s.map[k]? = some r → missingBytes r.chunks ≤ 1117 := by
  have hsound := sound_run hrun
  have hsize {k : ContentHash} {r : Reassembly} {p : PeerId} {nak : Nak} (hr : s.map[k]? = some r)
      (hnak : r.nak = some (p, nak)) : encode standardCbor (nakFrame nak) =
        .ok (standardCbor.write (nakFrame nak)) ∧
      ((standardCbor.write (nakFrame nak)).length ≤ MAX_FRAME_PLAINTEXT ↔
        missingBytes r.chunks ≤ 1117) := by
    have hslots := hsound.slots k r hr
    have hcount : ((gaps r.chunks).take NAK_MISSING_PER_FRAME).length ≤ 400 := List.length_take_le _ _
    have hbytes := missingBytes_le hslots
    constructor
    · refine encode_nakFrame ?_
      rw [(nak_eq_some hnak).2.2, ← List.map_take, List.length_map]
      exact hcount
    · rw [length_write_frame, size_nak hnak hslots]
      generalize ((gaps r.chunks).take NAK_MISSING_PER_FRAME).length = n at *
      have hhead : headSize n ≤ 3 := headSize_word (by omega)
      have hmax : MAX_FRAME_PLAINTEXT = 1203 := rfl
      by_cases hn : n < 256
      · omega
      · rw [headSize_two (Nat.le_of_not_lt hn) (by omega)]
        omega
  constructor
  · intro hfits k r hr
    cases hnak : r.nak with
    | none =>
      have hbytes := missingBytes_le (hsound.slots k r hr)
      rw [nak_none hnak, List.take_nil, List.length_nil] at hbytes
      omega
    | some x =>
      obtain ⟨bytes, henc, hle⟩ := hfits x.1 x.2 (mem_buildPendingNaks.mpr ⟨k, r, hr, hnak⟩)
      obtain ⟨henc', hiff⟩ := hsize hr hnak
      obtain rfl := Except.ok.inj (henc'.symm.trans henc)
      exact hiff.mp hle
  · intro hall p nak hmem
    obtain ⟨k, r, hr, hnak⟩ := mem_buildPendingNaks.mp hmem
    obtain ⟨henc, hiff⟩ := hsize hr hnak
    exact ⟨_, henc, hiff.mpr (hall k r hr)⟩

theorem nak_fits_iff_anItem :
    ∃ s, Run (Receiver.step standardCbor fun _ ↦ 0) Always ⟨∅, []⟩
        [.datagram 7 (anItem.chunkBytes standardCbor 0) 0] s ∧
      ∀ p nak, (p, nak) ∈ buildPendingNaks s.map → ∃ bytes,
        encode standardCbor (nakFrame nak) = .ok bytes ∧ bytes.length ≤ MAX_FRAME_PLAINTEXT := by
  have hz := anItem_sized
  obtain ⟨s, hrun⟩ := exists_run (Receiver.step standardCbor fun _ ↦ 0) ⟨∅, []⟩
    [.datagram 7 (anItem.chunkBytes standardCbor 0) 0] fun _ _ ↦ step_isSome
  refine ⟨s, hrun, (nak_fits_iff hrun).mpr fun k r hr ↦ ?_⟩
  have hb : buildItemFrames standardCbor anItem = chunkedFrames standardCbor anItem :=
    buildItemFrames_chunked hz.le fun hin ↦ absurd hin.1 (anItem_length ▸ by decide)
  have hof : ∀ a ∈ [Delivery.datagram 7 (anItem.chunkBytes standardCbor 0) 0],
      a.Of standardCbor anItem 7 := by
    intro a ha
    obtain rfl := List.mem_singleton.mp ha
    refine ⟨rfl, ?_⟩
    rw [hb, hz.frames_eq, anItem_pieces]
    exact List.mem_cons_of_mem _ (List.mem_map_of_mem (List.mem_range.mpr (by decide)))
  have hheader : anItem.headerBytes standardCbor ∉
      received 7 [.datagram 7 (anItem.chunkBytes standardCbor 0) 0] := by
    rw [← List.map_singleton (f := (Delivery.datagram 7 · 0)), received_map, List.mem_singleton]
    exact (chunkBytes_ne_header hz (anItem_pieces ▸ by decide)).symm
  have hheld := tracked_run hz hb ExtTreeMap.getElem?_empty
    ((hrun.labels hof).mono fun _ _ ↦ .inl)
    ⟨_, by rw [hz.frames_eq]; exact List.mem_cons_self, hheader⟩
  have hslots : r.chunks.length ≤ 2 := by
    obtain rfl : k = reassemblyKey (fun _ ↦ 0) 7 anItem.hash := (sound_run hrun).keyed k r hr
    rw [hr] at hheld
    rcases hheld.shows.slots with ⟨hnil, -⟩ | hf
    · rw [hnil]
      exact Nat.zero_le 2
    · exact (hf.length_eq.trans anItem_pieces).le
  have hbytes : missingBytes r.chunks ≤ _ := missingBytes_le (hslots.trans (by decide))
  have hgaps : (gaps r.chunks).length ≤ r.chunks.length := length_gaps ▸ List.countP_le_length
  have htake := List.length_take_le' NAK_MISSING_PER_FRAME (gaps r.chunks)
  omega

/-- 656 chunks. -/
def longItem : Item := { anItem with payload := List.replicate (656 * 1024) 0 }

/-- The first 256 chunks come in, the others do not. -/
def front : List Delivery :=
  ((List.range 256).map (longItem.chunkBytes standardCbor)).map (.datagram 7 · 0)

/-- 400 indices of three bytes each. -/
theorem late_gaps_overflow :
    ∃ s, Run (Receiver.step standardCbor fun _ ↦ 0) Always ⟨∅, []⟩ front s ∧
      ∃ nak bytes, (7, nak) ∈ buildPendingNaks s.map ∧
        encode standardCbor (nakFrame nak) = .ok bytes ∧ bytes.length = 1286 ∧
        MAX_FRAME_PLAINTEXT < 1286 := by
  have hlen : longItem.payload.length = 671744 := List.length_replicate
  have hz : longItem.Sized := ⟨hlen ▸ by decide, hlen ▸ by decide⟩
  have hpieces : longItem.pieces.length = 656 := by
    rw [Item.pieces, length_chunks, hlen]
    rfl
  have hb : buildItemFrames standardCbor longItem = chunkedFrames standardCbor longItem := by
    rw [buildItemFrames, if_neg (hlen ▸ by decide)]
  have hmem (i : ℕ) (hi : i < 656) :
      longItem.chunkBytes standardCbor i ∈ (buildItemFrames standardCbor longItem).drop 1 := by
    rw [hb, hz.frames_eq, hpieces]
    exact List.mem_map_of_mem (List.mem_range.mpr hi)
  have hin (i : ℕ) (hi : i < 656) :
      longItem.chunkBytes standardCbor i ∈ received 7 front ↔ i < 256 := by
    rw [front, received_map, List.mem_map]
    constructor
    · rintro ⟨j, hj, heq⟩
      have hlt := List.mem_range.mp hj
      obtain rfl := chunkBytes_inj hz (by omega) (by omega) heq
      exact hlt
    · exact fun hlt ↦ ⟨i, List.mem_range.mpr hlt, rfl⟩
  obtain ⟨s, hrun⟩ := exists_run (Receiver.step standardCbor fun _ ↦ 0) ⟨∅, []⟩ front
    fun _ _ ↦ step_isSome
  have hof : ∀ a ∈ front, a.Of standardCbor longItem 7 := by
    intro a ha
    obtain ⟨bytes, hbytes, rfl⟩ := List.mem_map.mp ha
    obtain ⟨i, hi, rfl⟩ := List.mem_map.mp hbytes
    have hlt := List.mem_range.mp hi
    exact ⟨rfl, List.mem_of_mem_drop (hmem i (by omega))⟩
  have hmissing : ∃ bytes ∈ buildItemFrames standardCbor longItem, bytes ∉ received 7 front :=
    ⟨_, List.mem_of_mem_drop (hmem 256 (by omega)), (hin 256 (by omega)).not.mpr (by omega)⟩
  obtain ⟨r, hr, hheld, hne⟩ := (tracked_run hz hb ExtTreeMap.getElem?_empty
    ((hrun.labels hof).mono fun _ _ ↦ .inl)).entry hz hb
      ⟨_, hmem 0 (by omega), (hin 0 (by omega)).mpr (by omega)⟩ hmissing
  obtain ⟨nak, hnak, -⟩ := hheld.asks hz hne (hb ▸ hmissing)
  have hgaps : gaps r.chunks = (List.range 400).map (256 + ·) := by
    have hlow : (List.range 256).filter (256 ≤ ·) = [] := by
      rw [List.filter_eq_nil_iff]
      intro i hi
      simpa using List.mem_range.mp hi
    have hhigh : ((List.range 400).map (256 + ·)).filter (256 ≤ ·) =
        (List.range 400).map (256 + ·) := by
      rw [List.filter_eq_self]
      intro i hi
      obtain ⟨j, -, rfl⟩ := List.mem_map.mp hi
      simp
    rw [(hheld.shown hne).2, hpieces, ← List.nil_append ((List.range 400).map (256 + ·)), ← hlow,
      ← hhigh, ← List.filter_append, ← List.range_add]
    refine List.filter_congr fun i hi ↦ ?_
    rw [decide_eq_decide, hin i (List.mem_range.mp hi), Nat.not_lt]
  have hslots := (sound_run hrun).slots _ r hr
  have htake : (gaps r.chunks).take NAK_MISSING_PER_FRAME = (List.range 400).map (256 + ·) := by
    rw [hgaps, List.take_of_length_le (by simp [NAK_MISSING_PER_FRAME])]
  have hbytes : missingBytes r.chunks = 1200 := by
    rw [← sum_gaps hslots, htake, sum_headSize (c := 3)]
    · simp
    · intro i hi
      obtain ⟨j, hj, rfl⟩ := List.mem_map.mp hi
      have hlt := List.mem_range.mp hj
      exact headSize_two (by omega) (by omega)
  refine ⟨s, hrun, nak, _, mem_buildPendingNaks.mpr ⟨_, r, hr, hnak⟩, encode_nakFrame ?_, ?_,
    by decide⟩
  · rw [(nak_eq_some hnak).2.2]
    exact List.length_take_le _ _
  · rw [length_write_frame, size_nak hnak hslots, htake, hbytes, List.length_map, List.length_range]
    rfl

end FluxSync.Mesh
