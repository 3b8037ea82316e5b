import FluxSync.Mesh.Isolation
import FluxSync.Mesh.Sizes

/-! ## Repair of chunked transfers -/

namespace FluxSync.Mesh

open Std Proto Cbor Slices Runs

def NAK_MISSING_PER_FRAME : ℕ := 400

/-- What is missing of a transfer, to be asked of the peer that it comes from. -/
def Reassembly.nak (r : Reassembly) : Option (PeerId × Nak) :=
  if r.chunks = [] then none
  else
    let missing := ((gaps r.chunks).map UInt16.ofNat).take NAK_MISSING_PER_FRAME
    let wantHeader := r.metadata.isNone
    if missing = [] ∧ wantHeader = false then none
    else some (r.source, { itemId := r.itemHash, wantHeader, missing })

def buildPendingNaks (map : ReassemblyMap) : List (PeerId × Nak) :=
  map.toList.filterMap (·.2.nak)

structure Inflight where
  frames : List (List UInt8)
  pendingPeers : List PeerId

abbrev InflightMap := ExtTreeMap ContentHash Inflight

/-- The frames that `peerId` gets for its `Nak`. -/
def resend (inflight : InflightMap) (peerId : PeerId) (nak : Nak) : List (List UInt8) :=
  match inflight[nak.itemId]?.filter (·.pendingPeers.contains peerId) with
  | some item =>
    (if nak.wantHeader then item.frames.head?.toList else []) ++
      nak.missing.filterMap fun idx ↦ item.frames[idx.toNat + 1]?
  | none => []

variable {cbor : Ciborium} {blake3 : ByteArray → ContentHash} {item : Item} {peer me : PeerId}
  {map : ReassemblyMap} {now : ℕ} {r : Reassembly} {i n : ℕ} {bytes : List UInt8}
  {frames frames' : List (List UInt8)} {s s' t u : Receiver} {a : Delivery} {l l' : List Delivery}
  {nak : Nak} {inflight : InflightMap} {tracked : Inflight}

theorem nak_eq_some {p : PeerId} (h : r.nak = some (p, nak)) : r.chunks ≠ [] ∧ p = r.source ∧
    nak = ⟨r.itemHash, r.metadata.isNone,
      ((gaps r.chunks).map UInt16.ofNat).take NAK_MISSING_PER_FRAME⟩ := by
  rw [Reassembly.nak] at h
  split at h
  · cases h
  · obtain ⟨-, h⟩ := Option.ite_none_left_eq_some.mp h
    obtain ⟨hp, hnak⟩ := Prod.mk.inj (Option.some.inj h)
    exact ⟨‹_›, hp.symm, hnak.symm⟩

theorem mem_buildPendingNaks {p : PeerId} :
    (p, nak) ∈ buildPendingNaks map ↔ ∃ (k : ContentHash) (r : Reassembly), map[k]? = some r ∧ r.nak = some (p, nak) := by
  simp only [buildPendingNaks, List.mem_filterMap, Prod.exists, OrderedMap.mem_entries]

def Item.headerBytes (cbor : Ciborium) (item : Item) : List UInt8 := cbor.write (item.frame [])

def Item.chunkBytes (cbor : Ciborium) (item : Item) (i : ℕ) : List UInt8 :=
  cbor.write (item.chunkFrame item.pieces.length (item.pieces[i]?.getD []) i)

theorem chunkBytes_eq {data : List UInt8} (hd : item.pieces[i]? = some data) :
    item.chunkBytes cbor i = cbor.write (item.chunkFrame item.pieces.length data i) := by
  rw [Item.chunkBytes, hd, Option.getD_some]

theorem Item.Sized.frames_eq (hz : item.Sized) : chunkedFrames cbor item =
    item.headerBytes cbor :: (List.range item.pieces.length).map (item.chunkBytes cbor) := by
  rw [hz.chunkedFrames_eq, Item.headerBytes]
  congr 1
  refine List.ext_getElem? fun i ↦ ?_
  rw [List.getElem?_map, List.getElem?_map, List.getElem?_zipIdx]
  cases hd : item.pieces[i]? with
  | none =>
    have hle : item.pieces.length ≤ i := List.getElem?_eq_none_iff.mp hd
    simp [hle]
  | some data =>
    have hlt : i < item.pieces.length := (List.getElem?_eq_some_iff.mp hd).1
    simp [hlt, chunkBytes_eq hd]

theorem chunkBytes_ne_header (hz : item.Sized) (hi : i < item.pieces.length) :
    item.chunkBytes cbor i ≠ item.headerBytes cbor := by
  intro heq
  have hd : item.pieces[i]? = some item.pieces[i] := List.getElem?_eq_getElem hi
  rw [chunkBytes_eq hd] at heq
  have hbrings : Brings cbor item _ (insert i ∅) false := brings_chunk hz hd
  exact absurd (hbrings.1 heq) (by decide)

theorem chunkBytes_inj (hz : item.Sized) {j : ℕ} (hi : i < item.pieces.length)
    (hj : j < item.pieces.length) (heq : item.chunkBytes cbor i = item.chunkBytes cbor j) : i = j := by
  have hdi : item.pieces[i]? = some item.pieces[i] := List.getElem?_eq_getElem hi
  have hdj : item.pieces[j]? = some item.pieces[j] := List.getElem?_eq_getElem hj
  rw [chunkBytes_eq hdi, chunkBytes_eq hdj] at heq
  have hbrings : Brings cbor item _ (insert j ∅) false := brings_chunk hz hdj
  simpa using hbrings.2 i _ hdi heq.symm

theorem decode_chunkBytes (hz : item.Sized) (hi : i < item.pieces.length) :
    decode cbor (item.chunkBytes cbor i) =
      .ok (item.chunkFrame item.pieces.length item.pieces[i] i) := by
  have hd : item.pieces[i]? = some item.pieces[i] := List.getElem?_eq_getElem hi
  rw [chunkBytes_eq hd]
  exact hz.decode_chunk hd

/-- The datagrams that have come in from `peer`. -/
def received (peer : PeerId) (l : List Delivery) : List (List UInt8) :=
  l.filterMap fun
    | .datagram source bytes _ => if source = peer then some bytes else none
    | .cleanup _ => none

theorem mem_received : bytes ∈ received peer l ↔ Delivered l peer bytes := by
  rw [received, List.mem_filterMap]
  constructor
  · rintro ⟨a, ha, heq⟩
    cases a with
    | cleanup => cases heq
    | datagram source b now =>
      obtain ⟨rfl, hb⟩ := Option.ite_none_right_eq_some.mp heq
      cases hb
      exact ⟨now, ha⟩
  · rintro ⟨now, ha⟩
    exact ⟨_, ha, if_pos rfl⟩

theorem received_append : received peer (l ++ l') = received peer l ++ received peer l' :=
  List.filterMap_append

theorem received_map (peer : PeerId) (now : ℕ) (frames : List (List UInt8)) :
    received peer (frames.map fun bytes ↦ .datagram peer bytes now) = frames := by
  rw [received, List.filterMap_map]
  simp [Function.comp_def]

/-- The chunks among the frames that have come in. -/
def Item.arrived (cbor : Ciborium) (item : Item) (frames : List (List UInt8)) : Finset ℕ :=
  (Finset.range item.pieces.length).filter fun i ↦ item.chunkBytes cbor i ∈ frames

theorem mem_arrived :
    i ∈ item.arrived cbor frames ↔ i < item.pieces.length ∧ item.chunkBytes cbor i ∈ frames := by
  rw [Item.arrived, Finset.mem_filter, Finset.mem_range]

/-- An entry that holds exactly these frames of the item. -/
structure Held (cbor : Ciborium) (item : Item) (peer : PeerId) (frames : List (List UInt8))
    (entry : Option Reassembly) : Prop where
  shows : Shows item (item.arrived cbor frames) (decide (item.headerBytes cbor ∈ frames)) entry
  source : ∀ r ∈ entry, r.source = peer ∧ r.itemHash = item.hash

theorem done_iff (hz : item.Sized) :
    Done item (item.arrived cbor frames) (decide (item.headerBytes cbor ∈ frames)) ↔
      ∀ bytes ∈ chunkedFrames cbor item, bytes ∈ frames := by
  rw [hz.frames_eq, List.forall_mem_cons, List.forall_mem_map, Done, decide_eq_true_iff]
  simp only [mem_arrived, List.mem_range]
  exact and_congr_right fun _ ↦ ⟨fun h i hi ↦ (h i hi).2, fun h i hi ↦ ⟨hi, h i hi⟩⟩

theorem arrived_chunk (hz : item.Sized) (hi : i < item.pieces.length) :
    item.arrived cbor (frames ++ [item.chunkBytes cbor i]) = insert i (item.arrived cbor frames) := by
  ext j
  simp only [mem_arrived, Finset.mem_insert, List.mem_append, List.mem_singleton]
  constructor
  · rintro ⟨hj, hin | heq⟩
    · exact .inr ⟨hj, hin⟩
    · exact .inl (chunkBytes_inj hz hj hi heq)
  · rintro (rfl | ⟨hj, hin⟩)
    · exact ⟨hi, .inr rfl⟩
    · exact ⟨hj, .inl hin⟩

theorem arrived_other (h : ∀ i < item.pieces.length, item.chunkBytes cbor i ≠ bytes) :
    item.arrived cbor (frames ++ [bytes]) = item.arrived cbor frames := by
  ext j
  simp only [mem_arrived, List.mem_append, List.mem_singleton]
  exact and_congr_right fun hj ↦ or_iff_left (h j hj)

/-- A frame leaves its transfer with the peer and the item that it had. -/
theorem source_receive {msg : Msg} (ht : transferOf msg = some item.hash)
    (h : ∀ r ∈ map[reassemblyKey blake3 peer item.hash]?, r.source = peer ∧ r.itemHash = item.hash) :
    ∀ r ∈ (receive blake3 map peer msg now).1[reassemblyKey blake3 peer item.hash]?,
      r.source = peer ∧ r.itemHash = item.hash := by
  intro r hr
  rcases lookup_receive_some hr with hr | ⟨hash, hc, -, hup⟩
  · exact h r hr
  · obtain rfl := Option.some.inj (ht.symm.trans (transferOf_collects hc))
    rw [hup.source, hup.itemHash]
    cases hold : map[reassemblyKey blake3 peer item.hash]? with
    | none => exact ⟨rfl, rfl⟩
    | some old => exact h old hold

/-- While frames are missing, the entry holds those that have come in. -/
def Tracked (cbor : Ciborium) (blake3 : ByteArray → ContentHash) (item : Item) (peer : PeerId)
    (l : List Delivery) (s : Receiver) : Prop :=
  (∃ bytes ∈ chunkedFrames cbor item, bytes ∉ received peer l) →
    Held cbor item peer (received peer l) s.map[reassemblyKey blake3 peer item.hash]?

theorem Held.frame (hz : item.Sized) (hframe : bytes ∈ chunkedFrames cbor item)
    (hheld : Held cbor item peer frames s.map[reassemblyKey blake3 peer item.hash]?)
    (hs : s.step cbor blake3 (.datagram peer bytes now) = some s')
    (hopen : ¬ Done item (item.arrived cbor (frames ++ [bytes]))
      (decide (item.headerBytes cbor ∈ frames ++ [bytes]))) :
    Held cbor item peer (frames ++ [bytes]) s'.map[reassemblyKey blake3 peer item.hash]? := by
  rw [hz.frames_eq, List.mem_cons, List.mem_map] at hframe
  rcases hframe with rfl | ⟨i, hi, rfl⟩
  · obtain ⟨hmap, -⟩ := step_datagram hz.decode_header hs
    have hgot : item.arrived cbor (frames ++ [item.headerBytes cbor]) = item.arrived cbor frames :=
      arrived_other fun i hi ↦ chunkBytes_ne_header hz hi
    have hhdr : decide (item.headerBytes cbor ∈ frames ++ [item.headerBytes cbor]) = true := by simp
    rw [hgot, hhdr] at hopen
    rw [hmap]
    refine ⟨?_, source_receive rfl hheld.source⟩
    rw [hgot, hhdr]
    exact ((receiveHeader_advances peer now hz hheld.shows).2 hopen).2
  · have hlt : i < item.pieces.length := List.mem_range.mp hi
    have hd : item.pieces[i]? = some item.pieces[i] := List.getElem?_eq_getElem hlt
    obtain ⟨hmap, -⟩ := step_datagram (decode_chunkBytes hz hlt) hs
    have hgot : item.arrived cbor (frames ++ [item.chunkBytes cbor i]) = _ := arrived_chunk hz hlt
    have hhdr : decide (item.headerBytes cbor ∈ frames ++ [item.chunkBytes cbor i]) =
        decide (item.headerBytes cbor ∈ frames) := by
      rw [decide_eq_decide, List.mem_append, List.mem_singleton]
      exact or_iff_left (chunkBytes_ne_header hz hlt).symm
    rw [hgot, hhdr] at hopen
    rw [hmap]
    refine ⟨?_, source_receive rfl hheld.source⟩
    rw [hgot, hhdr]
    exact ((receiveChunk_advances peer now hz hheld.shows hd).2 hopen).2

theorem received_foreign (hz : item.Sized) (hf : a.Foreign cbor item peer)
    (hin : bytes ∈ chunkedFrames cbor item) : bytes ∉ received peer [a] := by
  intro hmem
  obtain ⟨now, ha⟩ := mem_received.mp hmem
  obtain rfl := List.mem_singleton.mp ha
  rw [hz.frames_eq, List.mem_cons, List.mem_map] at hin
  rcases hin with rfl | ⟨i, hi, rfl⟩
  · exact hf _ hz.decode_header rfl rfl
  · exact hf _ (decode_chunkBytes hz (List.mem_range.mp hi)) rfl rfl

theorem Held.congr (hz : item.Sized) {entry : Option Reassembly}
    (h : ∀ bytes ∈ chunkedFrames cbor item, bytes ∈ frames ↔ bytes ∈ frames')
    (hheld : Held cbor item peer frames entry) : Held cbor item peer frames' entry := by
  rw [hz.frames_eq, List.forall_mem_cons, List.forall_mem_map] at h
  have hgot : item.arrived cbor frames = item.arrived cbor frames' := by
    ext i
    rw [mem_arrived, mem_arrived]
    exact and_congr_right fun hi ↦ h.2 i (List.mem_range.mpr hi)
  refine ⟨?_, hheld.source⟩
  rw [← hgot, ← decide_eq_decide.mpr h.1]
  exact hheld.shows

theorem Tracked.step (hz : item.Sized) (hb : buildItemFrames cbor item = chunkedFrames cbor item)
    (h : Tracked cbor blake3 item peer l s) (hok : Undisturbed cbor blake3 item peer s a)
    (hs : s.step cbor blake3 a = some s') : Tracked cbor blake3 item peer (l ++ [a]) s' := by
  rintro ⟨bytes, hframe, hmissing⟩
  rw [received_append] at hmissing ⊢
  have hheld := h ⟨bytes, hframe, fun hin ↦ hmissing (List.mem_append_left _ hin)⟩
  rcases hok with ha | ⟨hf, hkeep⟩
  · cases a with
    | cleanup now => exact ha.elim
    | datagram source b now =>
      obtain ⟨rfl, hmem⟩ := ha
      have hone : received source [.datagram source b now] = [b] := by simp [received]
      rw [hone] at hmissing ⊢
      exact hheld.frame hz (hb ▸ hmem) hs fun hd ↦ hmissing ((done_iff hz).mp hd bytes hframe)
  · rw [hkeep s' hs]
    refine hheld.congr hz fun b hb ↦ ?_
    rw [List.mem_append, or_iff_left (received_foreign hz hf hb)]

theorem tracked_run (hz : item.Sized) (hb : buildItemFrames cbor item = chunkedFrames cbor item)
    (habsent : map[reassemblyKey blake3 peer item.hash]? = none)
    (hrun : Run (Receiver.step cbor blake3) (Undisturbed cbor blake3 item peer) ⟨map, []⟩ l s) :
    Tracked cbor blake3 item peer l s := by
  refine hrun.history (I := Tracked cbor blake3 item peer) ?_ fun l t a u _ ih hok hstep ↦
    ih.step hz hb hok hstep
  intro _
  refine ⟨?_, fun r hr ↦ ?_⟩
  · change Shows _ _ _ map[reassemblyKey blake3 peer item.hash]?
    rw [habsent]
    refine ⟨Finset.eq_empty_of_forall_notMem fun i hi ↦ ?_, by simp [received]⟩
    exact absurd (mem_arrived.mp hi).2 List.not_mem_nil
  · cases habsent.symm.trans hr

/-- With some of its chunks there and not all of its frames, a transfer has an entry. -/
theorem Tracked.entry (hz : item.Sized) (hb : buildItemFrames cbor item = chunkedFrames cbor item)
    (h : Tracked cbor blake3 item peer l s)
    (hsome : ∃ bytes ∈ (buildItemFrames cbor item).drop 1, bytes ∈ received peer l)
    (hmissing : ∃ bytes ∈ buildItemFrames cbor item, bytes ∉ received peer l) :
    ∃ r, s.map[reassemblyKey blake3 peer item.hash]? = some r ∧
      Held cbor item peer (received peer l) (some r) ∧ r.chunks ≠ [] := by
  rw [hb] at hsome hmissing
  have hheld := h hmissing
  obtain ⟨bytes, hbytes, hin⟩ := hsome
  rw [hz.frames_eq, List.drop_one, List.tail_cons, List.mem_map] at hbytes
  obtain ⟨i, hi, rfl⟩ := hbytes
  have harrived : i ∈ item.arrived cbor (received peer l) :=
    mem_arrived.mpr ⟨List.mem_range.mp hi, hin⟩
  cases hr : s.map[reassemblyKey blake3 peer item.hash]? with
  | none =>
    rw [hr] at hheld
    exact absurd (hheld.shows.1 ▸ harrived) (Finset.notMem_empty i)
  | some r =>
    rw [hr] at hheld
    refine ⟨r, rfl, hheld, fun hnil ↦ ?_⟩
    rcases hheld.shows.slots with ⟨-, hgot⟩ | hf
    · exact absurd (hgot ▸ harrived) (Finset.notMem_empty i)
    · exact Fills.ne_nil hz hf hnil

/-- The header where it is missing, and the first missing chunks. -/
def firstMissing (frames received : List (List UInt8)) : List (List UInt8) :=
  (frames.take 1).filter (· ∉ received) ++
    ((frames.drop 1).filter (· ∉ received)).take NAK_MISSING_PER_FRAME

/-- The sender has the item's frames, and waits for `peer` to acknowledge them. -/
structure Owes (cbor : Ciborium) (inflight : InflightMap) (item : Item) (peer : PeerId) : Prop where
  entry : ∃ tracked, inflight[item.hash]? = some tracked ∧
    tracked.frames = buildItemFrames cbor item ∧ peer ∈ tracked.pendingPeers

theorem Owes.resend (h : Owes cbor inflight item me) (hnak : nak.itemId = item.hash) :
    resend inflight me nak =
      (if nak.wantHeader then (buildItemFrames cbor item).head?.toList else []) ++
        nak.missing.filterMap fun idx ↦ (buildItemFrames cbor item)[idx.toNat + 1]? := by
  obtain ⟨tracked, hentry, hframes, hme⟩ := h.entry
  have hfilter : (some tracked).filter (·.pendingPeers.contains me) = some tracked := by
    simp [Option.filter, hme]
  rw [Mesh.resend, hnak, hentry, hfilter, ← hframes]

/-- What an entry with chunks holds. -/
theorem Held.shown (h : Held cbor item peer frames (some r)) (hne : r.chunks ≠ []) :
    (r.metadata.isNone = true ↔ item.headerBytes cbor ∉ frames) ∧
      gaps r.chunks = (List.range item.pieces.length).filter (item.chunkBytes cbor · ∉ frames) := by
  have hp : Partial item _ _ r := h.shows
  constructor
  · rw [hp.metadata]
    by_cases hin : item.headerBytes cbor ∈ frames <;> simp [hin]
  · rw [(hp.slots.resolve_left fun hnil ↦ hne hnil.1).gaps]
    refine List.filter_congr fun i hi ↦ ?_
    rw [decide_eq_decide, mem_arrived, not_and]
    exact forall_prop_of_true (List.mem_range.mp hi)

theorem Held.resend (hz : item.Sized) (hb : buildItemFrames cbor item = chunkedFrames cbor item)
    (ho : Owes cbor inflight item me) (h : Held cbor item peer frames (some r))
    (hnak : r.nak = some (peer, nak)) :
    resend inflight me nak = firstMissing (buildItemFrames cbor item) frames := by
  obtain ⟨hne, -, rfl⟩ := nak_eq_some hnak
  obtain ⟨hheader, hgaps⟩ := h.shown hne
  rw [ho.resend (h.source r rfl).2, firstMissing, hb, hz.frames_eq, hgaps]
  congr 1
  · by_cases hin : item.headerBytes cbor ∈ frames
    · simp [hin, mt hheader.mp (not_not_intro hin)]
    · simp [hin, hheader.mpr hin]
  · rw [List.drop_one, List.tail_cons, List.filter_map, ← List.map_take, ← List.map_take,
      List.filterMap_map, ← List.filterMap_eq_map]
    refine List.filterMap_congr fun i hi ↦ ?_
    have hlt : i < item.pieces.length :=
      List.mem_range.mp (List.mem_filter.mp (List.mem_of_mem_take hi)).1
    simp [hz.idx hlt, hlt]

theorem Held.asks (hz : item.Sized) (h : Held cbor item peer frames (some r)) (hne : r.chunks ≠ [])
    (hmissing : ∃ bytes ∈ chunkedFrames cbor item, bytes ∉ frames) :
    ∃ nak, r.nak = some (peer, nak) ∧ nak.itemId = item.hash := by
  obtain ⟨hheader, hgaps⟩ := h.shown hne
  obtain ⟨hsource, hhash⟩ := h.source r rfl
  have hasks : ¬ (((gaps r.chunks).map UInt16.ofNat).take NAK_MISSING_PER_FRAME = [] ∧
      r.metadata.isNone = false) := by
    rintro ⟨hnone, hmeta⟩
    have hnil : gaps r.chunks = [] := by
      simpa [NAK_MISSING_PER_FRAME, List.take_eq_nil_iff] using hnone
    rw [hgaps, List.filter_eq_nil_iff] at hnil
    obtain ⟨bytes, hmem, hnot⟩ := hmissing
    rw [hz.frames_eq, List.mem_cons, List.mem_map] at hmem
    rcases hmem with rfl | ⟨i, hi, rfl⟩
    · rw [hheader.mpr hnot] at hmeta
      cases hmeta
    · exact hnil i hi (decide_eq_true hnot)
  refine ⟨⟨r.itemHash, r.metadata.isNone,
    ((gaps r.chunks).map UInt16.ofNat).take NAK_MISSING_PER_FRAME⟩, ?_, hhash⟩
  rw [Reassembly.nak, if_neg hne]
  exact (if_neg hasks).trans (by rw [hsource])

section Transfer

variable (hz : item.Sized) (hb : buildItemFrames cbor item = chunkedFrames cbor item)
  (hsound : Sound blake3 map) (habsent : map[reassemblyKey blake3 peer item.hash]? = none)
  (ho : Owes cbor inflight item me)

include hz hb hsound habsent ho

/-- With some of its chunks there and not all of its frames, a transfer asks, and is answered
with the first frames that are missing. -/
theorem answer
    (hrun : Run (Receiver.step cbor blake3) (Undisturbed cbor blake3 item peer) ⟨map, []⟩ l s)
    (hsome : ∃ bytes ∈ (buildItemFrames cbor item).drop 1, bytes ∈ received peer l)
    (hmissing : ∃ bytes ∈ buildItemFrames cbor item, bytes ∉ received peer l) :
    (∃ nak, (peer, nak) ∈ buildPendingNaks s.map ∧ nak.itemId = item.hash) ∧
      ∀ nak, (peer, nak) ∈ buildPendingNaks s.map → nak.itemId = item.hash →
        resend inflight me nak = firstMissing (buildItemFrames cbor item) (received peer l) := by
  obtain ⟨r, hr, hheld, hne⟩ := (tracked_run hz hb habsent hrun).entry hz hb hsome hmissing
  rw [hb] at hmissing
  constructor
  · obtain ⟨nak, hnak, hhash⟩ := hheld.asks hz hne hmissing
    exact ⟨nak, mem_buildPendingNaks.mpr ⟨_, r, hr, hnak⟩, hhash⟩
  · intro nak hmem hhash
    obtain ⟨k, r', hr', hnak⟩ := mem_buildPendingNaks.mp hmem
    obtain ⟨-, hsource, rfl⟩ := nak_eq_some hnak
    have hkey : k = reassemblyKey blake3 peer item.hash := by
      rw [(hsound.run hrun).keyed k r' hr', ← hsource]
      exact congrArg _ hhash
    subst hkey
    obtain rfl := Option.some.inj (hr.symm.trans hr')
    exact hheld.resend hz hb ho hnak

end Transfer

/-- Rounds in which every `Nak` for the item reaches the sender, and all that the sender answers
reaches the receiver. -/
inductive Rounds (cbor : Ciborium) (blake3 : ByteArray → ContentHash) (inflight : InflightMap)
    (item : Item) (peer me : PeerId) (s : Receiver) : ℕ → List Delivery → Receiver → Prop
  | zero : Rounds cbor blake3 inflight item peer me s 0 [] s
  | succ {n : ℕ} {l l' : List Delivery} {t u : Receiver} :
      Rounds cbor blake3 inflight item peer me s n l t →
      Run (Receiver.step cbor blake3) (Undisturbed cbor blake3 item peer) t l' u →
      (∀ nak, (peer, nak) ∈ buildPendingNaks t.map → nak.itemId = item.hash →
        ∀ bytes ∈ resend inflight me nak, Delivered l' peer bytes) →
      Rounds cbor blake3 inflight item peer me s (n + 1) (l ++ l') u

theorem Rounds.run (h : Rounds cbor blake3 inflight item peer me s n l t) :
    Run (Receiver.step cbor blake3) (Undisturbed cbor blake3 item peer) s l t := by
  induction h with
  | zero => exact .nil
  | succ _ hrun _ ih => exact ih.append hrun

/-- The chunks that have not come in. -/
def missingChunks (frames received : List (List UInt8)) : List (List UInt8) :=
  (frames.drop 1).filter (· ∉ received)

theorem missingChunks_le {more : List (List UInt8)}
    (h : ∀ bytes ∈ firstMissing frames frames', bytes ∈ more) :
    (missingChunks frames (frames' ++ more)).length ≤
      (missingChunks frames frames').length - NAK_MISSING_PER_FRAME := by
  have hsplit : missingChunks frames (frames' ++ more) =
      ((missingChunks frames frames').drop NAK_MISSING_PER_FRAME).filter (· ∉ more) := by
    have hboth : missingChunks frames (frames' ++ more) =
        (missingChunks frames frames').filter (· ∉ more) := by
      rw [missingChunks, missingChunks, List.filter_filter]
      refine List.filter_congr fun bytes _ ↦ ?_
      rw [← Bool.decide_and, decide_eq_decide, List.mem_append, not_or, and_comm]
    have htake : ((missingChunks frames frames').take NAK_MISSING_PER_FRAME).filter (· ∉ more) = [] :=
      List.filter_eq_nil_iff.mpr fun bytes hin ↦ by
        simpa using h bytes (List.mem_append_right _ hin)
    conv_lhs => rw [hboth, ← List.take_append_drop NAK_MISSING_PER_FRAME (missingChunks frames frames')]
    rw [List.filter_append, htake, List.nil_append]
  rw [hsplit, ← List.length_drop]
  exact List.length_filter_le _ _

theorem Owes.resend_subset (h : Owes cbor inflight item me) (hnak : nak.itemId = item.hash) :
    Mesh.resend inflight me nak ⊆ buildItemFrames cbor item := by
  rw [h.resend hnak]
  intro bytes hin
  rcases List.mem_append.mp hin with hin | hin
  · split at hin
    · exact List.mem_of_head? (Option.mem_toList.mp hin)
    · cases hin
  · obtain ⟨idx, -, hidx⟩ := List.mem_filterMap.mp hin
    exact List.mem_of_getElem? hidx

/-- A round is possible at any time. -/
theorem exists_rounds (ho : Owes cbor inflight item me) (n : ℕ) :
    ∃ l' t, Rounds cbor blake3 inflight item peer me s n l' t := by
  induction n with
  | zero => exact ⟨[], s, .zero⟩
  | succ n ih =>
    obtain ⟨l', t, hrounds⟩ := ih
    let naks := ((buildPendingNaks t.map).filter fun x ↦ x.1 = peer ∧ x.2.itemId = item.hash)
    let sent := naks.flatMap fun x ↦
      (resend inflight me x.2).map fun bytes ↦ Delivery.datagram peer bytes 0
    obtain ⟨u, hrun⟩ := exists_run (Receiver.step cbor blake3) t sent fun _ _ ↦ step_isSome
    have hof : ∀ a ∈ sent, a.Of cbor item peer := by
      intro a ha
      obtain ⟨⟨p, nak⟩, hnak, ha⟩ := List.mem_flatMap.mp ha
      obtain ⟨bytes, hbytes, rfl⟩ := List.mem_map.mp ha
      have hhash := (of_decide_eq_true (List.mem_filter.mp hnak).2).2
      exact ⟨rfl, ho.resend_subset hhash hbytes⟩
    refine ⟨l' ++ sent, u, .succ hrounds ((hrun.labels hof).mono fun _ _ ↦ .inl) ?_⟩
    intro nak hnak hhash bytes hbytes
    refine ⟨0, List.mem_flatMap.mpr ⟨(peer, nak), ?_, List.mem_map_of_mem hbytes⟩⟩
    exact List.mem_filter.mpr ⟨hnak, decide_eq_true ⟨rfl, hhash⟩⟩

section Transfer

variable (hz : item.Sized) (hb : buildItemFrames cbor item = chunkedFrames cbor item)
  (hsound : Sound blake3 map) (habsent : map[reassemblyKey blake3 peer item.hash]? = none)
  (ho : Owes cbor inflight item me)
  (hrun : Run (Receiver.step cbor blake3) (Undisturbed cbor blake3 item peer) ⟨map, []⟩ l s)
  (hsome : ∃ bytes ∈ (buildItemFrames cbor item).drop 1, bytes ∈ received peer l)

include hz hb hsound habsent ho hrun hsome

/-- Each round brings the header and 400 chunks, as long as frames are missing. -/
theorem Rounds.progress (h : Rounds cbor blake3 inflight item peer me s n l' t) :
    (∀ bytes ∈ buildItemFrames cbor item, bytes ∈ received peer (l ++ l')) ∨
      (missingChunks (buildItemFrames cbor item) (received peer (l ++ l'))).length ≤
          (missingChunks (buildItemFrames cbor item) (received peer l)).length -
            n * NAK_MISSING_PER_FRAME ∧
        (0 < n → ∀ bytes ∈ (buildItemFrames cbor item).take 1, bytes ∈ received peer (l ++ l')) := by
  induction h with
  | zero => exact .inr ⟨by simp, fun h ↦ absurd h (Nat.lt_irrefl 0)⟩
  | @succ n l₁ l₂ t u hrounds _ hdelivered ih =>
    have hgrow : received peer (l ++ (l₁ ++ l₂)) = received peer (l ++ l₁) ++ received peer l₂ := by
      rw [← List.append_assoc, received_append]
    rw [hgrow]
    by_cases hall : ∀ bytes ∈ buildItemFrames cbor item, bytes ∈ received peer (l ++ l₁)
    · exact .inl fun bytes hin ↦ List.mem_append_left _ (hall bytes hin)
    · obtain ⟨hcount, -⟩ := ih.resolve_left hall
      have hmissing : ∃ bytes ∈ buildItemFrames cbor item, bytes ∉ received peer (l ++ l₁) := by
        simpa using hall
      have hsome' : ∃ bytes ∈ (buildItemFrames cbor item).drop 1, bytes ∈ received peer (l ++ l₁) := by
        obtain ⟨bytes, hin, hrec⟩ := hsome
        refine ⟨bytes, hin, ?_⟩
        rw [received_append]
        exact List.mem_append_left _ hrec
      obtain ⟨⟨nak, hnak, hhash⟩, hanswer⟩ :=
        answer hz hb hsound habsent ho (hrun.append hrounds.run) hsome' hmissing
      have hfirst : ∀ bytes ∈ firstMissing (buildItemFrames cbor item) (received peer (l ++ l₁)),
          bytes ∈ received peer l₂ := fun bytes hin ↦
        mem_received.mpr (hdelivered nak hnak hhash bytes (hanswer nak hnak hhash ▸ hin))
      refine .inr ⟨?_, fun _ bytes hin ↦ ?_⟩
      · have hstep := missingChunks_le hfirst
        rw [Nat.succ_mul]
        omega
      · by_cases hrec : bytes ∈ received peer (l ++ l₁)
        · exact List.mem_append_left _ hrec
        · refine List.mem_append_right _ (hfirst bytes (List.mem_append_left _ ?_))
          exact List.mem_filter.mpr ⟨hin, decide_eq_true hrec⟩

theorem Rounds.complete (h : Rounds cbor blake3 inflight item peer me s n l' t)
    (hn : max 1 (((missingChunks (buildItemFrames cbor item) (received peer l)).length +
      (NAK_MISSING_PER_FRAME - 1)) / NAK_MISSING_PER_FRAME) ≤ n) : item.from peer ∈ t.handed := by
  have hall : ∀ bytes ∈ buildItemFrames cbor item, bytes ∈ received peer (l ++ l') := by
    rcases h.progress hz hb hsound habsent ho hrun hsome with hall | ⟨hcount, hheader⟩
    · exact hall
    have hnil : missingChunks (buildItemFrames cbor item) (received peer (l ++ l')) = [] := by
      rw [← List.length_eq_zero_iff]
      simp only [NAK_MISSING_PER_FRAME] at hcount hn
      omega
    intro bytes hin
    rw [← List.take_append_drop 1 (buildItemFrames cbor item), List.mem_append] at hin
    rcases hin with hin | hin
    · exact hheader (by omega) bytes hin
    · simpa using List.filter_eq_nil_iff.mp hnil bytes hin
  have hcollected := chunked_run hz hb habsent (hrun.append h.run)
  exact hcollected.handed hz fun bytes hin ↦ mem_received.mp (hall bytes (hb ▸ hin))

end Transfer

theorem sized_of_chunked (hle : item.payload.length ≤ MAX_PAYLOAD)
    (h : 1 < (buildItemFrames cbor item).length) : item.Sized where
  le := hle
  pos := by
    refine Nat.pos_of_ne_zero fun hnil ↦ ?_
    have hpayload : item.payload = [] := List.length_eq_zero_iff.mp hnil
    have hencode : encode cbor (item.frame []) = .ok (cbor.write (item.frame [])) := by
      refine encode_eq_ok.mpr ⟨rfl, ?_, rfl⟩
      simp [validate, Item.frame, validateItem]
    have hone : (buildItemFrames cbor item).length ≤ 1 := by
      rw [buildItemFrames, hpayload, List.length_nil, if_pos (Nat.zero_le _), hencode]
      dsimp only
      split
      · simp
      · simp [chunkedFrames, hpayload, chunks, hencode, Except.toOption, MAX_CHUNK_DATA]
    omega

/-- A transfer with chunks and gaps is answered with its header, where that is missing, and the
first missing chunks, and is handed on after one round for each 400 of these. -/
theorem repair {handed : List CompleteItem} {before : List Delivery}
    (hle : item.payload.length ≤ MAX_PAYLOAD) (hchunked : 1 < (buildItemFrames cbor item).length)
    (hreach : Run (Receiver.step cbor blake3) Always ⟨∅, []⟩ before ⟨map, handed⟩)
    (habsent : map[reassemblyKey blake3 peer item.hash]? = none)
    (hrun : Run (Receiver.step cbor blake3) (Undisturbed cbor blake3 item peer) ⟨map, []⟩ l s)
    (hsome : ∃ bytes ∈ (buildItemFrames cbor item).drop 1, bytes ∈ received peer l)
    (hmissing : ∃ bytes ∈ buildItemFrames cbor item, bytes ∉ received peer l)
    (ho : Owes cbor inflight item me) :
    (∃ nak, (peer, nak) ∈ buildPendingNaks s.map ∧ nak.itemId = item.hash) ∧
      (∀ nak, (peer, nak) ∈ buildPendingNaks s.map → nak.itemId = item.hash →
        resend inflight me nak =
          ((buildItemFrames cbor item).take 1).filter (· ∉ received peer l) ++
            (((buildItemFrames cbor item).drop 1).filter (· ∉ received peer l)).take 400) ∧
      (∀ n, ∃ l' t, Rounds cbor blake3 inflight item peer me s n l' t) ∧
      ∀ n l' t, Rounds cbor blake3 inflight item peer me s n l' t →
        max 1 (((((buildItemFrames cbor item).drop 1).filter
          (· ∉ received peer l)).length + 399) / 400) ≤ n →
        item.from peer ∈ t.handed := by
  have hz := sized_of_chunked hle hchunked
  have hb : buildItemFrames cbor item = chunkedFrames cbor item := by
    refine (hz.buildItemFrames_cases cbor).resolve_left fun hinline ↦ ?_
    rw [hinline] at hchunked
    exact absurd hchunked (Nat.lt_irrefl 1)
  have hsound : Sound blake3 map := sound_run hreach
  obtain ⟨hasks, hanswer⟩ := answer hz hb hsound habsent ho hrun hsome hmissing
  exact ⟨hasks, hanswer, exists_rounds ho, fun n l' t hrounds hn ↦
    hrounds.complete hz hb hsound habsent ho hrun hsome hn⟩

def anInflight : InflightMap :=
  (∅ : InflightMap).insert anItem.hash ⟨buildItemFrames standardCbor anItem, [9]⟩

/-- The first chunk has come in, the header and the other chunk have not. -/
theorem repair_anItem :
    ∃ s, Run (Receiver.step standardCbor fun _ ↦ 0) (Undisturbed standardCbor (fun _ ↦ 0) anItem 7)
        ⟨∅, []⟩ [.datagram 7 (anItem.chunkBytes standardCbor 0) 0] s ∧
      ∃ l' t, Rounds standardCbor (fun _ ↦ 0) anInflight anItem 7 9 s 1 l' t ∧
        anItem.from 7 ∈ t.handed := by
  have hframes : buildItemFrames standardCbor anItem =
      [anItem.headerBytes standardCbor, anItem.chunkBytes standardCbor 0,
        anItem.chunkBytes standardCbor 1] := by
    rw [buildItemFrames_chunked anItem_sized.le (fun hin ↦ absurd hin.1 (anItem_length ▸ by decide)),
      anItem_sized.frames_eq, anItem_pieces]
    rfl
  have hchunked : 1 < (buildItemFrames standardCbor anItem).length := by
    rw [hframes, List.length_cons, List.length_cons]
    omega
  have hreceived : received 7 [.datagram 7 (anItem.chunkBytes standardCbor 0) 0] =
      [anItem.chunkBytes standardCbor 0] := by simp [received]
  have hne : anItem.chunkBytes standardCbor 0 ≠ anItem.headerBytes standardCbor :=
    chunkBytes_ne_header anItem_sized (anItem_pieces ▸ by decide)
  obtain ⟨s, hs⟩ : ∃ s, Receiver.step standardCbor (fun _ ↦ 0) ⟨∅, []⟩
      (.datagram 7 (anItem.chunkBytes standardCbor 0) 0) = some s :=
    Option.isSome_iff_exists.mp step_isSome
  have hrun : Run (Receiver.step standardCbor fun _ ↦ 0)
      (Undisturbed standardCbor (fun _ ↦ 0) anItem 7) ⟨∅, []⟩
      [.datagram 7 (anItem.chunkBytes standardCbor 0) 0] s :=
    .snoc .nil (.inl ⟨rfl, by rw [hframes]; simp⟩) hs
  have hentry : anInflight[anItem.hash]? = some ⟨buildItemFrames standardCbor anItem, [9]⟩ := by
    rw [anInflight, OrderedMap.lookup_insert, if_pos rfl]
  have ho : Owes standardCbor anInflight anItem 9 := by
    refine ⟨_, hentry, ?_, List.mem_singleton_self 9⟩
    rw [hframes]
  obtain ⟨-, -, hpossible, hcomplete⟩ := repair anItem_sized.le hchunked .nil ExtTreeMap.getElem?_empty hrun
    ⟨anItem.chunkBytes standardCbor 0, by rw [hframes]; simp, by rw [hreceived]; simp⟩
    ⟨anItem.headerBytes standardCbor, by rw [hframes]; simp, by rw [hreceived]; simpa using hne.symm⟩ ho
  obtain ⟨l', t, hrounds⟩ := hpossible 1
  refine ⟨s, hrun, l', t, hrounds, hcomplete 1 l' t hrounds ?_⟩
  have hcount := List.length_filter_le
    (· ∉ received 7 [.datagram 7 (anItem.chunkBytes standardCbor 0) 0])
    ((buildItemFrames standardCbor anItem).drop 1)
  have htwo : ((buildItemFrames standardCbor anItem).drop 1).length = 2 := by
    rw [hframes]
    rfl
  omega

end FluxSync.Mesh
