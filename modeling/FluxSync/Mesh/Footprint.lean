import Mathlib.Algebra.Order.BigOperators.Group.List
import FluxSync.Mesh.Isolation

/-! ## What the open transfers take up -/

namespace FluxSync.Mesh

open Std Proto Runs

/-- The bytes that a transfer holds. -/
def Reassembly.buffered (r : Reassembly) : ℕ := ((r.chunks.filterMap id).map List.length).sum

def buffered (map : ReassemblyMap) : ℕ := (map.toList.map (·.2.buffered)).sum

/-- At this time a frame came in for the transfer under `key`. -/
def Fed (cbor : Ciborium) (blake3 : ByteArray → ContentHash) (l : List Delivery)
    (key : ContentHash) (time : ℕ) : Prop :=
  ∃ peer bytes frame hash, .datagram peer bytes time ∈ l ∧ decode cbor bytes = .ok frame ∧
    collects frame.msg = some hash ∧ reassemblyKey blake3 peer hash = key

structure Small (slots : List (Option (List UInt8))) : Prop where
  length : slots.length ≤ MAX_CHUNKS.toNat
  data : ∀ d, some d ∈ slots → d.length ≤ MAX_CHUNK_DATA

/-- An entry has its bounds, and its times are those of frames that came in for it. -/
structure HeldEntry (cbor : Ciborium) (blake3 : ByteArray → ContentHash) (l : List Delivery)
    (key : ContentHash) (r : Reassembly) : Prop where
  small : Small r.chunks
  opened : Fed cbor blake3 l key r.firstSeen
  fed : Fed cbor blake3 l key r.lastUpdate

def AllHeld (cbor : Ciborium) (blake3 : ByteArray → ContentHash) (l : List Delivery)
    (map : ReassemblyMap) : Prop :=
  ∀ (k : ContentHash) (r : Reassembly), map[k]? = some r → HeldEntry cbor blake3 l k r

variable {cbor : Ciborium} {blake3 : ByteArray → ContentHash} {peer : PeerId} {map : ReassemblyMap}
  {key k : ContentHash} {hash : ContentHash} {now time : ℕ} {r : Reassembly} {entry : Option Reassembly}
  {msg : Msg} {s s' : Receiver} {l : List Delivery} {d : Delivery} {c : CompleteItem}
  {slots : List (Option (List UInt8))}

theorem Fed.append (h : Fed cbor blake3 l key time) (d : Delivery) :
    Fed cbor blake3 (l ++ [d]) key time := by
  obtain ⟨peer, bytes, frame, hash, hl, hrest⟩ := h
  exact ⟨peer, bytes, frame, hash, List.mem_append_left _ hl, hrest⟩

theorem AllHeld.append (h : AllHeld cbor blake3 l map) (d : Delivery) :
    AllHeld cbor blake3 (l ++ [d]) map := by
  intro k r hk
  have hr := h k r hk
  exact ⟨hr.small, hr.opened.append d, hr.fed.append d⟩

theorem small_empty {n : ℕ} (hn : n ≤ MAX_CHUNKS.toNat) : Small (List.replicate n none) := by
  refine ⟨?_, fun d hd ↦ ?_⟩
  · rwa [List.length_replicate]
  · cases (List.mem_replicate.mp hd).2

theorem Small.set (h : Small slots) {data : List UInt8} (hdata : data.length ≤ MAX_CHUNK_DATA)
    (i : ℕ) : Small (slots.set i (some data)) := by
  refine ⟨?_, fun d hd ↦ ?_⟩
  · rw [List.length_set]
    exact h.length
  · rcases List.mem_or_eq_of_mem_set hd with hd | hd
    · exact h.data d hd
    · obtain rfl := Option.some.inj hd
      exact hdata

theorem Small.buffered_le (h : Small r.chunks) : r.buffered ≤ MAX_PAYLOAD := by
  have hlen : (r.chunks.filterMap id).length ≤ MAX_CHUNKS.toNat :=
    (List.length_filterMap_le _ _).trans h.length
  have hdata : ∀ n ∈ (r.chunks.filterMap id).map List.length, n ≤ MAX_CHUNK_DATA := by
    intro n hn
    obtain ⟨d, hd, rfl⟩ := List.mem_map.mp hn
    obtain ⟨o, ho, rfl⟩ := List.mem_filterMap.mp hd
    exact h.data d ho
  calc r.buffered
      ≤ ((r.chunks.filterMap id).map List.length).length • MAX_CHUNK_DATA :=
        List.sum_le_card_nsmul _ _ hdata
    _ = (r.chunks.filterMap id).length * MAX_CHUNK_DATA := by rw [List.length_map, smul_eq_mul]
    _ ≤ MAX_CHUNKS.toNat * MAX_CHUNK_DATA := Nat.mul_le_mul_right _ hlen
    _ = MAX_PAYLOAD := rfl

theorem AllHeld.buffered_le (h : AllHeld cbor blake3 l map) :
    buffered map ≤ map.size * MAX_PAYLOAD := by
  have hall : ∀ n ∈ map.toList.map (·.2.buffered), n ≤ MAX_PAYLOAD := by
    intro n hn
    obtain ⟨⟨k, r⟩, hkr, rfl⟩ := List.mem_map.mp hn
    exact (h k r (OrderedMap.mem_entries.mp hkr)).small.buffered_le
  have hsum := List.sum_le_card_nsmul _ _ hall
  rwa [List.length_map, ExtTreeMap.length_toList, smul_eq_mul] at hsum

/-- A whole item is what its slots held. -/
theorem Small.complete (h : Small r.chunks) (hc : r.complete peer hash = some c) :
    c.payload.length ≤ MAX_PAYLOAD := by
  rw [Reassembly.complete] at hc
  split at hc
  · obtain ⟨-, hc⟩ := Option.ite_none_right_eq_some.mp hc
    obtain rfl := Option.some.inj hc
    rw [List.length_flatten]
    exact h.buffered_le
  · cases hc

theorem HeldEntry.headed (peer : PeerId) (item : ClipboardItem) (hfed : Fed cbor blake3 l key now)
    (h : ∀ old, entry = some old → HeldEntry cbor blake3 l key old) :
    HeldEntry cbor blake3 l key (.headed entry peer item now) := by
  cases entry with
  | none => exact ⟨small_empty (Nat.zero_le _), hfed, hfed⟩
  | some old =>
    have hold := h old rfl
    exact ⟨hold.small, hold.opened, hfed⟩

theorem HeldEntry.filled {ch : Chunk} (peer : PeerId) (hdata : ch.data.length ≤ MAX_CHUNK_DATA)
    (htotal : ch.total ≤ MAX_CHUNKS) (hfed : Fed cbor blake3 l key now) (h : ∀ old, entry = some old → HeldEntry cbor blake3 l key old) :
    HeldEntry cbor blake3 l key (.filled entry peer ch now) := by
  have hempty : Small (List.replicate ch.total.toNat none) :=
    small_empty (UInt16.le_iff_toNat_le.mp htotal)
  have hput : ∀ slots, Small slots →
      Small (if ch.idx.toNat < slots.length then slots.set ch.idx.toNat (some ch.data) else slots) := by
    intro slots hslots
    split
    · exact hslots.set hdata _
    · exact hslots
  cases entry with
  | none =>
    refine ⟨hput _ ?_, hfed, hfed⟩
    split
    all_goals exact hempty
  | some old =>
    have hold := h old rfl
    refine ⟨hput _ ?_, hold.opened, hfed⟩
    split
    · exact hempty
    · exact hold.small

theorem AllHeld.makeRoom (h : AllHeld cbor blake3 l map) (key : ContentHash) :
    AllHeld cbor blake3 l (makeRoom map key) :=
  fun k r hk ↦ h k r (lookup_makeRoom_some hk)

theorem AllHeld.settle (h : AllHeld cbor blake3 l map) (hr : HeldEntry cbor blake3 l key r)
    {c : Option CompleteItem} : AllHeld cbor blake3 l (settle map key r c).1 := by
  intro k r' hk
  by_cases hkey : k = key
  · subst hkey
    rw [lookup_settle] at hk
    obtain rfl := Option.some.inj (Option.ite_none_left_eq_some.mp hk).2
    exact hr
  · rw [lookup_settle_ne hkey] at hk
    exact h k r' hk

/-- What one valid frame leaves and hands on. -/
theorem AllHeld.receive (peer : PeerId) (now : ℕ) (h : AllHeld cbor blake3 l map) (hmsg : msg.Bounded)
    (hfed : ∀ hash, collects msg = some hash → Fed cbor blake3 l (reassemblyKey blake3 peer hash) now) :
    AllHeld cbor blake3 l (receive blake3 map peer msg now).1 ∧
      ∀ x, (Mesh.receive blake3 map peer msg now).2 = some x → x.payload.length ≤ MAX_PAYLOAD := by
  cases msg with
  | clipboardItem item =>
    rw [Mesh.receive]
    split
    · rename_i hempty
      have hroom := h.makeRoom (reassemblyKey blake3 peer item.hash)
      have hentry := HeldEntry.headed peer item (hfed item.hash (if_pos hempty)) (hroom _)
      refine ⟨hroom.settle hentry, fun x hx ↦ ?_⟩
      rw [receiveHeader, settle_snd] at hx
      exact hentry.small.complete (Option.ite_none_left_eq_some.mp hx).2
    · refine ⟨h, fun x hx ↦ ?_⟩
      obtain rfl := Option.some.inj hx
      exact hmsg
  | chunk ch =>
    obtain ⟨hdata, -, htotal, -⟩ := hmsg
    rw [Mesh.receive, receiveChunk]
    split
    · exact ⟨h, fun x hx ↦ by cases hx⟩
    · rename_i hvalid
      have hroom := h.makeRoom (reassemblyKey blake3 peer ch.itemId)
      have hentry := HeldEntry.filled peer hdata htotal (hfed ch.itemId (if_neg hvalid)) (hroom _)
      refine ⟨hroom.settle hentry, fun x hx ↦ ?_⟩
      rw [settle_snd] at hx
      exact hentry.small.complete hx
  | _ => exact ⟨h, fun x hx ↦ by cases hx⟩

/-- What is held after a history, and what was handed on. -/
structure Bounds (cbor : Ciborium) (blake3 : ByteArray → ContentHash) (l : List Delivery)
    (s : Receiver) : Prop where
  held : AllHeld cbor blake3 l s.map
  handed : ∀ c ∈ s.handed, c.payload.length ≤ MAX_PAYLOAD

theorem Bounds.step (h : Bounds cbor blake3 l s) (hs : s.step cbor blake3 d = some s') :
    Bounds cbor blake3 (l ++ [d]) s' := by
  have hold := h.held.append d
  cases d with
  | cleanup now =>
    cases hs
    exact ⟨fun k r hk ↦ hold k r (OrderedMap.lookup_filter.mp hk).1, h.handed⟩
  | datagram peer bytes now =>
    cases hd : decode cbor bytes with
    | error e =>
      simp only [Receiver.step, hd, Option.some.injEq] at hs
      exact hs ▸ ⟨hold, h.handed⟩
    | ok frame =>
      obtain ⟨hmap, hhanded⟩ := step_datagram hd hs
      have hbounded := validate_eq_ok.mp (decode_eq_ok.mp hd).2.2
      obtain ⟨hheld, hnew⟩ := hold.receive peer now hbounded fun hash hc ↦
        ⟨peer, bytes, frame, hash, by simp, hd, hc, rfl⟩
      refine ⟨hmap ▸ hheld, fun c hc ↦ ?_⟩
      rw [hhanded] at hc
      rcases List.mem_append.mp hc with hc | hc
      · exact h.handed c hc
      · exact hnew c (Option.mem_toList.mp hc)

end FluxSync.Mesh
