import FluxSync.Foundation.Recency
import FluxSync.Foundation.Runs
import FluxSync.Pipeline.Outbox

/-! ## The three parts of the outbox -/

namespace FluxSync.Pipeline.Outbox

open Std Runs Recency

inductive Op
  | insert (now : ℕ) (hash : ContentHash) (entry : OutboxEntry)
  | removeMany (hashes : List ContentHash)
  | purgeExpired (now : ℕ)
  | clearAll

def step (o : Outbox) : Op → Option Outbox
  | .insert now hash entry => some (o.insert now hash entry)
  | .removeMany hashes => some (o.removeMany hashes)
  | .purgeExpired now => some (o.purgeExpired now)
  | .clearAll => some {}

def Op.inserted : Op → Option ContentHash
  | .insert _ hash _ => some hash
  | _ => none

/-- The hashes that were ever inserted, by their last insertion and the newest first. -/
def recency (l : List Op) : List ContentHash := latest id (l.filterMap Op.inserted).reverse

def sizeIn (entries : Stage) (k : ContentHash) : ℕ := entries[k]?.elim 0 (·.payload.length)

/-- The order and the byte counter are those of the entries. -/
structure Kept (o : Outbox) : Prop where
  nodup : o.order.Nodup
  keys : ∀ k, k ∈ o.order ↔ o.entries[k]?.isSome
  bytes : o.totalBytes = (o.order.map (sizeIn o.entries)).sum

variable {o : Outbox} {h k : ContentHash} {e x : OutboxEntry} {now : ℕ} {l : List ContentHash}
  {entries : Stage} {totalBytes : ℕ}

theorem sizeIn_of_some (hx : entries[k]? = some x) : sizeIn entries k = x.payload.length := by
  rw [sizeIn, hx]
  rfl

/-- The sizes that are left when one entry goes. -/
theorem sum_erase (hk : h ∉ l) :
    (l.map (sizeIn (entries.erase h))).sum = (l.map (sizeIn entries)).sum := by
  congr 1
  refine List.map_congr_left fun k hmem ↦ ?_
  have hne : h ≠ k := fun heq ↦ hk (heq ▸ hmem)
  rw [sizeIn, OrderedMap.lookup_erase, if_neg hne, sizeIn]

theorem Kept.remove (hk : o.Kept) : (o.remove h).Kept := by
  rw [Outbox.remove]
  split
  case h_2 => exact hk
  case h_1 old hold =>
    have hmem : h ∈ o.order := (hk.keys h).mpr (by rw [hold]; rfl)
    have hnot : h ∉ o.order.erase h := hk.nodup.not_mem_erase
    refine ⟨hk.nodup.erase h, fun k ↦ ?_, ?_⟩
    · rw [OrderedMap.lookup_erase, hk.nodup.mem_erase_iff, hk.keys]
      by_cases heq : h = k
      · simp [heq]
      · simp [heq, Ne.symm heq]
    · rw [sum_erase hnot, hk.bytes, ← sizeIn_of_some hold,
        ((List.perm_cons_erase hmem).map (sizeIn o.entries)).sum_eq, List.map_cons, List.sum_cons]
      exact Nat.add_sub_cancel_left _ _

theorem Kept.removeMany (hk : o.Kept) : (o.removeMany l).Kept := by
  induction l generalizing o with
  | nil => exact hk
  | cons h l ih => exact ih hk.remove

theorem Kept.push (hk : o.Kept) (hnew : o.entries[h]? = none) :
    Kept ⟨o.order ++ [h], o.entries.insert h e, o.totalBytes + e.payload.length⟩ := by
  have hnot : h ∉ o.order := by
    rw [hk.keys, hnew]
    simp
  refine ⟨?_, fun k ↦ ?_, ?_⟩
  · rw [List.nodup_append_comm]
    exact List.nodup_cons.mpr ⟨hnot, hk.nodup⟩
  · rw [OrderedMap.lookup_insert, List.mem_append, List.mem_singleton, hk.keys]
    by_cases heq : h = k
    · simp [heq]
    · simp [heq, Ne.symm heq]
  · have hsame : (o.order.map (sizeIn (o.entries.insert h e))) = o.order.map (sizeIn o.entries) := by
      refine List.map_congr_left fun k hmem ↦ ?_
      have hne : h ≠ k := fun heq ↦ hnot (heq ▸ hmem)
      rw [sizeIn, OrderedMap.lookup_insert, if_neg hne, sizeIn]
    have hself : sizeIn (o.entries.insert h e) h = e.payload.length :=
      sizeIn_of_some (by rw [OrderedMap.lookup_insert, if_pos rfl])
    simp [hk.bytes, hsame, hself]

/-- The eviction stops within the caps, and what it leaves are the newest entries. -/
theorem Kept.evictFrom (hk : Kept ⟨l, entries, totalBytes⟩) :
    (evictFrom l entries totalBytes).Kept ∧
      (evictFrom l entries totalBytes).order.length ≤ MAX_ITEMS ∧
      (evictFrom l entries totalBytes).totalBytes ≤ MAX_TOTAL_BYTES ∧
      (evictFrom l entries totalBytes).order <:+ l := by
  induction l generalizing entries totalBytes with
  | nil =>
    have hbytes : totalBytes = 0 := hk.bytes
    refine ⟨hk, Nat.zero_le _, ?_, List.suffix_refl _⟩
    rw [Outbox.evictFrom, hbytes]
    exact Nat.zero_le _
  | cons oldest l ih =>
    rw [Outbox.evictFrom]
    split
    case isFalse hfull =>
      rw [not_or, Nat.not_lt, Nat.not_lt] at hfull
      exact ⟨hk, hfull.1, hfull.2, List.suffix_refl _⟩
    case isTrue =>
      obtain ⟨old, hold⟩ := Option.isSome_iff_exists.mp ((hk.keys oldest).mp List.mem_cons_self)
      obtain ⟨hnot, hnodup⟩ := List.nodup_cons.mp hk.nodup
      have hrest : Kept ⟨l, entries.erase oldest, totalBytes - old.payload.length⟩ := by
        have := hk.remove (h := oldest)
        rw [Outbox.remove] at this
        simpa only [hold, List.erase_cons_head] using this
      obtain ⟨hkept, hitems, hbytes, hsuffix⟩ := ih hrest
      rw [hold]
      exact ⟨hkept, hitems, hbytes, hsuffix.trans (List.suffix_cons _ _)⟩

/-- An entry that fits alone is not evicted as the newest one. -/
theorem Kept.newest_stays (hk : Kept ⟨l ++ [h], entries, totalBytes⟩)
    (hsize : sizeIn entries h ≤ MAX_TOTAL_BYTES) : h ∈ (Outbox.evictFrom (l ++ [h]) entries totalBytes).order := by
  induction l generalizing entries totalBytes with
  | nil =>
    have hbytes : totalBytes = sizeIn entries h := by simpa using hk.bytes
    rw [List.nil_append, Outbox.evictFrom, if_neg]
    · exact List.mem_singleton_self h
    · rw [hbytes, not_or, Nat.not_lt, Nat.not_lt]
      exact ⟨show 1 ≤ MAX_ITEMS by decide, hsize⟩
  | cons oldest l ih =>
    rw [List.cons_append] at hk ⊢
    rw [Outbox.evictFrom]
    split
    case isFalse => simp
    case isTrue =>
      obtain ⟨old, hold⟩ := Option.isSome_iff_exists.mp ((hk.keys oldest).mp List.mem_cons_self)
      obtain ⟨hnot, -⟩ := List.nodup_cons.mp hk.nodup
      have hne : oldest ≠ h := fun heq ↦ hnot (by simp [heq])
      have hrest : Kept ⟨l ++ [h], entries.erase oldest, totalBytes - old.payload.length⟩ := by
        have := hk.remove (h := oldest)
        rw [Outbox.remove] at this
        simpa only [hold, List.erase_cons_head] using this
      rw [hold]
      apply ih hrest
      rwa [sizeIn, OrderedMap.lookup_erase, if_neg hne, ← sizeIn]

theorem lookup_remove_self : (o.remove h).entries[h]? = none := by
  rw [Outbox.remove]
  split
  case h_1 => rw [OrderedMap.lookup_erase, if_pos rfl]
  case h_2 hnone => exact hnone

theorem Kept.insert (hk : o.Kept) :
    (o.insert now h e).Kept ∧ (o.insert now h e).order.length ≤ MAX_ITEMS ∧
      (o.insert now h e).totalBytes ≤ MAX_TOTAL_BYTES ∧
      (o.insert now h e).order <:+ ((o.purgeExpired now).remove h).order ++ [h] :=
  (hk.removeMany.remove.push lookup_remove_self).evictFrom

theorem Kept.insert_stays (hk : o.Kept) (hsize : e.payload.length ≤ Proto.MAX_PAYLOAD) :
    (o.insert now h e).entries[h]? = some e := by
  let o' := (o.purgeExpired now).remove h
  have hself : (o'.entries.insert h e)[h]? = some e := by rw [OrderedMap.lookup_insert, if_pos rfl]
  have hroom : sizeIn (o'.entries.insert h e) h ≤ MAX_TOTAL_BYTES := by
    rw [sizeIn_of_some hself]
    exact hsize.trans (Nat.le_mul_of_pos_left _ (by decide))
  have hmem : h ∈ (o.insert now h e).order :=
    (hk.removeMany.remove.push lookup_remove_self).newest_stays hroom
  obtain ⟨x, hx⟩ := Option.isSome_iff_exists.mp ((hk.insert.1.keys h).mp hmem)
  have hold := lookup_evictFrom hx
  rw [hself] at hold
  rw [hx, hold]

/-- Nothing but an insertion puts a hash into the order, or adds to the counter. -/
theorem remove_le : (o.remove h).order.Sublist o.order ∧ (o.remove h).totalBytes ≤ o.totalBytes := by
  rw [Outbox.remove]
  split
  · exact ⟨List.erase_sublist, Nat.sub_le _ _⟩
  · exact ⟨.refl _, le_rfl⟩

theorem removeMany_le :
    (o.removeMany l).order.Sublist o.order ∧ (o.removeMany l).totalBytes ≤ o.totalBytes := by
  induction l generalizing o with
  | nil => exact ⟨.refl _, le_rfl⟩
  | cons h l ih =>
    have hone : (o.remove h).order.Sublist o.order ∧ (o.remove h).totalBytes ≤ o.totalBytes :=
      remove_le
    obtain ⟨horder, hbytes⟩ : ((o.remove h).removeMany l).order.Sublist (o.remove h).order ∧
        ((o.remove h).removeMany l).totalBytes ≤ (o.remove h).totalBytes := ih
    exact ⟨horder.trans hone.1, hbytes.trans hone.2⟩

/-- What holds after every operation, the log of all of them being `ops`. -/
structure Upkept (ops : List Op) (o : Outbox) : Prop extends o.Kept where
  items : o.order.length ≤ MAX_ITEMS
  cap : o.totalBytes ≤ MAX_TOTAL_BYTES
  newest : o.order.reverse.Sublist (recency ops)

variable {ops : List Op} {op : Op} {o' : Outbox}

theorem recency_snoc (hop : op.inserted = none) : recency (ops ++ [op]) = recency ops := by
  simp [recency, hop]

theorem Upkept.removeMany (hu : Upkept ops o) (hop : op.inserted = none) :
    Upkept (ops ++ [op]) (o.removeMany l) := by
  obtain ⟨horder, hbytes⟩ : (o.removeMany l).order.Sublist o.order ∧
    (o.removeMany l).totalBytes ≤ o.totalBytes := removeMany_le
  refine ⟨hu.toKept.removeMany, horder.length_le.trans hu.items, hbytes.trans hu.cap, ?_⟩
  rw [recency_snoc hop]
  exact horder.reverse.trans hu.newest

theorem Upkept.insert (hu : Upkept ops o) :
    Upkept (ops ++ [.insert now h e]) (o.insert now h e) := by
  obtain ⟨hkept, hitems, hcap, hsuffix⟩ : (o.insert now h e).Kept ∧ _ := hu.toKept.insert
  refine ⟨hkept, hitems, hcap, ?_⟩
  let rest := ((o.purgeExpired now).remove h).order
  have hrest : rest.Sublist o.order :=
    remove_le.1.trans removeMany_le.1
  have hkept' : ((o.purgeExpired now).remove h).Kept := hu.toKept.removeMany.remove
  have hnot : h ∉ rest := by
    rw [hkept'.keys, lookup_remove_self]
    simp
  have hothers : rest.reverse.filter (· ≠ h) = rest.reverse := by
    refine List.filter_eq_self.mpr fun k hk ↦ ?_
    have hne : k ≠ h := fun heq ↦ hnot (heq ▸ List.mem_reverse.mp hk)
    simpa using hne
  have hlog : recency (ops ++ [.insert now h e]) = h :: (recency ops).filter (· ≠ h) := by
    simp [recency, Op.inserted, latest]
  rw [hlog]
  have hout : (o.insert now h e).order.reverse.Sublist (h :: rest.reverse) := by
    rw [← List.reverse_concat]
    exact hsuffix.sublist.reverse
  refine hout.trans ?_
  rw [← hothers]
  exact ((hrest.reverse.trans hu.newest).filter _).cons_cons h

theorem Upkept.step (hu : Upkept ops o) (hs : o.step op = some o') : Upkept (ops ++ [op]) o' := by
  cases op with
  | insert now h e => exact Option.some.inj hs ▸ hu.insert
  | removeMany hashes => exact Option.some.inj hs ▸ hu.removeMany rfl
  | purgeExpired now => exact Option.some.inj hs ▸ hu.removeMany rfl
  | clearAll =>
    obtain rfl := Option.some.inj hs
    exact ⟨⟨.nil, by simp, rfl⟩, Nat.zero_le _, Nat.zero_le _, List.nil_sublist _⟩

theorem upkept_run (hr : Run step Always {} ops o) : Upkept ops o := by
  refine hr.history (I := Upkept) ?_ fun _ _ _ _ _ hu _ hs ↦ hu.step hs
  exact ⟨⟨.nil, by simp, rfl⟩, Nat.zero_le _, Nat.zero_le _, List.nil_sublist _⟩

theorem Kept.perm (hk : o.Kept) : o.order.Perm o.entries.keys := by
  refine (List.perm_ext_iff_of_nodup hk.nodup ?_).mpr fun k ↦ ?_
  · rw [← ExtTreeMap.map_fst_toList_eq_keys]
    exact OrderedMap.keys_nodup
  · rw [hk.keys, ExtTreeMap.mem_keys, ExtTreeMap.mem_iff_isSome_getElem?]

/-- The counter is about the entries. -/
theorem Kept.bytes_entries (hk : o.Kept) :
    o.totalBytes = (o.entries.toList.map fun x ↦ x.2.payload.length).sum := by
  have hsizes : o.entries.toList.map (fun x ↦ x.2.payload.length) =
      o.entries.keys.map (sizeIn o.entries) := by
    rw [← ExtTreeMap.map_fst_toList_eq_keys, List.map_map]
    refine List.map_congr_left fun x hx ↦ ?_
    exact (sizeIn_of_some (OrderedMap.mem_entries.mp hx)).symm
  rw [hk.bytes, hsizes, (hk.perm.map _).sum_eq]

/-- The entry is there and not too old. -/
def Live (o : Outbox) (now : ℕ) (h : ContentHash) : Prop :=
  ∃ e, o.entries[h]? = some e ∧ now - e.created ≤ MAX_AGE

theorem isSome_get : (o.get now h).isSome ↔ o.Live now h := by
  rw [Outbox.get, Live, Option.isSome_iff_exists]
  refine exists_congr fun e ↦ ?_
  rw [Option.filter_eq_some_iff]
  simp [isExpired]

theorem Kept.mem_hashes (hk : o.Kept) : h ∈ o.hashes now ↔ o.Live now h := by
  rw [Outbox.hashes, List.mem_filter, List.mem_reverse, isSome_get, hk.keys]
  refine and_iff_right_of_imp ?_
  rintro ⟨e, he, -⟩
  rw [he]
  rfl

/-- After any operations the order lists the entries' keys, the counter adds up their sizes, the
caps hold, a payload of legal size gets in, and what is live is listed, newest first. -/
theorem representation (hr : Run step Always {} ops o) :
    o.order.Perm o.entries.keys ∧ o.order.Nodup ∧
      o.totalBytes = (o.entries.toList.map fun x ↦ x.2.payload.length).sum ∧
      o.order.length ≤ MAX_ITEMS ∧ o.totalBytes ≤ MAX_TOTAL_BYTES ∧
      (∀ now h e, e.payload.length ≤ Proto.MAX_PAYLOAD → (o.insert now h e).entries[h]? = some e) ∧
      ∀ now, (o.hashes now).Sublist (recency ops) ∧
        ∀ h, (h ∈ o.hashes now ↔ o.Live now h) ∧ ((o.get now h).isSome ↔ o.Live now h) := by
  have hu := upkept_run hr
  refine ⟨hu.perm, hu.nodup, hu.bytes_entries, hu.items, hu.cap,
    fun now h e hsize ↦ hu.insert_stays hsize, fun now ↦ ⟨?_, fun h ↦ ⟨hu.mem_hashes, isSome_get⟩⟩⟩
  exact List.filter_sublist.trans hu.newest

def textEntry (payload : List UInt8) (created : ℕ) : OutboxEntry :=
  ⟨payload, .text, 1, 0, created, ⟨none, false, 0⟩⟩

/-- Two texts, of which the first comes again and another is removed. -/
def refreshed : List Op :=
  [.insert 0 1 (textEntry [104, 105] 0), .insert 5 2 (textEntry [111, 107] 5),
    .insert 6 3 (textEntry [33] 6), .insert 9 1 (textEntry [104, 105, 33] 9), .removeMany [3]]

theorem representation_refreshed :
    ∃ o, Run step Always {} refreshed o ∧ o.hashes 10 = [1, 2] ∧
      o.order.Perm o.entries.keys ∧ o.order.Nodup ∧
      o.totalBytes = (o.entries.toList.map fun x ↦ x.2.payload.length).sum ∧
      o.order.length ≤ MAX_ITEMS ∧ o.totalBytes ≤ MAX_TOTAL_BYTES ∧
      (∀ now h e, e.payload.length ≤ Proto.MAX_PAYLOAD → (o.insert now h e).entries[h]? = some e) ∧
      ∀ now, (o.hashes now).Sublist (recency refreshed) ∧
        ∀ h, (h ∈ o.hashes now ↔ o.Live now h) ∧ ((o.get now h).isSome ↔ o.Live now h) := by
  have hrun : Run step Always {} refreshed _ := run_of_isSome (by decide +kernel)
  exact ⟨_, hrun, by decide +kernel, representation hrun⟩

end FluxSync.Pipeline.Outbox
