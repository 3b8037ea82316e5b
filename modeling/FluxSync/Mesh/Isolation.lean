import FluxSync.Mesh.Reassembly

/-! ## Transfers side by side -/

namespace FluxSync.Mesh

open Std Proto Slices Runs

variable {cbor : Ciborium} {blake3 : ByteArray → ContentHash} {peer a b : PeerId}
  {map map' : ReassemblyMap} {key k : ContentHash} {hash h : ContentHash} {now : ℕ}
  {r : Reassembly} {msg : Msg} {s s' : Receiver} {l : List Delivery} {d : Delivery}

/-- The transfer of an item frame or a chunk that goes into the map. -/
def collects : Msg → Option ContentHash
  | .clipboardItem item => if item.payload = [] then some item.hash else none
  | .chunk c => if MAX_CHUNKS < c.total ∨ c.total = 0 then none else some c.itemId
  | _ => none

/-- A frame of `peer` puts its transfer into a map that has no room for it. -/
def Overflows (blake3 : ByteArray → ContentHash) (map : ReassemblyMap) (peer : PeerId)
    (msg : Msg) : Prop :=
  ∃ hash, collects msg = some hash ∧ map[reassemblyKey blake3 peer hash]? = none ∧ 5 ≤ map.size

/-- No entry has been updated before the one under `k`. -/
def LeastRecent (map : ReassemblyMap) (k : ContentHash) : Prop :=
  ∃ r : Reassembly, map[k]? = some r ∧ ∀ (k' : ContentHash) (r' : Reassembly), map[k']? = some r' → r.lastUpdate ≤ r'.lastUpdate

theorem foldl_least (e : ContentHash × Reassembly) (rest : List (ContentHash × Reassembly)) :
    let m := rest.foldl (fun m e ↦ if e.2.lastUpdate < m.2.lastUpdate then e else m) e
    m ∈ e :: rest ∧ ∀ x ∈ e :: rest, m.2.lastUpdate ≤ x.2.lastUpdate := by
  induction rest generalizing e with
  | nil => simp
  | cons x rest ih =>
    rw [List.foldl_cons]
    obtain ⟨hmem, hle⟩ := ih (if x.2.lastUpdate < e.2.lastUpdate then x else e)
    refine ⟨?_, fun y hy ↦ ?_⟩
    · rcases List.mem_cons.mp hmem with hm | hm
      · rw [hm]
        split <;> simp
      · exact List.mem_cons_of_mem _ (List.mem_cons_of_mem _ hm)
    · have hhead := hle _ List.mem_cons_self
      have hboth : (if x.2.lastUpdate < e.2.lastUpdate then x else e).2.lastUpdate ≤ e.2.lastUpdate ∧
          (if x.2.lastUpdate < e.2.lastUpdate then x else e).2.lastUpdate ≤ x.2.lastUpdate := by
        split <;> omega
      rcases List.mem_cons.mp hy with rfl | hy
      · exact hhead.trans hboth.1
      · rcases List.mem_cons.mp hy with rfl | hy
        · exact hhead.trans hboth.2
        · exact hle y (List.mem_cons_of_mem _ hy)

theorem oldest_leastRecent (h : oldest map = some k) : LeastRecent map k := by
  rw [oldest] at h
  split at h
  · cases h
  · rename_i e rest htoList
    cases h
    obtain ⟨hmem, hle⟩ := foldl_least e rest
    refine ⟨_, OrderedMap.mem_entries.mp (htoList ▸ hmem), fun k' r' hk ↦ ?_⟩
    exact hle (k', r') (htoList ▸ OrderedMap.mem_entries.mpr hk)

theorem exists_oldest (h : 0 < map.size) : ∃ k, oldest map = some k := by
  rw [oldest]
  split
  case h_1 hnil =>
    rw [← ExtTreeMap.length_toList, hnil] at h
    exact absurd h (Nat.lt_irrefl 0)
  case h_2 => exact ⟨_, rfl⟩

/-- Room is made for a new transfer only, and then at the cost of one. -/
theorem makeRoom_cases (map : ReassemblyMap) (key : ContentHash) :
    (makeRoom map key = map ∧ (map[key]? = none → map.size < 5)) ∨
      (map[key]? = none ∧ 5 ≤ map.size ∧ ∃ k, oldest map = some k ∧ makeRoom map key = map.erase k) := by
  rw [makeRoom, ExtTreeMap.contains_eq_isSome_getElem?]
  cases hk : map[key]? with
  | some r => exact .inl ⟨rfl, fun h ↦ by cases h⟩
  | none =>
    by_cases hsize : 5 ≤ map.size
    · obtain ⟨k, hold⟩ := exists_oldest (by omega : 0 < map.size)
      refine .inr ⟨rfl, hsize, k, hold, ?_⟩
      simp [hsize, hold]
    · refine .inl ⟨?_, fun _ ↦ by omega⟩
      simp [hsize]

theorem lookup_settle_ne {c : Option CompleteItem} (hk : k ≠ key) :
    (settle map key r c).1[k]? = map[k]? := by
  cases c with
  | none => exact OrderedMap.lookup_insert.trans (if_neg (Ne.symm hk))
  | some c => exact OrderedMap.lookup_erase.trans (if_neg (Ne.symm hk))

/-- The entry that a frame of `peer` leaves for its transfer, where it leaves one. -/
structure Reassembly.Updates (peer : PeerId) (hash : ContentHash) (entry : Option Reassembly)
    (r : Reassembly) : Prop where
  source : r.source = entry.elim peer Reassembly.source
  itemHash : r.itemHash = entry.elim hash Reassembly.itemHash
  slots : (∀ old ∈ entry, old.chunks.length ≤ MAX_CHUNKS.toNat) → r.chunks.length ≤ MAX_CHUNKS.toNat

theorem updates_headed {entry : Option Reassembly} {item : ClipboardItem} :
    (Reassembly.headed entry peer item now).Updates peer item.hash entry := by
  cases entry with
  | none => exact ⟨rfl, rfl, fun _ ↦ Nat.zero_le _⟩
  | some old => exact ⟨rfl, rfl, fun h ↦ h old rfl⟩

theorem updates_filled {entry : Option Reassembly} {c : Chunk} (hc : c.total ≤ MAX_CHUNKS) :
    (Reassembly.filled entry peer c now).Updates peer c.itemId entry := by
  have hlen : c.total.toNat ≤ MAX_CHUNKS.toNat := UInt16.le_iff_toNat_le.mp hc
  have hset : ∀ slots : List (Option (List UInt8)), slots.length ≤ MAX_CHUNKS.toNat →
      (if c.idx.toNat < slots.length then slots.set c.idx.toNat (some c.data)
        else slots).length ≤ MAX_CHUNKS.toNat := by
    intro slots hslots
    split
    · rwa [List.length_set]
    · exact hslots
  cases entry with
  | none =>
    refine ⟨rfl, rfl, fun _ ↦ hset _ ?_⟩
    split <;> exact List.length_replicate.trans_le hlen
  | some old =>
    refine ⟨rfl, rfl, fun h ↦ hset _ ?_⟩
    split
    · rwa [List.length_replicate]
    · exact h old rfl

/-- What a frame does to the map goes through the entry of its transfer. -/
theorem receive_cases (blake3 : ByteArray → ContentHash) (map : ReassemblyMap) (peer : PeerId)
    (msg : Msg) (now : ℕ) :
    (collects msg = none ∧ (receive blake3 map peer msg now).1 = map) ∨
      ∃ hash r c, collects msg = some hash ∧
        r.Updates peer hash map[reassemblyKey blake3 peer hash]? ∧
        receive blake3 map peer msg now = settle (makeRoom map (reassemblyKey blake3 peer hash))
          (reassemblyKey blake3 peer hash) r c := by
  cases msg with
  | clipboardItem item =>
    rw [receive, collects]
    split
    · refine .inr ⟨item.hash, _, _, rfl, ?_, rfl⟩
      rw [← @lookup_makeRoom map]
      exact updates_headed
    · exact .inl ⟨rfl, rfl⟩
  | chunk c =>
    rw [receive, collects, receiveChunk]
    split
    · exact .inl ⟨rfl, rfl⟩
    · rename_i hc
      refine .inr ⟨c.itemId, _, _, rfl, ?_, rfl⟩
      rw [← @lookup_makeRoom map]
      exact updates_filled (UInt16.not_lt.mp fun hlt ↦ hc (.inl hlt))
  | _ => exact .inl ⟨rfl, rfl⟩

theorem transferOf_collects (h : collects msg = some hash) : transferOf msg = some hash := by
  cases msg with
  | clipboardItem item => exact (Option.ite_none_right_eq_some.mp h).2
  | chunk c => exact (Option.ite_none_left_eq_some.mp h).2
  | _ => cases h

theorem size_makeRoom (key : ContentHash) (h : map.size ≤ 5) :
    (makeRoom map key).size ≤ 5 ∧ ((makeRoom map key)[key]? = none → (makeRoom map key).size < 5) := by
  rw [lookup_makeRoom]
  rcases makeRoom_cases map key with ⟨heq, hroom⟩ | ⟨-, hfull, k, hold, heq⟩
  · rw [heq]
    exact ⟨h, hroom⟩
  · obtain ⟨r, hr, -⟩ := oldest_leastRecent hold
    have hsize : (map.erase k).size = map.size - 1 := by
      rw [ExtTreeMap.size_erase, ExtTreeMap.contains_eq_isSome_getElem?, hr]
      rfl
    rw [heq, hsize]
    omega

theorem size_receive (h : map.size ≤ 5) : (receive blake3 map peer msg now).1.size ≤ 5 := by
  rcases receive_cases blake3 map peer msg now with ⟨-, heq⟩ | ⟨hash, r, c, -, -, heq⟩
  · rwa [heq]
  · obtain ⟨hle, hroom⟩ := size_makeRoom (reassemblyKey blake3 peer hash) h
    rw [heq]
    cases c with
    | some c => exact ExtTreeMap.size_erase_le.trans hle
    | none =>
      change ExtTreeMap.size (ExtTreeMap.insert _ _ _) ≤ 5
      rw [ExtTreeMap.size_insert]
      split
      · exact hle
      · rename_i hnew
        exact hroom (ExtTreeMap.getElem?_eq_none hnew)

/-- Every entry stands under the key of the transfer that it is of. -/
structure Sound (blake3 : ByteArray → ContentHash) (map : ReassemblyMap) : Prop where
  size : map.size ≤ 5
  keyed : ∀ (k : ContentHash) (r : Reassembly), map[k]? = some r → k = reassemblyKey blake3 r.source r.itemHash
  slots : ∀ (k : ContentHash) (r : Reassembly), map[k]? = some r → r.chunks.length ≤ MAX_CHUNKS.toNat

theorem lookup_makeRoom_some (h : (makeRoom map key)[k]? = some r) : map[k]? = some r := by
  rcases makeRoom_cases map key with ⟨heq, -⟩ | ⟨-, -, k', -, heq⟩
  · rwa [heq] at h
  · rw [heq, OrderedMap.lookup_erase] at h
    exact (Option.ite_none_left_eq_some.mp h).2

/-- What is in the map after a frame was there before, or is its transfer's entry. -/
theorem lookup_receive_some (h : (receive blake3 map peer msg now).1[k]? = some r) :
    map[k]? = some r ∨ ∃ hash, collects msg = some hash ∧ k = reassemblyKey blake3 peer hash ∧
      r.Updates peer hash map[reassemblyKey blake3 peer hash]? := by
  rcases receive_cases blake3 map peer msg now with ⟨-, heq⟩ | ⟨hash, r', c, hc, hr, heq⟩
  · exact .inl (heq ▸ h)
  · rw [heq] at h
    by_cases hk : k = reassemblyKey blake3 peer hash
    · subst hk
      rw [lookup_settle] at h
      obtain rfl := Option.some.inj (Option.ite_none_left_eq_some.mp h).2
      exact .inr ⟨hash, hc, rfl, hr⟩
    · rw [lookup_settle_ne hk] at h
      exact .inl (lookup_makeRoom_some h)

theorem Sound.receive (h : Sound blake3 map) : Sound blake3 (receive blake3 map peer msg now).1 where
  size := size_receive h.size
  keyed k r hk := by
    rcases lookup_receive_some hk with hk | ⟨hash, -, rfl, hr⟩
    · exact h.keyed k r hk
    · rw [hr.source, hr.itemHash]
      cases hold : map[reassemblyKey blake3 peer hash]? with
      | none => rfl
      | some old => exact h.keyed _ old hold
  slots k r hk := by
    rcases lookup_receive_some hk with hk | ⟨hash, -, rfl, hr⟩
    · exact h.slots k r hk
    · exact hr.slots fun old hold ↦ h.slots _ old hold

theorem Sound.step (h : Sound blake3 s.map) (hs : s.step cbor blake3 d = some s') :
    Sound blake3 s'.map := by
  cases d with
  | cleanup now =>
    cases hs
    have hin (k : ContentHash) (r : Reassembly) (hk : (cleanup s.map now)[k]? = some r) :
        s.map[k]? = some r := (OrderedMap.lookup_filter.mp hk).1
    exact ⟨ExtTreeMap.size_filter_le_size.trans h.size, fun k r hk ↦ h.keyed k r (hin k r hk),
      fun k r hk ↦ h.slots k r (hin k r hk)⟩
  | datagram peer bytes now =>
    cases hd : decode cbor bytes with
    | error e =>
      simp only [Receiver.step, hd, Option.some.injEq] at hs
      exact hs ▸ h
    | ok frame =>
      rw [(step_datagram hd hs).1]
      exact h.receive

theorem Sound.run {ok : Receiver → Delivery → Prop} (h : Sound blake3 s.map)
    (hrun : Run (Receiver.step cbor blake3) ok s l s') : Sound blake3 s'.map :=
  hrun.invariant (I := fun s ↦ Sound blake3 s.map) h fun _ _ _ ht _ hstep ↦ ht.step hstep

theorem sound_run {ok : Receiver → Delivery → Prop}
    (h : Run (Receiver.step cbor blake3) ok ⟨∅, []⟩ l s) : Sound blake3 s.map := by
  refine Sound.run ⟨?_, ?_, ?_⟩ h <;> simp

/-- The other transfers stay as they are, but for the one that has to make room. -/
theorem receive_other (map : ReassemblyMap) (now : ℕ) (hk : ∀ hash, collects msg = some hash → k ≠ reassemblyKey blake3 peer hash) :
    (¬ Overflows blake3 map peer msg →
      (receive blake3 map peer msg now).1[k]? = map[k]?) ∧
    (Overflows blake3 map peer msg →
      (receive blake3 map peer msg now).1[k]? = if oldest map = some k then none else map[k]?) := by
  rcases receive_cases blake3 map peer msg now with ⟨hnone, heq⟩ | ⟨hash, r, c, hsome, hr, heq⟩
  · rw [heq]
    refine ⟨fun _ ↦ rfl, ?_⟩
    rintro ⟨hash, hsome, -⟩
    cases hnone.symm.trans hsome
  · rw [heq, lookup_settle_ne (hk hash hsome)]
    rcases makeRoom_cases map (reassemblyKey blake3 peer hash) with
      ⟨hmap, hroom⟩ | ⟨habsent, hfull, k', hold, hmap⟩
    · rw [hmap]
      refine ⟨fun _ ↦ rfl, ?_⟩
      rintro ⟨hash', hsome', habsent, hfull⟩
      obtain rfl := Option.some.inj (hsome.symm.trans hsome')
      exact absurd (hroom habsent) (Nat.not_lt.mpr hfull)
    · refine ⟨fun hno ↦ absurd ⟨hash, hsome, habsent, hfull⟩ hno, fun _ ↦ ?_⟩
      rw [hmap, OrderedMap.lookup_erase, hold]
      simp only [Option.some.injEq]

/-- What a frame does to its own transfer depends on nothing else in the map. -/
theorem receive_own (now : ℕ) (ht : transferOf msg = some hash)
    (h : map[reassemblyKey blake3 peer hash]? = map'[reassemblyKey blake3 peer hash]?) :
    (receive blake3 map peer msg now).2 = (receive blake3 map' peer msg now).2 ∧
      (receive blake3 map peer msg now).1[reassemblyKey blake3 peer hash]? =
        (receive blake3 map' peer msg now).1[reassemblyKey blake3 peer hash]? := by
  cases msg with
  | clipboardItem item =>
    obtain rfl := Option.some.inj ht
    rw [receive, receive]
    split
    · simp only [receiveHeader, settle_snd, lookup_settle, lookup_makeRoom, h, and_self]
    · exact ⟨rfl, h⟩
  | chunk c =>
    obtain rfl := Option.some.inj ht
    rw [receive, receive, receiveChunk, receiveChunk]
    split
    · exact ⟨rfl, h⟩
    · simp only [settle_snd, lookup_settle, lookup_makeRoom, h, and_self]
  | _ => cases ht

/-- The transfer of every frame is in `T`. -/
def Delivery.Within (cbor : Ciborium) (T : Set (PeerId × ContentHash)) : Delivery → Prop
  | .datagram peer bytes _ => ∀ frame hash, decode cbor bytes = .ok frame →
      transferOf frame.msg = some hash → (peer, hash) ∈ T
  | .cleanup _ => True

/-- A frame of the transfer, or a tick. -/
def Delivery.concerns (cbor : Ciborium) (peer : PeerId) (hash : ContentHash) : Delivery → Bool
  | .datagram source bytes _ => source = peer &&
      (decode cbor bytes).toOption.bind (transferOf ·.msg) = some hash
  | .cleanup _ => true

/-- The step makes no room at the cost of the transfer. -/
def Spares (cbor : Ciborium) (blake3 : ByteArray → ContentHash) (peer : PeerId)
    (hash : ContentHash) (s : Receiver) : Delivery → Prop
  | .datagram source bytes _ => ∀ frame, decode cbor bytes = .ok frame →
      Overflows blake3 s.map source frame.msg → oldest s.map ≠ some (reassemblyKey blake3 peer hash)
  | .cleanup _ => True

variable {T : Set (PeerId × ContentHash)}

theorem concerned_step (hc : d.concerns cbor b h) {t t' : Receiver}
    (hmap : s.map[reassemblyKey blake3 b h]? = t.map[reassemblyKey blake3 b h]?)
    (hs : s.step cbor blake3 d = some s') (ht : t.step cbor blake3 d = some t') :
    s'.map[reassemblyKey blake3 b h]? = t'.map[reassemblyKey blake3 b h]? ∧
      ∃ c : Option CompleteItem, s'.handed = s.handed ++ c.toList ∧
        t'.handed = t.handed ++ c.toList ∧ ∀ x ∈ c, x.source = b ∧ x.hash = h := by
  cases d with
  | cleanup now =>
    cases hs
    cases ht
    refine ⟨?_, none, by simp, by simp, nofun⟩
    simp only [cleanup, ExtTreeMap.getElem?_filter', hmap]
  | datagram source bytes now =>
    obtain ⟨hsource, hd⟩ := Bool.and_eq_true_iff.mp hc
    obtain rfl := of_decide_eq_true hsource
    obtain ⟨frame, hdec, htransfer⟩ := Option.bind_eq_some_iff.mp (of_decide_eq_true hd)
    replace hdec : decode cbor bytes = .ok frame := by
      cases hbytes : decode cbor bytes with
      | error e => simp [hbytes, Except.toOption] at hdec
      | ok f => simpa [hbytes, Except.toOption] using hdec
    obtain ⟨hsmap, hshanded⟩ := step_datagram hdec hs
    obtain ⟨htmap, hthanded⟩ := step_datagram hdec ht
    obtain ⟨hout, hentry⟩ := receive_own now htransfer hmap
    refine ⟨by rw [hsmap, htmap, hentry], _, hshanded, hout ▸ hthanded, fun x hx ↦ ?_⟩
    obtain ⟨hx, hxhash⟩ := receive_source hx
    exact ⟨hx, Option.some.inj (hxhash.symm.trans htransfer)⟩

theorem unconcerned_step
    (hinj : T.InjOn fun t ↦ reassemblyKey blake3 t.1 t.2) (hT : (b, h) ∈ T)
    (hw : d.Within cbor T) (hspares : Spares cbor blake3 b h s d) (hc : ¬ d.concerns cbor b h)
    (hs : s.step cbor blake3 d = some s') :
    s'.map[reassemblyKey blake3 b h]? = s.map[reassemblyKey blake3 b h]? ∧
      ∃ c : Option CompleteItem, s'.handed = s.handed ++ c.toList ∧
        ∀ x ∈ c, ¬ (x.source = b ∧ x.hash = h) := by
  cases d with
  | cleanup now => exact absurd rfl hc
  | datagram source bytes now =>
    cases hdec : decode cbor bytes with
    | error e =>
      simp only [Receiver.step, hdec, Option.some.injEq] at hs
      exact ⟨hs ▸ rfl, none, by simp [← hs], fun x hx ↦ by cases hx⟩
    | ok frame =>
      have hother : ∀ hash, transferOf frame.msg = some hash → (source, hash) ≠ (b, h) := by
        rintro hash ht heq
        obtain ⟨rfl, rfl⟩ := Prod.mk.inj heq
        exact hc (by simp [Delivery.concerns, hdec, Except.toOption, ht])
      obtain ⟨hmap, hhanded⟩ := step_datagram hdec hs
      have hkey : ∀ hash, collects frame.msg = some hash →
          reassemblyKey blake3 b h ≠ reassemblyKey blake3 source hash := by
        intro hash hcol heq
        have ht := transferOf_collects hcol
        exact hother hash ht (hinj (hw frame hash hdec ht) hT heq.symm)
      obtain ⟨hroom, hfull⟩ := receive_other s.map now hkey
      refine ⟨?_, _, hhanded, fun x hx hxb ↦ ?_⟩
      · rw [hmap]
        by_cases ho : Overflows blake3 s.map source frame.msg
        · rw [hfull ho, if_neg (hspares frame hdec ho)]
        · exact hroom ho
      · obtain ⟨hx, hxhash⟩ := receive_source hx
        exact hother _ hxhash (by rw [← hx, hxb.1, hxb.2])

/-- A transfer that is never evicted goes as it would if nothing else were received. -/
theorem alone_run (hinj : T.InjOn fun t ↦ reassemblyKey blake3 t.1 t.2) (hT : (b, h) ∈ T)
    (hrun : Run (Receiver.step cbor blake3)
      (fun s d ↦ d.Within cbor T ∧ Spares cbor blake3 b h s d) ⟨∅, []⟩ l s) :
    ∀ t, Run (Receiver.step cbor blake3) Always ⟨∅, []⟩ (l.filter (·.concerns cbor b h)) t →
      s.map[reassemblyKey blake3 b h]? = t.map[reassemblyKey blake3 b h]? ∧
        s.handed.filter (fun c ↦ c.source = b ∧ c.hash = h) = t.handed := by
  refine hrun.history (I := fun l s ↦ ∀ t, Run (Receiver.step cbor blake3) Always ⟨∅, []⟩
    (l.filter (·.concerns cbor b h)) t →
      s.map[reassemblyKey blake3 b h]? = t.map[reassemblyKey blake3 b h]? ∧
        s.handed.filter (fun c ↦ c.source = b ∧ c.hash = h) = t.handed) ?_ ?_
  · intro t ht
    obtain rfl := run_nil.mp ht
    exact ⟨rfl, rfl⟩
  · rintro l s d s' - ih ⟨hw, hspares⟩ hstep t ht
    by_cases hc : d.concerns cbor b h
    · rw [List.filter_append, List.filter_cons_of_pos hc, List.filter_nil] at ht
      obtain ⟨t₀, ht₀, -, htstep⟩ := run_snoc.mp ht
      obtain ⟨hmap, hhanded⟩ := ih t₀ ht₀
      obtain ⟨hmap', c, hsc, htc, hown⟩ := concerned_step hc hmap hstep htstep
      refine ⟨hmap', ?_⟩
      rw [hsc, htc, List.filter_append, hhanded, List.append_cancel_left_eq]
      exact List.filter_eq_self.mpr fun x hx ↦ decide_eq_true (hown x (Option.mem_toList.mp hx))
    · rw [List.filter_append, List.filter_cons_of_neg hc, List.filter_nil, List.append_nil] at ht
      obtain ⟨hmap, hhanded⟩ := ih t ht
      obtain ⟨hmap', c, hsc, hforeign⟩ := unconcerned_step hinj hT hw hspares hc hstep
      refine ⟨hmap'.trans hmap, ?_⟩
      rw [hsc, List.filter_append, hhanded, List.append_right_eq_self]
      exact List.filter_eq_nil_iff.mpr fun x hx ↦ by
        simpa using hforeign x (Option.mem_toList.mp hx)

/-- A frame leaves every transfer but its own as it is, unless it opens a sixth one: then the
least recently updated one goes. A transfer that this never happens to goes, with what is
handed on of it, as if nothing else were received. -/
theorem isolation (hinj : T.InjOn fun t ↦ reassemblyKey blake3 t.1 t.2)
    (hrun : Run (Receiver.step cbor blake3) (fun _ d ↦ d.Within cbor T) ⟨∅, []⟩ l s) :
    s.map.size ≤ 5 ∧
      (∀ a bytes now frame s', (Delivery.datagram a bytes now).Within cbor T →
        decode cbor bytes = .ok frame → s.step cbor blake3 (.datagram a bytes now) = some s' →
        (∃ c : Option CompleteItem, s'.handed = s.handed ++ c.toList ∧
          ∀ x ∈ c, x.source = a ∧ transferOf frame.msg = some x.hash) ∧
        (¬ Overflows blake3 s.map a frame.msg →
          ∀ b h, (b, h) ∈ T → (b = a → transferOf frame.msg ≠ some h) →
            s'.map[reassemblyKey blake3 b h]? = s.map[reassemblyKey blake3 b h]?) ∧
        (Overflows blake3 s.map a frame.msg → s.map.size = 5 ∧
          ∃ k, LeastRecent s.map k ∧ s'.map[k]? = none ∧
            ∀ b h, (b, h) ∈ T → (b = a → transferOf frame.msg ≠ some h) →
              reassemblyKey blake3 b h ≠ k →
                s'.map[reassemblyKey blake3 b h]? = s.map[reassemblyKey blake3 b h]?)) ∧
      ∀ b h t, (b, h) ∈ T → Run (Receiver.step cbor blake3) (Spares cbor blake3 b h) ⟨∅, []⟩ l s →
        Run (Receiver.step cbor blake3) Always ⟨∅, []⟩ (l.filter (·.concerns cbor b h)) t →
        s.map[reassemblyKey blake3 b h]? = t.map[reassemblyKey blake3 b h]? ∧
          s.handed.filter (fun c ↦ c.source = b ∧ c.hash = h) = t.handed := by
  have hsound := sound_run hrun
  refine ⟨hsound.size, fun a bytes now frame s' hw hdec hs ↦ ?_, fun b h t hT hspares ht ↦ ?_⟩
  · obtain ⟨hmap, hhanded⟩ := step_datagram hdec hs
    have hkey (b : PeerId) (h : ContentHash) (hT : (b, h) ∈ T)
        (hb : b = a → transferOf frame.msg ≠ some h) (hash : ContentHash)
        (hc : collects frame.msg = some hash) :
        reassemblyKey blake3 b h ≠ reassemblyKey blake3 a hash := by
      intro heq
      have htransfer := transferOf_collects hc
      obtain ⟨rfl, rfl⟩ := Prod.mk.inj (hinj hT (hw frame hash hdec htransfer) heq)
      exact hb rfl htransfer
    refine ⟨⟨_, hhanded, fun x hx ↦ receive_source hx⟩, fun hno b h hT hb ↦ ?_, fun ho ↦ ?_⟩
    · rw [hmap]
      exact (receive_other s.map now (hkey b h hT hb)).1 hno
    · obtain ⟨hash, hc, habsent, hfull⟩ := ho
      obtain ⟨k, hold⟩ := exists_oldest (by omega : 0 < s.map.size)
      have hleast := oldest_leastRecent hold
      refine ⟨Nat.le_antisymm hsound.size hfull, k, hleast, ?_, fun b h hT hb hk ↦ ?_⟩
      · rw [hmap, (receive_other s.map now fun hash' hc' ↦ ?_).2 ⟨hash, hc, habsent, hfull⟩, if_pos hold]
        obtain rfl := Option.some.inj (hc.symm.trans hc')
        obtain ⟨r, hr, -⟩ := hleast
        rintro rfl
        cases habsent.symm.trans hr
      · rw [hmap, (receive_other s.map now (hkey b h hT hb)).2 ⟨hash, hc, habsent, hfull⟩, hold,
          if_neg fun heq ↦ hk (Option.some.inj heq).symm]
  · exact alone_run hinj hT (hrun.both hspares) t ht

def headerFrom (peer : PeerId) : Delivery :=
  .datagram peer (standardCbor.write (anItem.frame [])) 0

/-- Every byte tells in this hash. -/
def polynomialHash (bytes : ByteArray) : ContentHash :=
  .ofNat 256 (bytes.data.toList.foldl (fun n b ↦ 31 * n + b.toNat) 0)

theorem isolation_sameHash :
    ∃ s s' : Receiver, Run (Receiver.step standardCbor polynomialHash) Always ⟨∅, []⟩ [headerFrom 1] s ∧
      s.step standardCbor polynomialHash (headerFrom 2) = some s' ∧
      s'.map[reassemblyKey polynomialHash 1 0xAB]? = s.map[reassemblyKey polynomialHash 1 0xAB]? ∧
      ∀ c ∈ s'.handed, c.source = 2 := by
  have hdec : decode standardCbor (standardCbor.write (anItem.frame [])) = .ok (anItem.frame []) :=
    anItem_sized.decode_header
  let T : Set (PeerId × ContentHash) := {(1, 0xAB), (2, 0xAB)}
  have hinj : T.InjOn fun t ↦ reassemblyKey polynomialHash t.1 t.2 := by
    have hne : reassemblyKey polynomialHash 1 0xAB ≠ reassemblyKey polynomialHash 2 0xAB := by
      decide +kernel
    rintro _ (rfl | rfl) _ (rfl | rfl) heq
    · rfl
    · exact absurd heq hne
    · exact absurd heq.symm hne
    · rfl
  have hwithin (peer : PeerId) (hp : (peer, 0xAB) ∈ T) : (headerFrom peer).Within standardCbor T := by
    intro frame hash hframe ht
    obtain rfl := Except.ok.inj (hdec.symm.trans hframe)
    obtain rfl := Option.some.inj ht
    exact hp
  obtain ⟨s, hs⟩ : ∃ s, Receiver.step standardCbor polynomialHash ⟨∅, []⟩ (headerFrom 1) = some s :=
    Option.isSome_iff_exists.mp step_isSome
  obtain ⟨s', hs'⟩ : ∃ s', s.step standardCbor polynomialHash (headerFrom 2) = some s' :=
    Option.isSome_iff_exists.mp step_isSome
  have hrun : Run (Receiver.step standardCbor polynomialHash)
      (fun _ d ↦ d.Within standardCbor T) ⟨∅, []⟩ [headerFrom 1] s :=
    .snoc .nil (hwithin 1 (.inl rfl)) hs
  obtain ⟨hmap, hhanded⟩ := step_datagram hdec hs
  have hsize : s.map.size < 5 := by
    rw [hmap]
    decide +kernel
  obtain ⟨⟨c, hc, hsource⟩, hroom, -⟩ :=
    (isolation hinj hrun).2.1 2 _ 0 (anItem.frame []) s' (hwithin 2 (.inr rfl)) hdec hs'
  refine ⟨s, s', hrun.mono fun _ _ _ ↦ trivial, hs', ?_, fun x hx ↦ ?_⟩
  · refine hroom ?_ 1 0xAB (.inl rfl) (fun h ↦ absurd h (by decide))
    rintro ⟨-, -, -, hfull⟩
    omega
  · have hnone : s.handed = [] := by
      rw [hhanded]
      decide +kernel
    rw [hc, hnone, List.nil_append, Option.mem_toList] at hx
    exact (hsource x hx).1

end FluxSync.Mesh
