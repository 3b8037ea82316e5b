import FluxSync.Pipeline.Resync
import FluxSync.Proto.Hex

namespace FluxSync.Pipeline

open Std Mesh Runs Proto Puller

/-- An offer whose missing hashes have been picked and are not recorded yet. -/
structure Offer where
  peer : PeerId
  missing : List String

/-- The outstanding pulls and the offers that are being handled. -/
structure Pulls where
  now : ℕ := 0
  table : PendingPulls := ∅
  offers : List Offer := []

namespace Pulls

inductive Act
  | tick (ms : ℕ)
  /-- An offer that the codec let through is compared with what is held. -/
  | offer (p : PeerId) (hashes : List String) (held : Held)
  | track (i : ℕ)
  | take (p : PeerId) (hash : ContentHash)

def step (s : Pulls) : Act → Option Pulls
  | .tick ms => some { s with now := s.now + ms }
  | .offer p hashes held =>
    match validateResyncMsg hashes with
    | .error _ => none
    | .ok () =>
      let missing := missingResyncHashes hashes held.history held.outbox held.cleared
        (inFlightPullHashes s.now s.table)
      some { s with offers := s.offers ++ [⟨p, missing⟩] }
  | .track i =>
    s.offers[i]?.map fun o ↦
      { s with
        table := (trackPendingPulls s.now s.table o.peer o.missing).1
        offers := s.offers.eraseIdx i }
  | .take p hash => some { s with table := (takePendingPull s.now s.table p hash).1 }

/-- An offer comes once the one before it is done. -/
def OneAtATime (s : Pulls) : Act → Prop
  | .offer _ _ _ => s.offers = []
  | _ => True

variable {s u : Pulls} {a : Act} {l : List Act} {p q : PeerId} {h hash : ContentHash} {now : ℕ}
  {pulls : PendingPulls} {perPeer : Asked} {missing hashes : List String} {o : Option ℕ}

/-- No peer has an empty table or one above the cap. -/
def Bounded (pulls : PendingPulls) : Prop :=
  ∀ (p : PeerId) (perPeer : Asked), pulls[p]? = some perPeer →
    perPeer.isEmpty = false ∧ perPeer.size ≤ MAX_PENDING_PULLS_PER_PEER

theorem bounded_putBack (hb : Bounded pulls) (hsize : perPeer.size ≤ MAX_PENDING_PULLS_PER_PEER) :
    Bounded (putBack pulls p perPeer) := by
  intro q perPeer' hq
  unfold putBack at hq
  split at hq
  · rw [OrderedMap.lookup_erase] at hq
    split at hq
    · cases hq
    · exact hb q perPeer' hq
  · rename_i hempty
    rw [OrderedMap.lookup_insert] at hq
    split at hq
    · obtain rfl := Option.some.inj hq
      exact ⟨Bool.eq_false_of_not_eq_true hempty, hsize⟩
    · exact hb q perPeer' hq

theorem size_track (hsize : perPeer.size ≤ MAX_PENDING_PULLS_PER_PEER) :
    (track now perPeer missing).1.size ≤ MAX_PENDING_PULLS_PER_PEER := by
  induction missing generalizing perPeer with
  | nil => exact hsize
  | cons x rest ih =>
    rw [track]
    split
    · exact hsize
    · rename_i hroom
      split
      · exact ih hsize
      · rename_i hash _
        have hinsert : (perPeer.insert hash now).size ≤ perPeer.size + 1 :=
          ExtTreeMap.size_insert_le
        exact ih (by omega)

theorem size_getD (hb : Bounded pulls) : (pulls.getD p ∅).size ≤ MAX_PENDING_PULLS_PER_PEER := by
  rw [ExtTreeMap.getD_eq_getD_getElem?]
  cases hp : pulls[p]? with
  | none => exact Nat.zero_le _
  | some perPeer => exact (hb p perPeer hp).2

theorem bounded_track (hb : Bounded pulls) : Bounded (trackPendingPulls now pulls p missing).1 :=
  bounded_putBack hb (size_track (ExtTreeMap.size_filter_le_size.trans (size_getD hb)))

theorem bounded_take (hb : Bounded pulls) : Bounded (takePendingPull now pulls p hash).1 := by
  unfold takePendingPull
  split
  · exact hb
  · rename_i perPeer hp
    refine bounded_putBack hb ?_
    exact (ExtTreeMap.size_erase_le.trans ExtTreeMap.size_filter_le_size).trans (hb p perPeer hp).2

/-- Every hash that is handed out was offered, and decodes. -/
theorem mem_track {x : String} (hx : x ∈ (track now perPeer missing).2) :
    x ∈ missing ∧ (hex32Decode x).isSome := by
  induction missing generalizing perPeer with
  | nil => cases hx
  | cons y rest ih =>
    rw [track] at hx
    split at hx
    · cases hx
    · split at hx
      · exact (ih hx).imp_left (.tail y)
      · rename_i hash hy
        obtain rfl | hx := List.mem_cons.mp hx
        · exact ⟨.head rest, by simp [hy]⟩
        · exact (ih hx).imp_left (.tail y)

/-- The hash has a fresh pull to the peer. -/
def Outstanding (now : ℕ) (pulls : PendingPulls) (p : PeerId) (h : ContentHash) : Prop :=
  ∃ t, pullOf pulls p h = some t ∧ fresh now t

/-- No hash has fresh pulls to two peers. -/
def Exclusive (s : Pulls) : Prop :=
  ∀ p q h, Outstanding s.now s.table p h → Outstanding s.now s.table q h → p = q

theorem mem_inFlightPullHashes (ho : Outstanding now pulls p h) :
    hex32 h ∈ inFlightPullHashes now pulls := by
  obtain ⟨t, ht, hf⟩ := ho
  obtain ⟨perPeer, hp, ht⟩ := Option.bind_eq_some_iff.mp ht
  apply List.mem_flatMap.mpr
  refine ⟨(p, perPeer), OrderedMap.mem_entries.mpr hp, ?_⟩
  apply List.mem_map.mpr
  exact ⟨(h, t), List.mem_filter.mpr ⟨OrderedMap.mem_entries.mpr ht, hf⟩, rfl⟩

theorem mem_missingResyncHashes {x : String} {history outbox cleared pending : List String}
    (hx : x ∈ missingResyncHashes hashes history outbox cleared pending) :
    x ∈ hashes ∧ x ∉ pending := by
  have hx := List.mem_filter.mp (List.mem_of_mem_take hx)
  simp only [Bool.and_eq_true, Bool.not_eq_true', List.contains_eq_mem, decide_eq_false_iff_not] at hx
  exact ⟨hx.1, hx.2.2⟩

theorem Outstanding.earlier {ms : ℕ} (ho : Outstanding (now + ms) pulls p h) :
    Outstanding now pulls p h := by
  obtain ⟨t, ht, hf⟩ := ho
  exact ⟨t, ht, fresh_of_later hf⟩

theorem outstanding_of_filter {o : Option ℕ} {t : ℕ} (ht : o.filter (fresh now) = some t) :
    o = some t ∧ fresh now t := Option.filter_eq_some_iff.mp ht

/-- A pull that is outstanding after a registration was handed out by it or was so before. -/
theorem Outstanding.of_track
    (ho : Outstanding now (trackPendingPulls now pulls p missing).1 q h) :
    (p = q ∧ ∃ x ∈ missing, hex32Decode x = some h) ∨ Outstanding now pulls q h := by
  obtain ⟨t, ht, hf⟩ := ho
  rw [pullOf_track] at ht
  split at ht
  · rename_i hp
    split at ht
    · rename_i hh
      obtain ⟨x, hx, hdecode⟩ := List.mem_filterMap.mp hh
      exact .inl ⟨hp, x, (mem_track hx).1, hdecode⟩
    · exact .inr ⟨t, hp ▸ (outstanding_of_filter ht).1, hf⟩
  · exact .inr ⟨t, ht, hf⟩

theorem Outstanding.of_take (ho : Outstanding now (takePendingPull now pulls p hash).1 q h) :
    Outstanding now pulls q h := by
  obtain ⟨t, ht, hf⟩ := ho
  rw [pullOf_take] at ht
  split at ht
  · rename_i hp
    split at ht
    · cases ht
    · exact ⟨t, hp ▸ (outstanding_of_filter ht).1, hf⟩
  · exact ⟨t, ht, hf⟩

/-- While offers are handled one at a time, what an offer misses is asked of nobody. -/
structure Orderly (s : Pulls) : Prop where
  single : s.offers.length ≤ 1
  unasked : ∀ o ∈ s.offers, ∀ x ∈ o.missing, ∀ h q, hex32Decode x = some h →
    ¬ Outstanding s.now s.table q h
  exclusive : s.Exclusive

theorem Orderly.offer (hs : s.Orderly) (hnone : s.offers = []) {held : Held}
    (hvalid : ∀ x ∈ hashes, isValidResyncHash x) :
    Orderly { s with
      offers := s.offers ++ [⟨p, missingResyncHashes hashes held.history held.outbox held.cleared
        (inFlightPullHashes s.now s.table)⟩] } := by
  refine ⟨by simp [hnone], ?_, hs.exclusive⟩
  intro o ho x hx h q hdecode houtstanding
  rw [hnone, List.nil_append, List.mem_singleton] at ho
  subst ho
  obtain ⟨hoffered, hpending⟩ := mem_missingResyncHashes hx
  apply hpending
  rw [← hex32_of_decode (hvalid x hoffered) hdecode]
  exact mem_inFlightPullHashes houtstanding

theorem Orderly.track (hs : s.Orderly) {i : ℕ} {o : Offer} (ho : s.offers[i]? = some o) :
    Orderly { s with
      table := (trackPendingPulls s.now s.table o.peer o.missing).1
      offers := s.offers.eraseIdx i } := by
  have hmem : o ∈ s.offers := List.mem_of_getElem? ho
  have hi : i < s.offers.length := (List.getElem?_eq_some_iff.mp ho).1
  have hdone : s.offers.eraseIdx i = [] := by
    apply List.length_eq_zero_iff.mp
    rw [List.length_eraseIdx_of_lt hi]
    have := hs.single
    omega
  refine ⟨by simp [hdone], by simp [hdone], ?_⟩
  intro p q h hp hq
  obtain ⟨rfl, x, hx, hdecode⟩ | hp := hp.of_track
  · obtain ⟨rfl, -⟩ | hq := hq.of_track
    · rfl
    · exact absurd hq (hs.unasked o hmem x hx h q hdecode)
  · obtain ⟨rfl, x, hx, hdecode⟩ | hq := hq.of_track
    · exact absurd hp (hs.unasked o hmem x hx h p hdecode)
    · exact hs.exclusive p q h hp hq

theorem Orderly.step (hs : s.Orderly) (hone : s.OneAtATime a) (hstep : s.step a = some u) :
    u.Orderly := by
  cases a with
  | tick ms =>
    cases hstep
    refine ⟨hs.single, ?_, ?_⟩
    · intro o ho x hx h q hdecode houtstanding
      exact hs.unasked o ho x hx h q hdecode houtstanding.earlier
    · intro p q h hp hq
      exact hs.exclusive p q h hp.earlier hq.earlier
  | offer p hashes held =>
    simp only [Pulls.step] at hstep
    split at hstep
    · cases hstep
    · rename_i hok
      cases hstep
      exact hs.offer hone (validateResyncMsg_eq_ok.mp hok).2
  | track i =>
    obtain ⟨o, ho, rfl⟩ := Option.map_eq_some_iff.mp hstep
    exact hs.track ho
  | take p hash =>
    cases hstep
    refine ⟨hs.single, ?_, ?_⟩
    · intro o ho x hx h q hdecode houtstanding
      exact hs.unasked o ho x hx h q hdecode houtstanding.of_take
    · intro p q h hp hq
      exact hs.exclusive p q h hp.of_take hq.of_take

theorem bounded_step (hb : Bounded s.table) (hstep : s.step a = some u) : Bounded u.table := by
  cases a with
  | tick ms =>
    cases hstep
    exact hb
  | offer p hashes held =>
    simp only [Pulls.step] at hstep
    split at hstep
    · cases hstep
    · cases hstep
      exact hb
  | track i =>
    obtain ⟨o, ho, rfl⟩ := Option.map_eq_some_iff.mp hstep
    exact bounded_track hb
  | take p hash =>
    cases hstep
    exact bounded_take hb

/-- A registration records the hashes it hands out at the current time, keeps of the
peer's other pulls those that have not timed out, and leaves the other peers' alone. -/
def Records (s : Pulls) (p : PeerId) (missing : List String) : Prop :=
  let r := trackPendingPulls s.now s.table p missing
  Bounded r.1 ∧ (∀ x ∈ r.2, x ∈ missing ∧ (hex32Decode x).isSome) ∧
    ∀ q h, pullOf r.1 q h =
      if p = q then
        if h ∈ r.2.filterMap hex32Decode then some s.now
        else (pullOf s.table p h).filter (fresh s.now)
      else pullOf s.table q h

/-- An answer takes its pull away, and the peer's pulls that have timed out. -/
def Answers (s : Pulls) (p : PeerId) (hash : ContentHash) : Prop :=
  let r := takePendingPull s.now s.table p hash
  Bounded r.1 ∧ (r.2 ↔ Outstanding s.now s.table p hash) ∧
    ∀ q h, pullOf r.1 q h =
      if p = q then if hash = h then none else (pullOf s.table p h).filter (fresh s.now)
      else pullOf s.table q h

theorem found_iff : (takePendingPull now pulls p hash).2 ↔ Outstanding now pulls p hash := by
  rw [take_snd, Option.isSome_iff_exists]
  exact exists_congr fun t ↦ Option.filter_eq_some_iff

/-- The table of the outstanding pulls stays bounded and without empty peers, registrations
and answers record and sweep as they should, and with the offers handled one at a time
no hash is ever asked of two peers at once. -/
theorem outstanding_pulls (hr : Run step Always {} l s) :
    Bounded s.table ∧ (∀ p missing, s.Records p missing) ∧ (∀ p hash, s.Answers p hash) ∧
      (Run step OneAtATime {} l s → s.Exclusive) := by
  have hb : Bounded s.table := by
    apply hr.invariant (I := fun s ↦ Bounded s.table) ?_ fun t a u ht _ hu ↦ bounded_step ht hu
    intro p perPeer hp
    simp at hp
  refine ⟨hb, ?_, ?_, ?_⟩
  · intro p missing
    refine ⟨bounded_track hb, fun x hx ↦ mem_track hx, fun q h ↦ pullOf_track⟩
  · intro p hash
    refine ⟨bounded_take hb, found_iff, fun q h ↦ pullOf_take⟩
  · intro hone
    have horderly : s.Orderly := by
      apply hone.invariant ?_ fun t a u ht ha hu ↦ ht.step ha hu
      refine ⟨Nat.zero_le 1, by simp, ?_⟩
      rintro p q h ⟨t, ht, -⟩
      simp [pullOf] at ht
    exact horderly.exclusive

/-- Two peers offer the same hash, one after the other. -/
def offeredTwice : List Act :=
  [.offer 1 [hex32 7] {}, .track 0, .tick 1000, .offer 2 [hex32 7] {}, .track 0]

theorem outstanding_pulls_offeredTwice :
    ∃ s, Run step Always {} offeredTwice s ∧ pullOf s.table 1 7 = some 0 ∧
      pullOf s.table 2 7 = none ∧ Bounded s.table := by
  have hrun : Run step Always {} offeredTwice _ := run_of_isSome (by decide +kernel)
  exact ⟨_, hrun, by decide +kernel, by decide +kernel, (outstanding_pulls hrun).1⟩

end Pulls

end FluxSync.Pipeline
