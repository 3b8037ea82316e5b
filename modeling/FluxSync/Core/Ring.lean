import FluxSync.Core.Dedup
import FluxSync.Foundation.Recency
import FluxSync.Foundation.Runs

namespace FluxSync.DedupRing

open Runs Recency

variable {r r' : DedupRing} {log : List FluxSync.Entry} {e : FluxSync.Entry} {h : ContentHash}
  {t : UInt64} {n : ℕ}

/-- A hash is shown to the ring, from the persisted history or from the clipboard. -/
inductive Sighting
  | observe (hash : ContentHash)
  | observeClipboard (hash : ContentHash) (nowMs : UInt64)

def Sighting.entry : Sighting → FluxSync.Entry
  | .observe hash => ⟨hash, none⟩
  | .observeClipboard hash nowMs => ⟨hash, some nowMs⟩

def sight (r : DedupRing) : Sighting → DedupRing × Bool
  | .observe hash => r.observe hash
  | .observeClipboard hash nowMs => r.observeClipboard hash nowMs

variable {s : Sighting}

/-- The ring next to the log of all accepted sightings, newest first. -/
def step : DedupRing × List FluxSync.Entry → Sighting → Option (DedupRing × List FluxSync.Entry) :=
  monitored (fun r s ↦ some (r.sight s).1) fun r s log ↦
    if (r.sight s).2 then s.entry :: log else log

theorem sight_rejects (hs : (r.sight s).2 = false) : (r.sight s).1 = r := by
  cases s with
  | observe hash =>
    revert hs
    simp only [sight, observe]
    split
    · exact fun _ ↦ rfl
    · intro hs
      cases hs
  | observeClipboard hash nowMs =>
    revert hs
    simp only [sight, observeClipboard]
    split
    · split
      · exact fun _ ↦ rfl
      · intro hs
        cases hs
    · intro hs
      cases hs

theorem reverse_push (e : FluxSync.Entry) (hn : 0 < r.capacity) (hr : r.inner.length ≤ r.capacity) :
    (r.push e).inner.reverse = e :: r.inner.reverse.take (r.capacity - 1) := by
  rw [push]
  by_cases hfull : r.inner.length = r.capacity
  · have hone : r.inner.length - (r.capacity - 1) = 1 := by omega
    rw [if_pos hfull, List.reverse_append, List.take_reverse, hone, List.drop_one]
    rfl
  · rw [if_neg hfull, List.reverse_append, List.take_of_length_le (by simp; omega)]
    rfl

theorem sight_capacity : (r.sight s).1.capacity = r.capacity := by
  cases s with
  | observe hash =>
    rw [sight, observe]
    split <;> rfl
  | observeClipboard hash nowMs =>
    simp only [sight, observeClipboard]
    split
    · split <;> rfl
    · rfl

theorem beq_hash : (fun e : FluxSync.Entry ↦ e.hash == h) = fun e ↦ decide (e.hash = h) := by
  funext e
  exact beq_eq_decide e.hash h

theorem filter_absent (hr : r.inner.findIdx? (·.hash == h) = none) :
    r.inner.reverse.filter (·.hash ≠ h) = r.inner.reverse := by
  apply List.filter_eq_self.mpr
  intro e he
  have := List.findIdx?_eq_none_iff.mp hr e (List.mem_reverse.mp he)
  simpa using this

/-- An accepted sighting goes to the newest place, the window keeps its size. -/
theorem sight_accepts (hn : 0 < r.capacity) (hr : r.inner.length ≤ r.capacity)
    (hnodup : (r.inner.map (·.hash)).Nodup) (hs : (r.sight s).2 = true) :
    (r.sight s).1.inner.reverse =
      s.entry :: (r.inner.reverse.filter (·.hash ≠ s.entry.hash)).take (r.capacity - 1) := by
  cases s with
  | observe hash =>
    revert hs
    rw [sight, observe]
    split
    case isTrue =>
      intro hs
      cases hs
    case isFalse hnew =>
      intro _
      have hnone : r.inner.findIdx? (·.hash == hash) = none := by
        rw [List.findIdx?_eq_none_iff]
        simpa [contains] using hnew
      rw [Sighting.entry, filter_absent hnone]
      exact reverse_push _ hn hr
  | observeClipboard hash nowMs =>
    have hentry : (Sighting.observeClipboard hash nowMs).entry = ⟨hash, some nowMs⟩ := rfl
    revert hs
    simp only [sight, observeClipboard, hentry]
    split
    case h_2 hnone =>
      intro _
      have hkeep := filter_absent hnone
      rw [hkeep]
      exact reverse_push _ hn hr
    case h_1 pos hpos =>
      split
      · intro hs
        cases hs
      intro _
      have herase : r.inner.eraseIdx pos = r.inner.filter (·.hash ≠ hash) := by
        have h : r.inner.eraseP (·.hash == hash) = _ := List.eraseP_eq_eraseIdx
        simp only [hpos] at h
        rw [← h, beq_hash, eraseP_key hnodup]
      have hlt : (r.inner.eraseIdx pos).length ≤ r.capacity :=
        (List.length_eraseIdx_le r.inner pos).trans hr
      have hpush := reverse_push (r := { r with inner := r.inner.eraseIdx pos })
        ⟨hash, some nowMs⟩ hn hlt
      rw [hpush, herase, List.filter_reverse]

/-- The ring holds the window of the newest hashes. -/
def Window (r : DedupRing) (log : List FluxSync.Entry) : Prop :=
  r.inner.reverse = (latest (·.hash) log).take r.capacity

theorem Window.length_le (hw : r.Window log) : r.inner.length ≤ r.capacity := by
  rw [← List.length_reverse, hw]
  exact List.length_take_le _ _

theorem Window.nodup (hw : r.Window log) : (r.inner.map (·.hash)).Nodup := by
  rw [← List.nodup_reverse, ← List.map_reverse, hw]
  exact keys_nodup.sublist ((List.take_sublist _ _).map _)

theorem Window.sight (hn : 0 < r.capacity) (hw : r.Window log) :
    (r.sight s).1.Window (if (r.sight s).2 then s.entry :: log else log) := by
  cases hs : (r.sight s).2 with
  | false =>
    rw [sight_rejects hs]
    exact hw
  | true =>
    obtain ⟨n, hn'⟩ : ∃ n, r.capacity = n + 1 := ⟨r.capacity - 1, by omega⟩
    rw [Window, sight_accepts hn hw.length_le hw.nodup hs, sight_capacity, if_pos rfl, hw, hn',
      take_latest_cons]
    rfl

/-- What makes a sighting from the clipboard a duplicate, read off the ring. -/
theorem duplicate_iff (hnodup : (r.inner.map (·.hash)).Nodup) :
    (r.observeClipboard h t).2 = false ↔
      r.inner.reverse.head?.map (·.hash) = some h ∨
        ∃ e ∈ r.inner, e.hash = h ∧ Entry.recent e t := by
  have hlast : r.inner.reverse.head?.map (·.hash) = (r.inner.map (·.hash))[r.inner.length - 1]? := by
    rw [List.head?_reverse, List.getLast?_eq_getElem?, List.getElem?_map]
  rw [observeClipboard, hlast]
  split
  case h_2 hnone =>
    have habsent : ∀ e ∈ r.inner, e.hash ≠ h := by
      intro e he
      simpa using List.findIdx?_eq_none_iff.mp hnone e he
    constructor
    · intro hfresh
      cases hfresh
    · rintro (hnewest | ⟨e, he, hh, -⟩)
      · obtain ⟨e, he, hh⟩ := List.mem_map.mp (List.mem_of_getElem? hnewest)
        exact absurd hh (habsent e he)
      · exact absurd hh (habsent e he)
  case h_1 pos hpos =>
    obtain ⟨hlt, hh, -⟩ := List.findIdx?_eq_some_iff_getElem.mp hpos
    have hh : r.inner[pos].hash = h := by simpa using hh
    have hnewest : (pos + 1 == r.inner.length) = true ↔
        (r.inner.map (·.hash))[r.inner.length - 1]? = some h := by
      have hmap : (r.inner.map (·.hash))[pos]? = some h := by
        rw [List.getElem?_map, List.getElem?_eq_getElem hlt, Option.map_some, hh]
      rw [beq_iff_eq]
      constructor
      · intro hend
        rw [show r.inner.length - 1 = pos by omega, hmap]
      · intro hnewest
        have hpos : pos < (r.inner.map (·.hash)).length := by
          rw [List.length_map]
          exact hlt
        have := (List.getElem?_inj hpos hnodup).mp (hmap.trans hnewest.symm)
        omega
    have hrecent : (r.inner[pos]?.any fun e ↦ Entry.recent e t) = true ↔
        ∃ e ∈ r.inner, e.hash = h ∧ Entry.recent e t := by
      rw [List.getElem?_eq_getElem hlt, Option.any_some]
      constructor
      · intro hr
        exact ⟨_, List.getElem_mem hlt, hh, hr⟩
      · rintro ⟨e, he, heh, hr⟩
        have := List.inj_on_of_nodup_map hnodup he (List.getElem_mem hlt) (heh.trans hh.symm)
        rw [← this]
        exact hr
    rw [← hnewest, ← hrecent, ← Bool.or_eq_true]
    dsimp only
    split
    case isTrue hdup => exact iff_of_true rfl hdup
    case isFalse hfresh => exact iff_of_false (by simp) hfresh

theorem recent_iff :
    Entry.recent e t ↔ ∃ t', e.seenAtMs = some t' ∧ t.toNat < t'.toNat + 5000 := by
  have hwindow (t' : UInt64) : saturatingSub t t' < ECHO_WINDOW_MS ↔ t.toNat < t'.toNat + 5000 := by
    rw [saturatingSub, ECHO_WINDOW_MS]
    split
    case isTrue hle =>
      have hle' := UInt64.le_iff_toNat_le.mp hle
      rw [UInt64.lt_iff_toNat_lt, UInt64.toNat_sub_of_le _ _ hle, show (5000 : UInt64).toNat = 5000 from rfl]
      omega
    case isFalse hle =>
      have hle' := mt UInt64.le_iff_toNat_le.mpr hle
      exact iff_of_true (by decide) (by omega)
  rw [Entry.recent]
  cases hseen : e.seenAtMs with
  | none => simp
  | some t' => simp [hwindow]

/-- What the ring is for: the last hashes accepted, and who of them is an echo. -/
structure Refines (capacity : ℕ) (r : DedupRing) (log : List FluxSync.Entry) : Prop where
  nodup : (r.inner.map (·.hash)).Nodup
  length_le : r.inner.length ≤ capacity
  newest : r.inner.reverse = (latest (·.hash) log).take capacity
  last : ∀ e ∈ r.inner, log.find? (·.hash = e.hash) = some e
  order : r.inner.Sublist log.reverse
  duplicate : ∀ h t, (r.observeClipboard h t).2 = false ↔
    log.head?.map (·.hash) = some h ∨
      ∃ e t', log.find? (·.hash = h) = some e ∧ e.seenAtMs = some t' ∧
        t.toNat < t'.toNat + 5000 ∧ h ∈ ((latest (·.hash) log).take capacity).map (·.hash)

theorem Window.refines (hn : 0 < r.capacity) (hw : r.Window log) : Refines r.capacity r log where
  nodup := hw.nodup
  length_le := hw.length_le
  newest := hw
  last := by
    intro e he
    rw [← List.mem_reverse, hw] at he
    exact mem_latest_iff.mp (List.mem_of_mem_take he)
  order := by
    rw [← List.reverse_sublist, List.reverse_reverse, hw]
    exact (List.take_sublist _ _).trans latest_sublist
  duplicate := by
    intro h t
    have hhead : r.inner.reverse.head? = log.head? := by
      rw [hw, List.head?_take, if_neg (by omega)]
      cases log <;> rfl
    rw [duplicate_iff hw.nodup, hhead]
    apply or_congr_right
    constructor
    · rintro ⟨e, he, rfl, hrecent⟩
      obtain ⟨t', ht', hlt⟩ := recent_iff.mp hrecent
      rw [← List.mem_reverse, hw] at he
      exact ⟨e, t', mem_latest_iff.mp (List.mem_of_mem_take he), ht', hlt, List.mem_map_of_mem he⟩
    · rintro ⟨e, t', hfind, ht', hlt, hmem⟩
      obtain ⟨e', he', hh⟩ := List.mem_map.mp hmem
      have hlast := mem_latest_iff.mp (List.mem_of_mem_take he')
      simp only [hh] at hlast
      cases hfind.symm.trans hlast
      rw [← hw, List.mem_reverse] at he'
      exact ⟨e, he', hh, recent_iff.mpr ⟨t', ht', hlt⟩⟩

/-- After any sightings the ring holds the last hashes it accepted, in that order, and tells an
echo from a fresh copy by them. -/
theorem ring_refines {capacity : ℕ} {l : List Sighting} (hn : 0 < capacity)
    (hr : Run step Always ({ capacity }, []) l (r, log)) : Refines capacity r log := by
  have hinv : r.capacity = capacity ∧ r.Window log := by
    apply hr.invariant (I := fun x ↦ x.1.capacity = capacity ∧ x.1.Window x.2)
    · exact ⟨rfl, List.take_nil.symm⟩
    · rintro ⟨r, log⟩ s ⟨r', log'⟩ ⟨rfl, hw⟩ - hs
      obtain ⟨hs, hlog⟩ := monitored_eq_some.mp hs
      cases hs
      cases hlog
      exact ⟨sight_capacity, hw.sight hn⟩
  obtain ⟨rfl, hw⟩ := hinv
  exact hw.refines hn

/-- A ring of two: the third hash evicts the first, which is then seen anew. -/
def evictAndReturn : List Sighting :=
  [.observe 1, .observeClipboard 2 10, .observeClipboard 3 20, .observeClipboard 1 30]

theorem ring_refines_evictAndReturn :
    ∃ r log, Run step Always ({ capacity := 2 }, []) evictAndReturn (r, log) ∧
      log.map (·.hash) = [1, 3, 2, 1] ∧ Refines 2 r log := by
  have hrun : Run step Always ({ capacity := 2 }, []) evictAndReturn _ :=
    run_of_isSome (by decide +kernel)
  exact ⟨_, _, hrun, by decide +kernel, ring_refines (by decide) hrun⟩

end FluxSync.DedupRing
