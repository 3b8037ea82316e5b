import FluxSync.Vault.RoundTrip

/-! ## One period, two implementations -/

namespace FluxSync.Vault

open App

/-- The row is pinned or not older than the period, in exact arithmetic. -/
def inPeriod (secs now : UInt64) (row : HistoryItem) : Bool :=
  row.favorite || secs == 0 || now.toNat - row.createdMs.toNat ≤ secs.toNat * 1000

variable {secs now ttl : UInt64} {row : HistoryItem} {l : List HistoryItem} {cap n : ℕ} {app : App}
  {ctx : VaultCtx} {entries favorites : List VaultEntry}

theorem saturatingSub_le_iff {a b c : UInt64} :
    saturatingSub a b ≤ saturatingMul c 1000 ↔ a.toNat - b.toNat ≤ c.toNat * 1000 := by
  have hsub : (saturatingSub a b).toNat = a.toNat - b.toNat := by
    rw [saturatingSub]
    split
    case isTrue hle => exact UInt64.toNat_sub_of_le _ _ hle
    case isFalse hlt =>
      have := UInt64.lt_iff_toNat_lt.mp (UInt64.not_le.mp hlt)
      rw [UInt64.toNat_zero]
      omega
  have ha := a.toNat_lt
  rw [UInt64.le_iff_toNat_le, hsub, saturatingMul, show (1000 : UInt64).toNat = 1000 from rfl]
  split
  case isTrue hfits =>
    rw [UInt64.toNat_mul, show (1000 : UInt64).toNat = 1000 from rfl, Nat.mod_eq_of_lt hfits]
  case isFalse hbig =>
    -- the period is longer than any age
    have hmax : (0xffffffffffffffff : UInt64).toNat = 2 ^ 64 - 1 := rfl
    rw [hmax]
    omega

theorem expireHistory_eq (hages : ∀ row ∈ app.state.history, row.createdMs ≠ 0) :
    (app.expireHistory now).1.state.history =
      app.state.history.filter (inPeriod app.state.historyRetentionSecs now) := by
  rw [expireHistory]
  split
  case isTrue hforever =>
    refine (List.filter_eq_self.mpr fun row _ ↦ ?_).symm
    simp [inPeriod, hforever]
  case isFalse hperiod =>
    refine List.filter_congr fun row hrow ↦ ?_
    have hknown : (row.createdMs == 0) = false := beq_eq_false_iff_ne.mpr (hages row hrow)
    have hbounded : (app.state.historyRetentionSecs == 0) = false := beq_eq_false_iff_ne.mpr hperiod
    simp only [inPeriod, hknown, hbounded, saturatingSub_le_iff]

/-- The vault's period for "forever" outlasts every such time. -/
theorem live_eq_inPeriod (hnow : now.toNat < 2 ^ 63) :
    live (·.createdMs) { now, retentionSecs := secs } row = inPeriod secs now row := by
  simp only [live, inPeriod, ttlSecs]
  split
  case isTrue hforever =>
    have hlong : saturatingSub now row.createdMs ≤ saturatingMul (0xffffffffffffffff / 1000) 1000 := by
      have hmax : (0xffffffffffffffff / 1000 : UInt64).toNat = (2 ^ 64 - 1) / 1000 := rfl
      rw [saturatingSub_le_iff, hmax]
      omega
    have hbeq : (secs == 0) = true := beq_iff_eq.mpr hforever
    simp only [hlong, hbeq, decide_true, Bool.or_true, Bool.true_or]
  case isFalse hperiod =>
    have hbounded : (secs == 0) = false := beq_eq_false_iff_ne.mpr hperiod
    simp only [hbounded, saturatingSub_le_iff, Bool.or_false]

/-- Rows of known age are stamped with it. -/
theorem rebuild_eq (hages : ∀ row ∈ l, row.createdMs ≠ 0) :
    ctx.rebuild l now = l.map (entry (·.createdMs)) ++
      ctx.entries.filter fun e ↦ e.item.favorite && !l.any (stable · e.item) := by
  rw [VaultCtx.rebuild]
  congr 1
  refine List.map_congr_left fun row hrow ↦ ?_
  simp only [VaultCtx.stamp, if_pos (hages row hrow), entry]

theorem pruneFrom_append_favorites (hf : ∀ e ∈ favorites, e.item.favorite) :
    pruneFrom now ttl cap n (entries ++ favorites) = pruneFrom now ttl cap n entries ++ favorites := by
  induction entries generalizing n with
  | nil =>
    rw [List.nil_append, pruneFrom, List.nil_append]
    induction favorites with
    | nil => rfl
    | cons e favorites ih =>
      rw [pruneFrom, if_pos (hf e (by simp)), ih fun e' he' ↦ hf e' (by simp [he'])]
  | cons e entries ih =>
    rw [List.cons_append, pruneFrom, pruneFrom]
    split
    · rw [ih, List.cons_append]
    · split
      · exact ih
      · split
        · exact ih
        · rw [ih, List.cons_append]

/-- On rows of known age the history keeps what is pinned or within the period, and the vault
keeps of the same rows the pinned ones and the newest of the others up to its cap, beside the
pinned rows that the history does not show. -/
theorem retention_agrees (cap : ℕ) (ctx : VaultCtx) (hnow : now.toNat < 2 ^ 63)
    (hages : ∀ row ∈ app.state.history, row.createdMs ≠ 0) :
    (app.expireHistory now).1.state.history =
        app.state.history.filter (inPeriod app.state.historyRetentionSecs now) ∧
      prune (ctx.rebuild app.state.history now) now (ttlSecs app.state.historyRetentionSecs) cap =
        (keepNonFavorites cap (app.expireHistory now).1.state.history).map (entry (·.createdMs)) ++
          ctx.entries.filter (fun e ↦ e.item.favorite && !app.state.history.any (stable · e.item)) ∧
      ((app.expireHistory now).1.state.history.countP (!·.favorite) ≤ cap →
        prune (app.state.history.map (entry (·.createdMs))) now
            (ttlSecs app.state.historyRetentionSecs) cap =
          (app.expireHistory now).1.state.history.map (entry (·.createdMs))) := by
  have hexpire : (app.expireHistory now).1.state.history = _ := expireHistory_eq hages
  have hprune : prune (app.state.history.map (entry (·.createdMs))) now
      (ttlSecs app.state.historyRetentionSecs) cap =
        (keepNonFavorites cap (app.expireHistory now).1.state.history).map (entry (·.createdMs)) := by
    have hmap : prune (app.state.history.map (entry (·.createdMs))) now
        (ttlSecs app.state.historyRetentionSecs) cap =
          (keepNonFavorites cap (app.state.history.filter
            (live (·.createdMs) ⟨now, app.state.historyRetentionSecs, .ok, .ok⟩))).map
              (entry (·.createdMs)) := prune_map (t := ⟨now, _, .ok, .ok⟩)
    rw [hmap, hexpire]
    congr 2
    exact List.filter_congr fun row _ ↦ live_eq_inPeriod hnow
  refine ⟨hexpire, ?_, fun hcap ↦ ?_⟩
  · rw [rebuild_eq hages, prune, pruneFrom_append_favorites, ← prune, hprune]
    intro e he
    exact (Bool.and_eq_true_iff.mp (List.mem_filter.mp he).2).1
  · rw [hprune, keepNonFavorites_eq_self hcap]

/-- A text that was copied a second after the epoch. -/
def agedRow (lamport : UInt64) (favorite : Bool) : HistoryItem where
  kind := .text
  preview := "hi"
  time := "00:00"
  source := .localCopy
  sensitive := false
  lamport := lamport
  hash := "00"
  favorite := favorite
  resync := false
  sourcePeerId := none
  createdMs := 1000

def withHistory (history : List HistoryItem) : App :=
  let app := App.new {}
  { app with state := { app.state with history } }

/-- One day and a millisecond later the pinned row is left of two. -/
theorem retention_agrees_nextDay :
    prune ([agedRow 1 false, agedRow 2 true].map (entry (·.createdMs))) 86401001 (ttlSecs 86400)
        DEFAULT_DISK_CAP = [entry (·.createdMs) (agedRow 2 true)] ∧
      ((withHistory [agedRow 1 false, agedRow 2 true]).expireHistory 86401001).1.state.history =
        [agedRow 2 true] := by
  have hages : ∀ row ∈ (withHistory [agedRow 1 false, agedRow 2 true]).state.history,
      row.createdMs ≠ 0 := by decide
  have hkept : ((withHistory [agedRow 1 false, agedRow 2 true]).expireHistory 86401001).1.state.history =
      [agedRow 2 true] := by decide +kernel
  obtain ⟨-, -, hsame⟩ :=
    retention_agrees DEFAULT_DISK_CAP {} (by decide : (86401001 : UInt64).toNat < 2 ^ 63) hages
  refine ⟨(hsame ?_).trans ?_, hkept⟩
  · rw [hkept]
    decide
  · rw [hkept]
    rfl

/-- Of 501 rows that are not pinned the vault keeps one less than the history. -/
theorem disk_cap_drops_row :
    ((withHistory (List.replicate 501 (agedRow 1 false))).expireHistory 2000).1.state.history.length
        = 501 ∧
      (prune ((List.replicate 501 (agedRow 1 false)).map (entry (·.createdMs))) 2000
        (ttlSecs 86400) DEFAULT_DISK_CAP).length = 500 := by
  decide +kernel

end FluxSync.Vault
