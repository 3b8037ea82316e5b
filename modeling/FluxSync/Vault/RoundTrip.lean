import FluxSync.Core.History
import FluxSync.Vault.Store

namespace FluxSync.Vault

open Runs App

variable {blake3 : ByteArray → ContentHash} {l : List HistoryItem} {n cap : ℕ}
  {now ttl : UInt64} {clock : HistoryItem → UInt64}

/-- A daemon whose persister has caught up with every published state. -/
structure Vaulted where
  app : App
  persister : Persister
  /-- The attempt that wrote the file. -/
  saved : Attempt

/-- An edit and the persist of the state it publishes. -/
structure Edited where
  edit : Edit
  wall : WallClock
  now : UInt64
  retentionSecs : UInt64

def Edited.attempt (a : Edited) : Attempt where
  now := a.now
  retentionSecs := a.retentionSecs

def Vaulted.step (blake3 : ByteArray → ContentHash) (s : Vaulted) (a : Edited) : Option Vaulted :=
  let app := (s.app.handle blake3 a.edit.event a.wall).1
  some
    { app
      persister := s.persister.persistHistoryChange app.state.history app.state.vaultWipeGen a.attempt
      saved := if app.state.history = s.persister.ctx.last then s.saved else a.attempt }

/-- The entry of a row with the age it is known by. -/
def entry (clock : HistoryItem → UInt64) (row : HistoryItem) : VaultEntry := ⟨row, clock row⟩

/-- A row's own age is what it is known by. -/
def OwnAge (clock : HistoryItem → UInt64) : Prop :=
  ∀ row, row.createdMs ≠ 0 → clock row = row.createdMs

def live (clock : HistoryItem → UInt64) (t : Attempt) (row : HistoryItem) : Bool :=
  row.favorite ||
    saturatingSub t.now (clock row) ≤ saturatingMul (ttlSecs t.retentionSecs) 1000

/-- The rows that the periods and caps of a save and a later load leave of a history. -/
def documented (clock : HistoryItem → UInt64) (save load : Attempt) (l : List HistoryItem) :
    List HistoryItem :=
  capHistoryKeepingFavorites
    ((keepNonFavorites DEFAULT_DISK_CAP (l.filter (live clock save))).filter (live clock load))

/-- The history that a boot makes of the vault file. -/
def Vaulted.restored (s : Vaulted) (load : Attempt) : List HistoryItem :=
  (boot s.app.firewall s.persister.file load.now load.retentionSecs).1.state.history

/-- A boot finds the history as it was, but for the documented periods and caps. -/
def Vaulted.RoundTrip (s : Vaulted) : Prop :=
  ∃ clock, OwnAge clock ∧ ∀ load, Distinct (s.restored load) ∧
    s.restored load =
      (documented clock s.saved load s.app.state.history).map fun row ↦ (entry clock row).restored

theorem pruneFrom_map {nonFav : ℕ} (hn : nonFav ≤ cap) :
    pruneFrom now ttl cap nonFav (l.map (entry clock)) =
      (keepNonFavorites (cap - nonFav) (l.filter fun row ↦
        row.favorite || saturatingSub now (clock row) ≤ ttl)).map (entry clock) := by
  induction l generalizing nonFav with
  | nil => cases h : cap - nonFav <;> rfl
  | cons row l ih =>
    rw [List.map_cons, pruneFrom]
    by_cases hf : row.favorite
    · have hf' : (entry clock row).item.favorite = true := hf
      rw [if_pos hf', List.filter_cons_of_pos (by simp [hf]), keepNonFavorites_favorite hf, ih hn,
        List.map_cons]
    · have hf' : ¬ (entry clock row).item.favorite = true := hf
      rw [if_neg hf']
      by_cases hold : ttl < saturatingSub now (clock row)
      · have hold' : ttl < saturatingSub now (entry clock row).createdMs := hold
        rw [if_pos hold', List.filter_cons_of_neg (by simp [hf, UInt64.not_le.mpr hold]), ih hn]
      · have hold' : ¬ ttl < saturatingSub now (entry clock row).createdMs := hold
        rw [if_neg hold', List.filter_cons_of_pos (by simp [UInt64.not_lt.mp hold])]
        by_cases hcap : cap ≤ nonFav
        · have h0 : cap - nonFav = 0 := by omega
          rw [if_pos hcap, ih hn, h0, keepNonFavorites_zero hf]
        · have hs : cap - nonFav = cap - (nonFav + 1) + 1 := by omega
          rw [if_neg hcap, ih (by omega), hs, keepNonFavorites_succ hf, List.map_cons]

theorem prune_map {t : Attempt} :
    prune (l.map (entry clock)) t.now (ttlSecs t.retentionSecs) cap =
      (keepNonFavorites cap (l.filter (live clock t))).map (entry clock) :=
  pruneFrom_map (Nat.zero_le cap)

/-- The file is what the last save left of the history, each row under a known age. -/
structure Vaulted.Synced (s : Vaulted) (clock : HistoryItem → UInt64) : Prop where
  age : OwnAge clock
  distinct : Distinct s.app.state.history
  last : s.persister.ctx.last = s.app.state.history
  gen : s.persister.lastWipeGen = s.app.state.vaultWipeGen
  entries : s.persister.ctx.entries = s.app.state.history.map (entry clock)
  file : s.persister.file.getD [] =
    prune (s.app.state.history.map (entry clock)) s.saved.now (ttlSecs s.saved.retentionSecs)
      DEFAULT_DISK_CAP

def Vaulted.InStep (s : Vaulted) : Prop := ∃ clock, s.Synced clock

/-- A pinned row whose place a copy or an arrival takes leaves a row of its hash and lamport. -/
def Vaulted.KeepsPins (blake3 : ByteArray → ContentHash) (s : Vaulted) (a : Edited) : Prop :=
  ∀ x, s.app.admitted blake3 a.edit.event a.wall = some x →
    ∀ row ∈ s.app.state.history, row.favorite → row.same x →
      ∃ h ∈ (s.app.pushHistory x).state.history, stable h row

theorem keepNonFavorites_map {f : HistoryItem → HistoryItem}
    (hf : ∀ row, (f row).favorite = row.favorite) :
    keepNonFavorites n (l.map f) = (keepNonFavorites n l).map f := by
  induction l generalizing n with
  | nil => cases n <;> rfl
  | cons row l ih =>
    rw [List.map_cons]
    by_cases h : row.favorite
    · rw [keepNonFavorites_favorite h, keepNonFavorites_favorite ((hf row).trans h), ih,
        List.map_cons]
    · have h' : ¬ (f row).favorite := by rwa [hf row]
      cases n with
      | zero => rw [keepNonFavorites_zero h, keepNonFavorites_zero h', ih]
      | succ n => rw [keepNonFavorites_succ h, keepNonFavorites_succ h', ih, List.map_cons]

theorem restored_favorite {e : VaultEntry} : e.restored.favorite = e.item.favorite := by
  rw [VaultEntry.restored]
  split <;> rfl

theorem restored_same {e e' : VaultEntry} : e.restored.same e'.restored = e.item.same e'.item := by
  have h : ∀ d : VaultEntry, d.restored.hash = d.item.hash ∧ d.restored.kind = d.item.kind ∧
      d.restored.preview = d.item.preview := by
    intro d
    rw [VaultEntry.restored]
    split <;> exact ⟨rfl, rfl, rfl⟩
  simp only [HistoryItem.same, h]

theorem restored_lamport {e : VaultEntry} : e.restored.lamport = e.item.lamport := by
  rw [VaultEntry.restored]
  split <;> rfl

theorem documented_sublist {save t : Attempt} : (documented clock save t l).Sublist l :=
  keepNonFavorites_sublist.trans
    (List.filter_sublist.trans (keepNonFavorites_sublist.trans List.filter_sublist))

namespace Vaulted

variable {s s' : Vaulted} {a : Edited}

/-- What a boot loads of a file that was saved of these rows. -/
theorem restored_of_file {save : Attempt} (t : Attempt)
    (hfile : s.persister.file.getD [] =
      prune (l.map (entry clock)) save.now (ttlSecs save.retentionSecs) DEFAULT_DISK_CAP) :
    s.restored t = (documented clock save t l).map fun row ↦ (entry clock row).restored := by
  have hcap : (List.filter (live clock t)
      (keepNonFavorites DEFAULT_DISK_CAP (l.filter (live clock save)))).countP (!·.favorite) ≤
        USIZE_MAX := by
    have h : (List.filter (live clock t) (keepNonFavorites DEFAULT_DISK_CAP
        (l.filter (live clock save)))).countP (!·.favorite) ≤ DEFAULT_DISK_CAP :=
      (List.Sublist.countP_le List.filter_sublist).trans countP_keepNonFavorites
    exact h.trans (by decide)
  have hload : load s.persister.file t.now (ttlSecs t.retentionSecs) =
      ((keepNonFavorites DEFAULT_DISK_CAP (l.filter (live clock save))).filter (live clock t)).map
        (entry clock) := by
    rw [load, hfile, prune_map, prune_map, keepNonFavorites_eq_self hcap]
  simp only [restored, boot, restoreHistory, hload, List.map_map, documented,
    capHistoryKeepingFavorites]
  exact keepNonFavorites_map (f := fun row ↦ (entry clock row).restored)
    fun row ↦ restored_favorite (e := entry clock row)

theorem Synced.roundTrip (h : s.Synced clock) : s.RoundTrip := by
  refine ⟨clock, h.age, fun t ↦ ?_⟩
  have hr := restored_of_file t h.file
  refine ⟨?_, hr⟩
  rw [hr]
  refine List.pairwise_map.mpr ((h.distinct.sublist documented_sublist).imp fun hab ↦ ?_)
  rwa [restored_same]

/-- An attempt that meets no wipe and no failure. -/
theorem persistHistoryChange_ok {p : Persister} {gen : UInt64} (hg : p.lastWipeGen = gen) :
    p.persistHistoryChange l gen a.attempt =
      if l = p.ctx.last then p
      else
        { file := some (prune (p.ctx.rebuild l a.now) a.now (ttlSecs a.retentionSecs)
            DEFAULT_DISK_CAP)
          ctx := { last := l, entries := p.ctx.rebuild l a.now }
          lastWipeGen := gen } := by
  subst hg
  simp [Persister.persistHistoryChange, Persister.mirrorWipe, Edited.attempt, Outcome.result]

theorem Synced.step (h : s.Synced clock) (hstep : s.step blake3 a = some s') :
    let l := s.app.edited blake3 a.wall a.edit
    s'.app.state.history = l ∧ s'.app.state.vaultWipeGen = s.app.state.vaultWipeGen ∧
      ((l = s.app.state.history ∧ s'.persister = s.persister ∧ s'.saved = s.saved) ∨
        (l ≠ s.app.state.history ∧ s'.saved = a.attempt ∧
          s'.persister =
            { file := some (prune (s.persister.ctx.rebuild l a.now) a.now
                (ttlSecs a.retentionSecs) DEFAULT_DISK_CAP)
              ctx := { last := l, entries := s.persister.ctx.rebuild l a.now }
              lastWipeGen := s.app.state.vaultWipeGen })) := by
  have hrec := recorded_edit blake3 s.app a.wall a.edit
  obtain ⟨hhist, hgen⟩ := Prod.mk.inj hrec
  obtain rfl := Option.some.inj hstep
  refine ⟨hhist, hgen, ?_⟩
  dsimp only
  rw [hhist, hgen, persistHistoryChange_ok h.gen, h.last]
  by_cases hl : s.app.edited blake3 a.wall a.edit = s.app.state.history
  · exact .inl ⟨hl, if_pos hl, if_pos hl⟩
  · exact .inr ⟨hl, if_neg hl, if_neg hl⟩

theorem distinct_edited {app : App} {wall : WallClock} {edit : Edit}
    (h : Distinct app.state.history) : Distinct (app.edited blake3 wall edit) := by
  cases edit with
  | pin hash favorite =>
    refine List.pairwise_map.mpr (h.imp fun {a b} hab ↦ ?_)
    simp only [HistoryItem.same] at hab ⊢
    split <;> split <;> exact hab
  | copy | arrive =>
    simp only [edited]
    split
    · exact Distinct.pushHistory h
    · exact h

/-- Under the condition every pinned row has a row of its hash and lamport after the edit. -/
theorem KeepsPins.stays (hk : s.KeepsPins blake3 a) {row : HistoryItem}
    (hm : row ∈ s.app.state.history) (hf : row.favorite) :
    ∃ h ∈ s.app.edited blake3 a.wall a.edit, stable h row := by
  have hself : stable row row := by simp [stable]
  have hpush : ∀ x, s.app.admitted blake3 a.edit.event a.wall = some x →
      ∃ h ∈ (s.app.pushHistory x).state.history, stable h row := by
    intro x hx
    by_cases hsame : row.same x
    · exact hk x hx row hm hf hsame
    · exact ⟨row, mem_pushHistory_of_favorite hm hf hsame, hself⟩
  cases he : a.edit with
  | pin hash favorite =>
    refine ⟨_, List.mem_map_of_mem hm, ?_⟩
    split <;> exact hself
  | copy | arrive =>
    rw [he] at hpush
    simp only [edited]
    split
    case h_1 x hx => exact hpush x hx
    case h_2 => exact ⟨row, hm, hself⟩

theorem Synced.keeps (h : s.Synced clock) (hk : s.KeepsPins blake3 a)
    (hstep : s.step blake3 a = some s') : s'.InStep := by
  obtain ⟨hhist, hgen, ⟨hl, hp, hsaved⟩ | ⟨-, hsaved, hp⟩⟩ := h.step hstep
  · rw [hl] at hhist
    exact ⟨clock, h.age, hhist ▸ h.distinct, by rw [hp, hhist, h.last], by rw [hp, hgen, h.gen],
      by rw [hp, hhist, h.entries], by rw [hp, hhist, hsaved, h.file]⟩
  · have hnone : (s.persister.ctx.entries.filter fun e ↦
        e.item.favorite && !(s.app.edited blake3 a.wall a.edit).any (stable · e.item)) = [] := by
      refine List.filter_eq_nil_iff.mpr fun e he hc ↦ ?_
      rw [h.entries] at he
      obtain ⟨row, hrow, rfl⟩ := List.mem_map.mp he
      obtain ⟨hf, hany⟩ := Bool.and_eq_true_iff.mp hc
      obtain ⟨g, hg, hst⟩ := hk.stays hrow hf
      have : (s.app.edited blake3 a.wall a.edit).any (stable · row) :=
        List.any_eq_true.mpr ⟨g, hg, hst⟩
      simp [entry, this] at hany
    have hrebuild : s.persister.ctx.rebuild (s.app.edited blake3 a.wall a.edit) a.now =
        (s.app.edited blake3 a.wall a.edit).map
          (entry fun row ↦ (s.persister.ctx.stamp a.now row).createdMs) := by
      rw [VaultCtx.rebuild, hnone, List.append_nil]
      rfl
    refine ⟨fun row ↦ (s.persister.ctx.stamp a.now row).createdMs, fun row hrow ↦ ?_,
      hhist ▸ distinct_edited h.distinct, by rw [hp, hhist], by rw [hp, hgen],
      by rw [hp, hhist, hrebuild], by rw [hp, hhist, hsaved, hrebuild]; rfl⟩
    simp only [VaultCtx.stamp, if_pos hrow]

theorem mem_prune_of_favorite {e : VaultEntry} {entries : List VaultEntry} (he : e ∈ entries)
    (hf : e.item.favorite) : e ∈ prune entries now ttl cap := by
  have h : ∀ nonFav, e ∈ pruneFrom now (saturatingMul ttl 1000) cap nonFav entries := by
    induction entries with
    | nil => cases he
    | cons d entries ih =>
      intro nonFav
      rw [pruneFrom]
      obtain rfl | he := List.mem_cons.mp he
      · rw [if_pos hf]
        exact .head _
      · split
        · exact .tail d (ih he nonFav)
        · split
          · exact ih he nonFav
          · split
            · exact ih he nonFav
            · exact .tail d (ih he (nonFav + 1))
  exact h 0

theorem mem_restored {e : VaultEntry} {t : Attempt} (he : e ∈ s.persister.file.getD [])
    (hf : e.item.favorite) : e.restored ∈ s.restored t := by
  have hload : e ∈ load s.persister.file t.now (ttlSecs t.retentionSecs) :=
    mem_prune_of_favorite he hf
  exact mem_keepNonFavorites (List.mem_map_of_mem hload) (restored_favorite.trans hf)

/-- A stale pinned row comes back beside the row that took its place. -/
theorem Synced.breaks (h : s.Synced clock) (hk : ¬ s.KeepsPins blake3 a)
    (hstep : s.step blake3 a = some s') : ¬ s'.RoundTrip := by
  obtain ⟨x, hx, row, hrow, hf, hsame, hgone⟩ : ∃ x, s.app.admitted blake3 a.edit.event a.wall =
      some x ∧ ∃ row ∈ s.app.state.history, row.favorite ∧ row.same x ∧
        ∀ h ∈ (s.app.pushHistory x).state.history, ¬ stable h row := by
    by_contra hno
    exact hk fun x hx row hrow hf hsame ↦ by_contra fun hgone ↦
      hno ⟨x, hx, row, hrow, hf, hsame, fun h hh hst ↦ hgone ⟨h, hh, hst⟩⟩
  have hedited : s.app.edited blake3 a.wall a.edit = (s.app.pushHistory x).state.history := by
    cases he : a.edit with
    | pin hash favorite => rw [he] at hx; cases hx
    | copy | arrive => rw [he] at hx; simp only [edited, hx]
  obtain ⟨hhist, -, ⟨hl, -, -⟩ | ⟨-, -, hp⟩⟩ := h.step hstep
  · exact absurd (by simp [stable]) (hgone row (by rwa [← hedited, hl]))
  intro hround
  obtain ⟨_, -, hround⟩ := hround
  let top := keepingPin s.app.state.history x
  have htop : top.favorite := keepingPin_favorite h.distinct hrow hf hsame
  have hmem : top ∈ (s.app.pushHistory x).state.history := favorite_mem_pushHistory (.head _) htop
  have hfile : s'.persister.file.getD [] =
      prune (s.persister.ctx.rebuild (s.app.pushHistory x).state.history a.now) a.now
        (ttlSecs a.retentionSecs) DEFAULT_DISK_CAP := by
    rw [hp, ← hedited]
    rfl
  have hnew : (s.persister.ctx.stamp a.now top).restored ∈ s'.restored a.attempt := by
    refine mem_restored ?_ htop
    rw [hfile]
    exact mem_prune_of_favorite (List.mem_append_left _ (List.mem_map_of_mem hmem)) htop
  have hstale : (entry clock row).restored ∈ s'.restored a.attempt := by
    refine mem_restored ?_ hf
    rw [hfile]
    refine mem_prune_of_favorite (List.mem_append_right _ (List.mem_filter.mpr ⟨?_, ?_⟩)) hf
    · rw [h.entries]
      exact List.mem_map_of_mem hrow
    · have hany : ¬ (s.app.pushHistory x).state.history.any (stable · row) := by
        rw [List.any_eq_true]
        intro hany
        obtain ⟨g, hg, hst⟩ := hany
        exact hgone g hg hst
      simpa [entry, hf] using hany
  have hsame' : (s.persister.ctx.stamp a.now top).restored.same (entry clock row).restored := by
    rw [restored_same]
    exact HistoryItem.same_comm.mp (same_keepingPin.mpr hsame)
  have heq := (hround a.attempt).1.eq_of_same hnew hstale hsame'
  have hlamport : top.lamport = row.lamport := by
    have := congrArg HistoryItem.lamport heq
    rwa [restored_lamport, restored_lamport] at this
  have hhash : top.hash = row.hash := (HistoryItem.same_iff.mp hsame).1.symm
  exact hgone top hmem (by simp [stable, hlamport, hhash])

/-- A first launch: no vault file and nothing in the history. -/
theorem inStep_of_empty (hh : s.app.state.history = []) (hp : s.persister =
    { lastWipeGen := s.app.state.vaultWipeGen }) : s.InStep :=
  ⟨HistoryItem.createdMs, fun _ _ ↦ rfl, by rw [hh]; exact .nil, by rw [hp, hh], by rw [hp],
    by rw [hp, hh]; rfl, by rw [hp, hh]; rfl⟩

/-- Every state of a run finds its history again after a restart exactly when no copy and no
arrival replaces a pinned row by one of another lamport. -/
theorem vault_round_trip_iff {l : List Edited} (hs : s.InStep)
    (hr : Run (Vaulted.step blake3) Always s l s') :
    (∀ l' t, l' <+: l → Run (Vaulted.step blake3) Always s l' t → t.RoundTrip) ↔
      Run (Vaulted.step blake3) (KeepsPins blake3) s l s' := by
  refine run_observed_iff hs (fun t ht ↦ ?_) (fun t a u ht hk hstep ↦ ?_)
    (fun t a u ht hk hstep ↦ ?_) hr
  · obtain ⟨clock, ht⟩ := ht
    exact ht.roundTrip
  · obtain ⟨clock, ht⟩ := ht
    exact ht.keeps hk hstep
  · obtain ⟨clock, ht⟩ := ht
    exact ht.breaks hk hstep

def firstLaunch : Vaulted where
  app := .new {}
  persister := {}
  saved := { now := 0, retentionSecs := 0 }

def later : WallClock := ⟨"12:01", 1060000⟩

/-- A row is copied and pinned, another one is copied. -/
def copyPinCopy : List Edited :=
  [⟨.copy 7 .text ⟨#[104]⟩ "h" false 1, noon, 1000000, 0⟩,
    ⟨.pin (hex32 7) true, noon, 1000000, 0⟩, ⟨.copy 8 .text ⟨#[105]⟩ "i" false 2, noon, 1000000, 0⟩]

/-- The pinned row is copied again. -/
def recopy : Edited := ⟨.copy 7 .text ⟨#[104]⟩ "h" false 3, later, 1060000, 0⟩

theorem vault_round_trip_iff_copyPinCopy :
    firstLaunch.InStep ∧ ∃ s, Run (Vaulted.step fun _ ↦ 0) Always firstLaunch copyPinCopy s ∧
      s.app.state.history.length = 2 ∧
      ((∀ l' t, l' <+: copyPinCopy → Run (Vaulted.step fun _ ↦ 0) Always firstLaunch l' t →
          t.RoundTrip) ↔
        Run (Vaulted.step fun _ ↦ 0) (KeepsPins fun _ ↦ 0) firstLaunch copyPinCopy s) := by
  have hrun : Run (Vaulted.step fun _ ↦ 0) Always firstLaunch copyPinCopy _ :=
    run_of_isSome (by decide +kernel)
  exact ⟨inStep_of_empty rfl rfl, _, hrun, by decide +kernel,
    vault_round_trip_iff (inStep_of_empty rfl rfl) hrun⟩

theorem recopied_pin_comes_back_twice :
    ∃ s, Run (Vaulted.step fun _ ↦ 0) Always firstLaunch (copyPinCopy ++ [recopy]) s ∧
      s.app.state.history.map (·.lamport) = [3, 2] ∧
      (s.restored { now := 1060000, retentionSecs := 0 }).map (·.lamport) = [3, 2, 1] ∧
      ¬ Distinct (s.restored { now := 1060000, retentionSecs := 0 }) ∧ ¬ s.RoundTrip := by
  have hrun : Run (Vaulted.step fun _ ↦ 0) Always firstLaunch (copyPinCopy ++ [recopy]) _ :=
    run_of_isSome (by decide +kernel)
  refine ⟨_, hrun, by decide +kernel, by decide +kernel, by decide +kernel, ?_⟩
  rintro ⟨_, -, h⟩
  exact absurd (h { now := 1060000, retentionSecs := 0 }).1 (by decide +kernel)

end Vaulted

end FluxSync.Vault
