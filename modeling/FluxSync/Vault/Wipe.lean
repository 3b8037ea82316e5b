import FluxSync.Foundation.Runs
import FluxSync.Vault.Store

namespace FluxSync.Vault

open Runs

variable {p : Persister} {history : List HistoryItem} {gen : UInt64} {t : Attempt}
  {e : VaultEntry} {entries : List VaultEntry} {ctx : VaultCtx} {now : UInt64}
  {P : HistoryItem → Prop}

/-- What the state watch shows the persister. -/
structure Snapshot where
  history : List HistoryItem
  wipeGen : UInt64
  deriving DecidableEq

/-- The persister behind the state watch, with all that was ever published. -/
structure Publisher where
  /-- Oldest first. -/
  published : List Snapshot
  /-- What the persister has read and not yet persisted. -/
  hand : Option Snapshot := none
  persister : Persister
  /-- The snapshots persisted with success. -/
  persisted : List Snapshot := []

inductive Act
  /-- `EmitState`. The counter only grows. -/
  | publish (snap : Snapshot)
  /-- The persister sees only the newest snapshot. -/
  | read
  | persist (t : Attempt)
  /-- The main loop's own mirror of a wipe, which empties the history. -/
  | mirror (o : Outcome)

/-- Nothing of the snapshot is left to be written. -/
def Persister.UpToDate (p : Persister) (snap : Snapshot) : Prop :=
  p.ctx.last = snap.history ∧ p.lastWipeGen = snap.wipeGen

instance {snap : Snapshot} : Decidable (p.UpToDate snap) := inferInstanceAs (Decidable (_ ∧ _))

def Publisher.step (s : Publisher) : Act → Option Publisher
  | .publish snap =>
    if s.published.all (·.wipeGen ≤ snap.wipeGen) then
      some { s with published := s.published ++ [snap] }
    else none
  | .read => if s.hand.isNone then some { s with hand := s.published.getLast? } else none
  | .persist t =>
    match s.hand with
    | some snap =>
      let persister := s.persister.persistHistoryChange snap.history snap.wipeGen t
      some { s with
        hand := none, persister
        persisted := if persister.UpToDate snap then s.persisted ++ [snap] else s.persisted }
    | none => none
  | .mirror o =>
    some { s with persister := { s.persister with file := o.result s.persister.file none } }

/-- The persister as a boot leaves it, whatever the vault held. -/
structure Publisher.Booted (s : Publisher) (gen : UInt64) : Prop where
  published : s.published = [{ history := s.persister.ctx.last, wipeGen := gen }]
  hand : s.hand = none
  lastWipeGen : s.persister.lastWipeGen = gen
  persisted : s.persisted = []

/-- The row was in a history published at or after the wipe with this number. -/
def Publisher.Since (s : Publisher) (gen : UInt64) (row : HistoryItem) : Prop :=
  ∃ snap ∈ s.published, gen ≤ snap.wipeGen ∧ row ∈ snap.history

/-- What the vault file and the persister remember. -/
def Persister.rows (p : Persister) : List HistoryItem :=
  (p.ctx.entries ++ p.file.getD []).map (·.item)

theorem mem_of_mem_pruneFrom {ttlMs : UInt64} {cap n : ℕ}
    (h : e ∈ pruneFrom now ttlMs cap n entries) : e ∈ entries := by
  induction entries generalizing n with
  | nil => exact h
  | cons d l ih =>
    rw [pruneFrom] at h
    split at h
    · obtain rfl | h := List.mem_cons.mp h
      · exact .head l
      · exact .tail d (ih h)
    · split at h
      · exact .tail d (ih h)
      · split at h
        · exact .tail d (ih h)
        · obtain rfl | h := List.mem_cons.mp h
          · exact .head l
          · exact .tail d (ih h)

theorem mem_of_mem_prune {ttl : UInt64} {cap : ℕ} (h : e ∈ prune entries now ttl cap) :
    e ∈ entries := mem_of_mem_pruneFrom h

theorem VaultCtx.item_of_mem_rebuild (h : e ∈ ctx.rebuild history now) :
    e.item ∈ history ∨ e ∈ ctx.entries := by
  rw [rebuild] at h
  obtain h | h := List.mem_append.mp h
  · obtain ⟨row, hrow, rfl⟩ := List.mem_map.mp h
    exact .inl hrow
  · exact .inr (List.mem_filter.mp h).1

theorem Outcome.result_or (o : Outcome) (old new : File) :
    o.result old new = old ∨ o.result old new = new := by
  cases o with
  | ok => exact .inr rfl
  | failed late =>
    rw [result]
    split
    · exact .inr rfl
    · exact .inl rfl

namespace Persister

/-- All it holds has the property. -/
def Holds (p : Persister) (P : HistoryItem → Prop) : Prop :=
  (∀ e ∈ p.ctx.entries, P e.item) ∧ ∀ e ∈ p.file.getD [], P e.item

theorem holds_iff_rows : p.Holds P ↔ ∀ row ∈ p.rows, P row := by
  simp only [Holds, rows, List.map_append, List.mem_append, List.mem_map]
  grind

theorem Holds.mono {Q : HistoryItem → Prop} (h : p.Holds P) (hPQ : ∀ row, P row → Q row) :
    p.Holds Q := ⟨fun e he ↦ hPQ _ (h.1 e he), fun e he ↦ hPQ _ (h.2 e he)⟩

theorem mirrorWipe_holds (h : p.Holds P) : (p.mirrorWipe history gen t).1.Holds P := by
  rw [mirrorWipe]
  split
  · split
    · refine ⟨by simp, ?_⟩
      obtain hr | hr := t.clear.result_or p.file none
      · rw [hr]
        exact h.2
      · simp [hr]
    · exact ⟨by simp, h.2⟩
  · exact h

/-- What is saved of a history is of it or was remembered. -/
theorem saved_holds {secs : UInt64} (he : ∀ e ∈ ctx.entries, P e.item)
    (hh : ∀ row ∈ history, P row) (hm : e ∈ prune (ctx.rebuild history now) now secs DEFAULT_DISK_CAP) :
    P e.item := by
  obtain h | h := VaultCtx.item_of_mem_rebuild (mem_of_mem_prune hm)
  · exact hh _ h
  · exact he e h

/-- An attempt adds no row but those of its snapshot. -/
theorem persistHistoryChange_holds (h : p.Holds P) (hh : ∀ row ∈ history, P row) :
    (p.persistHistoryChange history gen t).Holds P := by
  have hw : (p.mirrorWipe history gen t).1.Holds P := mirrorWipe_holds h
  simp only [persistHistoryChange]
  split
  · exact hw
  · have hfile : ∀ e ∈ (t.save.result (p.mirrorWipe history gen t).1.file
        (some (prune ((p.mirrorWipe history gen t).1.ctx.rebuild history t.now) t.now
          (ttlSecs t.retentionSecs) DEFAULT_DISK_CAP))).getD [], P e.item := by
      obtain hr | hr := t.save.result_or (p.mirrorWipe history gen t).1.file
        (some (prune ((p.mirrorWipe history gen t).1.ctx.rebuild history t.now) t.now
          (ttlSecs t.retentionSecs) DEFAULT_DISK_CAP))
      · rw [hr]
        exact hw.2
      · rw [hr]
        exact fun e he ↦ saved_holds hw.1 hh he
    split
    · refine ⟨fun e he ↦ ?_, hfile⟩
      obtain h | h := VaultCtx.item_of_mem_rebuild he
      · exact hh _ h
      · exact hw.1 e h
    · exact ⟨hw.1, hfile⟩

theorem lastWipeGen_persistHistoryChange (p : Persister) (history : List HistoryItem) (gen : UInt64)
    (t : Attempt) :
    (p.persistHistoryChange history gen t).lastWipeGen = gen ∨
      (p.persistHistoryChange history gen t).lastWipeGen = p.lastWipeGen := by
  simp only [persistHistoryChange, mirrorWipe]
  grind

/-- A new generation is taken over only with nothing left of the ones before. -/
theorem persistHistoryChange_holds_of_wiped (hg : gen ≠ p.lastWipeGen)
    (hdone : (p.persistHistoryChange history gen t).lastWipeGen = gen)
    (hh : ∀ row ∈ history, P row) : (p.persistHistoryChange history gen t).Holds P := by
  simp only [persistHistoryChange, mirrorWipe, if_pos hg] at hdone ⊢
  by_cases hnil : history = []
  · simp only [if_pos hnil] at hdone ⊢
    split at hdone
    case isTrue hok => exact ⟨by simp, by simp [hok, Outcome.result]⟩
    case isFalse => exact absurd hdone.symm hg
  · simp only [if_neg hnil] at hdone ⊢
    split at hdone
    case isTrue hok =>
      rw [if_pos hok]
      refine ⟨fun e he ↦ ?_, ?_⟩
      · obtain h | h := VaultCtx.item_of_mem_rebuild he
        · exact hh _ h
        · cases h
      · rw [hok]
        exact fun e he ↦ saved_holds (by simp) hh he
    case isFalse => exact absurd hdone.symm hg

end Persister

namespace Publisher

variable {s s' : Publisher} {a : Act} {gen₀ : UInt64}

theorem Since.mono {row : HistoryItem} {g g' : UInt64} (h : s.Since g row) (hg : g' ≤ g) :
    s.Since g' row := by
  obtain ⟨snap, hs, hle, hm⟩ := h
  exact ⟨snap, hs, UInt64.le_trans hg hle, hm⟩

/-- The generation the persister has reached, and what it may hold from there on. -/
structure Inv (gen₀ : UInt64) (s : Publisher) : Prop where
  newest : ∀ snap, s.published.getLast? = some snap → ∀ x ∈ s.published, x.wipeGen ≤ snap.wipeGen
  known : ∃ x ∈ s.published, x.wipeGen = s.persister.lastWipeGen
  hand : ∀ snap, s.hand = some snap → snap ∈ s.published ∧ s.persister.lastWipeGen ≤ snap.wipeGen
  persisted : ∀ snap ∈ s.persisted, snap.wipeGen ≤ s.persister.lastWipeGen
  holds : gen₀ < s.persister.lastWipeGen → s.persister.Holds (s.Since s.persister.lastWipeGen)

theorem Booted.inv (h : s.Booted gen₀) : s.Inv gen₀ where
  newest := by simp [h.published]
  known := ⟨_, by rw [h.published]; exact .head _, h.lastWipeGen.symm⟩
  hand := by simp [h.hand]
  persisted := by simp [h.persisted]
  holds hlt := by simp [h.lastWipeGen] at hlt

theorem Inv.publish {snap : Snapshot} (hi : s.Inv gen₀)
    (hall : ∀ x ∈ s.published, x.wipeGen ≤ snap.wipeGen) :
    Inv gen₀ { s with published := s.published ++ [snap] } where
  newest last hlast x hx := by
    obtain rfl : snap = last := by simpa using hlast
    obtain hx | hx := List.mem_append.mp hx
    · exact hall x hx
    · rw [List.mem_singleton.mp hx]
      exact UInt64.le_refl _
  known := by
    obtain ⟨x, hx, hg⟩ := hi.known
    exact ⟨x, List.mem_append_left _ hx, hg⟩
  hand y hy := ⟨List.mem_append_left _ (hi.hand y hy).1, (hi.hand y hy).2⟩
  persisted := hi.persisted
  holds hlt := by
    refine (hi.holds hlt).mono fun row h ↦ ?_
    obtain ⟨y, hy, h⟩ := h
    exact ⟨y, List.mem_append_left _ hy, h⟩

theorem Inv.read (hi : s.Inv gen₀) : Inv gen₀ { s with hand := s.published.getLast? } where
  newest := hi.newest
  known := hi.known
  hand snap hs := by
    obtain ⟨x, hx, hg⟩ := hi.known
    exact ⟨List.mem_of_getLast? hs, hg ▸ hi.newest snap hs x hx⟩
  persisted := hi.persisted
  holds := hi.holds

/-- An attempt stays at its generation or reaches the one of its snapshot. -/
theorem Inv.persist {snap : Snapshot} (hi : s.Inv gen₀) (hs : s.hand = some snap) :
    Inv gen₀
      { s with
        hand := none
        persister := s.persister.persistHistoryChange snap.history snap.wipeGen t
        persisted :=
          if (s.persister.persistHistoryChange snap.history snap.wipeGen t).UpToDate snap then
            s.persisted ++ [snap]
          else s.persisted } := by
  obtain ⟨hmem, hle⟩ := hi.hand snap hs
  have hrows : ∀ row ∈ snap.history, s.Since snap.wipeGen row :=
    fun row hrow ↦ ⟨snap, hmem, UInt64.le_refl _, hrow⟩
  have hgen := Persister.lastWipeGen_persistHistoryChange s.persister snap.history snap.wipeGen t
  have hmono : s.persister.lastWipeGen ≤
      (s.persister.persistHistoryChange snap.history snap.wipeGen t).lastWipeGen := by
    obtain h | h := hgen
    · rwa [h]
    · rw [h]
      exact UInt64.le_refl _
  refine ⟨hi.newest, ?_, by simp, fun y hy ↦ ?_, fun hlt ↦ ?_⟩
  · obtain h | h := hgen
    · exact ⟨snap, hmem, h.symm⟩
    · obtain ⟨x, hx, hg⟩ := hi.known
      exact ⟨x, hx, hg.trans h.symm⟩
  · dsimp only at hy ⊢
    split at hy
    case isTrue hdone =>
      obtain hy | hy := List.mem_append.mp hy
      · exact UInt64.le_trans (hi.persisted y hy) hmono
      · rw [List.mem_singleton.mp hy, hdone.2]
        exact UInt64.le_refl _
    case isFalse => exact UInt64.le_trans (hi.persisted y hy) hmono
  · dsimp only at hlt ⊢
    by_cases hnew : snap.wipeGen = s.persister.lastWipeGen
    · have hsame : (s.persister.persistHistoryChange snap.history snap.wipeGen t).lastWipeGen =
          s.persister.lastWipeGen := by
        obtain h | h := hgen
        · rw [h, hnew]
        · exact h
      rw [hsame] at hlt ⊢
      exact Persister.persistHistoryChange_holds (hi.holds hlt) (hnew ▸ hrows)
    · obtain h | h := hgen
      · have := Persister.persistHistoryChange_holds_of_wiped hnew h hrows
        rw [h]
        exact this
      · rw [h] at hlt ⊢
        exact Persister.persistHistoryChange_holds (hi.holds hlt)
          fun row hrow ↦ (hrows row hrow).mono hle

theorem Inv.step (hi : s.Inv gen₀) (hstep : s.step a = some s') : s'.Inv gen₀ := by
  cases a with
  | publish snap =>
    obtain ⟨hall, rfl⟩ : _ ∧ _ := by simpa [Publisher.step] using hstep
    exact hi.publish hall
  | read =>
    obtain ⟨-, rfl⟩ : _ ∧ _ := by simpa [Publisher.step] using hstep
    exact hi.read
  | persist t =>
    rw [Publisher.step] at hstep
    split at hstep
    case h_1 snap hs =>
      obtain rfl := Option.some.inj hstep
      exact hi.persist hs
    case h_2 => cases hstep
  | mirror o =>
    obtain rfl := Option.some.inj hstep
    refine ⟨hi.newest, hi.known, hi.hand, hi.persisted, fun hlt ↦ ?_⟩
    obtain ⟨hentries, hfile⟩ := hi.holds hlt
    refine ⟨hentries, ?_⟩
    obtain h | h := o.result_or s.persister.file none
    · rw [h]
      exact hfile
    · simp [h]

/-- Once a snapshot from after a wipe has been persisted, the vault file and the persister
hold only rows of histories published at or after that wipe. -/
theorem vault_wiped {l : List Act} {gen : UInt64} (hs : s.Booted gen₀)
    (hr : Run Publisher.step Always s l s') (hwipe : gen₀ < gen)
    (hdone : ∃ snap ∈ s'.persisted, gen ≤ snap.wipeGen) :
    ∀ row ∈ s'.persister.rows, s'.Since gen row := by
  have hi : s'.Inv gen₀ := hr.invariant hs.inv fun t a u hi _ hstep ↦ hi.step hstep
  obtain ⟨snap, hsnap, hg⟩ := hdone
  have hreached : gen ≤ s'.persister.lastWipeGen :=
    UInt64.le_trans hg (hi.persisted snap hsnap)
  have hholds := hi.holds (UInt64.lt_of_lt_of_le hwipe hreached)
  exact Persister.holds_iff_rows.mp (hholds.mono fun row h ↦ h.mono hreached)

/-- A row of the given content. -/
def row (preview hash : String) : HistoryItem where
  kind := .text
  preview := preview
  time := "12:00"
  source := .localCopy
  sensitive := false
  lamport := 1
  hash := hash
  favorite := true
  resync := false
  sourcePeerId := none
  createdMs := 1

/-- A boot whose vault holds a favorite. -/
def bootedWithSecret : Publisher where
  published := [{ history := [row "secret" "s"], wipeGen := 0 }]
  persister :=
    { ctx := { last := [row "secret" "s"], entries := [⟨row "secret" "s", 1⟩] }
      file := some [⟨row "secret" "s", 1⟩] }

/-- The wipe's own clear fails, the next save does not. -/
def failedClear : List Act :=
  [.publish { history := [], wipeGen := 1 }, .read,
    .persist { now := 2, retentionSecs := 0, clear := .failed false },
    .publish { history := [row "later" "l"], wipeGen := 1 }, .read,
    .persist { now := 3, retentionSecs := 0 }]

theorem vault_wiped_failedClear :
    ∃ s', Run Publisher.step Always bootedWithSecret failedClear s' ∧
      s'.persister.rows = [row "later" "l", row "later" "l"] ∧
      ∀ row ∈ s'.persister.rows, s'.Since 1 row := by
  have hrun : Run Publisher.step Always bootedWithSecret failedClear _ :=
    run_of_isSome (by decide +kernel)
  have hbooted : bootedWithSecret.Booted 0 := ⟨rfl, rfl, rfl, rfl⟩
  refine ⟨_, hrun, by decide +kernel, ?_⟩
  exact vault_wiped hbooted hrun (by decide) ⟨⟨[row "later" "l"], 1⟩, by decide +kernel, by decide⟩

end Publisher

end FluxSync.Vault
