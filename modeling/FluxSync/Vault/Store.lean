import FluxSync.Core.App

namespace FluxSync.Vault

structure VaultEntry where
  item : HistoryItem
  createdMs : UInt64
  deriving DecidableEq

def DEFAULT_DISK_CAP : ℕ := 500

def USIZE_MAX : ℕ := 2 ^ 64 - 1

/-- The period for "forever" is as long as its milliseconds allow. -/
def ttlSecs (retentionSecs : UInt64) : UInt64 :=
  if retentionSecs = 0 then 0xffffffffffffffff / 1000 else retentionSecs

/-- The loop of `prune` after `nonFav` rows that count towards the cap. -/
def pruneFrom (nowMs ttlMs : UInt64) (cap : ℕ) : ℕ → List VaultEntry → List VaultEntry
  | _, [] => []
  | nonFav, e :: l =>
    if e.item.favorite then e :: pruneFrom nowMs ttlMs cap nonFav l
    else if ttlMs < saturatingSub nowMs e.createdMs then pruneFrom nowMs ttlMs cap nonFav l
    else if cap ≤ nonFav then pruneFrom nowMs ttlMs cap nonFav l
    else e :: pruneFrom nowMs ttlMs cap (nonFav + 1) l

def prune (entries : List VaultEntry) (nowMs ttlSecs : UInt64) (cap : ℕ) : List VaultEntry :=
  pruneFrom nowMs (App.saturatingMul ttlSecs 1000) cap 0 entries

/-- The rows of `history.enc`, where there is one. -/
abbrev File := Option (List VaultEntry)

def load (file : File) (nowMs ttlSecs : UInt64) : List VaultEntry :=
  prune (file.getD []) nowMs ttlSecs USIZE_MAX

/-- How a write to the disk ends. A failure may come after the file has changed. -/
inductive Outcome
  | ok
  | failed (late : Bool)
  deriving DecidableEq

def Outcome.result (o : Outcome) (old new : File) : File :=
  match o with
  | .ok => new
  | .failed late => if late then new else old

/-- The persister's `dir` and `key` never change. -/
structure VaultCtx where
  last : List HistoryItem := []
  entries : List VaultEntry := []

def stable (a b : HistoryItem) : Bool := a.hash == b.hash && a.lamport == b.lamport

/-- A known age is kept, also where only the last persisted entry knows it. -/
def VaultCtx.stamp (ctx : VaultCtx) (now : UInt64) (item : HistoryItem) : VaultEntry where
  item := item
  createdMs :=
    if item.createdMs ≠ 0 then item.createdMs
    else
      match ctx.entries.find? (stable ·.item item) with
      | some prev => prev.createdMs
      | none => now

/-- The favorites that the history does not show are kept. -/
def VaultCtx.rebuild (ctx : VaultCtx) (history : List HistoryItem) (now : UInt64) :
    List VaultEntry :=
  history.map (ctx.stamp now) ++
    ctx.entries.filter fun e ↦ e.item.favorite && !history.any (stable · e.item)

/-- The vault persister with the file it writes. -/
structure Persister where
  ctx : VaultCtx := {}
  lastWipeGen : UInt64 := 0
  file : File := none

/-- What a persist attempt meets. -/
structure Attempt where
  now : UInt64
  retentionSecs : UInt64
  clear : Outcome := .ok
  save : Outcome := .ok

/-- The first part of `persist_history_change`. The flag is `wipe_done_by_save`. -/
def Persister.mirrorWipe (p : Persister) (history : List HistoryItem) (wipeGen : UInt64)
    (t : Attempt) : Persister × Bool :=
  if wipeGen ≠ p.lastWipeGen then
    let ctx : VaultCtx := { last := [], entries := [] }
    if history = [] then
      ({ ctx
         lastWipeGen := if t.clear = .ok then wipeGen else p.lastWipeGen
         file := t.clear.result p.file none },
        false)
    else ({ p with ctx }, true)
  else (p, false)

def Persister.persistHistoryChange (p : Persister) (history : List HistoryItem)
    (wipeGen : UInt64) (t : Attempt) : Persister :=
  let (p, wipeDoneBySave) := p.mirrorWipe history wipeGen t
  if history = p.ctx.last then p
  else
    let entries := p.ctx.rebuild history t.now
    let saved := prune entries t.now (ttlSecs t.retentionSecs) DEFAULT_DISK_CAP
    let file := t.save.result p.file (some saved)
    if t.save = .ok then
      { file
        ctx := { last := history, entries }
        lastWipeGen := if wipeDoneBySave then wipeGen else p.lastWipeGen }
    else { p with file }

/-- The row that a boot restores of an entry. -/
def VaultEntry.restored (e : VaultEntry) : HistoryItem :=
  if e.item.createdMs = 0 then { e.item with createdMs := e.createdMs } else e.item

/-- The App that a boot makes of what it loads, and the persister it starts. -/
def boot (policy : FirewallPolicy) (file : File) (nowMs retentionSecs : UInt64) :
    App × Persister :=
  let entries := load file nowMs (ttlSecs retentionSecs)
  let app := (App.new policy).restoreHistory (entries.map (·.restored))
  (app, { ctx := { last := app.state.history, entries }
          lastWipeGen := app.state.vaultWipeGen, file })

end FluxSync.Vault
