import FluxSync.Vault.Store
import FluxSync.Daemon.Keystore

/-! ## The history as it stands on the disk -/

namespace FluxSync.HistoryStore

open Json Runs Vault
open Keystore (Store layout fromStr fromStr_write)

def serKind : Kind → Value
  | .text => ofString "text"
  | .url => ofString "url"
  | .code => ofString "code"
  | .image => ofString "image"
  | .file => ofString "file"

def deKind : Value → Option Kind :=
  asUnit [("text", .text), ("url", .url), ("code", .code), ("image", .image), ("file", .file)]

def serSource : HistorySource → Value
  | .localCopy => ofString "local"
  | .remote => ofString "remote"

def deSource : Value → Option HistorySource := asUnit [("local", .localCopy), ("remote", .remote)]

def itemFields : List String :=
  ["kind", "preview", "time", "source", "sensitive", "lamport", "hash", "favorite", "resync",
    "source_peer_id", "created_ms"]

def itemMembers (i : HistoryItem) : List (String × Value) :=
  [("kind", serKind i.kind), ("preview", ofString i.preview), ("time", ofString i.time),
    ("source", serSource i.source), ("sensitive", .bool i.sensitive), ("lamport", u64 i.lamport),
    ("hash", ofString i.hash), ("favorite", .bool i.favorite), ("resync", .bool i.resync),
    ("source_peer_id", ofOption ofString i.sourcePeerId), ("created_ms", u64 i.createdMs)]

def serItem (i : HistoryItem) : Value := .object (itemMembers i)

def deItem (v : Value) : Option HistoryItem := do
  let get ← fields itemFields v
  return {
    kind := ← required deKind (get "kind")
    preview := ← required asString (get "preview")
    time := ← required asString (get "time")
    source := ← required deSource (get "source")
    sensitive := ← required asBool (get "sensitive")
    lamport := ← required asU64 (get "lamport")
    hash := ← required asString (get "hash")
    favorite := ← defaulted false asBool (get "favorite")
    resync := ← defaulted false asBool (get "resync")
    sourcePeerId := ← defaulted none (asOption asString) (get "source_peer_id")
    createdMs := ← defaulted 0 asU64 (get "created_ms") }

def serEntry (e : VaultEntry) : Value :=
  .object [("item", serItem e.item), ("created_ms", u64 e.createdMs)]

def deEntry (v : Value) : Option VaultEntry := do
  let get ← fields ["item", "created_ms"] v
  return {
    item := ← required deItem (get "item")
    createdMs := ← required asU64 (get "created_ms") }

structure VaultFile where
  version : UInt32
  entries : List VaultEntry

def VAULT_VERSION : UInt32 := 1

def serVaultFile (vf : VaultFile) : Value :=
  .object [("version", u64 vf.version.toUInt64), ("entries", ofList serEntry vf.entries)]

def deVaultFile (v : Value) : Option VaultFile := do
  let get ← fields ["version", "entries"] v
  return {
    version := ← required asU32 (get "version")
    entries := ← required (asList deEntry) (get "entries") }

def HISTORY_FILE : String := "history.enc"

def NONCE_LEN : ℕ := 24

abbrev Nonce := Vector UInt8 NONCE_LEN

/-- XChaCha20-Poly1305 under the key of the vault. It may refuse what is too long, and what it
gives under a nonce opens to one plaintext. -/
structure Cipher where
  encrypt : Nonce → List UInt8 → Option (List UInt8)
  encrypt_inj : ∀ {n p q c}, encrypt n p = some c → encrypt n q = some c → p = q

/-- `at_rest::seal`. -/
def atRestSeal (κ : Cipher) (nonce : Nonce) (plaintext : List UInt8) : Option (List UInt8) :=
  (κ.encrypt nonce plaintext).map (nonce.toList ++ ·)

/-- What was encrypted under the key, and under which nonces. -/
abbrev Log := List (Nonce × List UInt8)

/-- The cipher opens what was encrypted under the key, and nothing else. -/
def decrypt (κ : Cipher) (log : Log) (nonce ct : List UInt8) : Option (List UInt8) :=
  (log.find? fun x ↦ x.1.toList = nonce ∧ κ.encrypt x.1 x.2 = some ct).map Prod.snd

/-- `at_rest::open`. -/
def atRestOpen (κ : Cipher) (log : Log) (blob : List UInt8) : Option (List UInt8) :=
  if blob.length < NONCE_LEN then none
  else decrypt κ log (blob.take NONCE_LEN) (blob.drop NONCE_LEN)

inductive LoadError
  | decrypt
  | parse

def load (κ : Cipher) (log : Log) (file : Option (List UInt8)) (nowMs ttlSecs : UInt64) :
    Except LoadError (List VaultEntry) :=
  match file with
  | none => .ok []
  | some [] => .ok []
  | some blob =>
    match atRestOpen κ log blob with
    | none => .error .decrypt
    | some plain =>
      match (ofBytes plain).bind (fromStr deVaultFile) with
      | none => .error .parse
      | some vf => .ok (prune vf.entries nowMs ttlSecs USIZE_MAX)

/-- The plaintext of `history.enc`. -/
def plaintext (rows : List VaultEntry) : List UInt8 :=
  toBytes (write false 0 (serVaultFile ⟨VAULT_VERSION, rows⟩))

/-- What `save` is called with, and the nonce it draws. -/
structure Save where
  nonce : Nonce
  entries : List VaultEntry
  nowMs : UInt64
  ttlSecs : UInt64
  cap : ℕ

def Save.rows (x : Save) : List VaultEntry := prune x.entries x.nowMs x.ttlSecs x.cap

/-- The bytes that `save` writes. -/
def Save.blob (κ : Cipher) (x : Save) : Option (List UInt8) :=
  atRestSeal κ x.nonce (plaintext x.rows)

/-- The keystore directory, and what the key of the vault was used for. -/
structure State where
  stores : Fsutil.System Store String
  log : Log

/-- The persister and the event loop save the history, both under the steps of the disk. -/
inductive Act
  | save (w : Store) (x : Save)
  | disk (a : Fsutil.Act Store String)

/-- Not a save of the history. -/
def spares : Fsutil.Act Store String → Bool
  | .save f _ => f.file ≠ HISTORY_FILE
  | _ => true

def step (κ : Cipher) (s : State) : Act → Option State
  | .save w x =>
    if w.file = HISTORY_FILE then
      match x.blob κ with
      | none => some s
      | some blob => (Fsutil.step layout s.stores (.save w blob)).map fun stores ↦
          ⟨stores, (x.nonce, plaintext x.rows) :: s.log⟩
    else none
  | .disk a =>
    if spares a then (Fsutil.step layout s.stores a).map fun stores ↦ { s with stores } else none

/-- The step that the disk sees. -/
def Act.raw (κ : Cipher) : Act → Option (Fsutil.Act Store String)
  | .save w x => (x.blob κ).map (.save w ·)
  | .disk a => some a

/-- A file that the steps `l` of one writer may have left. -/
def Left (f : Store) (l : List Act) : Vault.File → Prop
  | none => .disk (.remove f) ∈ l
  | some rows => ∃ x, .save f x ∈ l ∧ x.rows = rows

/-- A boot loads what it would load of `v`, or what one of the steps `l` left. -/
def Restores (κ : Cipher) (f : Store) (l : List Act) (v : Option (List UInt8)) (t : State) : Prop :=
  ∀ now ttl, load κ t.log (t.stores.read layout f) now ttl = load κ t.log v now ttl ∨
    ∃ file, Left f l file ∧
      load κ t.log (t.stores.read layout f) now ttl = .ok (Vault.load file now ttl)

variable {κ : Cipher} {log log' : Log} {nonce : Nonce} {p blob : List UInt8} {v : Option (List UInt8)}
  {rows : List VaultEntry} {now ttl : UInt64} {s t : State} {a : Act} {l : List Act} {f : Store}
  {x : Save} {stores : Fsutil.System Store String}

theorem plain_serItem (i : HistoryItem) : Plain (serItem i) := by
  have hkind : Plain (serKind i.kind) := by
    cases i.kind
    all_goals exact plain_ofString _
  have hsource : Plain (serSource i.source) := by
    cases i.source
    all_goals exact plain_ofString _
  refine plain_object ?_
  simp [itemMembers, hkind, hsource, plain_ofString, plain_u64, plain_ofOption, Plain.bool]

theorem plain_serEntry (e : VaultEntry) : Plain (serEntry e) := by
  refine plain_object ?_
  simp [plain_serItem, plain_u64]

theorem plain_serVaultFile (vf : VaultFile) : Plain (serVaultFile vf) := by
  refine plain_object ?_
  simp [plain_u64, plain_ofList, plain_serEntry]

theorem deItem_ser (i : HistoryItem) : deItem (serItem i) = some i := by
  have hkind : deKind (serKind i.kind) = some i.kind := by
    cases i.kind
    all_goals rfl
  have hsource : deSource (serSource i.source) = some i.source := by
    cases i.source
    all_goals rfl
  have hne : ∀ s, ofString s ≠ .null := by
    intro s h
    cases h
  have hpeer : asOption asString (ofOption ofString i.sourcePeerId) = some i.sourcePeerId :=
    asOption_ofOption (fun s ↦ (rfl : asString (ofString s) = some s)) hne i.sourcePeerId
  have hstring : ∀ s, asString (ofString s) = some s := fun _ ↦ rfl
  have hnames : itemFields.Nodup := by simp [itemFields]
  have hmembers : (itemMembers i).map (·.1) = itemFields := rfl
  obtain ⟨get, hfields, hget⟩ := exists_fields hmembers hnames
  simp only [itemMembers, List.forall_mem_cons] at hget
  rw [deItem, serItem, hfields, Option.bind_eq_bind, Option.bind_some]
  simp only [hget, required, defaulted, hkind, hsource, hpeer, hstring, asBool, asU64_u64]
  rfl

theorem deEntry_ser (e : VaultEntry) : deEntry (serEntry e) = some e := by
  have hnames : ["item", "created_ms"].Nodup := by decide
  simp only [deEntry, serEntry]
  rw [fields_object (by rfl) hnames]
  simp only [List.lookup, String.reduceBEq, required, deItem_ser, asU64_u64, Option.bind_eq_bind,
    Option.bind_some, Option.pure_def]

theorem deVaultFile_ser (vf : VaultFile) : deVaultFile (serVaultFile vf) = some vf := by
  have hlist : asList deEntry (ofList serEntry vf.entries) = some (vf.entries.map id) :=
    asList_ofList deEntry_ser vf.entries
  have hnames : ["version", "entries"].Nodup := by decide
  simp only [deVaultFile, serVaultFile]
  rw [fields_object (by rfl) hnames]
  simp [List.lookup, required, asU32_u64, hlist]

/-- What was written is read again. -/
theorem parse_plaintext (rows : List VaultEntry) :
    (ofBytes (plaintext rows)).bind (fromStr deVaultFile) = some ⟨VAULT_VERSION, rows⟩ := by
  rw [plaintext, ofBytes_toBytes, Option.bind_some, fromStr_write (plain_serVaultFile _),
    deVaultFile_ser]

theorem le_length_seal (h : atRestSeal κ nonce p = some blob) : NONCE_LEN ≤ blob.length := by
  obtain ⟨ct, -, rfl⟩ := Option.map_eq_some_iff.mp h
  rw [List.length_append, Vector.length_toList]
  exact Nat.le_add_right _ _

/-- A blob opens if it was sealed, to what it was sealed from. -/
theorem atRestOpen_eq_some : atRestOpen κ log blob = some p ↔
    ∃ nonce, (nonce, p) ∈ log ∧ atRestSeal κ nonce p = some blob := by
  constructor
  · intro h
    obtain ⟨-, h⟩ := Option.ite_none_left_eq_some.mp h
    obtain ⟨⟨nonce, q⟩, hfind, rfl⟩ := Option.map_eq_some_iff.mp h
    have hx := List.find?_some hfind
    obtain ⟨hnonce, hct⟩ := of_decide_eq_true hx
    refine ⟨nonce, List.mem_of_find?_eq_some hfind, ?_⟩
    rw [atRestSeal, hct, hnonce, Option.map_some, List.take_append_drop]
  · rintro ⟨nonce, hmem, hseal⟩
    have hlen := le_length_seal hseal
    obtain ⟨ct, hct, rfl⟩ := Option.map_eq_some_iff.mp hseal
    have htake : (nonce.toList ++ ct).take NONCE_LEN = nonce.toList :=
      List.take_left' (Vector.length_toList ..)
    have hdrop : (nonce.toList ++ ct).drop NONCE_LEN = ct :=
      List.drop_left' (Vector.length_toList ..)
    rw [atRestOpen, if_neg (Nat.not_lt.mpr hlen), decrypt, htake, hdrop]
    cases hfind : log.find? fun x ↦ x.1.toList = nonce.toList ∧ κ.encrypt x.1 x.2 = some ct with
    | none =>
      have hnone := List.find?_eq_none.mp hfind _ hmem
      simp [hct] at hnone
    | some x =>
      have hx := List.find?_some hfind
      obtain ⟨hnonce, hx⟩ := of_decide_eq_true hx
      rw [Vector.toList_inj.mp hnonce] at hx
      rw [Option.map_some, κ.encrypt_inj hx hct]

/-- What was saved is loaded. -/
theorem load_blob (h : x.blob κ = some blob) (hx : (x.nonce, plaintext x.rows) ∈ log) :
    load κ log (some blob) now ttl = .ok (Vault.load (some x.rows) now ttl) := by
  have hopen : atRestOpen κ log blob = some (plaintext x.rows) :=
    atRestOpen_eq_some.mpr ⟨x.nonce, hx, h⟩
  have hlen := le_length_seal h
  cases blob with
  | nil => cases hlen
  | cons b rest =>
    simp only [load, hopen, parse_plaintext]
    rfl

/-- The log has what was saved, and nothing else. -/
structure Logged (κ : Cipher) (l : List Act) (log : Log) : Prop where
  saved : ∀ y ∈ log, ∃ w x, .save w x ∈ l ∧ y = (x.nonce, plaintext x.rows)
  log : ∀ w x, .save w x ∈ l → (x.blob κ).isSome → (x.nonce, plaintext x.rows) ∈ log

theorem step_cases (h : step κ s a = some t) :
    (∃ w x, a = .save w x ∧ x.blob κ = none ∧ t = s) ∨
    (∃ w x blob stores, a = .save w x ∧ x.blob κ = some blob ∧
      Fsutil.step layout s.stores (.save w blob) = some stores ∧
      t = ⟨stores, (x.nonce, plaintext x.rows) :: s.log⟩) ∨
    ∃ e stores, a = .disk e ∧ Fsutil.step layout s.stores e = some stores ∧
      t = { s with stores } := by
  cases a with
  | save w x =>
    obtain ⟨-, h⟩ := Option.ite_none_right_eq_some.mp h
    cases hblob : x.blob κ with
    | none =>
      simp only [hblob, Option.some.injEq] at h
      exact .inl ⟨w, x, rfl, hblob, h.symm⟩
    | some blob =>
      simp only [hblob, Option.map_eq_some_iff] at h
      obtain ⟨stores, hstores, rfl⟩ := h
      exact .inr (.inl ⟨w, x, blob, stores, rfl, hblob, hstores, rfl⟩)
  | disk e =>
    obtain ⟨-, h⟩ := Option.ite_none_right_eq_some.mp h
    obtain ⟨stores, hstores, rfl⟩ := Option.map_eq_some_iff.mp h
    exact .inr (.inr ⟨e, stores, rfl, hstores, rfl⟩)

theorem Logged.step (h : Logged κ l s.log) (ht : HistoryStore.step κ s a = some t) :
    Logged κ (l ++ [a]) t.log := by
  have hold : ∀ y ∈ s.log, ∃ w x, .save w x ∈ l ++ [a] ∧ y = (x.nonce, plaintext x.rows) := by
    intro y hy
    obtain ⟨w, x, hx, rfl⟩ := h.saved y hy
    exact ⟨w, x, List.mem_append_left _ hx, rfl⟩
  obtain ⟨w, x, rfl, hnone, rfl⟩ | ⟨w, x, blob, stores, rfl, hblob, -, rfl⟩ | ⟨e, stores, rfl, -, rfl⟩ :=
    step_cases ht
  · refine ⟨hold, fun w' y hy hsome ↦ ?_⟩
    rcases List.mem_append.mp hy with hy | hy
    · exact h.log w' y hy hsome
    · cases List.mem_singleton.mp hy
      rw [hnone] at hsome
      cases hsome
  · refine ⟨fun y hy ↦ ?_, fun w' y hy hsome ↦ ?_⟩
    · rcases List.mem_cons.mp hy with rfl | hy
      · exact ⟨w, x, by simp, rfl⟩
      · exact hold y hy
    · rcases List.mem_append.mp hy with hy | hy
      · exact List.mem_cons_of_mem _ (h.log w' y hy hsome)
      · cases List.mem_singleton.mp hy
        exact List.mem_cons_self
  · refine ⟨hold, fun w' y hy hsome ↦ ?_⟩
    rcases List.mem_append.mp hy with hy | hy
    · exact h.log w' y hy hsome
    · cases List.mem_singleton.mp hy

theorem logged_run (h : Run (step κ) Always ⟨stores, []⟩ l t) : Logged κ l t.log := by
  refine h.history (I := fun l t ↦ Logged κ l t.log) ⟨?_, ?_⟩ fun _ _ _ _ _ hI _ hstep ↦ hI.step hstep
  · intro y hy
    cases hy
  · intro w x hx
    cases hx

/-- Whatever bytes stand in the file, mixed of two saves, torn, brought back or forged: a boot
loads the rows of one save, and exactly if the bytes are those it wrote, or no rows of an empty or
missing file, or it fails. -/
theorem history_authentic (h : Run (step κ) Always ⟨stores, []⟩ l t) :
    load κ t.log v now ttl = .ok rows ↔
      (v = none ∨ v = some []) ∧ rows = [] ∨
      ∃ w x, .save w x ∈ l ∧ (x.blob κ).isSome ∧ v = x.blob κ ∧
        rows = Vault.load (some x.rows) now ttl := by
  have hlog := logged_run h
  constructor
  · intro hload
    cases v with
    | none => exact .inl ⟨.inl rfl, (Except.ok.inj hload).symm⟩
    | some blob =>
      cases blob with
      | nil => exact .inl ⟨.inr rfl, (Except.ok.inj hload).symm⟩
      | cons b rest =>
        right
        cases hopen : atRestOpen κ t.log (b :: rest) with
        | none => simp [load, hopen] at hload
        | some p =>
          obtain ⟨nonce, hmem, hseal⟩ := atRestOpen_eq_some.mp hopen
          obtain ⟨w, x, hx, heq⟩ := hlog.saved _ hmem
          obtain ⟨rfl, rfl⟩ := Prod.mk.inj heq
          have hblob : x.blob κ = some (b :: rest) := hseal
          rw [load_blob hblob hmem] at hload
          exact ⟨w, x, hx, by rw [hblob]; rfl, hblob.symm, (Except.ok.inj hload).symm⟩
  · rintro (⟨rfl | rfl, rfl⟩ | ⟨w, x, hx, hsome, rfl, rfl⟩)
    · rfl
    · rfl
    · obtain ⟨blob, hblob⟩ := Option.isSome_iff_exists.mp hsome
      rw [hblob]
      exact load_blob hblob (hlog.log w x hx hsome)

/-- A cipher that leaves the text as it is and puts sixteen zeros behind it. -/
def clearText : Cipher where
  encrypt _ p := some (p ++ List.replicate 16 0)
  encrypt_inj h h' := List.append_cancel_right (Option.some.inj (h.trans h'.symm))

def pin : VaultEntry :=
  ⟨⟨.text, "", "", .localCopy, false, 1, "", true, false, none, 1000⟩, 1000⟩

def kept : Save := ⟨.replicate 24 1, [pin], 2000, 3600, 500⟩

def expired : Save := ⟨.replicate 24 2, [], 2000, 3600, 500⟩

/-- While a wipe writes the pin that it keeps, the persister writes an emptied history over it. -/
def mixed : List Act :=
  [.save .securityWipe kept, .disk (.advance .securityWipe), .save .history expired,
    .disk (.advance .history), .disk (.advance .securityWipe), .disk (.advance .history),
    .disk (.advance .securityWipe), .disk (.advance .history), .disk (.advance .history)]

/-- The file has bytes that neither of the two saves wrote. -/
def spoilt (t : State) : Bool :=
  (t.stores.read layout .history).any fun b ↦
    b ≠ [] ∧ kept.blob clearText ≠ some b ∧ expired.blob clearText ≠ some b

/-- Both saves are lost. -/
theorem history_authentic_mixed : ∃ t, Run (step clearText) Always ⟨.blank, []⟩ mixed t ∧
    ∀ rows, load clearText t.log (t.stores.read layout .history) 3000 3600 ≠ .ok rows := by
  have h : (mixed.foldlM (step clearText) ⟨.blank, []⟩).any spoilt := by decide +kernel
  obtain ⟨t, ht, hspoilt⟩ := (Option.any_eq_true _ _).mp h
  obtain ⟨b, hread, hb⟩ := (Option.any_eq_true _ _).mp hspoilt
  obtain ⟨hne, hkept, hexpired⟩ := of_decide_eq_true hb
  refine ⟨t, run_of_foldlM ht, fun rows hload ↦ ?_⟩
  rw [hread] at hload
  have hcases := (history_authentic (run_of_foldlM ht)).mp hload
  obtain ⟨hempty | hempty, -⟩ | ⟨w, x, hx, -, hblob, -⟩ := hcases
  · cases hempty
  · exact hne (Option.some.inj hempty)
  · have hx : x = kept ∨ x = expired := by
      simp only [mixed, List.mem_cons, Act.save.injEq, reduceCtorEq, List.not_mem_nil, false_or,
        or_false] at hx
      exact hx.imp And.right And.right
    rcases hx with rfl | rfl
    · exact absurd hblob.symm hkept
    · exact absurd hblob.symm hexpired

/-- The directory, where of the writers of the history only `f` is at work. -/
def lone (f : Store) : Fsutil.Layout Store String where
  path g := if g.file = HISTORY_FILE ∧ g ≠ f then "unused" else g.file
  tmp g := if g.file = HISTORY_FILE ∧ g ≠ f then "unused.tmp" else g.tmp
  path_ne_tmp g k := by
    have hpath : ∀ g ∈ Store.all, "unused" ≠ g.tmp ∧ g.file ≠ "unused.tmp" := by decide +kernel
    split_ifs
    · decide
    · exact (hpath k k.mem_all).1
    · exact (hpath g g.mem_all).2
    · exact Store.file_ne_tmp g k

theorem lone_alone (hf : f.file = HISTORY_FILE) : (lone f).Alone f := by
  have hall : ∀ f ∈ Store.all, ∀ g ∈ Store.all, f.file = HISTORY_FILE → g ≠ f →
      (lone f).path g ≠ (lone f).path f ∧ (lone f).tmp g ≠ (lone f).tmp f := by decide +kernel
  exact ⟨fun g hg ↦ (hall f f.mem_all g g.mem_all hf hg).1,
    fun g hg ↦ (hall f f.mem_all g g.mem_all hf hg).2⟩

/-- Of the writers of the history only `f` is at work. -/
def Quiet (κ : Cipher) (f : Store) (_ : State) (a : Act) : Prop :=
  ∀ e, a.raw κ = some e → ∀ g, e.writer = some g → g.file = HISTORY_FILE → g = f

theorem raw_run (h : Run (step κ) (Quiet κ f) s l t) :
    Run (Fsutil.step (lone f)) Always s.stores (l.filterMap (Act.raw κ)) t.stores := by
  induction h with
  | nil => exact .nil
  | @snoc l t u a _ ha ht ih =>
    have hnext : ∀ e stores, a.raw κ = some e → Fsutil.step layout t.stores e = some stores →
        Run (Fsutil.step (lone f)) Always s.stores ((l ++ [a]).filterMap (Act.raw κ)) stores := by
      intro e stores he hstep
      have hcongr : Fsutil.step (lone f) t.stores e = Fsutil.step layout t.stores e := by
        apply Fsutil.step_congr
        intro g hg
        have hother : ¬ (g.file = HISTORY_FILE ∧ g ≠ f) := fun ⟨hfile, hne⟩ ↦ hne (ha e he g hg hfile)
        exact ⟨if_neg hother, if_neg hother⟩
      simp only [List.filterMap_append, List.filterMap_cons, he, List.filterMap_nil]
      exact .snoc ih trivial (hcongr.trans hstep)
    obtain ⟨w, x, rfl, hnone, rfl⟩ | ⟨w, x, blob, stores, rfl, hblob, hstep, rfl⟩ | ⟨e, stores, rfl, hstep, rfl⟩ :=
      step_cases ht
    · simpa [Act.raw, hnone] using ih
    · refine hnext _ stores ?_ hstep
      rw [Act.raw, hblob, Option.map_some]
    · exact hnext e stores rfl hstep

theorem read_lone (stores : Fsutil.System Store String) :
    stores.read (lone f) f = stores.read layout f := by
  have hpath : (lone f).path f = layout.path f := if_neg fun h ↦ h.2 rfl
  rw [Fsutil.System.read, hpath]
  rfl

theorem spares_run {ok : State → Act → Prop} (h : Run (step κ) ok s l t) :
    ∀ e, .disk e ∈ l → spares e := by
  induction h with
  | nil =>
    intro e he
    cases he
  | snoc _ _ ht ih =>
    intro e he
    rcases List.mem_append.mp he with he | he
    · exact ih e he
    · cases List.mem_singleton.mp he
      exact (Option.ite_none_right_eq_some.mp ht).1

/-- What the disk shows is what a boot loads. -/
theorem restores_of_shows (hf : f.file = HISTORY_FILE) (hl : ∀ e, .disk e ∈ l → spares e)
    (hlog : ∀ x, .save f x ∈ l → (x.blob κ).isSome → (x.nonce, plaintext x.rows) ∈ t.log)
    (h : Fsutil.Shows (l.filterMap (Act.raw κ)) f v (t.stores.read layout f)) :
    Restores κ f l v t := by
  intro now ttl
  obtain h | ⟨b, hb, h⟩ | ⟨hremove, h⟩ := h
  · exact .inl (by rw [h])
  · obtain ⟨a, ha, hraw⟩ := List.mem_filterMap.mp hb
    cases a with
    | save w x =>
      obtain ⟨blob, hblob, heq⟩ := Option.map_eq_some_iff.mp hraw
      obtain ⟨rfl, rfl⟩ := Fsutil.Act.save.inj heq
      refine .inr ⟨some x.rows, ⟨x, ha, rfl⟩, ?_⟩
      rw [h]
      exact load_blob hblob (hlog x ha (by rw [hblob]; rfl))
    | disk e =>
      obtain rfl := Option.some.inj hraw
      have hspares := hl _ ha
      simp [spares, hf] at hspares
  · obtain ⟨a, ha, hraw⟩ := List.mem_filterMap.mp hremove
    cases a with
    | save w x =>
      obtain ⟨blob, -, heq⟩ := Option.map_eq_some_iff.mp hraw
      cases heq
    | disk e =>
      obtain rfl := Option.some.inj hraw
      refine .inr ⟨none, ha, ?_⟩
      rw [h]
      rfl

/-- As long as one of the two writers is at work, whatever fails and whenever the daemon or the
power goes: a boot loads what it would have loaded before, or the rows of one save since then, or
nothing after a removal. From the flush of the directory on it is that save, or a later one. -/
theorem history_restored (hf : f.file = HISTORY_FILE) (hs : Fsutil.Booted stores)
    (h : Run (step κ) (Quiet κ f) ⟨stores, []⟩ l t) :
    Restores κ f l (stores.read layout f) t ∧
      ∀ b l' u u', t.stores.calls f = some ⟨b, .syncDir⟩ →
        step κ t (.disk (.advance f)) = some u → Run (step κ) (Quiet κ f) u l' u' →
        Restores κ f l' (some b) u' := by
  have hsafe := (hs.safe (lone_alone hf)).run (raw_run h)
  have hshows := hsafe.read
  rw [read_lone, read_lone] at hshows
  refine ⟨?_, ?_⟩
  · refine restores_of_shows hf (spares_run h) (fun x ↦ ?_) hshows
    exact (logged_run (h.mono fun _ _ _ ↦ trivial)).log f x
  · intro b l' u u' hc hu hr
    have hquiet : Quiet κ f t (.disk (.advance f)) := by
      intro e he g hg _
      cases Option.some.inj he
      exact (Option.some.inj hg).symm
    have hadvance : Fsutil.step (lone f) t.stores (.advance f) = some u.stores := by
      have hone := (raw_run (.snoc .nil hquiet hu)).foldlM
      simpa [Act.raw] using hone
    have hshows := ((hsafe.flushed hc hadvance).run (raw_run hr)).read
    rw [read_lone] at hshows
    refine restores_of_shows hf (spares_run hr) (fun x hx ↦ ?_) hshows
    have hall := (Run.snoc (h.mono fun _ _ _ ↦ trivial) trivial hu).append (hr.mono fun _ _ _ ↦ trivial)
    exact (logged_run hall).log f x (List.mem_append_right _ hx)

/-- The power goes while the second save of the persister is written. -/
def cutSecond : List Act :=
  .save .history expired :: List.replicate 5 (.disk (.advance .history)) ++
    [.save .history kept, .disk (.advance .history), .disk (.short .history 100),
      .disk (.powerCut 0 fun _ ↦ [0])]

theorem history_restored_cut : ∃ t, Run (step clearText) (Quiet clearText .history) ⟨.blank, []⟩ cutSecond t ∧
    Restores clearText .history cutSecond (Fsutil.System.blank.read layout .history) t := by
  have h : (cutSecond.foldlM (step clearText) ⟨.blank, []⟩).isSome := by decide +kernel
  have hl : ∀ a ∈ cutSecond, Quiet clearText .history ⟨.blank, []⟩ a := by
    simp [cutSecond, Quiet, Act.raw, Fsutil.Act.writer]
  have hrun : Run (step clearText) (Quiet clearText .history) ⟨.blank, []⟩ cutSecond _ :=
    (run_of_isSome h).labels hl
  exact ⟨_, hrun, (history_restored rfl Fsutil.booted_blank hrun).1⟩

end FluxSync.HistoryStore
