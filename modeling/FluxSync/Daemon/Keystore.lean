import FluxSync.Foundation.JsonData
import FluxSync.Core.Policy
import FluxSync.Core.Text
import FluxSync.Daemon.Fsutil

namespace FluxSync.Keystore

open Json Runs

/-- The writers of the keystore directory. `history.enc` has two, the vault's persister and the
event loop where it mirrors a security wipe. -/
inductive Store
  | identity
  | peers
  | firewall
  | deviceName
  | historyRetention
  | history
  | securityWipe
  | eventSeq
  | eventSeqBak
  deriving DecidableEq

def Store.file : Store → String
  | .identity => "identity.bin"
  | .peers => "peers.json"
  | .firewall => "firewall.json"
  | .deviceName => "device_name.json"
  | .historyRetention => "history_retention.json"
  | .history => "history.enc"
  | .securityWipe => "history.enc"
  | .eventSeq => "event_seq.json"
  | .eventSeqBak => "event_seq.json.bak"

def Store.tmpExtension : Store → String
  | .identity => "bin.tmp"
  | .history => "enc.tmp"
  | .securityWipe => "enc.tmp"
  | .eventSeqBak => "bak.tmp"
  | _ => "json.tmp"

/-- `Path::file_stem`: what comes before the last dot, unless nothing does. -/
def fileStem (name : List Char) : List Char :=
  match name.reverse.dropWhile (· ≠ '.') with
  | _ :: c :: before => (c :: before).reverse
  | _ => name

/-- `Path::with_extension`. -/
def withExtension (name ext : String) : String :=
  .ofList (fileStem name.toList ++ '.' :: ext.toList)

def Store.tmp (f : Store) : String := withExtension f.file f.tmpExtension

example : Store.eventSeqBak.tmp = "event_seq.json.bak.tmp" := by decide +kernel

def Store.all : List Store :=
  [.identity, .peers, .firewall, .deviceName, .historyRetention, .history, .securityWipe, .eventSeq,
    .eventSeqBak]

theorem Store.mem_all (f : Store) : f ∈ Store.all := by
  cases f
  all_goals decide

theorem Store.file_ne_tmp (f g : Store) : f.file ≠ g.tmp := by
  have hall : ∀ f ∈ Store.all, ∀ g ∈ Store.all, f.file ≠ g.tmp := by decide +kernel
  exact hall f f.mem_all g g.mem_all

def layout : Fsutil.Layout Store String where
  path := Store.file
  tmp := Store.tmp
  path_ne_tmp := Store.file_ne_tmp

theorem layout_alone {f : Store} (hf : f.file ≠ "history.enc") : layout.Alone f := by
  have hall : ∀ f ∈ Store.all, ∀ g ∈ Store.all, f.file ≠ "history.enc" → g ≠ f →
      g.file ≠ f.file ∧ g.tmp ≠ f.tmp := by decide +kernel
  exact ⟨fun g hg ↦ (hall f f.mem_all g g.mem_all hf hg).1,
    fun g hg ↦ (hall f f.mem_all g g.mem_all hf hg).2⟩

structure StoredPeer where
  peerIdHex : String
  staticPubHex : String
  name : String
  lastAddr : Option String
  deriving DecidableEq

def StoredPeer.ser (p : StoredPeer) : Value :=
  .object [("peer_id_hex", ofString p.peerIdHex), ("static_pub_hex", ofString p.staticPubHex),
    ("name", ofString p.name), ("last_addr", ofOption ofString p.lastAddr)]

def StoredPeer.de (v : Value) : Option StoredPeer := do
  let get ← fields ["peer_id_hex", "static_pub_hex", "name", "last_addr"] v
  return {
    peerIdHex := ← required asString (get "peer_id_hex")
    staticPubHex := ← required asString (get "static_pub_hex")
    name := ← required asString (get "name")
    lastAddr := ← defaulted none (asOption asString) (get "last_addr") }

/-- The value of `PeersFile`. -/
def serPeersFile (peers : List StoredPeer) : Value := .object [("peers", ofList StoredPeer.ser peers)]

def dePeersFile (v : Value) : Option (List StoredPeer) := do
  let get ← fields ["peers"] v
  required (asList StoredPeer.de) (get "peers")

def serRule : Rule → Value
  | .allow => ofString "allow"
  | .ask => ofString "ask"
  | .deny => ofString "deny"

def deRule : Value → Option Rule := asUnit [("allow", .allow), ("ask", .ask), ("deny", .deny)]

def serFirewall (p : FirewallPolicy) : Value :=
  .object [("enabled", .bool p.enabled), ("text", serRule p.text), ("url", serRule p.url),
    ("code", serRule p.code), ("image", serRule p.image), ("sensitive", serRule p.sensitive)]

def deFirewall (v : Value) : Option FirewallPolicy := do
  let get ← fields ["enabled", "text", "url", "code", "image", "sensitive"] v
  return {
    enabled := ← defaulted false asBool (get "enabled")
    text := ← defaulted .allow deRule (get "text")
    url := ← defaulted .allow deRule (get "url")
    code := ← defaulted .allow deRule (get "code")
    image := ← defaulted .allow deRule (get "image")
    sensitive := ← defaulted .deny deRule (get "sensitive") }

/-- The value of a file with a single field. -/
def serOne {α : Type} (name : String) (ser : α → Value) (a : α) : Value := .object [(name, ser a)]

def deOne {α : Type} (name : String) (de : Value → Option α) (v : Value) : Option α := do
  let get ← fields [name] v
  required de (get name)

/-- `serde_json::from_str` of what a text file holds. -/
def fromStr {α : Type} (de : Value → Option α) (s : String) : Option α := (parse s.toList).bind de

/-- `load_peers`, where there is a file or not; `none` is its error. -/
def loadPeers : Option (List UInt8) → Option (List StoredPeer)
  | none => some []
  | some bytes => do
    let s ← ofBytes bytes
    if trim s = "" then some [] else fromStr dePeersFile s

def savePeers (peers : List StoredPeer) : List UInt8 :=
  toBytes (write true 0 (serPeersFile peers))

def upsertPeer (peers : List StoredPeer) (new : StoredPeer) : List StoredPeer :=
  peers.filter (·.peerIdHex ≠ new.peerIdHex) ++ [new]

def loadFirewall (file : Option (List UInt8)) : FirewallPolicy :=
  match file.bind ofBytes with
  | none => {}
  | some s => ((fromStr deFirewall s).getD {}).normalized

def saveFirewall (policy : FirewallPolicy) : List UInt8 :=
  toBytes (write true 0 (serFirewall policy))

def loadDeviceName (file : Option (List UInt8)) : Option String := do
  let s ← file.bind ofBytes
  let name ← fromStr (deOne "name" asString) s
  if trim name = "" then none else some name

def saveDeviceName (name : String) : List UInt8 :=
  toBytes (write true 0 (serOne "name" ofString name))

def loadHistoryRetention (file : Option (List UInt8)) : Option UInt64 :=
  (file.bind ofBytes).bind (fromStr (deOne "secs" asU64))

def saveHistoryRetention (secs : UInt64) : List UInt8 :=
  toBytes (write false 0 (serOne "secs" u64 secs))

/-- `seq_store::read_one`. -/
def readOne (file : Option (List UInt8)) : Option UInt64 :=
  (file.bind ofBytes).bind (fromStr (deOne "horizon" asU64))

/-- A horizon as `SeqStore::persist` writes it. -/
def saveHorizon (horizon : UInt64) : List UInt8 :=
  toBytes (write false 0 (serOne "horizon" u64 horizon))

variable {α β : Type} {ser : α → Value} {de : Value → Option β} {a : α} {b : β} {p : StoredPeer}
  {peers : List StoredPeer} {policy : FirewallPolicy} {name : String}
  {s t : Fsutil.System Store String} {l : List (Fsutil.Act Store String)}

theorem StoredPeer.plain_ser (p : StoredPeer) : Plain p.ser := by
  refine plain_object ?_
  simp [plain_ofString, plain_ofOption]

theorem plain_serRule (r : Rule) : Plain (serRule r) := by
  cases r
  all_goals exact plain_ofString _

theorem plain_serFirewall (policy : FirewallPolicy) : Plain (serFirewall policy) := by
  refine plain_object ?_
  simp [plain_serRule, Plain.bool]

theorem plain_serPeersFile (peers : List StoredPeer) : Plain (serPeersFile peers) := by
  refine plain_object ?_
  simp [plain_ofList, StoredPeer.plain_ser]

theorem plain_serOne (h : Plain (ser a)) : Plain (serOne name ser a) := by
  refine plain_object ?_
  simpa using h

theorem StoredPeer.de_ser (p : StoredPeer) : StoredPeer.de p.ser = some p := by
  have hne : ∀ s, ofString s ≠ .null := by
    intro s h
    cases h
  have haddr : asOption asString (ofOption ofString p.lastAddr) = some p.lastAddr :=
    asOption_ofOption (fun s ↦ (rfl : asString (ofString s) = some s)) hne p.lastAddr
  have hnames : ["peer_id_hex", "static_pub_hex", "name", "last_addr"].Nodup := by decide
  simp only [StoredPeer.de, StoredPeer.ser]
  rw [fields_object (by rfl) hnames]
  simp only [List.lookup, String.reduceBEq, required, defaulted, haddr, ofString, asString,
    Option.bind_eq_bind, Option.bind_some, Option.pure_def]

theorem dePeersFile_ser (peers : List StoredPeer) : dePeersFile (serPeersFile peers) = some peers := by
  have hlist : asList StoredPeer.de (ofList StoredPeer.ser peers) = some (peers.map id) :=
    asList_ofList StoredPeer.de_ser peers
  have hnames : ["peers"].Nodup := by decide
  simp only [dePeersFile, serPeersFile]
  rw [fields_object (by rfl) hnames]
  simp [List.lookup, required, hlist]

theorem deRule_ser (r : Rule) : deRule (serRule r) = some r := by
  cases r
  all_goals rfl

theorem deFirewall_ser (policy : FirewallPolicy) : deFirewall (serFirewall policy) = some policy := by
  have hnames : ["enabled", "text", "url", "code", "image", "sensitive"].Nodup := by decide
  simp only [deFirewall, serFirewall]
  rw [fields_object (by rfl) hnames]
  simp only [List.lookup, String.reduceBEq, defaulted, asBool, deRule_ser, Option.bind_eq_bind,
    Option.bind_some, Option.pure_def]

theorem deOne_ser (h : de (ser a) = some b) : deOne name de (serOne name ser a) = some b := by
  simp only [deOne, serOne]
  rw [fields_object (by rfl) (List.nodup_singleton name)]
  simp [List.lookup, required, h]

theorem fromStr_write {v : Value} {pretty : Bool} (h : Plain v) :
    fromStr de (.ofList (write pretty 0 v)) = de v := by
  rw [fromStr, String.toList_ofList, parse_write pretty h, Option.bind_some]

theorem trim_ne_empty {c : Char} {l : List Char} (hc : isWhitespace c = false) (hl : c ∈ l) :
    trim (.ofList l) ≠ "" := by
  have hdrop : ∀ l : List Char, c ∈ l → c ∈ l.dropWhile isWhitespace := by
    intro l
    induction l with
    | nil => exact fun h ↦ h
    | cons d l ih =>
      intro h
      by_cases hd : isWhitespace d
      · rw [List.dropWhile_cons_of_pos hd]
        obtain rfl | h := List.mem_cons.mp h
        · rw [hc] at hd
          cases hd
        · exact ih h
      · rw [List.dropWhile_cons_of_neg hd]
        exact h
  have hmem : c ∈ trimChars l :=
    List.mem_reverse.mpr (hdrop _ (List.mem_reverse.mpr (hdrop l hl)))
  intro h
  have hnil : trimChars l = [] := by simpa [trim] using congrArg String.toList h
  rw [hnil] at hmem
  cases hmem

theorem loadPeers_savePeers (peers : List StoredPeer) :
    loadPeers (some (savePeers peers)) = some peers := by
  have htrim : trim (.ofList (write true 0 (serPeersFile peers))) ≠ "" :=
    trim_ne_empty (c := '{') rfl List.mem_cons_self
  rw [loadPeers, savePeers, ofBytes_toBytes]
  simp only [Option.bind_eq_bind, Option.bind_some]
  rw [if_neg htrim, fromStr_write (plain_serPeersFile peers), dePeersFile_ser]

theorem loadFirewall_saveFirewall (policy : FirewallPolicy) :
    loadFirewall (some (saveFirewall policy)) = policy.normalized := by
  rw [loadFirewall, Option.bind_some, saveFirewall, ofBytes_toBytes]
  simp only [fromStr_write (plain_serFirewall policy), deFirewall_ser, Option.getD_some]

theorem loadDeviceName_saveDeviceName (name : String) : loadDeviceName (some (saveDeviceName name)) =
    if trim name = "" then none else some name := by
  have hde : deOne "name" asString (serOne "name" ofString name) = some name := deOne_ser rfl
  rw [loadDeviceName, Option.bind_some, saveDeviceName, ofBytes_toBytes]
  simp only [Option.bind_eq_bind, Option.bind_some, fromStr_write (plain_serOne (plain_ofString name)),
    hde]

theorem loadHistoryRetention_save (secs : UInt64) :
    loadHistoryRetention (some (saveHistoryRetention secs)) = some secs := by
  rw [loadHistoryRetention, Option.bind_some, saveHistoryRetention, ofBytes_toBytes, Option.bind_some,
    fromStr_write (plain_serOne (plain_u64 secs)), deOne_ser (asU64_u64 secs)]

theorem readOne_saveHorizon (horizon : UInt64) : readOne (some (saveHorizon horizon)) = some horizon := by
  rw [readOne, Option.bind_some, saveHorizon, ofBytes_toBytes, Option.bind_some,
    fromStr_write (plain_serOne (plain_u64 horizon)), deOne_ser (asU64_u64 horizon)]

/-- The settings are saved as values of theirs, and none is removed. -/
def Typed : Fsutil.Act Store String → Prop
  | .save .firewall b => ∃ policy, b = saveFirewall policy
  | .save .deviceName b => ∃ name, b = saveDeviceName name
  | .save .historyRetention b => ∃ secs, b = saveHistoryRetention secs
  | .remove f => f ≠ .firewall ∧ f ≠ .deviceName ∧ f ≠ .historyRetention
  | _ => True

/-- A store that is never removed shows what it showed before, or a save. -/
theorem shows_saved {f : Store} {v w : Option (List UInt8)} (h : Fsutil.Shows l f v w)
    (hf : .remove f ∉ l) : w = v ∨ ∃ b, .save f b ∈ l ∧ w = some b := by
  obtain h | h | ⟨h, -⟩ := h
  · exact .inl h
  · exact .inr h
  · exact absurd h hf

/-- Whatever fails and whenever the power goes, the next start finds each setting as it was or
as it was saved since. -/
theorem settings_restored (hs : Fsutil.Booted s) (h : Run (Fsutil.step layout) Always s l t)
    (hl : ∀ a ∈ l, Typed a) :
    (loadFirewall (t.read layout .firewall) = loadFirewall (s.read layout .firewall) ∨
      ∃ policy, .save .firewall (saveFirewall policy) ∈ l ∧
        loadFirewall (t.read layout .firewall) = policy.normalized) ∧
    (loadDeviceName (t.read layout .deviceName) = loadDeviceName (s.read layout .deviceName) ∨
      ∃ name, .save .deviceName (saveDeviceName name) ∈ l ∧
        loadDeviceName (t.read layout .deviceName) = if trim name = "" then none else some name) ∧
    (loadHistoryRetention (t.read layout .historyRetention) =
        loadHistoryRetention (s.read layout .historyRetention) ∨
      ∃ secs, .save .historyRetention (saveHistoryRetention secs) ∈ l ∧
        loadHistoryRetention (t.read layout .historyRetention) = some secs) := by
  have hshows : ∀ f, layout.Alone f → Fsutil.Shows l f (s.read layout f) (t.read layout f) :=
    fun _ hf ↦ ((hs.safe hf).run h).read
  refine ⟨?_, ?_, ?_⟩
  · have hf := hshows .firewall (layout_alone (by decide))
    obtain hv | ⟨b, hb, hv⟩ := shows_saved hf fun hr ↦ (hl _ hr).1 rfl
    · exact .inl (congrArg loadFirewall hv)
    · obtain ⟨policy, rfl⟩ := hl _ hb
      rw [hv]
      exact .inr ⟨policy, hb, loadFirewall_saveFirewall policy⟩
  · have hf := hshows .deviceName (layout_alone (by decide))
    obtain hv | ⟨b, hb, hv⟩ := shows_saved hf fun hr ↦ (hl _ hr).2.1 rfl
    · exact .inl (congrArg loadDeviceName hv)
    · obtain ⟨name, rfl⟩ := hl _ hb
      rw [hv]
      exact .inr ⟨name, hb, loadDeviceName_saveDeviceName name⟩
  · have hf := hshows .historyRetention (layout_alone (by decide))
    obtain hv | ⟨b, hb, hv⟩ := shows_saved hf fun hr ↦ (hl _ hr).2.2 rfl
    · exact .inl (congrArg loadHistoryRetention hv)
    · obtain ⟨secs, rfl⟩ := hl _ hb
      rw [hv]
      exact .inr ⟨secs, hb, loadHistoryRetention_save secs⟩

def renameThenCut : List (Fsutil.Act Store String) :=
  [.save .deviceName (saveDeviceName "Desk"), .save .firewall (saveFirewall {}),
    .advance .deviceName, .advance .firewall, .fail .firewall, .powerCut 1 fun _ ↦ []]

theorem settings_restored_cut : ∃ t, Run (Fsutil.step layout) Always .blank renameThenCut t ∧
    (loadDeviceName (t.read layout .deviceName) = loadDeviceName (Fsutil.System.blank.read layout .deviceName) ∨
      ∃ name, .save .deviceName (saveDeviceName name) ∈ renameThenCut ∧
        loadDeviceName (t.read layout .deviceName) = if trim name = "" then none else some name) :=
  have h : (renameThenCut.foldlM (Fsutil.step layout) .blank).isSome := by decide +kernel
  have hl : ∀ a ∈ renameThenCut, Typed a := by simp [renameThenCut, Typed]
  ⟨_, run_of_isSome h, (settings_restored Fsutil.booted_blank (run_of_isSome h) hl).2.1⟩

end FluxSync.Keystore
