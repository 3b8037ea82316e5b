import FluxSync.Daemon.PeersFile
import FluxSync.Proto.Serde

/-! ## The start that loads the identity, or makes one -/

namespace FluxSync.LoadIdentity

open Runs Keystore Proto

/-- The 32 bytes of an X25519 secret. -/
abbrev Secret := BitVec 256

/-- `Identity::from_secret_bytes`. -/
def fromSecretBytes (secret : Secret) : Option Secret := if secret = 0 then none else some secret

def decodeIdentityHex (s : String) : Option Secret := (hex32Decode (trim s)).bind fromSecretBytes

/-- `read_legacy_identity` of what the file holds. -/
def readLegacyIdentity (bytes : List UInt8) : Option Secret := (ofBytes32 bytes).bind fromSecretBytes

/-- Where `load_or_create_identity` stands. -/
inductive Stage
  | openEntry
  | store (id : Secret) (legacy : Bool)
  | verify (id : Secret)
  | wipe (id : Secret) (written : ℕ)
  | syncWiped (id : Secret)
  | unlink (id : Secret)
  /-- `FLUXSYNC_NO_KEYCHAIN=1`. -/
  | openFile
  | writeSecret (id : Secret)

/-- How the next call turns out: whether it reports success, whether the entry was set all the
same, the bytes a write takes, and the secret that `generate` draws. -/
structure Choice where
  ok : Bool
  effect : Bool
  count : ℕ
  secret : Secret

structure State where
  stores : Fsutil.System Store String
  keychain : Option String
  stage : Option Stage
  /-- The identities that starts with the keychain have returned. Nothing reads it. -/
  loaded : List Secret
  /-- Those that starts with the file have. -/
  fileLoaded : List Secret

inductive Act
  | start (noKeychain : Bool)
  | resume (ch : Choice)
  | disk (a : Fsutil.Act Store String)

def State.legacy (s : State) : Option (List UInt8) := s.stores.read layout .identity

def State.fail (s : State) : State := { s with stage := none }

def State.done (s : State) (id : Secret) : State := { s with stage := none, loaded := s.loaded ++ [id] }

def State.fileDone (s : State) (id : Secret) : State :=
  { s with stage := none, fileLoaded := s.fileLoaded ++ [id] }

def State.next (s : State) (stage : Stage) : State := { s with stage := some stage }

/-- The file is written in place, or flushed. -/
def overwrite (stores : Fsutil.System Store String) (bytes : List UInt8) (synced : Bool) :
    Fsutil.System Store String :=
  match stores.disk.dir (layout.path .identity) with
  | some i => { stores with disk := stores.disk.edit i ⟨bytes, synced⟩ }
  | none => stores

/-- The answer of `get_password`. An error that is not `NoEntry` ends the start. -/
def State.openEntry (s : State) (ch : Choice) : State :=
  if ch.ok = false then s.fail
  else
    match s.keychain with
    | some k =>
      match decodeIdentityHex k with
      | none => s.fail
      | some id => if s.legacy.isSome then s.next (.wipe id 0) else s.done id
    | none =>
      match s.legacy with
      | none => s.next (.store ch.secret false)
      | some bytes =>
        match readLegacyIdentity bytes with
        | none => s.fail
        | some id => s.next (.store id true)

def State.store (s : State) (ch : Choice) (id : Secret) (legacy : Bool) : State :=
  let s := { s with keychain := if ch.effect then some (hex32 id) else s.keychain }
  if ch.ok = false then s.fail else if legacy then s.next (.verify id) else s.done id

/-- `verify_keychain_readback`. -/
def State.verify (s : State) (ch : Choice) (id : Secret) : State :=
  if ch.ok ∧ s.keychain.bind decodeIdentityHex = some id then s.next (.wipe id 0) else s.fail

/-- The zeros of `secure_wipe_identity_file`, a failure of which is only logged. -/
def State.wipe (s : State) (ch : Choice) (id : Secret) (written : ℕ) : State :=
  match s.legacy with
  | none => s.done id
  | some bytes =>
    if ch.ok = false then s.done id
    else
      let written := min 32 (written + ch.count)
      let s := { s with
        stores := overwrite s.stores (List.replicate written 0 ++ bytes.drop written) false }
      s.next (if written = 32 then .syncWiped id else .wipe id written)

def resume (s : State) (ch : Choice) : Stage → Option State
  | .openEntry => some (s.openEntry ch)
  | .store id legacy => some (s.store ch id legacy)
  | .verify id => some (s.verify ch id)
  | .wipe id written => some (s.wipe ch id written)
  | .syncWiped id =>
    if ch.ok = false then some (s.done id)
    else some ({ s with stores := overwrite s.stores (s.legacy.getD []) true }.next (.unlink id))
  | .unlink id =>
    if ch.ok = false then some (s.done id)
    else (Fsutil.step layout s.stores (.remove .identity)).map fun stores ↦
      { s with stores }.done id
  | .openFile =>
    match s.legacy with
    | some bytes =>
      match readLegacyIdentity bytes with
      | none => some s.fail
      | some id => some (s.fileDone id)
    | none =>
      (Fsutil.step layout s.stores (.save .identity (bytes32 ch.secret))).map fun stores ↦
        { s with stores }.next (.writeSecret ch.secret)
  | .writeSecret _ => none

/-- The identity file is written and removed by a start alone. -/
def spares : Fsutil.Act Store String → Bool
  | .save f _ => f ≠ .identity
  | .remove f => f ≠ .identity
  | _ => true

/-- The start goes on when its write of the file is over. -/
def State.settle (s : State) (after : Fsutil.System Store String) : State :=
  match s.stage with
  | some (.writeSecret id) =>
    match s.stores.calls .identity, after.calls .identity with
    | some ⟨_, .syncDir⟩, none => { s with stores := after }.fileDone id
    | _, none => { s with stores := after }.fail
    | _, some _ => { s with stores := after }
  | _ => { s with stores := after }

def step (s : State) : Act → Option State
  | .start noKeychain =>
    match s.stage with
    | none => some (s.next (if noKeychain then .openFile else .openEntry))
    | some _ => none
  | .resume ch => s.stage.bind (resume s ch)
  | .disk a =>
    if spares a then
      (Fsutil.step layout s.stores a).map fun after ↦
        if a.crashes then { s with stores := after, stage := none } else s.settle after
    else none

/-- An entry that the keychain reports as set is set. -/
def Honest (s : State) : Act → Prop
  | .resume ch => ∀ id legacy, s.stage = some (.store id legacy) → ch.ok → ch.effect
  | _ => True

variable {s t : State} {a : Act} {ch : Choice} {id x : Secret} {st : Stage} {l : List Act}
  {legacy : Bool} {n : ℕ} {after : Fsutil.System Store String}

theorem trimChars_eq {l : List Char} (h : ∀ c ∈ l, isWhitespace c = false) : trimChars l = l := by
  have hdrop : ∀ l : List Char, (∀ c ∈ l, isWhitespace c = false) → l.dropWhile isWhitespace = l := by
    intro l hl
    cases l with
    | nil => rfl
    | cons c l =>
      have hc : ¬ isWhitespace c = true := by simp [hl c List.mem_cons_self]
      rw [List.dropWhile_cons_of_neg hc]
  rw [trimChars, hdrop l h, hdrop _ fun c hc ↦ h c (List.mem_reverse.mp hc), List.reverse_reverse]

theorem isWhitespace_digitChar (hn : n < 16) : isWhitespace (Nat.digitChar n) = false := by
  have hall : ∀ n < 16, isWhitespace (Nat.digitChar n) = false := by decide
  exact hall n hn

/-- What a start stores is what the next one decodes, unless it is the key of zeros. -/
theorem decodeIdentityHex_hex32 (id : Secret) :
    decodeIdentityHex (hex32 id) = fromSecretBytes id := by
  have htrim : trim (hex32 id) = hex32 id := by
    rw [trim, trimChars_eq, String.ofList_toList]
    intro c hc
    rw [hex32, String.toList_ofList, List.mem_map] at hc
    obtain ⟨i, -, rfl⟩ := hc
    exact isWhitespace_digitChar (Nat.mod_lt _ (by decide))
  rw [decodeIdentityHex, htrim, PeersFile.hex32Decode_hex32, Option.bind_some]

theorem readLegacyIdentity_bytes32 (h : id ≠ 0) : readLegacyIdentity (bytes32 id) = some id := by
  rw [readLegacyIdentity, ofBytes32_bytes32, Option.bind_some, fromSecretBytes, if_neg h]

/-- What is known of the identity that a start is about to return. -/
def Stage.Agreed (s : State) : Stage → Prop
  | .store _ _ | .verify _ => s.loaded = []
  | .wipe id _ | .syncWiped id | .unlink id => s.keychain.bind decodeIdentityHex = some id
  | _ => True

/-- The starts with the keychain have returned one identity, and its entry holds no other. -/
structure Agreed (s : State) : Prop where
  same : ∀ x ∈ s.loaded, ∀ y ∈ s.loaded, x = y
  kept : ∀ x ∈ s.loaded, ∃ k, s.keychain = some k ∧ ∀ id, decodeIdentityHex k = some id → id = x
  stage : ∀ st, s.stage = some st → st.Agreed s

/-- A start that ends, or stands elsewhere, with the same entry. -/
theorem Agreed.move (h : Agreed s) {u : State} (hk : u.keychain = s.keychain)
    (hl : u.loaded = s.loaded) (hst : ∀ st, u.stage = some st → st.Agreed u) : Agreed u where
  same := hl ▸ h.same
  kept := by
    rw [hk, hl]
    exact h.kept
  stage := hst

theorem Agreed.fail (h : Agreed s) : Agreed s.fail := h.move rfl rfl fun _ he ↦ by cases he

/-- The start returns what the entry holds. -/
theorem Agreed.done (h : Agreed s) (hid : s.keychain.bind decodeIdentityHex = some id) :
    Agreed (s.done id) := by
  obtain ⟨k, hk, hdec⟩ := Option.bind_eq_some_iff.mp hid
  have hold : ∀ x ∈ s.loaded, id = x := by
    intro x hx
    obtain ⟨k', hk', hx⟩ := h.kept x hx
    obtain rfl := Option.some.inj (hk.symm.trans hk')
    exact hx id hdec
  refine ⟨?_, ?_, fun _ he ↦ by cases he⟩
  · intro x hx y hy
    obtain hx | hx := List.mem_append.mp hx
    · obtain hy | hy := List.mem_append.mp hy
      · exact h.same x hx y hy
      · rw [List.mem_singleton.mp hy]
        exact (hold x hx).symm
    · rw [List.mem_singleton.mp hx]
      obtain hy | hy := List.mem_append.mp hy
      · exact hold y hy
      · exact (List.mem_singleton.mp hy).symm
  · intro x hx
    obtain hx | hx := List.mem_append.mp hx
    · exact h.kept x hx
    · rw [List.mem_singleton.mp hx]
      exact ⟨k, hk, fun id' hid' ↦ Option.some.inj (hid'.symm.trans hdec)⟩

theorem Agreed.openEntry (h : Agreed s) : Agreed (s.openEntry ch) := by
  rw [State.openEntry]
  split
  case isTrue => exact h.fail
  case isFalse =>
    split
    case h_1 k hk =>
      split
      case h_1 => exact h.fail
      case h_2 id hid =>
        have hbind : s.keychain.bind decodeIdentityHex = some id := by rw [hk, Option.bind_some, hid]
        split
        · refine h.move rfl rfl ?_
          intro st hst
          obtain rfl := Option.some.inj hst
          exact hbind
        · exact h.done hbind
    case h_2 hk =>
      have hnone : s.loaded = [] := by
        rw [List.eq_nil_iff_forall_not_mem]
        intro x hx
        obtain ⟨k, hk', -⟩ := h.kept x hx
        cases hk.symm.trans hk'
      split
      case h_1 =>
        refine h.move rfl rfl ?_
        intro st hst
        obtain rfl := Option.some.inj hst
        exact hnone
      case h_2 =>
        split
        case h_1 => exact h.fail
        case h_2 =>
          refine h.move rfl rfl ?_
          intro st hst
          obtain rfl := Option.some.inj hst
          exact hnone

theorem Agreed.store (h : Agreed s) (hs : s.stage = some (.store id legacy))
    (hch : ch.ok → ch.effect) : Agreed (s.store ch id legacy) := by
  have hnil : s.loaded = [] := h.stage _ hs
  have hset : ∀ u : State, u.loaded = s.loaded → (∀ st, u.stage = some st → st.Agreed u) → Agreed u := by
    intro u hu hst
    rw [hnil] at hu
    exact ⟨by simp [hu], by simp [hu], hst⟩
  rw [State.store]
  split
  case isTrue => exact hset _ rfl fun _ he ↦ by cases he
  case isFalse hok =>
    have heffect : ch.effect = true := hch (by simpa using hok)
    split
    · refine hset _ rfl ?_
      intro st hst
      obtain rfl := Option.some.inj hst
      exact hnil
    · refine ⟨?_, ?_, fun _ he ↦ by cases he⟩
      · simp [State.done, hnil]
      · intro x hx
        obtain rfl : x = id := by simpa [State.done, hnil] using hx
        refine ⟨hex32 x, by simp [State.done], ?_⟩
        intro id' hid'
        rw [decodeIdentityHex_hex32, fromSecretBytes] at hid'
        split at hid'
        · cases hid'
        · exact (Option.some.inj hid').symm

theorem Agreed.resume (h : Agreed s) (hs : s.stage = some st) (ha : Honest s (.resume ch))
    (ht : LoadIdentity.resume s ch st = some t) : Agreed t := by
  cases st with
  | openEntry =>
    obtain rfl := Option.some.inj ht
    exact h.openEntry
  | store id legacy =>
    obtain rfl := Option.some.inj ht
    exact h.store hs (ha id legacy hs)
  | verify id =>
    obtain rfl := Option.some.inj ht
    rw [State.verify]
    split
    case isTrue hok =>
      refine h.move rfl rfl ?_
      intro st hst
      obtain rfl := Option.some.inj hst
      exact hok.2
    case isFalse => exact h.fail
  | wipe id written =>
    obtain rfl := Option.some.inj ht
    have hid : s.keychain.bind decodeIdentityHex = some id := h.stage _ hs
    rw [State.wipe]
    split
    case h_1 => exact h.done hid
    case h_2 =>
      split
      case isTrue => exact h.done hid
      case isFalse =>
        refine h.move rfl rfl ?_
        intro st hst
        obtain rfl := Option.some.inj hst
        split
        · exact hid
        · exact hid
  | syncWiped id =>
    have hid : s.keychain.bind decodeIdentityHex = some id := h.stage _ hs
    rw [LoadIdentity.resume] at ht
    split at ht
    case isTrue =>
      obtain rfl := Option.some.inj ht
      exact h.done hid
    case isFalse =>
      obtain rfl := Option.some.inj ht
      refine h.move rfl rfl ?_
      intro st hst
      obtain rfl := Option.some.inj hst
      exact hid
  | unlink id =>
    have hid : s.keychain.bind decodeIdentityHex = some id := h.stage _ hs
    rw [LoadIdentity.resume] at ht
    split at ht
    case isTrue =>
      obtain rfl := Option.some.inj ht
      exact h.done hid
    case isFalse =>
      obtain ⟨stores, -, rfl⟩ := Option.map_eq_some_iff.mp ht
      have hu : Agreed { s with stores := stores, stage := none } :=
        h.move rfl rfl fun _ he ↦ by cases he
      exact hu.done hid
  | openFile =>
    rw [LoadIdentity.resume] at ht
    split at ht
    · split at ht
      · obtain rfl := Option.some.inj ht
        exact h.fail
      · obtain rfl := Option.some.inj ht
        exact h.move rfl rfl fun _ he ↦ by cases he
    · obtain ⟨stores, -, rfl⟩ := Option.map_eq_some_iff.mp ht
      refine h.move rfl rfl ?_
      intro st hst
      obtain rfl := Option.some.inj hst
      trivial
  | writeSecret id => cases ht

/-- A write of the file ends a start with the file at most. -/
theorem settle_cases (s : State) (after : Fsutil.System Store String) :
    s.settle after = { s with stores := after } ∨ ∃ id, s.stage = some (.writeSecret id) ∧
      (s.settle after = ({ s with stores := after } : State).fileDone id ∨
        s.settle after = ({ s with stores := after } : State).fail) := by
  rw [State.settle]
  split
  case h_1 id hs =>
    split
    · exact .inr ⟨id, hs, .inl rfl⟩
    · exact .inr ⟨id, hs, .inr rfl⟩
    · exact .inl rfl
  case h_2 => exact .inl rfl

theorem Agreed.settle (h : Agreed s) : Agreed (s.settle after) := by
  obtain hs | ⟨id, -, hs | hs⟩ := settle_cases s after
  · rw [hs]
    refine h.move rfl rfl ?_
    intro st hst
    have hagreed := h.stage st hst
    cases st with
    | _ => exact hagreed
  · rw [hs]
    exact h.move rfl rfl fun _ he ↦ by cases he
  · rw [hs]
    exact h.move rfl rfl fun _ he ↦ by cases he

theorem Agreed.step (h : Agreed s) (ha : Honest s a) (ht : LoadIdentity.step s a = some t) :
    Agreed t := by
  cases a with
  | start noKeychain =>
    rw [LoadIdentity.step] at ht
    split at ht
    · obtain rfl := Option.some.inj ht
      refine h.move rfl rfl ?_
      intro st hst
      obtain rfl := Option.some.inj hst
      cases noKeychain with
      | false => trivial
      | true => trivial
    · cases ht
  | resume ch =>
    obtain ⟨st, hs, ht⟩ := Option.bind_eq_some_iff.mp ht
    exact h.resume hs ha ht
  | disk a =>
    rw [LoadIdentity.step] at ht
    obtain ⟨-, ht⟩ := Option.ite_none_right_eq_some.mp ht
    obtain ⟨after, -, rfl⟩ := Option.map_eq_some_iff.mp ht
    split
    · exact h.move rfl rfl fun _ he ↦ by cases he
    · exact h.settle

variable {A : Secret}

/-- What a start knows of the identity `A` that the machine has. -/
def Stage.Owned (A : Secret) (s : State) : Stage → Prop
  | .store id _ | .verify id => id = A
  | .wipe id _ | .syncWiped id | .unlink id => id = A ∧ s.keychain.bind decodeIdentityHex = some A
  | .writeSecret _ => s.keychain.bind decodeIdentityHex = some A
  | _ => True

/-- The keychain has `A`, or the file has and every crash leaves it so. -/
structure Owned (A : Secret) (s : State) : Prop where
  copy : s.keychain.bind decodeIdentityHex = some A ∨ s.keychain = none ∧
    Fsutil.Safe layout .identity (· = some (bytes32 A)) s.stores
  loaded : ∀ x ∈ s.loaded, x = A
  stage : ∀ st, s.stage = some st → st.Owned A s

theorem Owned.move (h : Owned A s) {u : State} (hk : u.keychain = s.keychain)
    (hl : u.loaded = s.loaded) (hu : u.stores = s.stores)
    (hst : ∀ st, u.stage = some st → st.Owned A u) : Owned A u where
  copy := by
    rw [hk, hu]
    exact h.copy
  loaded := hl ▸ h.loaded
  stage := hst

theorem Owned.fail (h : Owned A s) : Owned A s.fail := h.move rfl rfl rfl fun _ he ↦ by cases he

/-- Once the keychain has it, the file does not matter. -/
theorem Owned.stored (h : Owned A s) {u : State} (hk : u.keychain.bind decodeIdentityHex = some A)
    (hl : ∀ x ∈ u.loaded, x ∈ s.loaded ∨ x = A) (hst : ∀ st, u.stage = some st → st.Owned A u) :
    Owned A u where
  copy := .inl hk
  loaded x hx := (hl x hx).elim (h.loaded x) id
  stage := hst

theorem Owned.done (h : Owned A s) (hk : s.keychain.bind decodeIdentityHex = some A) :
    Owned A (s.done A) := by
  refine h.stored hk ?_ fun _ he ↦ by cases he
  intro x hx
  exact (List.mem_append.mp hx).imp id fun hx ↦ List.mem_singleton.mp hx

theorem Owned.openEntry (hA : A ≠ 0) (h : Owned A s) : Owned A (s.openEntry ch) := by
  rw [State.openEntry]
  split
  case isTrue => exact h.fail
  case isFalse =>
    split
    case h_1 k hk =>
      have hbind : s.keychain.bind decodeIdentityHex = some A := by
        refine h.copy.resolve_right ?_
        rintro ⟨hnone, -⟩
        cases hk.symm.trans hnone
      rw [hk, Option.bind_some] at hbind
      rw [hbind]
      dsimp only
      have hkeychain : s.keychain.bind decodeIdentityHex = some A := by rw [hk, Option.bind_some, hbind]
      split
      · refine h.move rfl rfl rfl ?_
        intro st hst
        obtain rfl := Option.some.inj hst
        exact ⟨rfl, hkeychain⟩
      · exact h.done hkeychain
    case h_2 hk =>
      have hfile : s.legacy = some (bytes32 A) := by
        obtain hc | ⟨-, hsafe⟩ := h.copy
        · rw [hk] at hc
          cases hc
        · exact hsafe.read
      rw [hfile]
      dsimp only
      rw [readLegacyIdentity_bytes32 hA]
      refine h.move rfl rfl rfl ?_
      intro st hst
      obtain rfl := Option.some.inj hst
      exact rfl

theorem Owned.store (hA : A ≠ 0) (h : Owned A s) (hs : s.stage = some (.store id legacy)) :
    Owned A (s.store ch id legacy) := by
  obtain rfl : id = A := h.stage _ hs
  have hset : (if ch.effect then some (hex32 id) else s.keychain).bind decodeIdentityHex = some id ∨
      (if ch.effect then some (hex32 id) else s.keychain) = none ∧
        Fsutil.Safe layout .identity (· = some (bytes32 id)) s.stores := by
    split
    · refine .inl ?_
      rw [Option.bind_some, decodeIdentityHex_hex32, fromSecretBytes, if_neg hA]
    · exact h.copy
  rw [State.store]
  split
  case isTrue => exact ⟨hset, h.loaded, fun _ he ↦ by cases he⟩
  case isFalse =>
    split
    · refine ⟨hset, h.loaded, ?_⟩
      intro st hst
      obtain rfl := Option.some.inj hst
      exact rfl
    · refine ⟨hset, ?_, fun _ he ↦ by cases he⟩
      intro x hx
      obtain hx | hx := List.mem_append.mp hx
      · exact h.loaded x hx
      · exact List.mem_singleton.mp hx

theorem Owned.resume (hA : A ≠ 0) (h : Owned A s) (hs : s.stage = some st)
    (ht : LoadIdentity.resume s ch st = some t) : Owned A t := by
  cases st with
  | openEntry =>
    obtain rfl := Option.some.inj ht
    exact h.openEntry hA
  | store id legacy =>
    obtain rfl := Option.some.inj ht
    exact h.store hA hs
  | verify id =>
    obtain rfl := Option.some.inj ht
    obtain rfl : id = A := h.stage _ hs
    rw [State.verify]
    split
    case isTrue hok =>
      refine h.move rfl rfl rfl ?_
      intro st hst
      obtain rfl := Option.some.inj hst
      exact ⟨rfl, hok.2⟩
    case isFalse => exact h.fail
  | wipe id written =>
    obtain rfl := Option.some.inj ht
    obtain ⟨rfl, hid⟩ : id = A ∧ _ := h.stage _ hs
    rw [State.wipe]
    split
    case h_1 => exact h.done hid
    case h_2 =>
      split
      case isTrue => exact h.done hid
      case isFalse =>
        refine h.stored hid (fun x hx ↦ .inl hx) ?_
        intro st hst
        obtain rfl := Option.some.inj hst
        split
        · exact ⟨rfl, hid⟩
        · exact ⟨rfl, hid⟩
  | syncWiped id =>
    obtain ⟨rfl, hid⟩ : id = A ∧ _ := h.stage _ hs
    rw [LoadIdentity.resume] at ht
    split at ht
    case isTrue =>
      obtain rfl := Option.some.inj ht
      exact h.done hid
    case isFalse =>
      obtain rfl := Option.some.inj ht
      refine h.stored hid (fun x hx ↦ .inl hx) ?_
      intro st hst
      obtain rfl := Option.some.inj hst
      exact ⟨rfl, hid⟩
  | unlink id =>
    obtain ⟨rfl, hid⟩ : id = A ∧ _ := h.stage _ hs
    rw [LoadIdentity.resume] at ht
    split at ht
    case isTrue =>
      obtain rfl := Option.some.inj ht
      exact h.done hid
    case isFalse =>
      obtain ⟨stores, -, rfl⟩ := Option.map_eq_some_iff.mp ht
      have hu : Owned id { s with stores := stores, stage := none } :=
        h.stored hid (fun x hx ↦ .inl hx) fun _ he ↦ by cases he
      exact hu.done hid
  | openFile =>
    rw [LoadIdentity.resume] at ht
    split at ht
    case h_1 =>
      split at ht
      · obtain rfl := Option.some.inj ht
        exact h.fail
      · obtain rfl := Option.some.inj ht
        exact h.move rfl rfl rfl fun _ he ↦ by cases he
    case h_2 hfile =>
      have hid : s.keychain.bind decodeIdentityHex = some A := by
        refine h.copy.resolve_right ?_
        rintro ⟨-, hsafe⟩
        cases hfile.symm.trans hsafe.read
      obtain ⟨stores, -, rfl⟩ := Option.map_eq_some_iff.mp ht
      refine h.stored hid (fun x hx ↦ .inl hx) ?_
      intro st hst
      obtain rfl := Option.some.inj hst
      exact hid
  | writeSecret id => cases ht

/-- The disk may change as it will, as long as the file is safe where it is the only copy. -/
theorem Owned.disk (h : Owned A s) {e : Fsutil.Act Store String} (he : spares e)
    (ht : Fsutil.step layout s.stores e = some after) {u : State} (hk : u.keychain = s.keychain)
    (hl : u.loaded = s.loaded) (hu : u.stores = after)
    (hst : ∀ st, u.stage = some st → s.stage = some st) : Owned A u where
  copy := by
    rw [hk, hu]
    refine h.copy.imp_right fun ⟨hnone, hsafe⟩ ↦ ⟨hnone, hsafe.step ?_ ?_ ht⟩
    · rintro b rfl
      simp [spares] at he
    · rintro rfl
      simp [spares] at he
  loaded := hl ▸ h.loaded
  stage st hs := by
    have howned := h.stage st (hst st hs)
    cases st with
    | store id legacy => exact howned
    | verify id => exact howned
    | openEntry => trivial
    | openFile => trivial
    | _ =>
      simp only [Stage.Owned, hk] at howned ⊢
      exact howned

theorem Owned.step (hA : A ≠ 0) (h : Owned A s) (ht : LoadIdentity.step s a = some t) : Owned A t := by
  cases a with
  | start noKeychain =>
    rw [LoadIdentity.step] at ht
    split at ht
    · obtain rfl := Option.some.inj ht
      refine h.move rfl rfl rfl ?_
      intro st hst
      obtain rfl := Option.some.inj hst
      cases noKeychain with
      | false => trivial
      | true => trivial
    · cases ht
  | resume ch =>
    obtain ⟨st, hs, ht⟩ := Option.bind_eq_some_iff.mp ht
    exact h.resume hA hs ht
  | disk e =>
    rw [LoadIdentity.step] at ht
    obtain ⟨he, ht⟩ := Option.ite_none_right_eq_some.mp ht
    obtain ⟨after, hafter, rfl⟩ := Option.map_eq_some_iff.mp ht
    split
    · exact h.disk he hafter rfl rfl rfl fun _ hst ↦ by cases hst
    · obtain hs | ⟨id, -, hs | hs⟩ := settle_cases s after
      · rw [hs]
        exact h.disk he hafter rfl rfl rfl fun _ hst ↦ hst
      · rw [hs]
        exact h.disk he hafter rfl rfl rfl fun _ hst ↦ by cases hst
      · rw [hs]
        exact h.disk he hafter rfl rfl rfl fun _ hst ↦ by cases hst

/-- A machine that no start is running on. -/
def State.init (stores : Fsutil.System Store String) (keychain : Option String) : State :=
  ⟨stores, keychain, none, [], []⟩

end FluxSync.LoadIdentity
