import FluxSync.Daemon.Sections
import FluxSync.Proto.Serde

namespace FluxSync.Daemon

open Std OrderedMap

/-- A peer that mDNS has found. -/
structure ResolvedPeer where
  staticPub : Key
  addr : SocketAddr
  pairPin : Option String
  lastSeen : ℕ

/-- What a pair command reads besides the shared state, and how the disk answers it. -/
structure PairEnv where
  crypto : Crypto
  base32Decode : String → Option (List UInt8)
  parseAddr : String → Option SocketAddr
  discCache : List ResolvedPeer
  keystoreDir : Option String
  /-- `load_peers` fails on the file that is there. -/
  unreadable : Bool
  /-- The error of each `save_peers` attempt. -/
  save : ℕ → Option String

inductive PairCmd
  | fromUri (uri name : String)
  | accept (pubkeyB32 name : String) (addr : Option String)
  | fromPin (pin name : String)

inductive PairReply
  | err (msg : String)
  /-- `PairResult` where the command answers with one. -/
  | ok (alreadyPaired : Option Bool)
  deriving DecidableEq

/-- What a pair command leaves: the initiator it starts is SAS-gated or not. -/
structure PairOutcome where
  sh : Shared
  reply : PairReply
  online : Bool := false
  dial : Option (List SocketAddr × Bool) := none

def DISCOVERY_CACHE_TTL : ℕ := 120000

def splitOnce (c : Char) (l : List Char) : Option (List Char × List Char) :=
  match l.span (· ≠ c) with
  | (a, _ :: b) => some (a, b)
  | _ => none

structure ParsedPairUri where
  pubkeyB32 : String
  addrs : List SocketAddr

/-- The fingerprint words of the URI are for display, no code reads them. -/
def parsePairUri (parseAddr : String → Option SocketAddr) (s : String) :
    Except String ParsedPairUri :=
  let scheme := "fluxsync://pair/".toList
  if ¬ scheme <+: s.toList then .error "scheme is not fluxsync://pair/"
  else
    let rest := s.toList.drop scheme.length
    let (pubkey, query) := (splitOnce '?' rest).getD (rest, [])
    if pubkey = [] then .error "missing pubkey segment"
    else
      let addrs := ((query.splitOn '&').filter (· ≠ [])).foldl (fun addrs kv ↦
        let (k, v) := (splitOnce '=' kv).getD (kv, [])
        if k = ['a'] then
          ((v.splitOn ',').filter (· ≠ [])).filterMap fun a ↦ parseAddr (String.ofList a)
        else addrs) []
      .ok ⟨String.ofList pubkey, addrs⟩

/-- Whom a command pairs with, what it dials and how it answers. -/
structure PairTarget where
  staticPub : Key
  name : String
  /-- The addresses to dial, or the error of an address that does not parse. -/
  addrs : Except String (List SocketAddr)
  reports : Bool

namespace PairEnv

variable (env : PairEnv)

def InvalidPeerPubkey : String := "peer static public key is invalid (zero or low-order point)"

def checkPubkey (what : String) (staticPub : Key) : Except String Key :=
  if env.crypto.validPubkey staticPub then .ok staticPub
  else .error ("bad pubkey" ++ what ++ ": " ++ InvalidPeerPubkey)

def decodePubkey (what pubkeyB32 : String) : Except String Key :=
  match env.base32Decode pubkeyB32 with
  | none => .error ("bad base32 pubkey" ++ what)
  | some bytes =>
    match Proto.ofBytes32 bytes with
    | none => .error "expected 32-byte pubkey"
    | some staticPub => env.checkPubkey what staticPub

/-- `PairFromUri` up to the trusted set. -/
def pairFromUri (uri name : String) : Except String PairTarget := do
  let parsed ← (parsePairUri env.parseAddr uri).mapError ("bad pair uri: " ++ ·)
  let staticPub ← env.decodePubkey " in uri" parsed.pubkeyB32
  return { staticPub, name, addrs := .ok parsed.addrs, reports := true }

/-- `PairAccept` up to the trusted set. -/
def pairAccept (pubkeyB32 name : String) (addr : Option String) : Except String PairTarget := do
  let staticPub ← env.decodePubkey "" pubkeyB32
  let addrs : Except String (List SocketAddr) :=
    match addr with
    | none => .ok []
    | some a =>
      match env.parseAddr a with
      | some parsed => .ok [parsed]
      | none => .error "bad addr"
  return { staticPub, name, addrs, reports := false }

/-- `PairFromPin` up to the trusted set. -/
def pairFromPin (now : ℕ) (pin name : String) : Except String PairTarget := do
  if pin.utf8ByteSize ≠ 6 ∨ ¬ pin.toList.all (fun c ↦ '0' ≤ c ∧ c ≤ '9') then
    throw "bad pin format (6 digits)"
  match (env.discCache.filter (now - ·.lastSeen < DISCOVERY_CACHE_TTL)).find?
      (·.pairPin = some pin) with
  | none => throw "no_peer_with_pin"
  | some target =>
    let staticPub ← env.checkPubkey " from discovery" target.staticPub
    return { staticPub, name, addrs := .ok [target.addr], reports := true }

def resolve (now : ℕ) : PairCmd → Except String PairTarget
  | .fromUri uri name => env.pairFromUri uri name
  | .accept pubkeyB32 name addr => env.pairAccept pubkeyB32 name addr
  | .fromPin pin name => env.pairFromPin now pin name

/-- The attempts from `attempt` on, `left` of them, with the last error so far. -/
def saveAttempts (stored file : List StoredPeer) (attempt : ℕ) (last : String) :
    ℕ → List StoredPeer × Except String Unit
  | 0 => (file, .error last)
  | left + 1 =>
    match env.save attempt with
    | none => (stored, .ok ())
    | some e => saveAttempts stored file (attempt + 1) e left

/-- The file that `upsert_peer_persist` leaves and its result. A failed
`save_peers` has not renamed its temp file over `peers.json`. -/
def upsertPeerPersist (dir : String) (file : List StoredPeer) (entry : StoredPeer) :
    List StoredPeer × Except String Unit :=
  if env.unreadable then
    (file, .error ("read " ++ dir ++
      "/peers.json before upsert; refusing to overwrite a corrupt file"))
  else
    env.saveAttempts (upsertPeer file entry) file 0 "upsert_peer_persist exhausted retries"
      PEERS_PERSIST_ATTEMPTS

/-- A daemon without a keystore has nothing to write. -/
def persist (file : List StoredPeer) (entry : StoredPeer) : List StoredPeer × Except String Unit :=
  match env.keystoreDir with
  | none => (file, .ok ())
  | some dir => env.upsertPeerPersist dir file entry

def contact (t : PairTarget) : Contact where
  peer := env.crypto.peerIdFor t.staticPub
  staticPub := t.staticPub
  name := t.name
  addr := ((t.addrs.toOption.getD []).head?).getD (.v4 0 0)
  sasWords := []

/-- The three commands from the cap check on. -/
def pairWith (s : Shared) (t : PairTarget) : PairOutcome :=
  let c := env.contact t
  if s.trusted.contains c.peer = false ∧ MAX_PERSISTED_PEERS ≤ s.trusted.size then
    { sh := s
      reply := .err ("trust store full (" ++ toString MAX_PERSISTED_PEERS ++
        " peers); revoke an existing peer first") }
  else
    let alreadyConfirmed := s.trusted.contains c.peer && !s.pendingPairs.contains c.peer
    let enrolled := s.enroll c ⟨t.staticPub, t.name⟩
    match env.persist s.peersFile ⟨c.peer, t.staticPub, t.name, none⟩ with
    | (file, .error e) =>
      { sh := { enrolled.distrust c.peer with peersFile := file }
        reply := .err ("persist failed after " ++ toString PEERS_PERSIST_ATTEMPTS ++ " attempts: "
          ++ e ++ "; pair rolled back, retry once disk recovers") }
    | (file, .ok ()) =>
      let sh := { enrolled with peersFile := file }
      match t.addrs with
      | .error e => { sh, reply := .err e, online := true }
      | .ok addrs =>
        { sh
          reply := .ok (if t.reports then some alreadyConfirmed else none)
          online := true
          dial := if addrs = [] then none else some (addrs, !alreadyConfirmed) }

def pair (s : Shared) (cmd : PairCmd) : PairOutcome :=
  match env.resolve s.now cmd with
  | .error msg => { sh := s, reply := .err msg }
  | .ok t => env.pairWith s t

/-- The disk refuses every try. -/
def PersistFails : Prop :=
  env.keystoreDir.isSome ∧
    (env.unreadable = true ∨ ∀ attempt < PEERS_PERSIST_ATTEMPTS, (env.save attempt).isSome)

/-- There is a place in the trusted set for the peer. -/
def HasRoom (s : Shared) (p : PeerId) : Prop :=
  s.trusted.contains p = true ∨ s.trusted.size < MAX_PERSISTED_PEERS

variable {env : PairEnv} {s : Shared} {t : PairTarget} {cmd : PairCmd} {file stored : List StoredPeer}
  {entry : StoredPeer}

theorem saveAttempts_fails {attempt left : ℕ} {last : String}
    (h : ∀ n, attempt ≤ n → n < attempt + left → (env.save n).isSome) :
    ∃ e, env.saveAttempts stored file attempt last left = (file, .error e) := by
  induction left generalizing attempt last with
  | zero => exact ⟨last, rfl⟩
  | succ left ih =>
    obtain ⟨e, he⟩ := Option.isSome_iff_exists.mp (h attempt le_rfl (by omega))
    rw [saveAttempts, he]
    exact ih fun n hn hlt ↦ h n (by omega) (by omega)

theorem PersistFails.persist (h : env.PersistFails) (file : List StoredPeer) (entry : StoredPeer) :
    ∃ e, env.persist file entry = (file, .error e) := by
  obtain ⟨hdir, hdisk⟩ := h
  obtain ⟨dir, hdir⟩ := Option.isSome_iff_exists.mp hdir
  simp only [PairEnv.persist, hdir, upsertPeerPersist]
  split
  · exact ⟨_, rfl⟩
  case isFalse hread =>
    have hsave := hdisk.resolve_left hread
    exact saveAttempts_fails fun n _ hn ↦ hsave n (by simpa using hn)

/-- After a failed write the peer is out of the trusted set and the file is as it was. -/
theorem pairWith_failed (h : env.PersistFails) (hroom : HasRoom s (env.contact t).peer) :
    (env.pairWith s t).sh =
      (s.enroll (env.contact t) ⟨t.staticPub, t.name⟩).distrust (env.contact t).peer := by
  obtain ⟨e, he⟩ := h.persist s.peersFile ⟨(env.contact t).peer, t.staticPub, t.name, none⟩
  have hcap : ¬ (s.trusted.contains (env.contact t).peer = false ∧
      MAX_PERSISTED_PEERS ≤ s.trusted.size) := by
    rintro ⟨hnew, hfull⟩
    rcases hroom with hknown | hlt
    · rw [hknown] at hnew
      cases hnew
    · omega
  simp only [pairWith, if_neg hcap, he]
  rfl

theorem erase_insert_eq_iff {m : ExtTreeMap PeerId TrustedPeer} {p : PeerId} {x : TrustedPeer} :
    (m.insert p x).erase p = m ↔ m.contains p = false := by
  rw [ExtTreeMap.contains_eq_isSome_getElem?, Option.isSome_eq_false_iff, Option.isNone_iff_eq_none]
  constructor
  · intro h
    rw [← h, lookup_erase, if_pos rfl]
  · intro hp
    apply ExtTreeMap.ext_getElem?
    intro k
    rw [lookup_erase, lookup_insert]
    split
    case isTrue hk => rw [← hk, hp]
    case isFalse => rfl

/-- A pair command whose write fails leaves everything as it was exactly when the peer was not
trusted before. -/
theorem pair_rolled_back_iff (hr : env.resolve s.now cmd = .ok t)
    (hroom : HasRoom s (env.contact t).peer) (h : env.PersistFails) :
    ((env.pair s cmd).sh.trusted = s.trusted ∧ (env.pair s cmd).sh.peersFile = s.peersFile) ↔
      s.trusted.contains (env.contact t).peer = false := by
  have hsh : (env.pair s cmd).sh =
      (s.enroll (env.contact t) ⟨t.staticPub, t.name⟩).distrust (env.contact t).peer := by
    rw [pair, hr]
    exact pairWith_failed h hroom
  have hfile : ((s.enroll (env.contact t) ⟨t.staticPub, t.name⟩).distrust
      (env.contact t).peer).peersFile = s.peersFile := rfl
  rw [hsh, and_iff_left hfile]
  exact erase_insert_eq_iff

/-- The next lock section of a task that nothing interrupts. -/
def aloneStep (i : ℕ) (x : Shared × Pc) (ch : Choice) : Option (Shared × Pc) :=
  (advance i ch x.1 x.2).map fun n ↦ (n.sh, n.pc)

def tried (ok : Bool) : Choice where
  ok := ok
  readable := ok
  order := []
  victim := 0
  spawn := none

theorem saveAttempts_sections (env : PairEnv) (s : Shared) (stored : List StoredPeer) {i : ℕ}
    (attempt left : ℕ) (last : String) (c : Contact) (already : Bool)
    (hleft : attempt + (left + 1) = PEERS_PERSIST_ATTEMPTS) :
    ∃ chs : List Choice, chs.foldlM (aloneStep i) (s, .peers (.upsertWrite (.pair c already) attempt stored)) =
      some ({ s with
          peersFile := (env.saveAttempts stored s.peersFile attempt last (left + 1)).1
          diskBy := none },
        (Caller.pair c already).resume
          (env.saveAttempts stored s.peersFile attempt last (left + 1)).2.isOk) := by
  induction left generalizing attempt last with
  | zero =>
    refine ⟨[tried (env.save attempt).isNone], ?_⟩
    have hlast : ¬ attempt + 1 < PEERS_PERSIST_ATTEMPTS := by omega
    cases hsave : env.save attempt with
    | none => simp [aloneStep, advance, advancePeers, tried, saveAttempts, hsave, Pc.toNext,
        Shared.settle, Except.isOk, Except.toBool]
    | some e => simp [aloneStep, advance, advancePeers, tried, saveAttempts, hsave, Pc.toNext,
        Shared.settle, hlast, Except.isOk, Except.toBool]
  | succ left ih =>
    cases hsave : env.save attempt with
    | none =>
      refine ⟨[tried true], ?_⟩
      simp [aloneStep, advance, advancePeers, tried, saveAttempts, hsave, Pc.toNext, Shared.settle,
        Except.isOk, Except.toBool]
    | some e =>
      obtain ⟨chs, hchs⟩ := ih (attempt + 1) e (by omega)
      refine ⟨tried false :: chs, ?_⟩
      have hnext : attempt + 1 < PEERS_PERSIST_ATTEMPTS := by omega
      have hstep : aloneStep i (s, .peers (.upsertWrite (.pair c already) attempt stored))
          (tried false) =
            some (s, .peers (.upsertWrite (.pair c already) (attempt + 1) stored)) := by
        simp [aloneStep, advance, advancePeers, tried, Pc.toNext, hnext]
      have hmore : env.saveAttempts stored s.peersFile attempt last (left + 1 + 1) =
          env.saveAttempts stored s.peersFile (attempt + 1) e (left + 1) := by
        conv_lhs => rw [saveAttempts, hsave]
      rw [List.foldlM_cons, hstep, Option.bind_eq_bind, Option.bind_some, hchs, hmore]

theorem upsertPeerPersist_sections (env : PairEnv) (i : ℕ) (dir : String) (c : Contact)
    (already : Bool) (entry : StoredPeer) (hfree : s.diskBy = none) :
    ∃ chs : List Choice,
      chs.foldlM (aloneStep i) (s, .peers (.upsert (.pair c already) entry)) =
      some ({ s with peersFile := (env.upsertPeerPersist dir s.peersFile entry).1 },
        (Caller.pair c already).resume (env.upsertPeerPersist dir s.peersFile entry).2.isOk) := by
  cases hread : env.unreadable with
  | true =>
    refine ⟨[tried false], ?_⟩
    simp [aloneStep, advance, advancePeers, tried, Pc.toNext, hfree, upsertPeerPersist, hread,
      Shared.settle, Except.isOk, Except.toBool]
    rw [← hfree]
  | false =>
    obtain ⟨chs, hchs⟩ := saveAttempts_sections env { s with diskBy := some i }
      (upsertPeer s.peersFile entry) (i := i) 0 2 "upsert_peer_persist exhausted retries" c already
      rfl
    refine ⟨tried true :: chs, ?_⟩
    have hstep : aloneStep i (s, .peers (.upsert (.pair c already) entry)) (tried true) =
        some ({ s with diskBy := some i },
          .peers (.upsertWrite (.pair c already) 0 (upsertPeer s.peersFile entry))) := by
      simp [aloneStep, advance, advancePeers, tried, Pc.toNext, hfree]
    rw [List.foldlM_cons, hstep, Option.bind_eq_bind, Option.bind_some, hchs]
    simp only [upsertPeerPersist, hread, Bool.false_eq_true, if_false, ← hfree]
    rfl

/-- The sections up to the insert into the trusted set. -/
theorem insert_sections {i : ℕ} {c : Contact} (hfree : s.trustedBy = none)
    (hcap : ¬ (s.trusted.contains c.peer = false ∧ MAX_PERSISTED_PEERS ≤ s.trusted.size)) :
    [tried true, tried true, tried true].foldlM (aloneStep i) (s, .pair (.cap c)) =
      some (s.enroll c ⟨c.staticPub, c.name⟩,
        .peers (.upsert (.pair c (s.trusted.contains c.peer && !s.pendingPairs.contains c.peer))
          ⟨c.peer, c.staticPub, c.name, none⟩)) := by
  have hcap' : aloneStep i (s, .pair (.cap c)) (tried true) = some (s, .pair (.confirmed c)) := by
    simp only [aloneStep, advance, advancePair, hfree, ne_eq, not_true_eq_false, if_false, hcap]
    rfl
  have hconfirmed : aloneStep i (s, .pair (.confirmed c)) (tried true) =
      some (s, .pair (.insert c (s.trusted.contains c.peer && !s.pendingPairs.contains c.peer))) := by
    simp only [aloneStep, advance, advancePair, hfree, ne_eq, not_true_eq_false, if_false]
    rfl
  have hinsert (already : Bool) : aloneStep i (s, .pair (.insert c already)) (tried true) =
      some (s.enroll c ⟨c.staticPub, c.name⟩,
        .peers (.upsert (.pair c already) ⟨c.peer, c.staticPub, c.name, none⟩)) := by
    simp only [aloneStep, advance, advancePair, hfree, ne_eq, not_true_eq_false, if_false]
    rfl
  simp only [List.foldlM_cons, List.foldlM_nil, hcap', hconfirmed, hinsert, Option.bind_eq_bind,
    Option.bind_some]
  rfl

/-- The lock sections of a pair command, with no other task in between, leave the shared state
as the command does. -/
theorem pairWith_sections {i : ℕ} (hdir : env.keystoreDir.isSome) (hfree : s.trustedBy = none)
    (hdisk : s.diskBy = none) :
    ∃ (chs : List Choice) (pc : Pc),
      chs.foldlM (aloneStep i) (s, .pair (.cap (env.contact t))) =
        some ((env.pairWith s t).sh, pc) ∧
      (pc = .idle ∨ ∃ already, pc = .pair (.dial (env.contact t) already)) := by
  obtain ⟨dir, hdir⟩ := Option.isSome_iff_exists.mp hdir
  by_cases hcap : s.trusted.contains (env.contact t).peer = false ∧
      MAX_PERSISTED_PEERS ≤ s.trusted.size
  · refine ⟨[tried true], .idle, ?_, .inl rfl⟩
    simp [pairWith, aloneStep, advance, advancePair, hfree, hcap, Pc.toNext]
  have hinsert := insert_sections (i := i) (c := env.contact t) hfree hcap
  obtain ⟨chs, hchs⟩ := upsertPeerPersist_sections env i dir
    (s := s.enroll (env.contact t) ⟨t.staticPub, t.name⟩) (env.contact t)
    (s.trusted.contains (env.contact t).peer && !s.pendingPairs.contains (env.contact t).peer)
    ⟨(env.contact t).peer, t.staticPub, t.name, none⟩ hdisk
  have hpersist : env.persist s.peersFile ⟨(env.contact t).peer, t.staticPub, t.name, none⟩ =
      env.upsertPeerPersist dir s.peersFile ⟨(env.contact t).peer, t.staticPub, t.name, none⟩ := by
    simp only [PairEnv.persist, hdir]
  have hfile : (s.enroll (env.contact t) ⟨t.staticPub, t.name⟩).peersFile = s.peersFile := rfl
  rw [hfile] at hchs
  simp only [pairWith, if_neg hcap, hpersist]
  cases hresult : env.upsertPeerPersist dir s.peersFile
      ⟨(env.contact t).peer, t.staticPub, t.name, none⟩ with
  | mk file result =>
    rw [hresult] at hchs
    cases result with
    | error e =>
      refine ⟨[tried true, tried true, tried true] ++ (chs ++ [tried true]), .idle, ?_, .inl rfl⟩
      rw [List.foldlM_append, hinsert, Option.bind_eq_bind, Option.bind_some, List.foldlM_append]
      refine (congrArg (Option.bind · _) hchs).trans ?_
      have hstep : aloneStep i ({ s.enroll (env.contact t) ⟨t.staticPub, t.name⟩ with
          peersFile := file }, .pair (.rollback (env.contact t).peer)) (tried true) =
          some (({ s.enroll (env.contact t) ⟨t.staticPub, t.name⟩ with
            peersFile := file } : Shared).distrust (env.contact t).peer, .idle) := by
        simp only [aloneStep, advance, advancePair, Shared.enroll, hfree, ne_eq, not_true_eq_false,
          if_false]
        rfl
      exact (congrArg (Option.bind · _) hstep).trans rfl
    | ok u =>
      refine ⟨[tried true, tried true, tried true] ++ chs,
        .pair (.dial (env.contact t) (s.trusted.contains (env.contact t).peer &&
          !s.pendingPairs.contains (env.contact t).peer)), ?_, .inr ⟨_, rfl⟩⟩
      rw [List.foldlM_append, hinsert, Option.bind_eq_bind, Option.bind_some]
      refine hchs.trans ?_
      cases t.addrs <;> rfl

/-- A desk advertises its PIN, and the disk is full. -/
def fullDisk : PairEnv where
  crypto := ⟨fun k ↦ k, fun k ↦ k ≠ 0⟩
  base32Decode := fun _ ↦ none
  parseAddr := fun _ ↦ none
  discCache := [⟨9, .v4 0xc0a80002 47001, some "123456", 0⟩]
  keystoreDir := some "/k"
  unreadable := false
  save := fun _ ↦ some "write /k/peers.json.tmp"

def nobodyTrusted : Shared := System.init.sh

/-- The desk has been paired before. -/
def deskTrusted : Shared :=
  { nobodyTrusted with
    trusted := (∅ : ExtTreeMap PeerId TrustedPeer).insert 9 ⟨9, "desk"⟩
    peersFile := [⟨9, 9, "desk", some (.v4 0xc0a80002 47001)⟩] }

def deskByPin : PairCmd := .fromPin "123456" "desk"

theorem fullDisk_fails : fullDisk.PersistFails := ⟨rfl, .inr fun _ _ ↦ rfl⟩

theorem pair_rolled_back_nobodyTrusted :
    ((fullDisk.pair nobodyTrusted deskByPin).sh.trusted = nobodyTrusted.trusted ∧
        (fullDisk.pair nobodyTrusted deskByPin).sh.peersFile = nobodyTrusted.peersFile) ↔
      nobodyTrusted.trusted.contains 9 = false :=
  pair_rolled_back_iff (t := ⟨9, "desk", .ok [.v4 0xc0a80002 47001], true⟩) (by rfl)
    (.inr (by decide +kernel)) fullDisk_fails

/-- Pairing a trusted desk again while the disk is full takes it out of the trusted set. -/
theorem repair_failure_untrusts :
    fullDisk.PersistFails ∧ deskTrusted.trusted.contains 9 = true ∧
      (fullDisk.pair deskTrusted deskByPin).sh.trusted.contains 9 = false ∧
      (fullDisk.pair deskTrusted deskByPin).sh.peersFile = deskTrusted.peersFile :=
  ⟨fullDisk_fails, by decide +kernel, by decide +kernel, by decide +kernel⟩

end PairEnv

end FluxSync.Daemon
