import FluxSync.Daemon.PairCommands
import FluxSync.Foundation.NetText

namespace FluxSync.Daemon.PairUri

open NetText

/-- What the routing table answers: the source address of a socket that is connected to the
internet, and of one connected into the tailnet's range. Both sockets are IPv4 ones. -/
structure Host where
  egress : Option (BitVec 32)
  tailnet : Option (BitVec 32)

def LOCALHOST : BitVec 32 := 0x7f000001

def isCgnat (ip : BitVec 32) : Bool :=
  match octets ip with
  | a :: b :: _ => a == 100 && b &&& 0xC0 == 64
  | _ => false

def Host.pickLocal (h : Host) : IpAddr := .v4 (h.egress.getD LOCALHOST)

/-- The address that the daemon is taken to be reachable at. -/
def Host.localIp (h : Host) (udpBind : String) : IpAddr :=
  match whole readIpAddr udpBind.toList with
  | some (.v4 ip) => if ip = 0 then h.pickLocal else .v4 ip
  | some (.v6 ip) => if ip = 0 then h.pickLocal else .v6 ip
  | none => h.pickLocal

def Host.localLanAddr (h : Host) (udpBind : String) (udpPort : BitVec 16) : List Char :=
  displaySocketAddr (h.localIp udpBind) udpPort

def Host.tailnetIp (h : Host) : Option (BitVec 32) := h.tailnet.filter isCgnat

def Host.tailnetLocalAddr (h : Host) (udpPort : BitVec 16) : Option (List Char) :=
  h.tailnetIp.map fun ip ↦ displaySocketAddr (.v4 ip) udpPort

def SCHEME : List Char := "fluxsync://pair/".toList

def buildPairUri (pubkeyB32 : String) (addrHint : List Char) (fpWords : List String) : String :=
  .ofList (SCHEME ++ pubkeyB32.toList ++ "?a=".toList ++ addrHint ++ "&f=".toList ++
    ['.'].intercalate (fpWords.map String.toList))

/-- The URI of `CmdOp::PairShow`. -/
def pairShowUri (h : Host) (udpBind : String) (udpPort : BitVec 16) (pubkeyB32 : String)
    (words : List String) : String :=
  let addrHint := h.localLanAddr udpBind udpPort
  let addrHints :=
    match h.tailnetLocalAddr udpPort with
    | some t => addrHint ++ ',' :: t
    | none => addrHint
  buildPairUri pubkeyB32 addrHints words

def parseSocketAddr (s : List Char) : Option SocketAddr :=
  (whole readSocketAddr s).map fun
    | (.inl ip, port) => .v4 ip port
    | (.inr (ip, scope), port) => .v6 ip port 0 scope

/-- What is read of the pairs `k=v` of a URI. -/
structure Query where
  addrs : List SocketAddr := []
  fpWords : List String := []
  deriving DecidableEq

def Query.read (q : Query) (kv : List Char) : Query :=
  let (k, v) := (splitOnce '=' kv).getD (kv, [])
  if k = ['a'] then
    { q with addrs := ((v.splitOn ',').filter (· ≠ [])).filterMap parseSocketAddr }
  else if k = ['f'] then { q with fpWords := (v.splitOn '.').map String.ofList }
  else q

structure ParsedPairUri extends Query where
  pubkeyB32 : String
  deriving DecidableEq

def parsePairUri (s : String) : Except String ParsedPairUri :=
  if ¬ SCHEME <+: s.toList then .error "scheme is not fluxsync://pair/"
  else
    let rest := s.toList.drop SCHEME.length
    let (pubkey, query) := (splitOnce '?' rest).getD (rest, [])
    if pubkey = [] then .error "missing pubkey segment"
    else
      .ok { ((query.splitOn '&').filter (· ≠ [])).foldl Query.read {} with
        pubkeyB32 := .ofList pubkey }

/-- What the command means to advertise. -/
def advertised (h : Host) (udpBind : String) (udpPort : BitVec 16) : List SocketAddr :=
  (match h.localIp udpBind with
    | .v4 ip => .v4 ip udpPort
    | .v6 ip => .v6 ip udpPort 0 0) ::
  (h.tailnetIp.map fun ip ↦ .v4 ip udpPort).toList

/-- A word without the separators of words and of pairs. -/
def Unsplit (w : String) : Prop := '.' ∉ w.toList ∧ '&' ∉ w.toList

instance {w : String} : Decidable (Unsplit w) := inferInstanceAs (Decidable (_ ∧ _))

/-- The key and the words that a URI has place for, as those of the pair command are: base32, and
six words of letters. -/
structure Readable (pubkeyB32 : String) (words : List String) : Prop where
  key_ne : pubkeyB32 ≠ ""
  key : '?' ∉ pubkeyB32.toList
  words_ne : words ≠ []
  words : ∀ w ∈ words, Unsplit w

instance {pubkeyB32 : String} {words : List String} : Decidable (Readable pubkeyB32 words) :=
  decidable_of_iff (pubkeyB32 ≠ "" ∧ '?' ∉ pubkeyB32.toList ∧ words ≠ [] ∧ ∀ w ∈ words, Unsplit w)
    ⟨fun ⟨h₁, h₂, h₃, h₄⟩ ↦ ⟨h₁, h₂, h₃, h₄⟩, fun ⟨h₁, h₂, h₃, h₄⟩ ↦ ⟨h₁, h₂, h₃, h₄⟩⟩

variable {h : Host} {udpBind pubkeyB32 : String} {udpPort : BitVec 16} {words : List String}
  {c x : Char} {l r a b : List Char} {q : Query} {kvs : List (List Char)} {p : ParsedPairUri}
  {s : String}

theorem splitOnce_append (hl : c ∉ l) : splitOnce c (l ++ c :: r) = some (l, r) := by
  have hp : ∀ d ∈ l, decide (d ≠ c) = true := by
    intro d hd
    exact decide_eq_true fun h ↦ hl (h ▸ hd)
  rw [splitOnce, List.span_eq_takeWhile_dropWhile, List.takeWhile_append_of_pos hp,
    List.dropWhile_append_of_pos hp, List.takeWhile_cons_of_neg (by simp),
    List.dropWhile_cons_of_neg (by simp), List.append_nil]

theorem not_mem_splitOnce : c ∉ ((splitOnce c l).getD (l, [])).1 := by
  rw [splitOnce, List.span_eq_takeWhile_dropWhile]
  cases hdrop : l.dropWhile (· ≠ c) with
  | nil =>
    intro hc
    have hall := List.dropWhile_eq_nil_iff.mp hdrop c hc
    simp at hall
  | cons d r =>
    intro hc
    have hne := List.mem_takeWhile_imp hc
    simp at hne

theorem mem_splitOn (ha : a ∈ l.splitOn c) : c ∉ a ∧ a ⊆ l := by
  induction l generalizing a with
  | nil =>
    obtain rfl : a = [] := by simpa using ha
    exact ⟨List.not_mem_nil, List.Subset.refl []⟩
  | cons d l ih =>
    rw [List.splitOn_cons_eq_if_modifyHead] at ha
    split at ha
    · rcases List.mem_cons.mp ha with rfl | ha
      · exact ⟨List.not_mem_nil, List.nil_subset _⟩
      · exact ⟨(ih ha).1, List.subset_cons_of_subset d (ih ha).2⟩
    case isFalse hd =>
      cases hs : l.splitOn c with
      | nil => exact absurd hs (List.splitOn_ne_nil c l)
      | cons b bs =>
        rw [hs] at ha ih
        rcases List.mem_cons.mp ha with rfl | ha
        · obtain ⟨hb, hsub⟩ := ih List.mem_cons_self
          refine ⟨?_, List.cons_subset_cons d hsub⟩
          rw [List.mem_cons]
          exact not_or.mpr ⟨fun h ↦ hd (by simp [h]), hb⟩
        · obtain ⟨ha', hsub⟩ := ih (List.mem_cons_of_mem b ha)
          exact ⟨ha', List.subset_cons_of_subset d hsub⟩

theorem Query.read_addrs : q.read ('a' :: '=' :: l) =
    { q with addrs := ((l.splitOn ',').filter (· ≠ [])).filterMap parseSocketAddr } := by
  have hsplit : splitOnce '=' ('a' :: '=' :: l) = some (['a'], l) :=
    splitOnce_append (by decide : '=' ∉ ['a'])
  rw [Query.read, hsplit]
  rfl

theorem Query.read_words : q.read ('f' :: '=' :: l) =
    { q with fpWords := (l.splitOn '.').map String.ofList } := by
  have hsplit : splitOnce '=' ('f' :: '=' :: l) = some (['f'], l) :=
    splitOnce_append (by decide : '=' ∉ ['f'])
  rw [Query.read, hsplit]
  rfl

theorem subset_splitOnce : ((splitOnce c l).getD (l, [])).2 ⊆ l := by
  rw [splitOnce, List.span_eq_takeWhile_dropWhile]
  cases hdrop : l.dropWhile (· ≠ c) with
  | nil => exact List.nil_subset l
  | cons d r =>
    have hsub : d :: r ⊆ l := hdrop ▸ List.dropWhile_subset _
    exact List.Subset.trans (List.subset_cons_self d r) hsub

/-- What was read as a word has no separator in it. -/
theorem Query.read_unsplit {kv : List Char} (hq : ∀ w ∈ q.fpWords, Unsplit w) (hkv : '&' ∉ kv) :
    ∀ w ∈ (q.read kv).fpWords, Unsplit w := by
  have hvalue : '&' ∉ ((splitOnce '=' kv).getD (kv, [])).2 := fun hmem ↦ hkv (subset_splitOnce hmem)
  obtain ⟨k, v, hsplit⟩ : ∃ k v, (splitOnce '=' kv).getD (kv, []) = (k, v) := ⟨_, _, rfl⟩
  rw [hsplit] at hvalue
  intro w hw
  rw [Query.read, hsplit] at hw
  dsimp only at hw hvalue
  split at hw
  · exact hq w hw
  · split at hw
    · obtain ⟨piece, hpiece, rfl⟩ := List.mem_map.mp hw
      obtain ⟨hdot, hsub⟩ := mem_splitOn hpiece
      rw [Unsplit, String.toList_ofList]
      exact ⟨hdot, fun hmem ↦ hvalue (hsub hmem)⟩
    · exact hq w hw

theorem read_all_unsplit (hkvs : ∀ kv ∈ kvs, '&' ∉ kv) (hq : ∀ w ∈ q.fpWords, Unsplit w) :
    ∀ w ∈ (kvs.foldl Query.read q).fpWords, Unsplit w := by
  induction kvs generalizing q with
  | nil => exact hq
  | cons kv kvs ih =>
    apply ih
    · exact fun kv' hkv' ↦ hkvs kv' (List.mem_cons_of_mem kv hkv')
    · exact Query.read_unsplit hq (hkvs kv List.mem_cons_self)

theorem parsePairUri_readable (hp : parsePairUri s = .ok p) :
    p.pubkeyB32 ≠ "" ∧ '?' ∉ p.pubkeyB32.toList ∧ ∀ w ∈ p.fpWords, Unsplit w := by
  rw [parsePairUri] at hp
  split at hp
  case isTrue => cases hp
  case isFalse =>
    dsimp only at hp
    split at hp
    case isTrue => cases hp
    case isFalse hne =>
      obtain rfl := Except.ok.inj hp
      refine ⟨?_, ?_, ?_⟩
      · simpa using hne
      · rw [String.toList_ofList]
        exact not_mem_splitOnce
      · apply read_all_unsplit
        · intro kv hkv
          exact (mem_splitOn (List.mem_filter.mp hkv).1).1
        · exact fun w hw ↦ absurd hw List.not_mem_nil

/-- What the parser makes of a URI whose key and whose hints have no separator in them. -/
theorem parse_build {hints : List (List Char)} {text : List Char} (hkey : pubkeyB32 ≠ "")
    (hmark : '?' ∉ pubkeyB32.toList) (hne : hints ≠ [])
    (hhints : ∀ hint ∈ hints, hint ≠ [] ∧ ',' ∉ hint ∧ '&' ∉ hint) (htext : '&' ∉ text) :
    parsePairUri (.ofList (SCHEME ++ pubkeyB32.toList ++ "?a=".toList ++ [','].intercalate hints ++
      "&f=".toList ++ text)) =
        .ok ⟨⟨hints.filterMap parseSocketAddr, (text.splitOn '.').map String.ofList⟩, pubkeyB32⟩ := by
  have hquery : (SCHEME ++ pubkeyB32.toList ++ "?a=".toList ++ [','].intercalate hints ++
      "&f=".toList ++ text) = SCHEME ++ (pubkeyB32.toList ++
        '?' :: (('a' :: '=' :: [','].intercalate hints) ++ '&' :: ('f' :: '=' :: text))) := by
    simp
  have hamp : '&' ∉ 'a' :: '=' :: [','].intercalate hints := by
    simp only [List.mem_cons, not_or]
    refine ⟨by decide, by decide, fun hmem ↦ ?_⟩
    obtain hc | ⟨hint, hin, hc⟩ := mem_intercalate hmem
    · cases hc
    · exact (hhints hint hin).2.2 hc
  have hamp' : '&' ∉ 'f' :: '=' :: text := by simp [htext]
  have hpieces : (([','].intercalate hints).splitOn ',').filter (· ≠ []) = hints := by
    rw [List.splitOn_intercalate _ (fun hint hin ↦ (hhints hint hin).2.1) hne,
      List.filter_eq_self.mpr fun hint hin ↦ by simpa using (hhints hint hin).1]
  have hkey' : pubkeyB32.toList ≠ [] := by simpa using hkey
  rw [parsePairUri, String.toList_ofList, hquery, if_neg (not_not.mpr (List.prefix_append _ _)),
    List.drop_left]
  dsimp only
  rw [splitOnce_append hmark, Option.getD_some, if_neg hkey',
    List.splitOn_append_cons_self_of_not_mem hamp, List.splitOn_eq_singleton hamp',
    List.filter_eq_self.mpr (by simp), List.foldl_cons, List.foldl_cons, List.foldl_nil,
    Query.read_addrs, Query.read_words, hpieces, String.ofList_toList]

def Host.hints (h : Host) (udpBind : String) (udpPort : BitVec 16) : List (List Char) :=
  h.localLanAddr udpBind udpPort :: (h.tailnetLocalAddr udpPort).toList

theorem pairShowUri_eq : pairShowUri h udpBind udpPort pubkeyB32 words =
    .ofList (SCHEME ++ pubkeyB32.toList ++ "?a=".toList ++
      [','].intercalate (h.hints udpBind udpPort) ++ "&f=".toList ++
        ['.'].intercalate (words.map String.toList)) := by
  rw [pairShowUri, buildPairUri, Host.hints]
  cases h.tailnetLocalAddr udpPort with
  | none => simp
  | some t => simp [List.intercalate_cons_cons]

theorem displaySocketAddr_ne_nil {ip : IpAddr} : displaySocketAddr ip udpPort ≠ [] := by
  simp [displaySocketAddr]

theorem hints_ne_nil : h.hints udpBind udpPort ≠ [] := List.cons_ne_nil _ _

theorem hints_plain : ∀ hint ∈ h.hints udpBind udpPort, hint ≠ [] ∧ ',' ∉ hint ∧ '&' ∉ hint := by
  have hplain : ∀ ip : IpAddr, displaySocketAddr ip udpPort ≠ [] ∧
      ',' ∉ displaySocketAddr ip udpPort ∧ '&' ∉ displaySocketAddr ip udpPort := fun ip ↦
    ⟨displaySocketAddr_ne_nil, Foreign.displaySocketAddr (by decide),
      Foreign.displaySocketAddr (by decide)⟩
  intro hint hmem
  rcases List.mem_cons.mp hmem with rfl | hmem
  · exact hplain _
  · rw [Option.mem_toList, Host.tailnetLocalAddr] at hmem
    obtain ⟨ip, -, rfl⟩ := Option.map_eq_some_iff.mp hmem
    exact hplain _

theorem parseSocketAddr_v4 {ip : BitVec 32} :
    parseSocketAddr (displaySocketAddr (.v4 ip) udpPort) = some (.v4 ip udpPort) :=
  congrArg (Option.map _) read_socketAddr_v4

theorem parseSocketAddr_v6 {ip : BitVec 128} :
    parseSocketAddr (displaySocketAddr (.v6 ip) udpPort) = none :=
  congrArg (Option.map _) read_socketAddr_v6

/-- An IPv4 address comes back, an IPv6 one is dropped. -/
theorem hints_parsed : (h.hints udpBind udpPort).filterMap parseSocketAddr =
    (match h.localIp udpBind with
      | .v4 ip => [.v4 ip udpPort]
      | .v6 _ => []) ++ (h.tailnetIp.map fun ip ↦ .v4 ip udpPort).toList := by
  have htailnet : (h.tailnetLocalAddr udpPort).toList.filterMap parseSocketAddr =
      (h.tailnetIp.map fun ip ↦ SocketAddr.v4 ip udpPort).toList := by
    rw [Host.tailnetLocalAddr]
    cases h.tailnetIp with
    | none => rfl
    | some ip => simp [parseSocketAddr_v4]
  rw [Host.hints, Host.localLanAddr, List.filterMap_cons]
  cases h.localIp udpBind with
  | v4 ip => simp only [parseSocketAddr_v4, htailnet, List.singleton_append]
  | v6 ip => simp only [parseSocketAddr_v6, htailnet, List.nil_append]

theorem localIp_eq_v6 {ip : BitVec 128} :
    h.localIp udpBind = .v6 ip ↔ whole readIpAddr udpBind.toList = some (.v6 ip) ∧ ip ≠ 0 := by
  rw [Host.localIp]
  split
  case h_1 ip' heq =>
    rw [heq]
    split <;> simp [Host.pickLocal]
  case h_2 ip' heq =>
    rw [heq]
    split
    case isTrue hzero =>
      constructor
      · intro h
        cases h
      · rintro ⟨hip, hne⟩
        obtain rfl := IpAddr.v6.inj (Option.some.inj hip)
        exact absurd hzero hne
    case isFalse hne =>
      constructor
      · intro h
        obtain rfl := IpAddr.v6.inj h
        exact ⟨rfl, hne⟩
      · rintro ⟨hip, -⟩
        exact Option.some.inj hip
  case h_3 heq => simp [heq, Host.pickLocal]

theorem words_split (hne : words ≠ []) (hwords : ∀ w ∈ words, Unsplit w) :
    ((['.'].intercalate (words.map String.toList)).splitOn '.').map String.ofList = words := by
  rw [List.splitOn_intercalate, List.map_map]
  · simp [Function.comp_def]
  · intro l hl
    obtain ⟨w, hw, rfl⟩ := List.mem_map.mp hl
    exact (hwords w hw).1
  · simpa using hne

theorem text_unsplit (hwords : ∀ w ∈ words, Unsplit w) :
    '&' ∉ ['.'].intercalate (words.map String.toList) := by
  intro hmem
  obtain hc | ⟨l, hl, hc⟩ := mem_intercalate hmem
  · cases hc
  · obtain ⟨w, hw, rfl⟩ := List.mem_map.mp hl
    exact (hwords w hw).2 hc

theorem read_all_addrs : (kvs.foldl Query.read q).addrs = kvs.foldl (fun addrs kv ↦
    let (k, v) := (splitOnce '=' kv).getD (kv, [])
    if k = ['a'] then
      ((v.splitOn ',').filter (· ≠ [])).filterMap fun a ↦ parseSocketAddr (String.ofList a).toList
    else addrs) q.addrs := by
  induction kvs generalizing q with
  | nil => rfl
  | cons kv kvs ih =>
    have hstep : (q.read kv).addrs =
        if ((splitOnce '=' kv).getD (kv, [])).1 = ['a'] then
          ((((splitOnce '=' kv).getD (kv, [])).2.splitOn ',').filter (· ≠ [])).filterMap
            fun a ↦ parseSocketAddr (String.ofList a).toList
        else q.addrs := by
      simp only [Query.read, String.toList_ofList]
      split
      · rfl
      · split <;> rfl
    rw [List.foldl_cons, List.foldl_cons, ih, hstep]

/-- Without its words, this is the parser that the pair commands are modelled with. -/
theorem parsePairUri_forget (s : String) :
    (parsePairUri s).map (fun p ↦ ⟨p.pubkeyB32, p.addrs⟩) =
      Daemon.parsePairUri (fun a ↦ parseSocketAddr a.toList) s := by
  have hscheme : "fluxsync://pair/".toList = SCHEME := rfl
  rw [parsePairUri, Daemon.parsePairUri, hscheme]
  by_cases hs : ¬ SCHEME <+: s.toList
  · rw [if_pos hs, if_pos hs]
    rfl
  · rw [if_neg hs, if_neg hs]
    dsimp only
    generalize (splitOnce '?' (s.toList.drop SCHEME.length)).getD
      (s.toList.drop SCHEME.length, []) = x
    by_cases hx : x.1 = []
    · rw [if_pos hx, if_pos hx]
      rfl
    · rw [if_neg hx, if_neg hx, Except.map, read_all_addrs]

/-- The URI of the pair command leads back to the key, the addresses and the words exactly when the
daemon is not bound to an IPv6 address of its own. -/
theorem pair_uri_round_trip_iff (h : Host) (udpBind : String) (udpPort : BitVec 16)
    (pubkeyB32 : String) (words : List String) :
    parsePairUri (pairShowUri h udpBind udpPort pubkeyB32 words) =
        .ok ⟨⟨advertised h udpBind udpPort, words⟩, pubkeyB32⟩ ↔
      Readable pubkeyB32 words ∧
        ∀ ip, whole readIpAddr udpBind.toList = some (.v6 ip) → ip = 0 := by
  constructor
  · intro hparse
    obtain ⟨hkey, hmark, hwords⟩ := parsePairUri_readable hparse
    dsimp only at hkey hmark hwords
    rw [pairShowUri_eq, parse_build hkey hmark hints_ne_nil hints_plain
      (text_unsplit hwords), Except.ok.injEq, ParsedPairUri.mk.injEq, Query.mk.injEq] at hparse
    obtain ⟨⟨haddrs, hsplit⟩, -⟩ := hparse
    refine ⟨⟨hkey, hmark, ?_, hwords⟩, fun ip hip ↦ ?_⟩
    · rintro rfl
      simp at hsplit
    · by_contra hne
      have hv6 : h.localIp udpBind = .v6 ip := localIp_eq_v6.mpr ⟨hip, hne⟩
      have hlen := congrArg List.length haddrs
      rw [hints_parsed, advertised, hv6] at hlen
      simp at hlen
  · rintro ⟨⟨hkey, hmark, hne, hwords⟩, hbind⟩
    rw [pairShowUri_eq, parse_build hkey hmark hints_ne_nil hints_plain
      (text_unsplit hwords), words_split hne hwords, hints_parsed, advertised]
    cases hip : h.localIp udpBind with
    | v4 ip => rfl
    | v6 ip =>
      obtain ⟨hv6, hne⟩ := localIp_eq_v6.mp hip
      exact absurd (hbind ip hv6) hne

/-- A host without a tailnet. -/
def offline : Host := ⟨none, none⟩

/-- Bound to the address `2001:db8::1`, a daemon gives out a URI in which no address can be read. -/
theorem ipv6_bind_lost :
    pairShowUri offline "2001:db8::1" 47001 "MFRGG" ["abandon", "ability"] =
        "fluxsync://pair/MFRGG?a=2001:db8::1:47001&f=abandon.ability" ∧
      (parsePairUri "fluxsync://pair/MFRGG?a=2001:db8::1:47001&f=abandon.ability").toOption =
        some ⟨⟨[], ["abandon", "ability"]⟩, "MFRGG"⟩ ∧
      advertised offline "2001:db8::1" 47001 = [.v6 0x20010db8000000000000000000000001 47001 0 0] ∧
      ¬ ∀ h udpBind udpPort pubkeyB32 words, Readable pubkeyB32 words →
        parsePairUri (pairShowUri h udpBind udpPort pubkeyB32 words) =
          .ok ⟨⟨advertised h udpBind udpPort, words⟩, pubkeyB32⟩ := by
  have huri : pairShowUri offline "2001:db8::1" 47001 "MFRGG" ["abandon", "ability"] =
      "fluxsync://pair/MFRGG?a=2001:db8::1:47001&f=abandon.ability" := by decide +kernel
  have hparsed : (parsePairUri "fluxsync://pair/MFRGG?a=2001:db8::1:47001&f=abandon.ability").toOption =
      some ⟨⟨[], ["abandon", "ability"]⟩, "MFRGG"⟩ := by decide +kernel
  have haddr : advertised offline "2001:db8::1" 47001 =
      [.v6 0x20010db8000000000000000000000001 47001 0 0] := by decide +kernel
  refine ⟨huri, hparsed, haddr, fun hall ↦ ?_⟩
  have hback := hall offline "2001:db8::1" 47001 "MFRGG" ["abandon", "ability"] (by decide)
  rw [huri] at hback
  rw [hback, haddr] at hparsed
  cases hparsed

end FluxSync.Daemon.PairUri
