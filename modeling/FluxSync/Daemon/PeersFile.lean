import FluxSync.Core.Parking
import FluxSync.Daemon.Keystore
import FluxSync.Daemon.PairUri
import FluxSync.Daemon.Shared
import FluxSync.Foundation.Ipv6Text
import FluxSync.Proto.Hex

/-! ## The records of `peers.json` that a boot finds again -/

namespace FluxSync.PeersFile

open Runs Daemon Keystore NetText Proto

/-- `Display` of a `SocketAddr`. -/
def addrText : SocketAddr → String
  | .v4 ip port => .ofList (displaySocketAddr (.v4 ip) port)
  | .v6 ip port _ scope => .ofList (displaySocketAddrV6 ip port scope)

/-- The text of an address has no flow label. -/
def unlabelled : SocketAddr → SocketAddr
  | .v4 ip port => .v4 ip port
  | .v6 ip port _ scope => .v6 ip port 0 scope

/-- A record as it is written to the file. -/
def text (p : Daemon.StoredPeer) : Keystore.StoredPeer where
  peerIdHex := hex32 p.peerId
  staticPubHex := hex32 p.staticPub
  name := p.name
  lastAddr := p.lastAddr.map addrText

/-- An entry of `load_trusted_peers`. -/
def readEntry (κ : Crypto) (p : Keystore.StoredPeer) :
    Option (PeerId × TrustedPeer × Option SocketAddr) := do
  let staticPub ← hex32Decode p.staticPubHex
  if κ.validPubkey staticPub then
    some (κ.peerIdFor staticPub, ⟨staticPub, p.name⟩,
      p.lastAddr.bind fun s ↦ PairUri.parseSocketAddr s.toList)
  else none

def loadTrustedPeers (κ : Crypto) (file : Option (List UInt8)) :
    List (PeerId × TrustedPeer × Option SocketAddr) :=
  match loadPeers file with
  | none => []
  | some stored => (stored.filterMap (readEntry κ)).take MAX_PERSISTED_PEERS

/-- What `save_current_peers` writes of a trusted peer. -/
def currentPeer (existing : List Keystore.StoredPeer) (x : PeerId × TrustedPeer) :
    Keystore.StoredPeer where
  peerIdHex := hex32 x.1
  staticPubHex := hex32 x.2.staticPub
  name := x.2.name
  lastAddr := (existing.reverse.find? (·.peerIdHex = hex32 x.1)).bind (·.lastAddr)

/-- A change of the file: the entry of `upsert_peer_persist`, or the trusted set of
`save_current_peers` and whether it can read the file. -/
inductive Op
  | upsert (entry : Daemon.StoredPeer)
  | current (trusted : List (PeerId × TrustedPeer)) (readable : Bool)

def Op.bytes (file : Option (List UInt8)) : Op → Option (List UInt8)
  | .upsert entry => (loadPeers file).map fun stored ↦ savePeers (Keystore.upsertPeer stored (text entry))
  | .current trusted readable =>
    let existing := ((if readable then loadPeers file else none).getD [])
    some (savePeers (trusted.map (currentPeer existing)))

/-- The same change of the list of records. -/
def Op.apply (recs : List Daemon.StoredPeer) : Op → List Daemon.StoredPeer
  | .upsert entry => Daemon.upsertPeer recs entry
  | .current trusted readable =>
    trusted.map fun x ↦ storedPeer (if readable then recs else []) x.1 x.2

/-- The stores, and what the retry loop of `upsert_peer_persist` holds: the bytes, and the
attempts that are over. -/
structure State where
  stores : Fsutil.System Store String
  held : Option (List UInt8 × ℕ)

inductive Act
  | persist (op : Op)
  | retry
  | disk (a : Fsutil.Act Store String)

/-- Only under the lock is `peers.json` written, and it is never removed. -/
def spares : Fsutil.Act Store String → Bool
  | .save f _ => f ≠ .peers
  | .remove f => f ≠ .peers
  | _ => true

/-- What is held when `a` has been done. -/
def State.hold (s : State) : Fsutil.Act Store String → Option (List UInt8 × ℕ)
  | .advance .peers =>
    match s.stores.calls .peers with
    | some ⟨_, .syncDir⟩ => none
    | _ => s.held
  | .fail .peers =>
    match s.stores.calls .peers with
    | some ⟨_, .syncDir⟩ => none
    | _ => (s.held.map fun h ↦ (h.1, h.2 + 1)).filter (·.2 < PEERS_PERSIST_ATTEMPTS)
  | .kill => none
  | .powerCut _ _ => none
  | _ => s.held

def step (s : State) : Act → Option State
  | .persist op =>
    match s.held with
    | some _ => none
    | none => do
      let bytes ← op.bytes (s.stores.read layout .peers)
      let stores ← Fsutil.step layout s.stores (.save .peers bytes)
      some ⟨stores, match op with | .upsert _ => some (bytes, 0) | .current _ _ => none⟩
  | .retry => do
    let (bytes, _) ← s.held
    let stores ← Fsutil.step layout s.stores (.save .peers bytes)
    some { s with stores }
  | .disk a =>
    if spares a then (Fsutil.step layout s.stores a).map fun stores ↦ ⟨stores, s.hold a⟩ else none

/-- The changes that were begun, in their order. -/
def issued (l : List Act) : List Op := l.filterMap fun | .persist op => some op | _ => none

variable {κ : Crypto} {recs : List Daemon.StoredPeer} {ops : List Op} {op : Op} {s t : State}
  {l : List Act} {a : Act} {v : Option (List UInt8)} {b : List UInt8} {p : Daemon.StoredPeer}

theorem parseSocketAddr_addrText (addr : SocketAddr) :
    PairUri.parseSocketAddr (addrText addr).toList = some (unlabelled addr) := by
  cases addr with
  | v4 ip port =>
    rw [addrText, String.toList_ofList, PairUri.parseSocketAddr, displaySocketAddr,
      IpAddr.display, read_socketAddr_v4]
    rfl
  | v6 ip port flow scope =>
    rw [addrText, String.toList_ofList, PairUri.parseSocketAddr, read_displaySocketAddrV6]
    rfl

theorem lowercase_digit {n : ℕ} (h : n < 16) :
    (Nat.digitChar n).isDigit ∨ 'a' ≤ Nat.digitChar n ∧ Nat.digitChar n ≤ 'f' := by
  have hall : ∀ n < 16, (Nat.digitChar n).isDigit ∨
      'a' ≤ Nat.digitChar n ∧ Nat.digitChar n ≤ 'f' := by decide
  exact hall n h

theorem lowercase_hex32 {b : BitVec 256} {c : Char} (h : c ∈ (hex32 b).toList) :
    c.isDigit ∨ 'a' ≤ c ∧ c ≤ 'f' := by
  rw [hex32, String.toList_ofList, List.mem_map] at h
  obtain ⟨i, -, rfl⟩ := h
  exact lowercase_digit (Nat.mod_lt _ (by decide))

theorem utf8ByteSize_hex32 (b : BitVec 256) : (hex32 b).utf8ByteSize = 64 := by
  have hsize : (hex32 b).toList.map Char.utf8Size = List.replicate 64 1 := by
    rw [List.map_congr_left fun c hc ↦ utf8Size_lowercase (lowercase_hex32 hc), List.map_const',
      hex32, String.toList_ofList, List.length_map, List.length_range]
  rw [← String.ofList_toList (s := hex32 b), File.utf8ByteSize_ofList, hsize]
  rfl

theorem isValidResyncHash_hex32 (b : BitVec 256) : isValidResyncHash (hex32 b) := by
  simp only [isValidResyncHash, Bool.and_eq_true, beq_iff_eq, List.all_eq_true, Bool.or_eq_true,
    decide_eq_true_eq]
  exact ⟨utf8ByteSize_hex32 b, fun c hc ↦ lowercase_hex32 hc⟩

/-- The 64 digits of a value are read again. -/
theorem hex32Decode_hex32 (b : BitVec 256) : hex32Decode (hex32 b) = some b := by
  obtain ⟨l, -, -, hfold⟩ := decode_digits fun c (hc : c ∈ (hex32 b).toList) ↦ lowercase_hex32 hc
  have hdecode : hex32Decode (hex32 b) = some (BitVec.ofNat 256 (hexValue l)) := by
    rw [hex32Decode, if_neg (not_not.mpr (utf8ByteSize_hex32 b)), hfold]
  rw [hdecode, hex32_injective (hex32_of_decode (isValidResyncHash_hex32 b) hdecode)]

/-- The file holds these records. -/
def Represents (recs : List Daemon.StoredPeer) (v : Option (List UInt8)) : Prop :=
  loadPeers v = some (recs.map text)

/-- What a boot makes of the records. -/
def restored (κ : Crypto) (recs : List Daemon.StoredPeer) :
    List (PeerId × TrustedPeer × Option SocketAddr) :=
  ((recs.filter fun p ↦ κ.validPubkey p.staticPub).map fun p ↦
    (κ.peerIdFor p.staticPub, ⟨p.staticPub, p.name⟩, p.lastAddr.map unlabelled)).take
      MAX_PERSISTED_PEERS

theorem restored_peers :
    (restored κ recs).map (fun x ↦ (x.1, x.2.1)) = Daemon.loadTrustedPeers κ recs := by
  rw [restored, Daemon.loadTrustedPeers, List.map_take, List.map_map]
  rfl

theorem readEntry_text (p : Daemon.StoredPeer) : readEntry κ (text p) =
    if κ.validPubkey p.staticPub then
      some (κ.peerIdFor p.staticPub, ⟨p.staticPub, p.name⟩, p.lastAddr.map unlabelled) else none := by
  have haddr : (p.lastAddr.map addrText).bind (fun s ↦ PairUri.parseSocketAddr s.toList) =
      p.lastAddr.map unlabelled := by
    cases p.lastAddr with
    | none => rfl
    | some addr => exact parseSocketAddr_addrText addr
  simp only [readEntry, text, hex32Decode_hex32, Option.bind_eq_bind, Option.bind_some, haddr]

theorem filterMap_readEntry : (recs.map text).filterMap (readEntry κ) =
    (recs.filter fun p ↦ κ.validPubkey p.staticPub).map fun p ↦
      (κ.peerIdFor p.staticPub, ⟨p.staticPub, p.name⟩, p.lastAddr.map unlabelled) := by
  induction recs with
  | nil => rfl
  | cons p recs ih =>
    rw [List.map_cons]
    by_cases hp : κ.validPubkey p.staticPub
    · rw [List.filterMap_cons_some ((readEntry_text p).trans (if_pos hp)), ih]
      simp only [List.filter_cons, hp, if_true, List.map_cons]
    · rw [List.filterMap_cons_none ((readEntry_text p).trans (if_neg hp)), ih]
      simp only [List.filter_cons, hp, if_false, Bool.false_eq_true]

theorem Represents.loaded (h : Represents recs v) : loadTrustedPeers κ v = restored κ recs := by
  rw [Represents] at h
  rw [loadTrustedPeers, h, restored, ← filterMap_readEntry]

theorem represents_save (recs : List Daemon.StoredPeer) :
    Represents recs (some (savePeers (recs.map text))) := loadPeers_savePeers _

theorem upsertPeer_text (recs : List Daemon.StoredPeer) (entry : Daemon.StoredPeer) :
    Keystore.upsertPeer (recs.map text) (text entry) = (Daemon.upsertPeer recs entry).map text := by
  have hfilter : (recs.map text).filter (·.peerIdHex ≠ (text entry).peerIdHex) =
      (recs.filter fun p ↦ p.peerId ≠ entry.peerId).map text := by
    rw [List.filter_map]
    apply congrArg
    apply List.filter_congr
    intro p _
    have hiff : hex32 p.peerId = hex32 entry.peerId ↔ p.peerId = entry.peerId :=
      ⟨hex32_injective, congrArg hex32⟩
    simp [text, hiff]
  rw [Keystore.upsertPeer, Daemon.upsertPeer, hfilter, List.map_append]
  rfl

theorem currentPeer_text (recs : List Daemon.StoredPeer) (x : PeerId × TrustedPeer) :
    currentPeer (recs.map text) x = text (storedPeer recs x.1 x.2) := by
  have hfind : ((recs.map text).reverse.find? (·.peerIdHex = hex32 x.1)) =
      (recs.reverse.find? fun p ↦ p.peerId = x.1).map text := by
    rw [← List.map_reverse, List.find?_map]
    apply congrArg
    apply congrArg (fun q ↦ List.find? q recs.reverse)
    funext p
    have hiff : hex32 p.peerId = hex32 x.1 ↔ p.peerId = x.1 := ⟨hex32_injective, congrArg hex32⟩
    simp [text, hiff]
  have haddr : ((recs.map text).reverse.find? (·.peerIdHex = hex32 x.1)).bind (·.lastAddr) =
      ((recs.reverse.find? fun p ↦ p.peerId = x.1).bind (·.lastAddr)).map addrText := by
    rw [hfind]
    cases recs.reverse.find? fun p ↦ p.peerId = x.1 with
    | none => rfl
    | some p => rfl
  simp only [currentPeer, haddr]
  rfl

/-- A change of the file is the change of its records. -/
theorem Op.represents (h : Represents recs v) (hb : op.bytes v = some b) :
    Represents (op.apply recs) (some b) := by
  rw [Represents] at h
  cases op with
  | upsert entry =>
    rw [Op.bytes, h, Option.map_some, upsertPeer_text] at hb
    obtain rfl := Option.some.inj hb
    exact represents_save _
  | current trusted readable =>
    have hexisting : (if readable then loadPeers v else none).getD [] =
        (if readable then recs else []).map text := by
      cases readable with
      | false => rfl
      | true => simp [h]
    rw [Op.bytes, hexisting] at hb
    obtain rfl := Option.some.inj hb
    have hmap : trusted.map (currentPeer ((if readable then recs else []).map text)) =
        (Op.apply recs (.current trusted readable)).map text := by
      rw [Op.apply, List.map_map]
      exact List.map_congr_left fun x _ ↦ currentPeer_text _ x
    rw [hmap]
    exact represents_save _

/-- Contents that some of the changes lead to, in their order. -/
def Reached (recs : List Daemon.StoredPeer) (ops : List Op) (v : Option (List UInt8)) : Prop :=
  ∃ done : List Op, done.Sublist ops ∧ Represents (done.foldl Op.apply recs) v

/-- Whatever is on its way into the file is such contents too. -/
structure Kept (recs : List Daemon.StoredPeer) (ops : List Op) (s : State) : Prop where
  safe : Fsutil.Safe layout .peers (Reached recs ops) s.stores
  held : ∀ b k, s.held = some (b, k) → Reached recs ops (some b)

theorem Reached.mono {ops' : List Op} (h : Reached recs ops v) (hops : ops.Sublist ops') :
    Reached recs ops' v := by
  obtain ⟨done, hdone, hv⟩ := h
  exact ⟨done, hdone.trans hops, hv⟩

theorem Reached.persist (h : Reached recs ops v) (hb : op.bytes v = some b) :
    Reached recs (ops ++ [op]) (some b) := by
  obtain ⟨done, hdone, hv⟩ := h
  refine ⟨done ++ [op], hdone.append (List.Sublist.refl _), ?_⟩
  rw [List.foldl_append]
  exact op.represents hv hb

theorem hold_held {a : Fsutil.Act Store String} {h : List UInt8 × ℕ} (hh : s.hold a = some h) :
    ∃ k, s.held = some (h.1, k) := by
  have hself : s.held = some h → ∃ k, s.held = some (h.1, k) := fun he ↦ ⟨h.2, he⟩
  cases a with
  | advance f =>
    cases f with
    | peers =>
      simp only [State.hold] at hh
      split at hh
      · cases hh
      · exact hself hh
    | _ => exact hself hh
  | fail f =>
    cases f with
    | peers =>
      simp only [State.hold] at hh
      split at hh
      · cases hh
      · obtain ⟨hh, -⟩ := Option.filter_eq_some_iff.mp hh
        obtain ⟨e, he, rfl⟩ := Option.map_eq_some_iff.mp hh
        exact ⟨e.2, he⟩
    | _ => exact hself hh
  | kill => cases hh
  | powerCut k junk => cases hh
  | _ => exact hself hh

theorem Kept.step (h : Kept recs ops s) (ht : PeersFile.step s a = some t) :
    Kept recs (ops ++ issued [a]) t := by
  cases a with
  | persist op =>
    rw [PeersFile.step] at ht
    split at ht
    · cases ht
    · rw [Option.bind_eq_bind, Option.bind_eq_some_iff] at ht
      obtain ⟨b, hb, ht⟩ := ht
      obtain ⟨u, hu, ht⟩ := Option.bind_eq_some_iff.mp ht
      obtain rfl := Option.some.inj ht
      have hreached : Reached recs (ops ++ [op]) (some b) := h.safe.read.persist hb
      refine ⟨?_, ?_⟩
      · refine (h.safe.mono fun v hv ↦ hv.mono (List.sublist_append_left _ _)).step ?_ ?_ hu
        · rintro c hc
          obtain ⟨-, rfl⟩ := Fsutil.Act.save.inj hc
          exact hreached
        · intro hc
          cases hc
      · intro c k he
        cases op with
        | upsert entry =>
          obtain ⟨rfl, -⟩ := Prod.mk.inj (Option.some.inj he)
          exact hreached
        | current trusted readable => cases he
  | retry =>
    rw [PeersFile.step, Option.bind_eq_bind, Option.bind_eq_some_iff] at ht
    obtain ⟨e, he, ht⟩ := ht
    obtain ⟨u, hu, ht⟩ := Option.bind_eq_some_iff.mp ht
    obtain rfl := Option.some.inj ht
    have hops : ops ++ issued [.retry] = ops := List.append_nil ops
    rw [hops]
    refine ⟨h.safe.step ?_ ?_ hu, h.held⟩
    · rintro c hc
      obtain ⟨-, rfl⟩ := Fsutil.Act.save.inj hc
      exact h.held e.1 e.2 he
    · intro hc
      cases hc
  | disk a =>
    rw [PeersFile.step] at ht
    obtain ⟨ha, ht⟩ := Option.ite_none_right_eq_some.mp ht
    obtain ⟨u, hu, rfl⟩ := Option.map_eq_some_iff.mp ht
    have hops : ops ++ issued [.disk a] = ops := List.append_nil ops
    rw [hops]
    refine ⟨h.safe.step ?_ ?_ hu, ?_⟩
    · rintro b rfl
      simp [spares] at ha
    · rintro rfl
      simp [spares] at ha
    · intro b k he
      obtain ⟨n, hn⟩ := hold_held he
      exact h.held b n hn

theorem Kept.run {done : List Op} (h : Kept recs done s) (hr : Run PeersFile.step Always s l t) :
    Kept recs (done ++ issued l) t := by
  induction hr with
  | nil =>
    rw [issued, List.filterMap_nil, List.append_nil]
    exact h
  | @snoc l t u a _ _ ht ih =>
    have happ : issued (l ++ [a]) = issued l ++ issued [a] := List.filterMap_append
    rw [happ, ← List.append_assoc]
    exact ih.step ht

theorem kept_of_represents {ok : Option (List UInt8) → Prop}
    (hsafe : Fsutil.Safe layout .peers ok s.stores) (hok : ∀ v, ok v → Represents recs v)
    (hheld : s.held = none) : Kept recs [] s where
  safe := hsafe.mono fun v hv ↦ ⟨[], .slnil, hok v hv⟩
  held b k h := by
    rw [hheld] at h
    cases h

/-- The end of a change: the flush of the directory. -/
theorem Kept.flushed (h : Kept recs ops s) (hc : s.stores.calls .peers = some ⟨b, .syncDir⟩)
    (ht : PeersFile.step s (.disk (.advance .peers)) = some t) :
    ∃ done : List Op, done.Sublist ops ∧ Represents (done.foldl Op.apply recs) (some b) ∧
      Kept (done.foldl Op.apply recs) [] t := by
  obtain ⟨done, hdone, hb⟩ := h.safe.saves _ hc
  rw [PeersFile.step] at ht
  obtain ⟨-, ht⟩ := Option.ite_none_right_eq_some.mp ht
  obtain ⟨u, hu, rfl⟩ := Option.map_eq_some_iff.mp ht
  refine ⟨done, hdone, hb, kept_of_represents (h.safe.flushed hc hu) ?_ ?_⟩
  · rintro v rfl
    exact hb
  · simp only [State.hold, hc]

/-- A boot finds the trusted peers as some of the changes, in their order, have made them:
the keys, the names and the addresses. From the flush of the directory on that ends a change,
the records then written are among those that are changed further. -/
theorem trusted_peers_restored (hs : Fsutil.Booted s.stores) (hheld : s.held = none)
    (h₀ : Represents recs (s.stores.read layout .peers)) (h : Run PeersFile.step Always s l t) :
    (∃ ops : List Op, ops.Sublist (issued l) ∧
      loadTrustedPeers κ (t.stores.read layout .peers) = restored κ (ops.foldl Op.apply recs)) ∧
    ∀ b l' u u', t.stores.calls .peers = some ⟨b, .syncDir⟩ →
      PeersFile.step t (.disk (.advance .peers)) = some u → Run PeersFile.step Always u l' u' →
      ∃ ops ops' : List Op, ops.Sublist (issued l) ∧ ops'.Sublist (issued l') ∧
        Represents (ops.foldl Op.apply recs) (some b) ∧
        loadTrustedPeers κ (u'.stores.read layout .peers) =
          restored κ (ops'.foldl Op.apply (ops.foldl Op.apply recs)) := by
  have hk : Kept recs [] s := by
    refine kept_of_represents (hs.safe (layout_alone (by decide))) ?_ hheld
    rintro v rfl
    exact h₀
  have ht : Kept recs (issued l) t := hk.run h
  refine ⟨?_, ?_⟩
  · obtain ⟨ops, hops, hv⟩ := ht.safe.read
    exact ⟨ops, hops, hv.loaded⟩
  · intro b l' u u' hc hu hr
    obtain ⟨ops, hops, hb, hdone⟩ := ht.flushed hc hu
    obtain ⟨ops', hops', hv⟩ := (hdone.run hr).safe.read
    exact ⟨ops, ops', hops, hops', hb, hv.loaded⟩

/-- A key function in whose eyes every key is a valid one. -/
def keyIsId : Crypto := ⟨id, fun _ ↦ true⟩

def pairThenCut : List Act :=
  [.persist (.upsert ⟨1, 1, "Phone", some (.v6 1 47823 5 0)⟩), .disk (.advance .peers), .disk (.fail .peers),
    .retry, .disk (.advance .peers), .disk (.powerCut 0 fun _ ↦ [])]

theorem trusted_peers_restored_cut : ∃ t, Run PeersFile.step Always ⟨.blank, none⟩ pairThenCut t ∧
    ∃ ops : List Op, ops.Sublist (issued pairThenCut) ∧
      loadTrustedPeers keyIsId (t.stores.read layout .peers) =
        restored keyIsId (ops.foldl Op.apply []) :=
  have h : (pairThenCut.foldlM PeersFile.step ⟨.blank, none⟩).isSome := by decide +kernel
  have h₀ : Represents [] ((State.mk .blank none).stores.read layout .peers) := rfl
  ⟨_, run_of_isSome h, (trusted_peers_restored Fsutil.booted_blank rfl h₀ (run_of_isSome h)).1⟩

end FluxSync.PeersFile
