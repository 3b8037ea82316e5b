import FluxSync.Daemon.Steps

namespace FluxSync.Daemon

open Std OrderedMap

variable {κ : Crypto} {d u : System} {a : Act} {i j : ℕ} {ch : Choice} {s : Shared} {pc : Pc} {n : Next}
variable {p : PeerId} {t : TrustedPeer} {e : StoredPeer}

/-- The section inserts `c` into the trusted set, on the word of a pair command
or of the pairing window. -/
def Pc.Admits (s : Shared) (pc : Pc) (c : Contact) : Prop :=
  (∃ known, pc = .handshake (.resolve c known) ∧ s.Tofu c) ∨ ∃ already, pc = .pair (.insert c already)

def Pc.admits (s : Shared) (p : PeerId) : Pc → Bool
  | .handshake (.resolve c _) => s.Tofu c ∧ c.peer = p
  | .pair (.insert c _) => c.peer = p
  | _ => false

theorem Pc.Admits.admits {c : Contact} (h : pc.Admits s c) : pc.admits s c.peer := by
  obtain ⟨known, rfl, hc⟩ | ⟨already, rfl⟩ := h
  · simpa [Pc.admits] using hc
  · simp [Pc.admits]

/-- The records a task is about to write to `peers.json`. -/
def Pc.stored : Pc → List StoredPeer
  | .peers (.upsert _ entry) => [entry]
  | .peers (.upsertWrite _ _ stored) | .peers (.saveWrite _ _ stored) => stored
  | _ => []

/-- The trusted records a failed caller puts back. -/
def Caller.restorable : Caller → List (PeerId × TrustedPeer)
  | .unpair snapshot => snapshot.toList
  | k => k.removedTrusted

def Pc.restorable : Pc → List (PeerId × TrustedPeer)
  | .peers (.lastAddr _ _ k) | .peers (.upsert k _) | .peers (.upsertWrite k _ _)
  | .peers (.save k) | .peers (.snapshot k _ _) | .peers (.saveWrite k _ _) => k.restorable
  | .teardown (.purge _ (.save k)) | .teardown (.retrust k) => k.restorable
  | .teardown (.unpairClear snapshot) | .teardown (.unpairRestore snapshot) => snapshot.toList
  | _ => []

/-- A rollback of the trusted set inserts `(p, t)`. -/
def Pc.Restores (pc : Pc) (p : PeerId) (t : TrustedPeer) : Prop :=
  (∃ k, pc = .teardown (.retrust k) ∧ (p, t) ∈ k.removedTrusted) ∨
    ∃ snapshot, pc = .teardown (.unpairRestore snapshot) ∧ snapshot[p]? = some t

theorem Pc.Restores.restorable (h : pc.Restores p t) : (p, t) ∈ pc.restorable := by
  obtain ⟨k, rfl, hk⟩ | ⟨snapshot, rfl, hs⟩ := h
  · cases k <;> simp_all [Pc.restorable, Caller.restorable, Caller.removedTrusted]
  · exact mem_entries.mpr hs

@[simp]
theorem Shared.settle_peersFile (s : Shared) (k : Caller) (ok : Bool) :
    (s.settle k ok).peersFile = s.peersFile := by
  cases k <;> cases ok <;> rfl

theorem Shared.trusted_of_settle {k : Caller} {ok : Bool} (h : (s.settle k ok).trusted[p]? = some t) :
    s.trusted[p]? = some t := by
  cases k with
  | tofu c known =>
    cases ok
    · simp only [Shared.settle, Shared.distrust, Bool.false_eq_true, if_false, lookup_erase,
        Option.ite_none_left_eq_some] at h
      exact h.2
    · exact h
  | _ => exact h

theorem Shared.trusted_of_distrust {q : PeerId} (h : (s.distrust q).trusted[p]? = some t) :
    s.trusted[p]? = some t := by
  simp only [Shared.distrust, lookup_erase, Option.ite_none_left_eq_some] at h
  exact h.2

theorem Shared.trusted_of_enroll {c : Contact} {peer : TrustedPeer}
    (h : (s.enroll c peer).trusted[p]? = some t) : s.trusted[p]? = some t ∨ c.peer = p ∧ t = peer := by
  simp only [Shared.enroll, lookup_insert] at h
  split at h
  · exact .inr ⟨‹_›, (Option.some.inj h).symm⟩
  · exact .inl h

/-- Where the records of the trusted set come from. -/
theorem advance_trusted (h : advance i ch s pc = some n) (ht : n.sh.trusted[p]? = some t) :
    s.trusted[p]? = some t ∨ (∃ c, pc.Admits s c ∧ c.peer = p ∧ t.staticPub = c.staticPub) ∨
      pc.Restores p t := by
  cases pc with
  | idle => simp [advance] at h
  | handshake pc =>
    cases handshakeStep h with
    | @tofu c known _ hc =>
      obtain ht | ⟨rfl, rfl⟩ := Shared.trusted_of_enroll ht
      · exact .inl ht
      · exact .inr (.inl ⟨c, .inl ⟨known, rfl, hc⟩, rfl, rfl⟩)
    | tofuPark hs =>
      obtain ⟨pending, -, rfl⟩ := Shared.park_eq hs
      exact .inl ht
    | gatedPark hs =>
      obtain ⟨pending, -, rfl⟩ := Shared.park_eq hs
      exact .inl ht
    | @install c role _ =>
      obtain ⟨ps, hps⟩ := s.link_eq c.peer
      exact .inl (by simpa [hps] using ht)
    | _ => exact .inl ht
  | peers pc =>
    cases peersStep h with
    | unreadable _ _ => exact .inl (Shared.trusted_of_settle ht)
    | upserted _ => exact .inl (Shared.trusted_of_settle (s := { s with peersFile := _, diskBy := none }) ht)
    | upsertFail _ _ => exact .inl (Shared.trusted_of_settle (s := { s with diskBy := none }) ht)
    | _ => exact .inl ht
  | pair pc =>
    cases pairStep h with
    | @insert c already _ =>
      obtain ht | ⟨rfl, rfl⟩ := Shared.trusted_of_enroll ht
      · exact .inl ht
      · exact .inr (.inl ⟨c, .inr ⟨already, rfl⟩, rfl, rfl⟩)
    | rollback _ => exact .inl (Shared.trusted_of_distrust ht)
    | _ => exact .inl ht
  | pending pc =>
    cases pendingStep h with
    | verifyPark hs =>
      obtain ⟨pending, -, rfl⟩ := Shared.park_eq hs
      exact .inl ht
    | _ => exact .inl ht
  | teardown pc =>
    cases teardownStep h with
    | rejectRemove _ | revokeRemove _ | remoteRevoke _ _ | remoteRevokeAgain _ _ | remoteReject _ _
    | remoteRejectAgain _ _ => exact .inl (Shared.trusted_of_distrust ht)
    | unpairClear _ => simp at ht
    | @unpairRestore snapshot _ => exact .inr (.inr (.inr ⟨snapshot, rfl, ht⟩))
    | reaperRemove _ =>
      simp only [Shared.distrustAll, lookup_erase_all, Option.ite_none_left_eq_some] at ht
      exact .inl ht.2
    | @retrust k _ =>
      obtain ht | hk := lookup_insert_all ht
      · exact .inl ht
      · exact .inr (.inr (.inl ⟨k, rfl, hk⟩))
    | _ => exact .inl ht
  | data pc => cases dataStep h <;> exact .inl ht

/-- A task that carries no record. -/
def Pc.recordless (pc : Pc) : Prop := pc.stored = [] ∧ pc.restorable = []

theorem afterHandshake_recordless (c : Contact) (role : Role) : (afterHandshake c role).recordless := by
  cases role with
  | initiator sasGate => cases sasGate <;> exact ⟨rfl, rfl⟩
  | rekey => exact ⟨rfl, rfl⟩
  | responder known => exact ⟨rfl, rfl⟩

theorem respond_recordless (c : Contact) (known : Bool) : (respond c known).recordless := by
  cases known <;> exact ⟨rfl, rfl⟩

theorem DataFrame.admitted_recordless (p : PeerId) (f : DataFrame) : (f.admitted p).recordless := by
  cases f with
  | item relay => cases relay <;> exact ⟨rfl, rfl⟩
  | resyncOffer pulls => exact ⟨rfl, rfl⟩
  | resyncPull served => exact ⟨rfl, rfl⟩

theorem AfterSend.pc_recordless (k : AfterSend) : k.pc.recordless := by
  cases k <;> exact ⟨rfl, rfl⟩

theorem Caller.resume_stored (k : Caller) (ok : Bool) : (k.resume ok).stored = [] := by
  cases k with
  | handshake c role => exact (afterHandshake_recordless c role).1
  | _ => cases ok <;> rfl

theorem Caller.resume_restorable {r : PeerId × TrustedPeer} {k : Caller} {ok : Bool}
    (h : r ∈ (k.resume ok).restorable) : r ∈ k.restorable := by
  cases k with
  | handshake c role =>
    rw [Caller.resume, (afterHandshake_recordless c role).2] at h
    simp at h
  | _ => cases ok <;> simp_all [Caller.resume, Pc.restorable, Caller.restorable]

theorem mem_upsertPeer {stored : List StoredPeer} {entry : StoredPeer}
    (h : e ∈ upsertPeer stored entry) : e ∈ stored ∨ e = entry := by
  simp only [upsertPeer, List.mem_append, List.mem_filter, List.mem_singleton] at h
  exact h.imp And.left id

theorem Shared.mem_record {order : List PeerId} {existing : List StoredPeer}
    (h : e ∈ s.record order existing) :
    ∃ t, s.trusted[e.peerId]? = some t ∧ e.staticPub = t.staticPub := by
  simp only [Shared.record, List.mem_filterMap, Option.map_eq_some_iff] at h
  obtain ⟨q, -, t, ht, rfl⟩ := h
  exact ⟨t, ht, rfl⟩

/-- Where the records a task writes to `peers.json` come from. -/
theorem advance_stored (h : advance i ch s pc = some n) (he : e ∈ n.pc.stored) :
    e ∈ pc.stored ∨ e ∈ s.peersFile ∨
      (∃ t, s.trusted[e.peerId]? = some t ∧ e.staticPub = t.staticPub) ∨
        ∃ c, pc.Admits s c ∧ e.peerId = c.peer ∧ e.staticPub = c.staticPub := by
  cases pc with
  | idle => simp [advance] at h
  | handshake pc =>
    cases handshakeStep h with
    | @tofu c known _ hc =>
      obtain rfl : e = _ := List.mem_singleton.mp he
      exact .inr (.inr (.inr ⟨c, .inl ⟨known, rfl, hc⟩, rfl, rfl⟩))
    | trusts _ _ _ => simp [respond_recordless _ _ |>.1] at he
    | tofuPark _ => simp [respond_recordless _ _ |>.1] at he
    | _ => simp [Pc.stored] at he
  | peers pc =>
    cases peersStep h with
    | @lastAddr p addr k t _ _ ht =>
      obtain rfl : e = _ := List.mem_singleton.mp he
      exact .inr (.inr (.inl ⟨t, ht, rfl⟩))
    | upsert _ _ =>
      obtain he | rfl := mem_upsertPeer he
      · exact .inr (.inl he)
      · exact .inl (List.mem_singleton_self _)
    | upsertRetry _ _ => exact .inl he
    | snapshot _ _ => exact .inr (.inr (.inl (Shared.mem_record he)))
    | save _ => simp [Pc.stored] at he
    | saveRetry _ _ => simp [Pc.stored] at he
    | _ => simp [Caller.resume_stored] at he
  | pair pc =>
    cases pairStep h with
    | @insert c already _ =>
      obtain rfl : e = _ := List.mem_singleton.mp he
      exact .inr (.inr (.inr ⟨c, .inr ⟨already, rfl⟩, rfl, rfl⟩))
    | _ => simp [Pc.stored] at he
  | pending pc => cases pendingStep h <;> simp [Pc.stored] at he
  | teardown pc =>
    cases teardownStep h with
    | @purged next => cases next <;> simp [AfterPurge.pc, Pc.stored] at he
    | _ => simp [Pc.stored] at he
  | data pc =>
    cases dataStep h with
    | @passed p f => simp [(f.admitted_recordless p).1] at he
    | @sent what k => simp [k.pc_recordless.1] at he
    | _ => simp [Pc.stored] at he

theorem Caller.mem_removed {removed : Option TrustedPeer} {r : PeerId × TrustedPeer}
    (h : r ∈ (removed.map fun t ↦ (p, t)).toList) : removed = some r.2 ∧ p = r.1 := by
  simp only [Option.mem_toList, Option.map_eq_some_iff] at h
  obtain ⟨t, ht, rfl⟩ := h
  exact ⟨ht, rfl⟩

theorem Shared.mem_recordsOf {ids : List PeerId} {r : PeerId × TrustedPeer}
    (h : r ∈ s.recordsOf ids) : s.trusted[r.1]? = some r.2 := by
  simp only [Shared.recordsOf, List.mem_filterMap, Option.map_eq_some_iff] at h
  obtain ⟨q, -, t, ht, rfl⟩ := h
  exact ht

/-- Where the records a rollback would put back come from. -/
theorem advance_restorable {r : PeerId × TrustedPeer} (h : advance i ch s pc = some n)
    (hr : r ∈ n.pc.restorable) : r ∈ pc.restorable ∨ s.trusted[r.1]? = some r.2 := by
  cases pc with
  | idle => simp [advance] at h
  | handshake pc =>
    cases handshakeStep h with
    | trusts _ _ _ => simp [respond_recordless _ _ |>.2] at hr
    | tofuPark _ => simp [respond_recordless _ _ |>.2] at hr
    | _ => simp [Pc.restorable, Caller.restorable, Caller.removedTrusted] at hr
  | peers pc =>
    cases peersStep h with
    | skip _ => exact .inl (Caller.resume_restorable hr)
    | unreadable _ _ => exact .inl (Caller.resume_restorable hr)
    | upserted _ => exact .inl (Caller.resume_restorable hr)
    | upsertFail _ _ => exact .inl (Caller.resume_restorable hr)
    | saved _ => exact .inl (Caller.resume_restorable hr)
    | saveFail _ _ => exact .inl (Caller.resume_restorable hr)
    | _ => exact .inl hr
  | pair pc => cases pairStep h <;> simp [Pc.restorable, Caller.restorable, Caller.removedTrusted] at hr
  | pending pc => cases pendingStep h <;> simp [Pc.restorable] at hr
  | teardown pc =>
    cases teardownStep h with
    | rejectRemove _ =>
      obtain ⟨ht, rfl⟩ := Caller.mem_removed hr
      exact .inr ht
    | revokeRemove _ =>
      obtain ⟨ht, rfl⟩ := Caller.mem_removed hr
      exact .inr ht
    | unpairClone _ => exact .inr (mem_entries.mp hr)
    | unpairClear _ => exact .inl hr
    | unpairLinks => simp [Pc.restorable] at hr
    | reaperRemove _ => exact .inr (Shared.mem_recordsOf hr)
    | @purged next => cases next <;> simp_all [AfterPurge.pc, Pc.restorable]
    | @purge p rest next => cases next <;> simp_all [Pc.restorable]
    | _ => simp [Pc.restorable, Caller.restorable, Caller.removedTrusted] at hr
  | data pc =>
    cases dataStep h with
    | @passed p f => simp [(f.admitted_recordless p).2] at hr
    | @sent what k => simp [k.pc_recordless.2] at hr
    | _ => simp [Pc.restorable] at hr

theorem Op.entry_recordless (op : Op) : op.entry.recordless := by
  cases op <;> exact ⟨rfl, rfl⟩

theorem spawned_recordless {pc' : Pc} (h : advance i ch s pc = some n) (hs : n.spawned = some pc') :
    pc'.recordless := by
  obtain ⟨c, already, -, rfl⟩ | ⟨-, rfl⟩ := advance_spawned h hs
  · exact ⟨rfl, rfl⟩
  · exact ⟨rfl, rfl⟩

theorem Act.ambient_trusted {s' : Shared} (h : a.ambient s = some s') :
    s'.trusted = s.trusted ∧ s'.peersFile = s.peersFile := by
  cases a <;> simp only [Act.ambient, Option.some.injEq, reduceCtorEq] at h <;> subst h <;>
    exact ⟨rfl, rfl⟩

theorem Shared.boot_trusted {readable : Bool} (h : (s.boot κ readable).trusted[p]? = some t) :
    (p, t) ∈ loadTrustedPeers κ (if readable then s.peersFile else []) := by
  obtain h | h := lookup_insert_all h
  · simp at h
  · exact h

/-- The section by which the step admits `c`. -/
def Act.Admits (d : System) (a : Act) (c : Contact) : Prop :=
  ∃ i ch, a = .lockSection i ch ∧ (d.tasks i).Admits d.sh c

namespace System.Move

theorem trusted (h : Move κ d a u) (ht : u.sh.trusted[p]? = some t) :
    d.sh.trusted[p]? = some t ∨ (∃ c, a.Admits d c ∧ c.peer = p ∧ t.staticPub = c.staticPub) ∨
      (∃ i ch, a = .lockSection i ch ∧ (d.tasks i).Restores p t) ∨
        ∃ readable, a = .crash readable ∧
          (p, t) ∈ loadTrustedPeers κ (if readable then d.sh.peersFile else []) := by
  have hu := h.became
  generalize u.sh = s' at hu ht
  cases hu with
  | stays => exact .inl ht
  | @moves i ch n ha hn =>
    obtain h | ⟨c, hc, hp, hk⟩ | h := advance_trusted hn ht
    · exact .inl h
    · exact .inr (.inl ⟨c, ⟨i, ch, ha, hc⟩, hp, hk⟩)
    · exact .inr (.inr (.inl ⟨i, ch, ha, h⟩))
  | ambient hs => exact .inl ((Act.ambient_trusted hs).1 ▸ ht)
  | crashes ha => exact .inr (.inr (.inr ⟨_, ha, Shared.boot_trusted ht⟩))

theorem stored (h : Move κ d a u) (he : e ∈ (u.tasks j).stored) :
    e ∈ (d.tasks j).stored ∨ e ∈ d.sh.peersFile ∨
      (∃ t, d.sh.trusted[e.peerId]? = some t ∧ e.staticPub = t.staticPub) ∨
        ∃ c, a.Admits d c ∧ e.peerId = c.peer ∧ e.staticPub = c.staticPub := by
  have hu := h.came j
  generalize u.tasks j = pc' at hu he
  cases hu with
  | stays => exact .inl he
  | @starts op => simp [op.entry_recordless.1] at he
  | @moves ch n ha hn =>
    obtain h | h | h | ⟨c, hc, hk⟩ := advance_stored hn he
    · exact .inl h
    · exact .inr (.inl h)
    · exact .inr (.inr (.inl h))
    · exact .inr (.inr (.inr ⟨c, ⟨j, ch, ha, hc⟩, hk⟩))
  | spawns _ hn hs => simp [(spawned_recordless hn hs).1] at he
  | crashes => simp [Pc.stored] at he

theorem restorable {r : PeerId × TrustedPeer} (h : Move κ d a u)
    (hr : r ∈ (u.tasks j).restorable) :
    r ∈ (d.tasks j).restorable ∨ d.sh.trusted[r.1]? = some r.2 := by
  have hu := h.came j
  generalize u.tasks j = pc' at hu hr
  cases hu with
  | stays => exact .inl hr
  | @starts op => simp [op.entry_recordless.2] at hr
  | moves _ hn => exact advance_restorable hn hr
  | spawns _ hn hs => simp [(spawned_recordless hn hs).2] at hr
  | crashes => simp [Pc.restorable] at hr

end System.Move

theorem advance_peersFile (h : advance i ch s pc = some n) :
    n.sh.peersFile = s.peersFile ∨ n.sh.peersFile = pc.stored := by
  cases pc with
  | idle => simp [advance] at h
  | handshake pc =>
    cases handshakeStep h with
    | tofuPark hs =>
      obtain ⟨pending, -, rfl⟩ := Shared.park_eq hs
      exact .inl rfl
    | gatedPark hs =>
      obtain ⟨pending, -, rfl⟩ := Shared.park_eq hs
      exact .inl rfl
    | @install c role _ =>
      obtain ⟨ps, hps⟩ := s.link_eq c.peer
      exact .inl (by simp [hps])
    | _ => exact .inl rfl
  | peers pc =>
    cases peersStep h with
    | upserted _ => exact .inr (by simp [Pc.stored])
    | saved _ => exact .inr rfl
    | unreadable _ _ => exact .inl (by simp)
    | upsertFail _ _ => exact .inl (by simp)
    | _ => exact .inl rfl
  | pair pc => cases pairStep h <;> exact .inl rfl
  | pending pc =>
    cases pendingStep h with
    | verifyPark hs =>
      obtain ⟨pending, -, rfl⟩ := Shared.park_eq hs
      exact .inl rfl
    | _ => exact .inl rfl
  | teardown pc => cases teardownStep h <;> exact .inl rfl
  | data pc => cases dataStep h <;> exact .inl rfl

theorem System.Move.peersFile (h : Move κ d a u) (he : e ∈ u.sh.peersFile) :
    e ∈ d.sh.peersFile ∨ ∃ i, e ∈ (d.tasks i).stored := by
  have hu := h.became
  generalize u.sh = s' at hu he
  cases hu with
  | stays => exact .inl he
  | @moves i ch n ha hn =>
    obtain h | h := advance_peersFile hn
    · exact .inl (h ▸ he)
    · exact .inr ⟨i, h ▸ he⟩
  | ambient hs => exact .inl ((Act.ambient_trusted hs).2 ▸ he)
  | crashes => exact .inl he

end FluxSync.Daemon
