import FluxSync.Daemon.Sections

namespace FluxSync.Daemon

open Std Function

variable {κ : Crypto} {d u : System} {a : Act} {i : ℕ} {ch : Choice} {s : Shared} {n : Next}

/-- The section ends the task or leads it to `pc`, and spawns nothing. -/
abbrev Shared.to (s : Shared) (pc : Pc) : Next := ⟨s, pc, none⟩

/-- `run_responder` inserts the peer it does not know under the open pairing window. -/
structure Shared.Tofu (s : Shared) (c : Contact) : Prop where
  unknown : s.trusted[c.peer]? = none
  window : s.pairingWindow.any fun deadline ↦ s.now < deadline
  room : s.trusted.size < MAX_TOFU_TRUSTED_PEERS

instance (s : Shared) (c : Contact) : Decidable (s.Tofu c) :=
  decidable_of_iff (s.trusted[c.peer]? = none ∧
      (s.pairingWindow.any fun deadline ↦ s.now < deadline) ∧ s.trusted.size < MAX_TOFU_TRUSTED_PEERS)
    ⟨fun ⟨h₁, h₂, h₃⟩ ↦ ⟨h₁, h₂, h₃⟩, fun ⟨h₁, h₂, h₃⟩ ↦ ⟨h₁, h₂, h₃⟩⟩

theorem Shared.link_eq (s : Shared) (p : PeerId) : ∃ ps, s.link p = { s with linked := ps } := by
  unfold Shared.link
  split
  · exact ⟨s.linked, rfl⟩
  · exact ⟨_, rfl⟩

theorem Shared.park_eq {c : Contact} {victim : PeerId} {s' : Shared} (h : s.park c victim = some s') :
    ∃ pending, parkPending s.pendingPairs s.now c victim = some pending ∧
      s' = { s with pendingPairs := pending, parked := update s.parked c.peer true } := by
  obtain ⟨pending, hp, hs⟩ := Option.map_eq_some_iff.mp h
  exact ⟨pending, hp, hs.symm⟩

inductive HandshakeStep (i : ℕ) (ch : Choice) (s : Shared) : HandshakePc → Next → Prop
  | refuse {c : Contact} {known : Bool} : s.trustedBy = none → ¬ s.Tofu c →
      HandshakeStep i ch s (.resolve c known) (s.to .idle)
  | trusts {c : Contact} {known : Bool} {t : TrustedPeer} :
      s.trustedBy = none → s.trusted[c.peer]? = some t → t.staticPub = c.staticPub →
      HandshakeStep i ch s (.resolve c known) (s.to (respond c known))
  | tofu {c : Contact} {known : Bool} : s.trustedBy = none → s.Tofu c →
      HandshakeStep i ch s (.resolve c known)
        ({ s.enroll c (tofuTrustedPeer c.staticPub) with trustedBy := some i }.to
          (.peers (.upsert (.tofu c known)
            ⟨c.peer, c.staticPub, TOFU_PLACEHOLDER_NAME, some c.addr⟩)))
  | tofuPark {c : Contact} {known : Bool} {s' : Shared} :
      s.park { c with name := TOFU_PLACEHOLDER_NAME } ch.victim = some s' →
      HandshakeStep i ch s (.tofuPark c known) (s'.to (respond c known))
  | recheck {c : Contact} {role : Role} : s.trustedBy = none → s.trusted.contains c.peer →
      HandshakeStep i ch s (.recheck c role) (s.to (.handshake (.install c role)))
  | untrusted {c : Contact} {role : Role} : s.trustedBy = none → s.trusted[c.peer]? = none →
      HandshakeStep i ch s (.recheck c role) (s.to .idle)
  | install {c : Contact} {role : Role} : (∀ gate, role = .initiator gate → c.peer ∉ s.linked) →
      HandshakeStep i ch s (.install c role)
        ((s.link c.peer).to (.peers (.lastAddr c.peer c.addr (.handshake c role))))
  | lost {c : Contact} {role : Role} : (∀ gate, role = .initiator gate → c.peer ∈ s.linked) →
      HandshakeStep i ch s (.install c role) (s.to .idle)
  | gatedPark {c : Contact} {s' : Shared} : s.park c ch.victim = some s' →
      HandshakeStep i ch s (.gatedPark c) (s'.to .idle)

theorem handshakeStep {pc : HandshakePc} (h : advanceHandshake i ch s pc = some n) :
    HandshakeStep i ch s pc n := by
  cases pc with
  | resolve c known =>
    simp only [advanceHandshake, Pc.toNext] at h
    split at h
    · simp at h
    · split at h
      · split at h <;> obtain rfl := Option.some.inj h
        · exact .refuse (by simp_all) fun hc ↦ by simp [hc.unknown] at *
        · exact .trusts (by simp_all) ‹_› (by simp_all)
      · split at h
        · exact Option.some.inj h ▸ .refuse (by simp_all) fun hc ↦ by simp_all [hc.window]
        · split at h
          · exact Option.some.inj h ▸ .refuse (by simp_all) fun hc ↦ by have := hc.room; omega
          · exact Option.some.inj h ▸ .tofu (by simp_all) ⟨‹_›, by simp_all, by omega⟩
  | tofuPark c known =>
    obtain ⟨s', hs, hn⟩ := Option.bind_eq_some_iff.mp h
    exact Option.some.inj hn ▸ .tofuPark hs
  | recheck c role =>
    simp only [advanceHandshake, Pc.toNext] at h
    split at h
    · simp at h
    · obtain rfl := Option.some.inj h
      split
      · exact .recheck (by simp_all) ‹_›
      · exact .untrusted (by simp_all) (by simp_all)
  | install c role =>
    simp only [advanceHandshake, Pc.toNext] at h
    obtain ⟨hl, h⟩ | ⟨hl, h⟩ := ite_eq_iff.mp h <;> obtain rfl := Option.some.inj h
    · refine .install ?_
      rintro gate rfl
      simpa using hl
    · refine .lost ?_
      rintro gate rfl
      simpa using hl
  | gatedPark c =>
    obtain ⟨s', hs, hn⟩ := Option.bind_eq_some_iff.mp h
    exact Option.some.inj hn ▸ .gatedPark hs

/-- The names under which a save reads the trusted set, in the order of a `HashMap`. -/
def Shared.record (s : Shared) (order : List PeerId) (existing : List StoredPeer) : List StoredPeer :=
  order.filterMap fun p ↦ s.trusted[p]?.map (storedPeer existing p)

inductive PeersStep (i : ℕ) (ch : Choice) (s : Shared) : PeersPc → Next → Prop
  | skip {p : PeerId} {addr : SocketAddr} {k : Caller} :
      (isRedialableAddr addr → s.trustedBy = none ∧ s.trusted[p]? = none) →
      PeersStep i ch s (.lastAddr p addr k) (s.to (k.resume true))
  | lastAddr {p : PeerId} {addr : SocketAddr} {k : Caller} {t : TrustedPeer} :
      isRedialableAddr addr → s.trustedBy = none → s.trusted[p]? = some t →
      PeersStep i ch s (.lastAddr p addr k)
        (s.to (.peers (.upsert k ⟨p, t.staticPub, t.name, some addr⟩)))
  | upsert {k : Caller} {entry : StoredPeer} : s.diskBy = none → ch.readable →
      PeersStep i ch s (.upsert k entry)
        ({ s with diskBy := some i }.to (.peers (.upsertWrite k 0 (upsertPeer s.peersFile entry))))
  | unreadable {k : Caller} {entry : StoredPeer} : s.diskBy = none → ch.readable = false →
      PeersStep i ch s (.upsert k entry) ((s.settle k false).to (k.resume false))
  | upserted {k : Caller} {attempt : ℕ} {stored : List StoredPeer} : ch.ok →
      PeersStep i ch s (.upsertWrite k attempt stored)
        (({ s with peersFile := stored, diskBy := none }.settle k true).to (k.resume true))
  | upsertRetry {k : Caller} {attempt : ℕ} {stored : List StoredPeer} : ch.ok = false →
      attempt + 1 < PEERS_PERSIST_ATTEMPTS →
      PeersStep i ch s (.upsertWrite k attempt stored)
        (s.to (.peers (.upsertWrite k (attempt + 1) stored)))
  | upsertFail {k : Caller} {attempt : ℕ} {stored : List StoredPeer} : ch.ok = false →
      PEERS_PERSIST_ATTEMPTS ≤ attempt + 1 →
      PeersStep i ch s (.upsertWrite k attempt stored)
        (({ s with diskBy := none }.settle k false).to (k.resume false))
  | save {k : Caller} : s.diskBy = none →
      PeersStep i ch s (.save k)
        ({ s with diskBy := some i }.to
          (.peers (.snapshot k 0 (if ch.readable then s.peersFile else []))))
  | snapshot {k : Caller} {attempt : ℕ} {existing : List StoredPeer} :
      s.trustedBy = none → ch.order.Perm s.trusted.keys →
      PeersStep i ch s (.snapshot k attempt existing)
        (s.to (.peers (.saveWrite k attempt (s.record ch.order existing))))
  | saved {k : Caller} {attempt : ℕ} {stored : List StoredPeer} : ch.ok →
      PeersStep i ch s (.saveWrite k attempt stored)
        ({ s with peersFile := stored, diskBy := none }.to (k.resume true))
  | saveRetry {k : Caller} {attempt : ℕ} {stored : List StoredPeer} : ch.ok = false →
      attempt + 1 < PEERS_PERSIST_ATTEMPTS →
      PeersStep i ch s (.saveWrite k attempt stored)
        (s.to (.peers (.snapshot k (attempt + 1) (if ch.readable then s.peersFile else []))))
  | saveFail {k : Caller} {attempt : ℕ} {stored : List StoredPeer} : ch.ok = false →
      PEERS_PERSIST_ATTEMPTS ≤ attempt + 1 →
      PeersStep i ch s (.saveWrite k attempt stored)
        ({ s with diskBy := none }.to (k.resume false))

theorem peersStep {pc : PeersPc} (h : advancePeers i ch s pc = some n) : PeersStep i ch s pc n := by
  cases pc with
  | lastAddr p addr k =>
    simp only [advancePeers, Pc.toNext] at h
    split at h
    · exact Option.some.inj h ▸ .skip (by simp_all)
    · split at h
      · simp at h
      · split at h
        · exact Option.some.inj h ▸ .lastAddr (by simp_all) (by simp_all) ‹_›
        · exact Option.some.inj h ▸ .skip (by simp_all)
  | upsert k entry =>
    simp only [advancePeers, Pc.toNext] at h
    split at h
    · simp at h
    · split at h
      · exact Option.some.inj h ▸ .upsert (by simp_all) ‹_›
      · exact Option.some.inj h ▸ .unreadable (by simp_all) (by simp_all)
  | upsertWrite k attempt stored =>
    simp only [advancePeers, Pc.toNext] at h
    split at h
    · exact Option.some.inj h ▸ .upserted ‹_›
    · split at h
      · exact Option.some.inj h ▸ .upsertRetry (by simp_all) ‹_›
      · exact Option.some.inj h ▸ .upsertFail (by simp_all) (by omega)
  | save k =>
    simp only [advancePeers, Pc.toNext] at h
    split at h
    · simp at h
    · exact Option.some.inj h ▸ .save (by simp_all)
  | snapshot k attempt existing =>
    simp only [advancePeers, Pc.toNext] at h
    split at h
    · simp at h
    · exact Option.some.inj h ▸ .snapshot (by simp_all) (by simp_all)
  | saveWrite k attempt stored =>
    simp only [advancePeers, Pc.toNext] at h
    split at h
    · exact Option.some.inj h ▸ .saved ‹_›
    · split at h
      · exact Option.some.inj h ▸ .saveRetry (by simp_all) ‹_›
      · exact Option.some.inj h ▸ .saveFail (by simp_all) (by omega)

inductive PairStep (s : Shared) : PairPc → Next → Prop
  | full {c : Contact} : PairStep s (.cap c) (s.to .idle)
  | cap {c : Contact} : s.trustedBy = none → PairStep s (.cap c) (s.to (.pair (.confirmed c)))
  | confirmed {c : Contact} : s.trustedBy = none →
      PairStep s (.confirmed c)
        (s.to (.pair (.insert c (s.trusted.contains c.peer && !s.pendingPairs.contains c.peer))))
  | insert {c : Contact} {already : Bool} : s.trustedBy = none →
      PairStep s (.insert c already)
        ((s.enroll c ⟨c.staticPub, c.name⟩).to
          (.peers (.upsert (.pair c already) ⟨c.peer, c.staticPub, c.name, none⟩)))
  | rollback {p : PeerId} : s.trustedBy = none → PairStep s (.rollback p) ((s.distrust p).to .idle)
  | dial {c : Contact} {already : Bool} :
      PairStep s (.dial c already)
        ⟨s, .idle, some (.handshake (.recheck c (.initiator !already)))⟩

theorem pairStep {pc : PairPc} (h : advancePair s pc = some n) : PairStep s pc n := by
  cases pc with
  | cap c =>
    simp only [advancePair, Pc.toNext] at h
    split at h
    · simp at h
    · split at h
      · exact Option.some.inj h ▸ .full
      · exact Option.some.inj h ▸ .cap (by simp_all)
  | confirmed c =>
    simp only [advancePair, Pc.toNext] at h
    split at h
    · simp at h
    · exact Option.some.inj h ▸ .confirmed (by simp_all)
  | insert c already =>
    simp only [advancePair, Pc.toNext] at h
    split at h
    · simp at h
    · exact Option.some.inj h ▸ .insert (by simp_all)
  | rollback p =>
    simp only [advancePair, Pc.toNext] at h
    split at h
    · simp at h
    · exact Option.some.inj h ▸ .rollback (by simp_all)
  | dial c already => exact Option.some.inj h ▸ .dial

inductive PendingStep (ch : Choice) (s : Shared) : PendingPc → Next → Prop
  | pairShow :
      PendingStep ch s .pairShow ({ s with pairingWindow := some (s.now + PAIRING_WINDOW) }.to .idle)
  | pairPending :
      PendingStep ch s .pairPending ({ s with pendingPairs := sweep s.pendingPairs s.now }.to .idle)
  | accept {p : PeerId} : s.pendingPairs.contains p →
      PendingStep ch s (.accept p)
        ({ s.unpend p with
          parked := update s.parked p false, confirmed := update s.confirmed p true }.to .idle)
  | noAccept {p : PeerId} : PendingStep ch s (.accept p) (s.to .idle)
  | remoteAccept {p : PeerId} {e : PendingPair} : s.pendingPairs[p]? = some e →
      PendingStep ch s (.remoteAccept p)
        ({ s with
          pendingPairs :=
            s.pendingPairs.insert p { e with expiresAt := s.now + PAIRING_WINDOW } }.to .idle)
  | noRemoteAccept {p : PeerId} : PendingStep ch s (.remoteAccept p) (s.to .idle)
  | verifyTrusted {c : Contact} {t : TrustedPeer} :
      s.trustedBy = none → s.trusted[c.peer]? = some t →
      PendingStep ch s (.verifyTrusted c)
        (s.to (.pending (.verifyPending { c with staticPub := t.staticPub, name := t.name })))
  | verifyUntrusted {c : Contact} : PendingStep ch s (.verifyTrusted c) (s.to .idle)
  | verifyPending {c : Contact} : c.peer ∈ s.linked → s.pendingPairs[c.peer]? = none →
      PendingStep ch s (.verifyPending c) (s.to (.pending (.verifyPark c)))
  | verifyIgnored {c : Contact} : PendingStep ch s (.verifyPending c) (s.to .idle)
  | verifyPark {c : Contact} {s' : Shared} : s.park c ch.victim = some s' →
      PendingStep ch s (.verifyPark c) (s'.to .idle)

theorem pendingStep {pc : PendingPc} (h : advancePending ch s pc = some n) :
    PendingStep ch s pc n := by
  cases pc with
  | pairShow => exact Option.some.inj h ▸ .pairShow
  | pairPending => exact Option.some.inj h ▸ .pairPending
  | accept p =>
    simp only [advancePending, Pc.toNext] at h
    split at h
    · exact Option.some.inj h ▸ .accept ‹_›
    · exact Option.some.inj h ▸ .noAccept
  | remoteAccept p =>
    obtain rfl := Option.some.inj h
    split
    · exact .remoteAccept ‹_›
    · exact .noRemoteAccept
  | verifyTrusted c =>
    simp only [advancePending, Pc.toNext] at h
    split at h
    · simp at h
    · split at h
      · exact Option.some.inj h ▸ .verifyTrusted (by simp_all) ‹_›
      · exact Option.some.inj h ▸ .verifyUntrusted
  | verifyPending c =>
    obtain rfl := Option.some.inj h
    split
    · exact .verifyIgnored
    · exact .verifyPending (by simp_all) (by simp_all)
  | verifyPark c =>
    obtain ⟨s', hs, hn⟩ := Option.bind_eq_some_iff.mp h
    exact Option.some.inj hn ▸ .verifyPark hs

def Shared.expired (s : Shared) : List (PeerId × PendingPair) :=
  s.pendingPairs.toList.filter fun e ↦ e.2.expiresAt ≤ s.now

/-- The trusted records of the peers in `ids`. -/
def Shared.recordsOf (s : Shared) (ids : List PeerId) : List (PeerId × TrustedPeer) :=
  ids.filterMap fun p ↦ s.trusted[p]?.map fun t ↦ (p, t)

inductive TeardownStep (s : Shared) : TeardownPc → Next → Prop
  | rejectTake {p : PeerId} {pend : PendingPair} : s.pendingPairs[p]? = some pend →
      TeardownStep s (.rejectTake p) ((s.unpend p).to (.teardown (.rejectRemove p pend)))
  | noReject {p : PeerId} : TeardownStep s (.rejectTake p) (s.to .idle)
  | rejectRemove {p : PeerId} {pend : PendingPair} : s.trustedBy = none →
      TeardownStep s (.rejectRemove p pend)
        ((s.distrust p).to (.peers (.save (.reject p s.trusted[p]? pend))))
  | revokeRemove {p : PeerId} : s.trustedBy = none →
      TeardownStep s (.revokeRemove p)
        ((s.distrust p).to (.peers (.save (.revoke p s.trusted[p]?))))
  | unpairClone : s.trustedBy = none →
      TeardownStep s .unpairClone (s.to (.teardown (.unpairClear s.trusted)))
  | unpairClear {snapshot : ExtTreeMap PeerId TrustedPeer} : s.trustedBy = none →
      TeardownStep s (.unpairClear snapshot)
        ({ s with trusted := ∅ }.to (.peers (.save (.unpair snapshot))))
  | unpairRestore {snapshot : ExtTreeMap PeerId TrustedPeer} : s.trustedBy = none →
      TeardownStep s (.unpairRestore snapshot) ({ s with trusted := snapshot }.to .idle)
  | unpairLinks : TeardownStep s .unpairLinks (s.to (.teardown (.purge s.linked (.forget s.linked))))
  | reaperIdle : s.expired = [] →
      TeardownStep s .reaperSweep ({ s with pendingPairs := sweep s.pendingPairs s.now }.to .idle)
  | reaperSweep : s.expired ≠ [] →
      TeardownStep s .reaperSweep
        ({ s with pendingPairs := sweep s.pendingPairs s.now }.to
          (.teardown (.reaperRemove s.expired)))
  | reaperRemove {expired : List (PeerId × PendingPair)} : s.trustedBy = none →
      TeardownStep s (.reaperRemove expired)
        ((s.distrustAll (expired.map Prod.fst)).to
          (.teardown (.purge (expired.map Prod.fst)
            (.save (.reap expired (s.recordsOf (expired.map Prod.fst)))))))
  | retrust {k : Caller} : s.trustedBy = none →
      TeardownStep s (.retrust k) ((s.retrust k.removedTrusted).to (.teardown (.repend k)))
  | repend {k : Caller} : TeardownStep s (.repend k) ((s.repend k).to .idle)
  | purged {next : AfterPurge} : TeardownStep s (.purge [] next) (s.to next.pc)
  | purge {p : PeerId} {rest : List PeerId} {next : AfterPurge} :
      TeardownStep s (.purge (p :: rest) next) ((s.unlink p).to (.teardown (.purge rest next)))
  | forgotten : TeardownStep s (.forget []) (s.to .idle)
  | forget {p : PeerId} {rest : List PeerId} :
      TeardownStep s (.forget (p :: rest))
        ({ s with inflight := purgeInflight s.inflight p }.to (.teardown (.forget rest)))
  | remoteRevoke {p : PeerId} {t : TrustedPeer} : s.trustedBy = none → s.trusted[p]? = some t →
      TeardownStep s (.remoteRevokeRemove p) ((s.distrust p).to (.peers (.save (.remoteRevoke p))))
  | remoteRevokeAgain {p : PeerId} : s.trustedBy = none → s.trusted[p]? = none →
      TeardownStep s (.remoteRevokeRemove p)
        ((s.distrust p).to (.teardown (.remoteRevokePending p)))
  | remoteRevokePending {p : PeerId} :
      TeardownStep s (.remoteRevokePending p) ((s.unpend p).to (.teardown (.purge [p] .done)))
  | remoteRejectPending {p : PeerId} :
      TeardownStep s (.remoteRejectPending p) ((s.unpend p).to (.teardown (.remoteRejectRemove p)))
  | remoteReject {p : PeerId} {t : TrustedPeer} : s.trustedBy = none → s.trusted[p]? = some t →
      TeardownStep s (.remoteRejectRemove p) ((s.distrust p).to (.peers (.save (.remoteReject p))))
  | remoteRejectAgain {p : PeerId} : s.trustedBy = none → s.trusted[p]? = none →
      TeardownStep s (.remoteRejectRemove p) ((s.distrust p).to (.teardown (.purge [p] .done)))

theorem teardownStep {pc : TeardownPc} (h : advanceTeardown s pc = some n) : TeardownStep s pc n := by
  cases pc with
  | rejectTake p =>
    simp only [advanceTeardown, Pc.toNext] at h
    split at h
    · exact Option.some.inj h ▸ .rejectTake ‹_›
    · exact Option.some.inj h ▸ .noReject
  | rejectRemove p pend =>
    simp only [advanceTeardown, Pc.toNext, Option.ite_none_left_eq_some, not_not] at h
    exact Option.some.inj h.2 ▸ .rejectRemove h.1
  | revokeRemove p =>
    simp only [advanceTeardown, Pc.toNext, Option.ite_none_left_eq_some, not_not] at h
    exact Option.some.inj h.2 ▸ .revokeRemove h.1
  | unpairClone =>
    simp only [advanceTeardown, Pc.toNext, Option.ite_none_left_eq_some, not_not] at h
    exact Option.some.inj h.2 ▸ .unpairClone h.1
  | unpairClear snapshot =>
    simp only [advanceTeardown, Pc.toNext, Option.ite_none_left_eq_some, not_not] at h
    exact Option.some.inj h.2 ▸ .unpairClear h.1
  | unpairRestore snapshot =>
    simp only [advanceTeardown, Pc.toNext, Option.ite_none_left_eq_some, not_not] at h
    exact Option.some.inj h.2 ▸ .unpairRestore h.1
  | unpairLinks => exact Option.some.inj h ▸ .unpairLinks
  | reaperSweep =>
    obtain rfl := Option.some.inj h
    split
    · exact .reaperIdle (List.isEmpty_iff.mp ‹_›)
    · exact .reaperSweep (fun he ↦ ‹¬ _› (List.isEmpty_iff.mpr he))
  | reaperRemove expired =>
    simp only [advanceTeardown, Pc.toNext, Option.ite_none_left_eq_some, not_not] at h
    exact Option.some.inj h.2 ▸ .reaperRemove h.1
  | retrust k =>
    simp only [advanceTeardown, Pc.toNext, Option.ite_none_left_eq_some, not_not] at h
    exact Option.some.inj h.2 ▸ .retrust h.1
  | repend k => exact Option.some.inj h ▸ .repend
  | purge peers next =>
    cases peers with
    | nil => exact Option.some.inj h ▸ .purged
    | cons p rest => exact Option.some.inj h ▸ .purge
  | forget peers =>
    cases peers with
    | nil => exact Option.some.inj h ▸ .forgotten
    | cons p rest => exact Option.some.inj h ▸ .forget
  | remoteRevokeRemove p =>
    simp only [advanceTeardown, Pc.toNext, Option.ite_none_left_eq_some, not_not] at h
    obtain ⟨hl, h⟩ := h
    obtain rfl := Option.some.inj h
    cases ht : s.trusted[p]? with
    | some t => simpa [ExtTreeMap.contains_eq_isSome_getElem?, ht] using .remoteRevoke hl ht
    | none => simpa [ExtTreeMap.contains_eq_isSome_getElem?, ht] using .remoteRevokeAgain hl ht
  | remoteRevokePending p => exact Option.some.inj h ▸ .remoteRevokePending
  | remoteRejectPending p => exact Option.some.inj h ▸ .remoteRejectPending
  | remoteRejectRemove p =>
    simp only [advanceTeardown, Pc.toNext, Option.ite_none_left_eq_some, not_not] at h
    obtain ⟨hl, h⟩ := h
    obtain rfl := Option.some.inj h
    cases ht : s.trusted[p]? with
    | some t => simpa [ExtTreeMap.contains_eq_isSome_getElem?, ht] using .remoteReject hl ht
    | none => simpa [ExtTreeMap.contains_eq_isSome_getElem?, ht] using .remoteRejectAgain hl ht

inductive DataStep (s : Shared) : DataPc → Next → Prop
  | gatePending {p : PeerId} {d : DataFrame} :
      DataStep s (.gatePending p d) (s.to (.data (.gateTrusted p d (s.pendingPairs.contains p))))
  | blocked {p : PeerId} {d : DataFrame} {stillPending : Bool} :
      DataStep s (.gateTrusted p d stillPending) (s.to .idle)
  | passed {p : PeerId} {d : DataFrame} : s.trustedBy = none → s.trusted.contains p →
      DataStep s (.gateTrusted p d false) (s.to (d.admitted p))
  | ignored {p : PeerId} {d : DataFrame} : DataStep s (.resync p d) (s.to .idle)
  | resyncOffer {p : PeerId} : p ∈ s.linked →
      DataStep s (.resync p (.resyncOffer true)) (s.to (.data (.send [(p, 1)] .resyncPull .done)))
  | resyncPull {p : PeerId} {served : List (ContentHash × ℕ)} : p ∈ s.linked →
      DataStep s (.resync p (.resyncPull served)) (s.to (.data (.serve p served)))
  | served {p : PeerId} : DataStep s (.serve p []) (s.to .idle)
  | serve {p : PeerId} {hash : ContentHash} {frames : ℕ} {rest : List (ContentHash × ℕ)} :
      DataStep s (.serve p ((hash, frames) :: rest))
        (s.to (.data (.send [(p, frames)] .item (.served hash frames p rest))))
  | noOffer {p : PeerId} : DataStep s (.hello p) (s.to .idle)
  | hello {p : PeerId} : s.pendingPairs[p]? = none →
      DataStep s (.hello p) (s.to (.data (.send [(p, 1)] .resyncOffer .done)))
  | fanList {it : Item} : DataStep s (.fanList it) (s.to (.data (.fanFilter it s.linked)))
  | noTargets {it : Item} {listed : List PeerId} : DataStep s (.fanFilter it listed) (s.to .idle)
  | fanFilter {it : Item} {listed : List PeerId} : it.frames ≠ 0 →
      DataStep s (.fanFilter it listed)
        (s.to (.data (.send ((it.targets s listed).map fun p ↦ (p, it.frames)) .item
          (.track it.hash it.frames (it.targets s listed)))))
  | sent {what : Payload} {k : AfterSend} : DataStep s (.send [] what k) (s.to k.pc)
  | sentOne {p : PeerId} {rest : List (PeerId × ℕ)} {what : Payload} {k : AfterSend} :
      DataStep s (.send ((p, 0) :: rest) what k) (s.to (.data (.send rest what k)))
  | send {p : PeerId} {m : ℕ} {rest : List (PeerId × ℕ)} {what : Payload} {k : AfterSend} :
      DataStep s (.send ((p, m + 1) :: rest) what k) (s.to (.data (.send ((p, m) :: rest) what k)))
  | track {hash : ContentHash} {frames : ℕ} {peers : List PeerId} :
      DataStep s (.track hash frames peers none)
        ({ s with inflight := trackInflight s.inflight s.now hash frames peers }.to .idle)
  | trackServed {hash : ContentHash} {frames : ℕ} {peers : List PeerId} {p : PeerId}
      {rest : List (ContentHash × ℕ)} :
      DataStep s (.track hash frames peers (some (p, rest)))
        ({ s with inflight := trackInflight s.inflight s.now hash frames peers }.to
          (.data (.serve p rest)))
  | noNak {p : PeerId} {hash : ContentHash} {frames : ℕ} :
      DataStep s (.nak p hash frames) (s.to .idle)
  | nak {p : PeerId} {hash : ContentHash} {frames : ℕ} {inf : Inflight} :
      s.inflight[hash]? = some inf → p ∈ inf.pendingPeers →
      DataStep s (.nak p hash frames) (s.to (.data (.send [(p, frames)] .item (.touch hash))))
  | nakTouch {hash : ContentHash} {inf : Inflight} : s.inflight[hash]? = some inf →
      DataStep s (.nakTouch hash)
        ({ s with inflight := s.inflight.insert hash { inf with lastSent := s.now } }.to .idle)
  | nakGone {hash : ContentHash} : DataStep s (.nakTouch hash) (s.to .idle)
  | retransmitted : DataStep s .retransmit
      ({ s with inflight := retransmitTick s.inflight s.now }.to .idle)
  | retransmit : DataStep s .retransmit
      ⟨{ s with inflight := retransmitTick s.inflight s.now }, .idle,
        some (.data (.send (retransmitJobs s.inflight s.now) .item .done))⟩

theorem dataStep {pc : DataPc} (h : advanceData s pc = some n) : DataStep s pc n := by
  cases pc with
  | gatePending p d => exact Option.some.inj h ▸ .gatePending
  | gateTrusted p d stillPending =>
    simp only [advanceData, Pc.toNext, Option.ite_none_left_eq_some, not_not] at h
    obtain ⟨hl, h⟩ := h
    obtain rfl := Option.some.inj h
    split
    · exact .blocked
    · cases stillPending with
      | true => simp_all
      | false => exact .passed hl (by simp_all)
  | resync p d =>
    obtain rfl := Option.some.inj h
    split
    · exact .ignored
    · split
      · exact .resyncOffer (by simp_all)
      · exact .resyncPull (by simp_all)
      · exact .ignored
  | serve p items =>
    cases items with
    | nil => exact Option.some.inj h ▸ .served
    | cons item rest => exact Option.some.inj h ▸ .serve
  | hello p =>
    obtain rfl := Option.some.inj h
    split
    · exact .noOffer
    · exact .hello (by simp_all)
  | fanList it => exact Option.some.inj h ▸ .fanList
  | fanFilter it listed =>
    obtain rfl := Option.some.inj h
    split
    · exact .noTargets
    · exact .fanFilter (by simp_all)
  | send jobs what k =>
    cases jobs with
    | nil => exact Option.some.inj h ▸ .sent
    | cons job rest =>
      obtain ⟨p, m⟩ := job
      cases m with
      | zero => exact Option.some.inj h ▸ .sentOne
      | succ m => exact Option.some.inj h ▸ .send
  | track hash frames peers next =>
    cases next with
    | none => exact Option.some.inj h ▸ .track
    | some next => exact Option.some.inj h ▸ .trackServed
  | nak p hash frames =>
    obtain rfl := Option.some.inj h
    split
    · rename_i hb
      rw [Bool.and_eq_true, Option.any_eq_true] at hb
      obtain ⟨⟨inf, hinf, hp⟩, _⟩ := hb
      exact .nak hinf (by simpa using hp)
    · exact .noNak
  | nakTouch hash =>
    obtain rfl := Option.some.inj h
    split
    · exact .nakTouch ‹_›
    · exact .nakGone
  | retransmit =>
    obtain rfl := Option.some.inj h
    split
    · exact .retransmitted
    · exact .retransmit

/-- A section spawns a dial or a batch of resends. -/
theorem advance_spawned {pc pc' : Pc} (h : advance i ch s pc = some n) (hs : n.spawned = some pc') :
    (∃ c already, pc = .pair (.dial c already) ∧
        pc' = .handshake (.recheck c (.initiator !already))) ∨
      pc = .data .retransmit ∧ pc' = .data (.send (retransmitJobs s.inflight s.now) .item .done) := by
  cases pc with
  | idle => simp [advance] at h
  | handshake pc => cases handshakeStep h <;> simp at hs
  | peers pc => cases peersStep h <;> simp at hs
  | pair pc =>
    cases pairStep h with
    | @dial c already => exact .inl ⟨c, already, rfl, (Option.some.inj hs).symm⟩
    | _ => simp at hs
  | pending pc => cases pendingStep h <;> simp at hs
  | teardown pc => cases teardownStep h <;> simp at hs
  | data pc =>
    cases dataStep h with
    | retransmit => exact .inr ⟨rfl, (Option.some.inj hs).symm⟩
    | _ => simp at hs

end FluxSync.Daemon
