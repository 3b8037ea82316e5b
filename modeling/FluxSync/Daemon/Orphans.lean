import FluxSync.Daemon.Restart

namespace FluxSync.Daemon

open Std Runs OrderedMap

variable {κ : Crypto} {d u : System} {a : Act} {i j : ℕ} {ch : Choice} {s s' : Shared} {pc : Pc} {n : Next}
variable {p : PeerId} {c : Contact}

/-- `p` is trusted and not pending, though it was parked and never accepted, or
not accepted since it was admitted. -/
structure Orphaned (s : Shared) (p : PeerId) : Prop where
  trusted : s.trusted[p]?.isSome
  notPending : s.pendingPairs[p]? = none
  doubtful : s.parked p ∨ s.confirmed p = false

/-- The caller goes on to park `p` or to take it out of the trusted set. -/
def Caller.settles (p : PeerId) : Caller → Bool
  | .tofu c _ => c.peer = p
  | .pair c already => !already && c.peer = p
  | .handshake c role => role = .initiator true && c.peer = p
  | _ => false

/-- An operation is at a place from which it parks `p`, puts its entry back or
takes it out of the trusted set. -/
def Pc.settles (p : PeerId) : Pc → Bool
  | .peers (.lastAddr _ _ k) | .peers (.upsert k _) | .peers (.upsertWrite k _ _) => k.settles p
  | .handshake (.tofuPark c _) | .handshake (.gatedPark c) => c.peer = p
  | .handshake (.recheck c role) | .handshake (.install c role) =>
    role = .initiator true && c.peer = p
  | .pair (.rollback q) => q = p
  | .pair (.dial c already) => !already && c.peer = p
  | .teardown (.rejectRemove q _) | .teardown (.remoteRejectRemove q) => q = p
  | .teardown (.reaperRemove expired) => expired.any fun e ↦ e.1 = p
  | .teardown (.repend k) => k.removedPending.any fun e ↦ e.1 = p
  | _ => false

/-- Parking another peer drops the entry of `p`: it has expired, or the map is
full and `p` is the victim. -/
def Shared.Drops (s : Shared) (victim p : PeerId) : Prop :=
  ∃ e, s.pendingPairs[p]? = some e ∧
    (e.expiresAt ≤ s.now ∨ MAX_PENDING_PAIRS ≤ (sweep s.pendingPairs s.now).size ∧ victim = p)

/-- The sections that leave `p` trusted with nothing left to confirm or undo it. -/
def Pc.Orphans (s : Shared) (ch : Choice) (p : PeerId) : Pc → Prop
  | .handshake (.tofuPark c _) | .handshake (.gatedPark c) | .pending (.verifyPark c) =>
    c.peer ≠ p ∧ s.trusted[p]?.isSome ∧ s.Drops ch.victim p
  | .pending .pairPending =>
    s.trusted[p]?.isSome ∧ ∃ e, s.pendingPairs[p]? = some e ∧ e.expiresAt ≤ s.now
  | .teardown (.remoteRevokePending q) => q = p ∧ s.trusted[p]?.isSome ∧ s.pendingPairs[p]?.isSome
  | .teardown (.retrust k) =>
    (k.removedTrusted.any fun r ↦ r.1 = p) ∧ (k.removedPending.any fun e ↦ e.1 = p) = false ∧
      s.pendingPairs[p]? = none ∧ (s.parked p ∨ s.confirmed p = false)
  | .teardown (.unpairRestore snapshot) =>
    snapshot[p]?.isSome ∧ s.pendingPairs[p]? = none ∧ (s.parked p ∨ s.confirmed p = false)
  | .pair (.insert c true) => c.peer = p ∧ s.trusted[p]? = none ∧ s.pendingPairs[p]? = none
  | .pair (.dial c false) => c.peer = p ∧ ch.spawn = none ∧ Orphaned s p
  | .handshake (.install c (.initiator true)) => c.peer = p ∧ p ∈ s.linked ∧ Orphaned s p
  | _ => False

theorem sweep_eq_none {pending : ExtTreeMap PeerId PendingPair} {now : ℕ} :
    (sweep pending now)[p]? = none ↔ ∀ e : PendingPair, pending[p]? = some e → e.expiresAt ≤ now := by
  rw [Option.eq_none_iff_forall_ne_some]
  constructor
  · intro h e he
    by_contra hlt
    exact h e (lookup_filter.mpr ⟨he, by simpa using hlt⟩)
  · intro h e he
    obtain ⟨he, hlt⟩ := lookup_filter.mp he
    have := h e he
    simp at hlt
    omega

theorem parkPending_eq_none {pending pending' : ExtTreeMap PeerId PendingPair} {now : ℕ}
    {victim : PeerId} (h : parkPending pending now c victim = some pending') :
    pending'[p]? = none ↔ c.peer ≠ p ∧ ((sweep pending now)[p]? = none ∨
      MAX_PENDING_PAIRS ≤ (sweep pending now).size ∧ victim = p) := by
  unfold parkPending at h
  dsimp only at h
  split at h
  · rename_i hsize
    obtain rfl := Option.some.inj h
    rw [lookup_insert]
    split
    · simp_all
    · simp [*]
  · rename_i hsize
    split at h
    · obtain rfl := Option.some.inj h
      rw [lookup_insert, lookup_erase]
      split
      · simp_all
      · split
        · simp_all
        · simp [*]
    · simp at h

theorem Shared.park_pending_none {victim : PeerId} (h : s.park c victim = some s') :
    s'.pendingPairs[p]? = none ↔ c.peer ≠ p ∧ (s.pendingPairs[p]? = none ∨ s.Drops victim p) := by
  obtain ⟨pending, hp, rfl⟩ := Shared.park_eq h
  rw [parkPending_eq_none hp, sweep_eq_none]
  refine and_congr_right fun _ ↦ ?_
  cases hl : s.pendingPairs[p]? with
  | none => simp
  | some e => simp [Shared.Drops, hl]

/-- What a section says about an orphaned peer after it. -/
def OrphanedAfter (s : Shared) (ch : Choice) (p : PeerId) (pc : Pc) (n : Next) : Prop :=
  Orphaned n.sh p → (Orphaned s p ∧ pc.settles p = false) ∨ n.Leaves ch (Pc.settles p) ∨ pc.Orphans s ch p

theorem Orphaned.of_eq (h : Orphaned s' p) (ht : s'.trusted[p]? = s.trusted[p]?)
    (hp : s'.pendingPairs[p]? = s.pendingPairs[p]?) (hk : s'.parked p = s.parked p)
    (hc : s'.confirmed p = s.confirmed p) : Orphaned s p :=
  ⟨ht ▸ h.trusted, hp ▸ h.notPending, hk ▸ hc ▸ h.doubtful⟩

/-- A section that touches nothing `p` is orphaned by, and keeps settling `p`. -/
theorem OrphanedAfter.of_eq (ht : n.sh.trusted[p]? = s.trusted[p]?)
    (hp : n.sh.pendingPairs[p]? = s.pendingPairs[p]?) (hk : n.sh.parked p = s.parked p)
    (hc : n.sh.confirmed p = s.confirmed p) (hs : pc.settles p → n.Leaves ch (Pc.settles p)) :
    OrphanedAfter s ch p pc n := by
  intro ho
  by_cases hset : pc.settles p
  · exact .inr (.inl (hs hset))
  · exact .inl ⟨ho.of_eq ht hp hk hc, by simpa using hset⟩

theorem Shared.distrust_trusted_of_ne {q : PeerId} (h : q ≠ p) :
    (s.distrust q).trusted[p]? = s.trusted[p]? := by
  simp [Shared.distrust, lookup_erase, h]

theorem Shared.unpend_of_ne {q : PeerId} (h : q ≠ p) :
    (s.unpend q).pendingPairs[p]? = s.pendingPairs[p]? := by
  simp [Shared.unpend, lookup_erase, h]

theorem OrphanedAfter.of_park {victim : PeerId} (h : s.park c victim = some s')
    (hn : n.sh = s') (hset : pc.settles p → c.peer = p)
    (hdrop : c.peer ≠ p → s.trusted[p]?.isSome → s.Drops victim p → pc.Orphans s ch p) :
    OrphanedAfter s ch p pc n := by
  intro ho
  rw [hn] at ho
  obtain ⟨hne, hp | hd⟩ := (Shared.park_pending_none h).mp ho.notPending
  · obtain ⟨pending, -, rfl⟩ := Shared.park_eq h
    refine .inl ⟨⟨ho.trusted, hp, ?_⟩, by simpa using fun hs ↦ hne (hset hs)⟩
    simpa [Function.update_of_ne hne.symm] using ho.doubtful
  · obtain ⟨pending, -, rfl⟩ := Shared.park_eq h
    exact .inr (.inr (hdrop hne ho.trusted hd))

theorem OrphanedAfter.of_distrust {q : PeerId} (hn : n.sh = s.distrust q)
    (hset : pc.settles p → q = p) : OrphanedAfter s ch p pc n := by
  intro ho
  rw [hn] at ho
  by_cases hq : q = p
  · have := ho.trusted
    simp [Shared.distrust, hq] at this
  · exact .inl ⟨ho.of_eq (Shared.distrust_trusted_of_ne hq) rfl rfl rfl,
      by simpa using fun h ↦ hq (hset h)⟩

/-- Dropping the entry of `q` leaves an operation that settles it. -/
theorem OrphanedAfter.of_unpend {q : PeerId} (hn : n.sh = s.unpend q) (hset : pc.settles p = false)
    (hq : q = p → n.Leaves ch (Pc.settles p)) : OrphanedAfter s ch p pc n := by
  intro ho
  by_cases hqp : q = p
  · exact .inr (.inl (hq hqp))
  · rw [hn] at ho
    exact .inl ⟨ho.of_eq rfl (Shared.unpend_of_ne hqp) rfl rfl, hset⟩

theorem mem_expired {e : PendingPair} (h : s.pendingPairs[p]? = some e) (he : e.expiresAt ≤ s.now) :
    (p, e) ∈ s.expired :=
  List.mem_filter.mpr ⟨mem_entries.mpr h, by simpa using he⟩

/-- Every pending peer counts as parked. -/
def Shared.PendingParked (s : Shared) : Prop :=
  ∀ p : PeerId, s.pendingPairs[p]?.isSome → s.parked p

theorem Shared.PendingParked.of_le (hs : s.PendingParked)
    (hp : ∀ p : PeerId, s'.pendingPairs[p]?.isSome → s.pendingPairs[p]?.isSome) (hk : s'.parked = s.parked) :
    s'.PendingParked :=
  fun p h ↦ hk ▸ hs p (hp p h)

theorem Shared.PendingParked.park {victim : PeerId} (hs : s.PendingParked)
    (h : s.park c victim = some s') : s'.PendingParked := by
  intro p hp
  have hnone := not_congr (Shared.park_pending_none (p := p) h)
  obtain ⟨pending, -, rfl⟩ := Shared.park_eq h
  by_cases hc : c.peer = p
  · simp [hc]
  · have := hnone.mp (by simpa [Option.isSome_iff_ne_none] using hp)
    simp only [Function.update_of_ne (Ne.symm hc)]
    refine hs p ?_
    rw [Option.isSome_iff_ne_none]
    exact fun hn ↦ this ⟨hc, .inl hn⟩

theorem Shared.PendingParked.unpend (hs : s.PendingParked) (q : PeerId) : (s.unpend q).PendingParked := by
  refine hs.of_le (fun p hp ↦ ?_) rfl
  simp only [Shared.unpend, lookup_erase] at hp
  split at hp
  · simp at hp
  · exact hp

theorem Shared.PendingParked.sweep (hs : s.PendingParked) :
    { s with pendingPairs := sweep s.pendingPairs s.now }.PendingParked := by
  refine hs.of_le (fun p hp ↦ ?_) rfl
  obtain ⟨e, he⟩ := Option.isSome_iff_exists.mp hp
  simp [(lookup_filter.mp he).1]

theorem Shared.PendingParked.enroll (hs : s.PendingParked) (peer : TrustedPeer) :
    (s.enroll c peer).PendingParked := by
  intro p hp
  have hk := hs p hp
  simp only [Shared.enroll]
  split
  · rename_i hfresh
    have hne : p ≠ c.peer := by
      rintro rfl
      have h : s.pendingPairs.contains c.peer := by
        rwa [ExtTreeMap.contains_eq_isSome_getElem?]
      simp [h] at hfresh
    rwa [Function.update_of_ne hne]
  · exact hk

theorem Shared.pending_of_repend {k : Caller} (h : (s.repend k).pendingPairs[p]?.isSome) :
    s.pendingPairs[p]?.isSome ∨ ∃ e ∈ k.removedPending, e.1 = p := by
  cases k with
  | reap expired removed =>
    refine of_isSome_foldl (fun m e h ↦ ?_) h
    split at h
    · exact .inl h
    · exact of_isSome_insert h
  | _ =>
    obtain ⟨v, hv⟩ := Option.isSome_iff_exists.mp h
    exact (lookup_insert_all hv).imp (fun h ↦ by rw [h]; rfl) fun h ↦ ⟨_, h, rfl⟩

theorem Shared.PendingParked.repend (hs : s.PendingParked) (k : Caller) : (s.repend k).PendingParked := by
  intro p hp
  simp only [Shared.repend, Bool.or_eq_true]
  refine (Shared.pending_of_repend hp).imp (hs p) fun ⟨e, he, hep⟩ ↦ ?_
  exact List.any_eq_true.mpr ⟨e, he, by simp [hep]⟩

theorem advance_pendingParked (h : advance i ch s pc = some n) (hs : s.PendingParked) :
    n.sh.PendingParked := by
  cases pc with
  | idle => simp [advance] at h
  | handshake pc =>
    cases handshakeStep h with
    | @tofu c _ _ _ => exact hs.enroll (tofuTrustedPeer c.staticPub)
    | tofuPark hp => exact hs.park hp
    | gatedPark hp => exact hs.park hp
    | @install c role _ =>
      obtain ⟨ps, hps⟩ := s.link_eq c.peer
      exact hs.of_le (fun p hp ↦ by simpa [hps] using hp) (by simp [hps])
    | _ => exact hs
  | peers pc =>
    cases peersStep h with
    | @unreadable k _ _ _ => cases k <;> exact hs
    | @upserted k _ _ _ => cases k <;> exact hs
    | @upsertFail k _ _ _ _ => cases k <;> exact hs
    | _ => exact hs
  | pair pc =>
    cases pairStep h with
    | insert _ => exact hs.enroll _
    | _ => exact hs
  | pending pc =>
    cases pendingStep h with
    | pairPending => exact hs.sweep
    | @accept q _ =>
      intro p hp
      obtain rfl | hq := eq_or_ne p q
      · simp [Shared.unpend] at hp
      · simpa [Function.update_of_ne hq, Shared.unpend] using hs.unpend q p hp
    | @remoteAccept q e hq =>
      refine hs.of_le (fun p hp ↦ ?_) rfl
      obtain hp | rfl := of_isSome_insert hp
      · exact hp
      · simp [hq]
    | verifyPark hp => exact hs.park hp
    | _ => exact hs
  | teardown pc =>
    cases teardownStep h with
    | rejectTake _ | remoteRevokePending | remoteRejectPending => exact hs.unpend _
    | reaperIdle _ | reaperSweep _ => exact hs.sweep
    | repend => exact hs.repend _
    | _ => exact hs
  | data pc => cases dataStep h <;> exact hs

/-- What the orphans are counted under: pending peers are parked, ids are coherent. -/
structure System.Counted (κ : Crypto) (d : System) : Prop where
  coherent : d.Coherent κ
  parked : d.sh.PendingParked

namespace System

theorem Counted.step (hd : d.Counted κ) (h : System.step κ d a = some u) : u.Counted κ := by
  refine ⟨hd.coherent.step h, ?_⟩
  have hu := (move_of_step h).became
  generalize u.sh = s at hu
  cases hu with
  | stays => exact hd.parked
  | moves _ hn => exact advance_pendingParked hn hd.parked
  | ambient hs =>
    cases a <;> simp only [Act.ambient, Option.some.injEq, reduceCtorEq] at hs <;> subst hs <;>
      exact hd.parked
  | crashes => exact fun p hp ↦ by simp [Shared.boot] at hp

end System

end FluxSync.Daemon
