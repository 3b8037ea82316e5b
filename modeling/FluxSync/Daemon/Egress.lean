import FluxSync.Daemon.Orphans

namespace FluxSync.Daemon

open Std Runs OrderedMap

variable {κ : Crypto} {d u : System} {a : Act} {i j : ℕ} {ch : Choice} {s s' : Shared} {pc : Pc} {n : Next}
variable {p : PeerId} {w : Payload → Bool} {c : Contact}

/-- The frame a task's next section hands to the peer's session. -/
def Pc.sends : Pc → Option (PeerId × Payload)
  | .data (.send ((p, _ + 1) :: _) what _) => some (p, what)
  | _ => none

/-- What an accepted resync frame is answered with. -/
def DataFrame.answers (w : Payload → Bool) : DataFrame → Bool
  | .resyncOffer true => w .resyncPull
  | .resyncPull served => w .item && served.any fun e ↦ 0 < e.2
  | _ => false

def AfterSend.owes (p : PeerId) : AfterSend → Bool
  | .served _ _ q rest => q = p && rest.any fun e ↦ 0 < e.2
  | _ => false

/-- A task has picked `p` and has still to send it frames of the kinds `w`. -/
def Pc.owes (w : Payload → Bool) (p : PeerId) : Pc → Bool
  | .data (.resync q f) => q = p && f.answers w
  | .data (.serve q items) => w .item && q = p && items.any fun e ↦ 0 < e.2
  | .data (.send jobs what k) => (w what && jobs.any fun x ↦ x.1 = p && 0 < x.2) || w .item && k.owes p
  | .data (.track _ _ _ next) => w .item && next.any fun x ↦ x.1 = p && x.2.any fun e ↦ 0 < e.2
  | _ => false

/-- The section picks `p` as a peer to send frames of the kinds `w` to: a
fan-out, an answered Hello, an accepted resync frame, a NAK or a retransmit. -/
def Pc.picks (w : Payload → Bool) (s : Shared) (p : PeerId) : Pc → Bool
  | .data (.fanFilter it listed) => w .item && 0 < it.frames && p ∈ it.targets s listed
  | .data (.hello q) => w .resyncOffer && q = p && !s.pendingPairs.contains q
  | .data (.gateTrusted q f false) => q = p && s.trusted.contains q && f.answers w
  | .data (.nak q hash frames) =>
    w .item && q = p && 0 < frames && s.inflight[hash]?.any fun inf ↦ q ∈ inf.pendingPeers
  | .data .retransmit => w .item && (retransmitJobs s.inflight s.now).any fun x ↦ x.1 = p && 0 < x.2
  | _ => false

@[simp]
theorem Shared.leaves_to {f : Pc → Bool} : (s.to pc).Leaves ch f ↔ f pc := by
  simp [Next.Leaves]

theorem DataFrame.admitted_owes {q : PeerId} {f : DataFrame} :
    (f.admitted q).owes w p ↔ q = p ∧ f.answers w := by
  cases f with
  | item relay => cases relay <;> simp [DataFrame.admitted, Pc.owes, DataFrame.answers]
  | _ => simp [DataFrame.admitted, Pc.owes]

theorem send_owes {jobs : List (PeerId × ℕ)} {what : Payload} {k : AfterSend} :
    (Pc.data (.send jobs what k)).owes w p ↔
      (w what ∧ ∃ m, (p, m + 1) ∈ jobs) ∨ w .item ∧ k.owes p := by
  have hjobs : (jobs.any fun x ↦ x.1 = p && 0 < x.2) ↔ ∃ m, (p, m + 1) ∈ jobs := by
    rw [List.any_eq_true]
    constructor
    · rintro ⟨⟨q, m⟩, hmem, hq⟩
      simp only [Bool.and_eq_true, decide_eq_true_eq] at hq
      obtain ⟨rfl, hm⟩ := hq
      exact ⟨m - 1, by rwa [Nat.sub_add_cancel hm]⟩
    · rintro ⟨m, hm⟩
      exact ⟨_, hm, by simp⟩
  simp only [Pc.owes, Bool.or_eq_true, Bool.and_eq_true, hjobs]

/-- Where the peers a section leaves to be sent to come from. -/
theorem data_owes {pc : DataPc} (h : DataStep s pc n) (ho : n.Leaves ch (Pc.owes w p)) :
    (Pc.data pc).owes w p ∨ (Pc.data pc).picks w s p := by
  cases h with
  | @passed q f _ ht =>
    obtain ⟨rfl, hf⟩ := DataFrame.admitted_owes.mp (Shared.leaves_to.mp ho)
    exact .inr (by simp [Pc.picks, ht, hf])
  | @resyncOffer q _ =>
    obtain ⟨hw, m, hm⟩ | ⟨-, hk⟩ := send_owes.mp (Shared.leaves_to.mp ho)
    · obtain ⟨rfl, -⟩ := Prod.mk.inj (List.mem_singleton.mp hm)
      exact .inl (by simp [Pc.owes, DataFrame.answers, hw])
    · simp [AfterSend.owes] at hk
  | @resyncPull q served _ =>
    have ho := Shared.leaves_to.mp ho
    simp only [Pc.owes, Bool.and_eq_true] at ho
    exact .inl (by simp only [Pc.owes, DataFrame.answers, ho, Bool.and_self])
  | @serve q hash frames rest =>
    have hpay : w .item := by
      obtain ⟨hw, -⟩ | ⟨hw, -⟩ := send_owes.mp (Shared.leaves_to.mp ho) <;> exact hw
    refine .inl ?_
    obtain ⟨-, m, hm⟩ | ⟨-, hk⟩ := send_owes.mp (Shared.leaves_to.mp ho)
    · obtain ⟨rfl, rfl⟩ := Prod.mk.inj (List.mem_singleton.mp hm)
      simp [Pc.owes, hpay]
    · simp only [AfterSend.owes, Bool.and_eq_true] at hk
      simp only [Pc.owes, List.any_cons, hpay, hk, Bool.or_true, Bool.and_self]
  | @hello q hp =>
    obtain ⟨hw, m, hm⟩ | ⟨-, hk⟩ := send_owes.mp (Shared.leaves_to.mp ho)
    · obtain ⟨rfl, -⟩ := Prod.mk.inj (List.mem_singleton.mp hm)
      exact .inr (by simp [Pc.picks, hw, ExtTreeMap.contains_eq_isSome_getElem?, hp])
    · simp [AfterSend.owes] at hk
  | @fanFilter it listed hf =>
    obtain ⟨hw, m, hm⟩ | ⟨-, hk⟩ := send_owes.mp (Shared.leaves_to.mp ho)
    · obtain ⟨q, hq, heq⟩ := List.mem_map.mp hm
      obtain ⟨rfl, -⟩ := Prod.mk.inj heq
      exact .inr (by simp [Pc.picks, hw, hq, Nat.pos_of_ne_zero hf])
    · simp [AfterSend.owes] at hk
  | @sent what k =>
    refine .inl (send_owes.mpr (.inr ?_))
    have ho := Shared.leaves_to.mp ho
    cases k with
    | served hash frames q rest =>
      simpa [AfterSend.pc, Pc.owes, AfterSend.owes] using ho
    | _ => simp [AfterSend.pc, Pc.owes] at ho
  | sentOne =>
    refine .inl (send_owes.mpr ?_)
    obtain ⟨hw, m, hm⟩ | hk := send_owes.mp (Shared.leaves_to.mp ho)
    · exact .inl ⟨hw, m, List.mem_cons_of_mem _ hm⟩
    · exact .inr hk
  | send =>
    refine .inl (send_owes.mpr ?_)
    obtain ⟨hw, m, hm⟩ | hk := send_owes.mp (Shared.leaves_to.mp ho)
    · refine .inl ⟨hw, ?_⟩
      obtain hm | hm := List.mem_cons.mp hm
      · obtain ⟨rfl, rfl⟩ := Prod.mk.inj hm
        exact ⟨m + 1, by simp⟩
      · exact ⟨m, List.mem_cons_of_mem _ hm⟩
    · exact .inr hk
  | trackServed =>
    obtain ho | ⟨_, hs, -⟩ := ho
    · exact .inl (by simpa [Pc.owes, and_assoc] using ho)
    · simp at hs
  | @nak q hash frames inf hi hp =>
    obtain ⟨hw, m, hm⟩ | ⟨-, hk⟩ := send_owes.mp (Shared.leaves_to.mp ho)
    · obtain ⟨rfl, rfl⟩ := Prod.mk.inj (List.mem_singleton.mp hm)
      exact .inr (by simp [Pc.picks, hw, hi, hp])
    · simp [AfterSend.owes] at hk
  | retransmit =>
    obtain ho | ⟨pc, hs, -, ho⟩ := ho
    · simp [Pc.owes] at ho
    · obtain rfl := Option.some.inj hs
      exact .inr (by simpa [Pc.owes, Pc.picks, AfterSend.owes] using ho)
  | _ => simp [Next.Leaves, Pc.owes] at ho

theorem Caller.resume_owes (k : Caller) (ok : Bool) : (k.resume ok).owes w p = false := by
  cases k with
  | tofu c known => cases ok <;> rfl
  | handshake c role =>
    cases role with
    | initiator sasGate => cases sasGate <;> rfl
    | _ => rfl
  | _ => cases ok <;> rfl

theorem respond_owes (c : Contact) (known : Bool) : (respond c known).owes w p = false := by
  cases known <;> rfl

theorem handshake_owes {pc : HandshakePc} (h : HandshakeStep i ch s pc n) :
    ¬ n.Leaves ch (Pc.owes w p) := by
  intro ho
  cases h with
  | @trusts c known _ _ _ _ =>
    have ho := Shared.leaves_to.mp ho
    rw [respond_owes c known] at ho
    simp at ho
  | @tofuPark c known _ _ =>
    have ho := Shared.leaves_to.mp ho
    rw [respond_owes c known] at ho
    simp at ho
  | _ => simp [Pc.owes] at ho

theorem peers_owes {pc : PeersPc} (h : PeersStep i ch s pc n) : ¬ n.Leaves ch (Pc.owes w p) := by
  have hresume : ∀ (s' : Shared) (k : Caller) (ok : Bool),
      ¬ (s'.to (k.resume ok)).Leaves ch (Pc.owes w p) := by
    intro s' k ok ho
    have ho := Shared.leaves_to.mp ho
    rw [k.resume_owes ok] at ho
    simp at ho
  cases h with
  | skip _ | unreadable _ _ | upserted _ | upsertFail _ _ | saved _ | saveFail _ _ =>
    exact hresume _ _ _
  | _ => simp [Pc.owes]

theorem advance_owes (h : advance i ch s pc = some n) (ho : n.Leaves ch (Pc.owes w p)) :
    pc.owes w p ∨ pc.picks w s p := by
  cases pc with
  | idle => simp [advance] at h
  | handshake pc => exact absurd ho (handshake_owes (handshakeStep h))
  | peers pc => exact absurd ho (peers_owes (peersStep h))
  | pair pc => cases pairStep h <;> simp [Next.Leaves, Pc.owes] at ho
  | pending pc => cases pendingStep h <;> simp [Pc.owes] at ho
  | teardown pc =>
    cases teardownStep h with
    | @purged next => cases next <;> simp [AfterPurge.pc, Pc.owes] at ho
    | _ => simp [Pc.owes] at ho
  | data pc => exact data_owes (dataStep h) ho

/-- A peer is owed frames after a step if it was before or the step picks it. -/
theorem System.Move.owes (h : Move κ d a u) (ho : (u.tasks j).owes w p) :
    (∃ j, (d.tasks j).owes w p) ∨
      ∃ i ch, a = .lockSection i ch ∧ (d.tasks i).picks w d.sh p := by
  cases a with
  | lockSection i ch =>
    obtain ⟨n, hn, -, hiff⟩ := h.exists_task_iff
    obtain hl | ⟨k, -, hk⟩ := (hiff _ rfl).mp ⟨j, ho⟩
    · exact (advance_owes hn hl).imp (fun h ↦ ⟨i, h⟩) fun h ↦ ⟨i, ch, rfl, h⟩
    · exact .inl ⟨k, hk⟩
  | _ =>
    have hc := h.came j
    generalize u.tasks j = pc at hc ho
    cases hc with
    | stays => exact .inl ⟨j, ho⟩
    | @starts op => cases op <;> simp [Op.entry, Pc.owes] at ho
    | moves ha _ => cases ha
    | spawns ha _ _ _ => cases ha
    | crashes => simp [Pc.owes] at ho

/-- `p` may be sent data: it is trusted and not pending. -/
def Shared.Open (s : Shared) (p : PeerId) : Prop := s.trusted.contains p ∧ s.pendingPairs.contains p = false

/-- The section parks `p` or takes it out of the trusted set. -/
def Pc.suspends (ch : Choice) (p : PeerId) : Pc → Bool
  | .handshake (.tofuPark c _) | .handshake (.gatedPark c) | .pending (.verifyPark c) => c.peer = p
  | .peers (.upsert (.tofu c _) _) => !ch.readable && c.peer = p
  | .peers (.upsertWrite (.tofu c _) attempt _) =>
    !ch.ok && PEERS_PERSIST_ATTEMPTS ≤ attempt + 1 && c.peer = p
  | .pair (.rollback q) => q = p
  | .teardown (.rejectRemove q _) | .teardown (.revokeRemove q)
  | .teardown (.remoteRevokeRemove q) | .teardown (.remoteRejectRemove q) => q = p
  | .teardown (.unpairClear _) => true
  | .teardown (.unpairRestore snapshot) => !snapshot.contains p
  | .teardown (.reaperRemove expired) => expired.any fun e ↦ e.1 = p
  | .teardown (.repend k) => k.removedPending.any fun e ↦ e.1 = p
  | _ => false

theorem Shared.open_iff : s.Open p ↔ s.trusted[p]?.isSome ∧ s.pendingPairs[p]? = none := by
  rw [Shared.Open, ExtTreeMap.contains_eq_isSome_getElem?, ExtTreeMap.contains_eq_isSome_getElem?,
    Option.isSome_eq_false_iff, Option.isNone_iff_eq_none]

theorem Shared.Open.of_eq (h : s.Open p) (ht : s'.trusted = s.trusted)
    (hp : s'.pendingPairs = s.pendingPairs) : s'.Open p := by
  rwa [Shared.Open, ht, hp]

theorem Shared.Open.distrust {q : PeerId} (h : s.Open p) (hq : q ≠ p) : (s.distrust q).Open p := by
  rw [Shared.open_iff] at h ⊢
  exact ⟨by rw [Shared.distrust_trusted_of_ne hq]; exact h.1, h.2⟩

theorem Shared.Open.enroll {peer : TrustedPeer} (h : s.Open p) : (s.enroll c peer).Open p := by
  rw [Shared.open_iff] at h ⊢
  refine ⟨?_, h.2⟩
  simp only [Shared.enroll, lookup_insert]
  split
  · rfl
  · exact h.1

theorem Shared.Open.park {victim : PeerId} (h : s.Open p) (hs : s.park c victim = some s')
    (hc : c.peer ≠ p) : s'.Open p := by
  rw [Shared.open_iff] at h ⊢
  have hp : s'.pendingPairs[p]? = none := (Shared.park_pending_none hs).mpr ⟨hc, .inl h.2⟩
  obtain ⟨pending, -, rfl⟩ := Shared.park_eq hs
  exact ⟨h.1, hp⟩

theorem Shared.Open.unpend {q : PeerId} (h : s.Open p) : (s.unpend q).Open p := by
  rw [Shared.open_iff] at h ⊢
  refine ⟨h.1, ?_⟩
  simp only [Shared.unpend, lookup_erase, h.2, ite_self]

theorem Shared.Open.sweep (h : s.Open p) :
    { s with pendingPairs := sweep s.pendingPairs s.now }.Open p := by
  rw [Shared.open_iff] at h ⊢
  exact ⟨h.1, sweep_eq_none.mpr (by simp [h.2])⟩

theorem Shared.Open.settle {k : Caller} {ok : Bool} (h : s.Open p)
    (hk : ∀ c known, k = .tofu c known → ok = false → c.peer ≠ p) : (s.settle k ok).Open p := by
  cases k with
  | tofu c known =>
    cases ok with
    | false => exact (h.distrust (hk c known rfl rfl)).of_eq rfl rfl
    | true => exact h.of_eq rfl rfl
  | _ => exact h

theorem handshake_open {pc : HandshakePc} (h : HandshakeStep i ch s pc n) (ho : s.Open p)
    (hs : (Pc.handshake pc).suspends ch p = false) : n.sh.Open p := by
  cases h with
  | tofu _ _ => exact ho.enroll.of_eq rfl rfl
  | tofuPark hp => exact ho.park hp (by simpa [Pc.suspends] using hs)
  | gatedPark hp => exact ho.park hp (by simpa [Pc.suspends] using hs)
  | @install c role _ =>
    obtain ⟨ps, hps⟩ := s.link_eq c.peer
    exact ho.of_eq (by simp [hps]) (by simp [hps])
  | _ => exact ho

theorem peers_open {pc : PeersPc} (h : PeersStep i ch s pc n) (ho : s.Open p)
    (hs : (Pc.peers pc).suspends ch p = false) : n.sh.Open p := by
  cases h with
  | unreadable _ hr =>
    refine ho.settle ?_
    rintro c known rfl -
    simpa [Pc.suspends, hr] using hs
  | upserted _ =>
    refine Shared.Open.settle (ho.of_eq rfl rfl) ?_
    rintro c known - hok
    simp at hok
  | upsertFail hok hlast =>
    refine Shared.Open.settle (ho.of_eq rfl rfl) ?_
    rintro c known rfl -
    simpa [Pc.suspends, hok, hlast] using hs
  | _ => exact ho.of_eq rfl rfl

theorem teardown_open {pc : TeardownPc} (h : TeardownStep s pc n) (ho : s.Open p)
    (hs : (Pc.teardown pc).suspends ch p = false) : n.sh.Open p := by
  cases h with
  | rejectTake _ | remoteRevokePending | remoteRejectPending => exact ho.unpend
  | rejectRemove _ | revokeRemove _ | remoteRevoke _ _ | remoteRevokeAgain _ _ | remoteReject _ _
  | remoteRejectAgain _ _ => exact ho.distrust (by simpa [Pc.suspends] using hs)
  | unpairClear _ => simp [Pc.suspends] at hs
  | unpairRestore _ => exact ⟨by simpa [Pc.suspends] using hs, ho.2⟩
  | reaperIdle _ => exact ho.sweep
  | reaperSweep _ => exact ho.sweep
  | @reaperRemove expired _ =>
    rw [Shared.open_iff] at ho ⊢
    refine ⟨?_, ho.2⟩
    have hp : p ∉ expired.map Prod.fst := by
      intro hp
      obtain ⟨e, he, rfl⟩ := List.mem_map.mp hp
      simp only [Pc.suspends, List.any_eq_false, decide_eq_true_eq] at hs
      exact hs e he rfl
    simpa only [Shared.distrustAll, lookup_erase_all, if_neg hp] using ho.1
  | retrust _ =>
    rw [Shared.open_iff] at ho ⊢
    exact ⟨isSome_insert_all (.inl ho.1), ho.2⟩
  | @repend k =>
    rw [Shared.open_iff] at ho ⊢
    refine ⟨ho.1, ?_⟩
    by_contra hn
    have hk : ∀ e ∈ k.removedPending, e.1 ≠ p := by
      simpa [Pc.suspends] using hs
    obtain h | ⟨e, he, hep⟩ := Shared.pending_of_repend (Option.isSome_iff_ne_none.mpr hn)
    · simp [ho.2] at h
    · exact hk e he hep
  | _ => exact ho.of_eq rfl rfl

theorem advance_open {pc : Pc} (h : advance i ch s pc = some n) (ho : s.Open p)
    (hs : pc.suspends ch p = false) : n.sh.Open p := by
  cases pc with
  | idle => simp [advance] at h
  | handshake pc => exact handshake_open (handshakeStep h) ho hs
  | peers pc => exact peers_open (peersStep h) ho hs
  | pair pc =>
    cases pairStep h with
    | insert _ => exact ho.enroll
    | rollback _ => exact ho.distrust (by simpa [Pc.suspends] using hs)
    | _ => exact ho
  | pending pc =>
    cases pendingStep h with
    | pairPending => exact ho.sweep
    | accept _ => exact ho.unpend.of_eq rfl rfl
    | @remoteAccept q e hq =>
      rw [Shared.open_iff] at ho ⊢
      refine ⟨ho.1, ?_⟩
      have hne : q ≠ p := by
        rintro rfl
        simp [ho.2] at hq
      simpa only [lookup_insert, if_neg hne] using ho.2
    | verifyPark hp => exact ho.park hp (by simpa [Pc.suspends] using hs)
    | _ => exact ho.of_eq rfl rfl
  | teardown pc => exact teardown_open (teardownStep h) ho hs
  | data pc => cases dataStep h <;> exact ho.of_eq rfl rfl

def Payload.isItem : Payload → Bool
  | .item => true
  | _ => false

/-- The step hands a frame of the kind `what` to the live session of `p`. -/
def System.Sends (d : System) (a : Act) (p : PeerId) (what : Payload) : Prop :=
  ∃ i ch, a = .lockSection i ch ∧ (d.tasks i).sends = some (p, what) ∧ p ∈ d.sh.linked

/-- A section picks only open peers to send items to, and parks or distrusts
none that a task has still to send one to. -/
def EgressOpen (d : System) : Act → Prop
  | .lockSection i ch => ∀ p, ((d.tasks i).picks Payload.isItem d.sh p → d.sh.Open p) ∧
      ((d.tasks i).suspends ch p → ∀ j, (d.tasks j).owes Payload.isItem p = false)
  | _ => True

/-- Every peer that a task has still to send an item to is open. -/
def System.OwedOpen (d : System) : Prop := ∀ j p, (d.tasks j).owes Payload.isItem p → d.sh.Open p

theorem Pc.picks_data {s : Shared} (h : pc.picks w s p) : pc.suspends ch p = false := by
  cases pc with
  | data pc => rfl
  | _ => simp [Pc.picks] at h

theorem Act.ambient_open {s' : Shared} (h : a.ambient s = some s') (ho : s.Open p) : s'.Open p := by
  cases a <;> simp only [Act.ambient, Option.some.injEq, reduceCtorEq] at h <;> subst h <;>
    exact ho.of_eq rfl rfl

/-- A peer that may be sent data stays so in every step that does not suspend it. -/
theorem System.Move.open (h : Move κ d a u) (ho : d.sh.Open p)
    (hs : ∀ i ch, a = .lockSection i ch → (d.tasks i).suspends ch p = false)
    (hc : ∀ readable, a ≠ .crash readable) : u.sh.Open p := by
  have hu := h.became
  generalize u.sh = s' at hu
  cases hu with
  | stays => exact ho
  | moves ha hn => exact advance_open hn ho (hs _ _ ha)
  | ambient hs => exact Act.ambient_open hs ho
  | crashes ha => exact absurd ha (hc _)

theorem System.OwedOpen.step (hd : d.OwedOpen) (ha : EgressOpen d a)
    (h : System.step κ d a = some u) : u.OwedOpen := by
  intro j p hj
  have hm := move_of_step h
  have hopen : d.sh.Open p := by
    obtain ⟨k, hk⟩ | ⟨i, ch, rfl, hp⟩ := hm.owes hj
    · exact hd k p hk
    · exact (ha p).1 hp
  refine hm.open hopen ?_ ?_
  · rintro i ch rfl
    by_contra hs
    rw [Bool.not_eq_false] at hs
    obtain ⟨k, hk⟩ | ⟨i', ch', heq, hp⟩ := hm.owes hj
    · exact Bool.false_ne_true (((ha p).2 hs k).symm.trans hk)
    · obtain ⟨rfl, rfl⟩ := Act.lockSection.inj heq
      exact Bool.false_ne_true ((Pc.picks_data hp).symm.trans hs)
  · rintro readable rfl
    obtain rfl := Option.some.inj h
    simp [Pc.owes] at hj

/-- A list with every peer that the section may pick. -/
def Pc.candidates (s : Shared) : Pc → List PeerId
  | .data (.fanFilter _ listed) => listed
  | .data (.hello q) | .data (.gateTrusted q _ _) | .data (.nak q _ _) => [q]
  | .data .retransmit => (retransmitJobs s.inflight s.now).map Prod.fst
  | _ => []

instance (s : Shared) (p : PeerId) : Decidable (s.Open p) := inferInstanceAs (Decidable (_ ∧ _))

end FluxSync.Daemon
