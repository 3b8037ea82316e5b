import FluxSync.Daemon.Coherence
import FluxSync.Daemon.Deadlock

namespace FluxSync.Daemon

open Std Runs OrderedMap

variable {κ : Crypto} {d u : System} {a : Act} {i j : ℕ} {ch : Choice} {s : Shared} {pc : Pc} {n : Next}
variable {p : PeerId} {t : TrustedPeer} {e : StoredPeer}

/-- Where a peer stands with the local commands that remove it: a command has
taken it out of the trusted set, or has also written the file and replied ok.
Either ends when the peer is admitted again. -/
inductive Standing
  | member
  | leaving
  | gone
  deriving DecidableEq

def Standing.leave : Standing → Standing
  | .member => .leaving
  | st => st

/-- The command fails, or the process ends before it replies. -/
def Standing.stay : Standing → Standing
  | .leaving => .member
  | st => st

def Standing.finish : Standing → Standing
  | .leaving => .gone
  | st => st

/-- `Revoke`, a rejecting `PairConfirm` or `Unpair` removes `p`. -/
def Caller.withdraws (p : PeerId) : Caller → Bool
  | .revoke q _ | .reject q _ _ => p = q
  | .unpair _ => true
  | _ => false

/-- The section takes `p` out of the trusted set for one of the three commands. -/
def Pc.withdraws (p : PeerId) : Pc → Bool
  | .teardown (.revokeRemove q) | .teardown (.rejectRemove q _) => p = q
  | .teardown (.unpairClear _) => true
  | _ => false

/-- The section puts `p` back for one of the three commands. -/
def Pc.reinstates (p : PeerId) : Pc → Bool
  | .teardown (.retrust k) => k.withdraws p
  | .teardown (.unpairRestore _) => true
  | _ => false

def Pc.completes (ch : Choice) (p : PeerId) : Pc → Bool
  | .peers (.saveWrite k _ _) => ch.ok && k.withdraws p
  | _ => false

/-- The standings after a step. -/
def standings (d : System) (a : Act) (st : PeerId → Standing) (p : PeerId) : Standing :=
  match a with
  | .lockSection i ch =>
    if (d.tasks i).admits d.sh p then .member
    else if (d.tasks i).withdraws p then (st p).leave
    else if (d.tasks i).reinstates p then (st p).stay
    else if (d.tasks i).completes ch p then (st p).finish
    else st p
  | .crash _ => (st p).stay
  | _ => st p

/-- A write that completes the removal of a peer finds no other upsert of its
record waiting for the file, and a failed reaper puts back no peer that has been
removed meanwhile. -/
def Undisturbed (x : System × (PeerId → Standing)) : Act → Prop
  | .lockSection i ch =>
    (∀ p, (x.1.tasks i).completes ch p → x.2 p = .leaving →
      ∀ j k e, x.1.tasks j = .peers (.upsert k e) → e.peerId ≠ p) ∧
    ∀ expired removed, x.1.tasks i = .teardown (.retrust (.reap expired removed)) →
      ∀ r ∈ removed, x.2 r.1 = .member
  | _ => True

/-- What is known of removed peers. -/
structure Removed (x : System × (PeerId → Standing)) : Prop where
  absent : ∀ p, x.2 p ≠ .member → x.1.sh.trusted[p]? = none
  peersFile : ∀ p, x.2 p = .gone → ∀ e ∈ x.1.sh.peersFile, e.peerId ≠ p
  stored : ∀ p, x.2 p = .gone → ∀ i, ∀ e ∈ (x.1.tasks i).stored, e.peerId ≠ p
  saving : ∀ p, x.2 p ≠ .member → ∀ i k attempt stored,
    x.1.tasks i = .peers (.saveWrite k attempt stored) → k.withdraws p → ∀ e ∈ stored, e.peerId ≠ p
  restorable : ∀ p, x.2 p = .gone → ∀ r ∈ (x.1.tasks 0).restorable, r.1 ≠ p

variable {st : PeerId → Standing}

theorem standings_ne_member (h : standings d a st p ≠ .member) :
    st p ≠ .member ∨ ∃ i ch, a = .lockSection i ch ∧ (d.tasks i).withdraws p := by
  cases a with
  | lockSection i ch =>
    by_cases hw : (d.tasks i).withdraws p
    · exact .inr ⟨i, ch, rfl, hw⟩
    · refine .inl fun hm ↦ h ?_
      simp only [standings, hw, hm]
      split <;> simp [Standing.stay, Standing.finish]
  | crash readable => exact .inl fun hm ↦ h (by simp [standings, hm, Standing.stay])
  | _ => exact .inl h

theorem standings_gone (h : standings d a st p = .gone) :
    st p = .gone ∨ ∃ i ch, a = .lockSection i ch ∧ (d.tasks i).completes ch p ∧ st p = .leaving := by
  cases a with
  | lockSection i ch =>
    simp only [standings] at h
    cases hp : st p with
    | gone => exact .inl rfl
    | member =>
      simp only [hp, Standing.leave, Standing.stay, Standing.finish] at h
      split_ifs at h
    | leaving =>
      refine .inr ⟨i, ch, rfl, ?_, rfl⟩
      by_contra hc
      simp only [hp, Standing.leave, Standing.stay, if_neg hc] at h
      split_ifs at h
  | crash readable =>
    cases hp : st p <;> simp [standings, hp, Standing.stay] at h
    exact .inl rfl
  | _ => exact .inl h

/-- A peer the step admits, puts back, or finds in the file of a crash is a member. -/
theorem standings_admits {c : Contact} (h : a.Admits d c) : standings d a st c.peer = .member := by
  obtain ⟨i, ch, rfl, hc⟩ := h
  simp [standings, hc.admits]

theorem Caller.withdraws_runsOn {k : Caller} (h : k.withdraws p) (hi : k.runsOn i) : i = 0 := by
  cases k <;> simp_all [Caller.withdraws, Caller.runsOn]

theorem Pc.withdraws_runsOn (h : pc.withdraws p) (hi : pc.runsOn i) : i = 0 := by
  cases pc with
  | teardown pc => cases pc <;> simp_all [Pc.withdraws, Pc.runsOn, TeardownPc.runsOn]
  | _ => simp [Pc.withdraws] at h

theorem advance_withdraws (h : advance i ch s pc = some n) (hw : pc.withdraws p) :
    n.sh.trusted[p]? = none := by
  cases pc with
  | teardown pc =>
    cases pc with
    | revokeRemove q =>
      obtain rfl : p = q := by simpa [Pc.withdraws] using hw
      have hs : TeardownStep s (.revokeRemove p) n := teardownStep h
      cases hs
      simp [Shared.distrust]
    | rejectRemove q pend =>
      obtain rfl : p = q := by simpa [Pc.withdraws] using hw
      have hs : TeardownStep s (.rejectRemove p pend) n := teardownStep h
      cases hs
      simp [Shared.distrust]
    | unpairClear snapshot =>
      have hs : TeardownStep s (.unpairClear snapshot) n := teardownStep h
      cases hs
      simp
    | _ => simp [Pc.withdraws] at hw
  | _ => simp [Pc.withdraws] at hw

theorem advance_completes (h : advance i ch s pc = some n) (hc : pc.completes ch p) :
    ∃ k attempt stored, pc = .peers (.saveWrite k attempt stored) ∧ k.withdraws p ∧
      n.sh.peersFile = stored ∧ n.pc = k.resume true := by
  cases pc with
  | peers pc =>
    cases pc with
    | saveWrite k attempt stored =>
      simp only [Pc.completes, Bool.and_eq_true] at hc
      have hs : PeersStep i ch s (.saveWrite k attempt stored) n := peersStep h
      cases hs with
      | saved _ => exact ⟨k, attempt, stored, rfl, hc.2, rfl, rfl⟩
      | saveRetry hf _ => simp [hf] at hc
      | saveFail hf _ => simp [hf] at hc
    | _ => simp [Pc.completes] at hc
  | _ => simp [Pc.completes] at hc

/-- A save's list is what it read from the trusted set. -/
theorem advance_saveWrite {k : Caller} {attempt : ℕ} {stored : List StoredPeer}
    (h : advance i ch s pc = some n) (hn : n.pc = .peers (.saveWrite k attempt stored)) :
    (∃ existing, pc = .peers (.snapshot k attempt existing)) ∧
      ∀ e ∈ stored, ∃ t, s.trusted[e.peerId]? = some t := by
  have hs : n.pc.stored = stored := by rw [hn]; rfl
  cases pc with
  | idle => simp [advance] at h
  | handshake pc =>
    cases handshakeStep h with
    | @trusts _ known => cases known <;> simp [respond] at hn
    | @tofuPark _ known => cases known <;> simp [respond] at hn
    | _ => simp at hn
  | peers pc =>
    have hr : ∀ (k' : Caller) ok, k'.resume ok ≠ .peers (.saveWrite k attempt stored) := by
      intro k' ok
      cases k' with
      | handshake c role => cases role <;> simp [Caller.resume, afterHandshake]; split <;> simp
      | _ => cases ok <;> simp [Caller.resume]
    cases peersStep h with
    | snapshot _ _ =>
      simp only [Pc.peers.injEq, PeersPc.saveWrite.injEq] at hn
      obtain ⟨rfl, rfl, rfl⟩ := hn
      exact ⟨⟨_, rfl⟩, fun e he ↦ (Shared.mem_record he).imp fun t ht ↦ ht.1⟩
    | _ => simp [hr] at hn
  | pair pc => cases pairStep h <;> simp at hn
  | pending pc => cases pendingStep h <;> simp at hn
  | teardown pc =>
    cases teardownStep h with
    | @purged next => cases next <;> simp [AfterPurge.pc] at hn
    | _ => simp at hn
  | data pc =>
    cases dataStep h with
    | @passed p f =>
      cases f with
      | item relay => cases relay <;> simp [DataFrame.admitted] at hn
      | _ => simp [DataFrame.admitted] at hn
    | @sent what k => cases k <;> simp [AfterSend.pc] at hn
    | _ => simp at hn

/-- The invariants a run keeps whatever its steps. -/
structure System.Sound (κ : Crypto) (d : System) : Prop where
  locks : d.LockInvariant
  coherent : d.Coherent κ
  onTask : d.OnTask

theorem System.sound_init : init.Sound κ := ⟨lockInvariant_init, coherent_init, fun _ ↦ rfl⟩

theorem System.Sound.step (hd : d.Sound κ) (h : System.step κ d a = some u) : u.Sound κ :=
  ⟨hd.locks.step h, hd.coherent.step h, hd.onTask.step h⟩

section

variable (hd : d.Sound κ) (hr : Removed (d, st)) (h : System.step κ d a = some u)
include hd hr

/-- A peer that a rollback puts back counts as a member. -/
theorem Removed.restores (ha : Undisturbed (d, st) (.lockSection i ch))
    (hres : (d.tasks i).Restores p t) : standings d (.lockSection i ch) st p = .member := by
  have hgone : i = 0 → st p ≠ .gone := by
    rintro rfl hg
    exact hr.restorable p hg _ hres.restorable rfl
  have hstay : i = 0 → (st p).stay = .member := by
    intro hi
    cases hs : st p with
    | gone => exact absurd hs (hgone hi)
    | _ => rfl
  have ht := hd.onTask i
  obtain ⟨k, hk, hmem⟩ | ⟨snapshot, hk, -⟩ := hres
  · rw [hk] at ht
    cases k with
    | revoke q removed =>
      obtain ⟨-, rfl⟩ := Caller.mem_removed hmem
      simpa [standings, hk, Pc.admits, Pc.withdraws, Pc.reinstates, Caller.withdraws]
        using hstay (by simpa [Pc.runsOn, TeardownPc.runsOn, Caller.runsOn] using ht)
    | reject q removed pend =>
      obtain ⟨-, rfl⟩ := Caller.mem_removed hmem
      simpa [standings, hk, Pc.admits, Pc.withdraws, Pc.reinstates, Caller.withdraws]
        using hstay (by simpa [Pc.runsOn, TeardownPc.runsOn, Caller.runsOn] using ht)
    | reap expired removed =>
      simpa [standings, hk, Pc.admits, Pc.withdraws, Pc.reinstates, Caller.withdraws, Pc.completes]
        using ha.2 expired removed hk _ hmem
    | _ => simp [Caller.removedTrusted] at hmem
  · rw [hk] at ht
    simpa [standings, hk, Pc.admits, Pc.withdraws, Pc.reinstates]
      using hstay (by simpa [Pc.runsOn, TeardownPc.runsOn] using ht)

include h

theorem Removed.absent_step (ha : Undisturbed (d, st) a) (hp : standings d a st p ≠ .member) :
    u.sh.trusted[p]? = none := by
  have hm := System.move_of_step h
  by_contra hn
  obtain ⟨t, ht⟩ := Option.ne_none_iff_exists'.mp hn
  obtain ht' | ⟨c, hc, rfl, -⟩ | ⟨i, ch, rfl, hres⟩ | ⟨readable, rfl, hl⟩ := hm.trusted ht
  · obtain hs | ⟨i, ch, rfl, hw⟩ := standings_ne_member hp
    · simp [hr.absent p hs] at ht'
    · obtain ⟨n, hn', hu, -⟩ := hm.of_section
      exact hn (hu ▸ advance_withdraws hn' hw)
  · exact hp (standings_admits hc)
  · exact hp (hr.restores hd ha hres)
  · obtain ⟨rfl, e, he, hk⟩ := System.mem_loadTrustedPeers hl
    cases readable with
    | false => simp at he
    | true =>
      have hg : st (κ.peerIdFor t.staticPub) = .gone := by
        cases hs : st (κ.peerIdFor t.staticPub) <;> simp [standings, hs, Standing.stay] at hp ⊢
      exact hr.peersFile _ hg e he (hk ▸ hd.coherent.peersFile e he)

omit hd in
theorem Removed.peersFile_step (hp : standings d a st p = .gone) :
    ∀ e ∈ u.sh.peersFile, e.peerId ≠ p := by
  intro e he
  have hm := System.move_of_step h
  obtain hg | ⟨i, ch, rfl, hc, hl⟩ := standings_gone hp
  · obtain he | ⟨i, he⟩ := hm.peersFile he
    · exact hr.peersFile p hg e he
    · exact hr.stored p hg i e he
  · obtain ⟨n, hn, hu, -⟩ := hm.of_section
    obtain ⟨k, attempt, stored, hpc, hk, hf, -⟩ := advance_completes hn hc
    exact hr.saving p (by simp [hl]) i k attempt stored hpc hk e (by rwa [hu, hf] at he)

theorem Removed.stored_step (ha : Undisturbed (d, st) a) (hp : standings d a st p = .gone) (j : ℕ) :
    ∀ e ∈ (u.tasks j).stored, e.peerId ≠ p := by
  intro e he hep
  have hm := System.move_of_step h
  obtain hg | ⟨i, ch, rfl, hc, hl⟩ := standings_gone hp
  · obtain he | he | ⟨t, ht, -⟩ | ⟨c, hc, hpc, -⟩ := hm.stored he
    · exact hr.stored p hg j e he hep
    · exact hr.peersFile p hg e he hep
    · simp [hep, hr.absent p (by simp [hg])] at ht
    · have : standings d a st c.peer = .member := standings_admits hc
      rw [← hpc, hep, hp] at this
      cases this
  · obtain ⟨n, hn, -, hj⟩ := hm.of_section
    obtain ⟨k, attempt, stored, hpc, hk, -, hn'⟩ := advance_completes hn hc
    obtain ⟨rfl, hu⟩ | ⟨hji, hu⟩ | hs := hj j
    · rw [hu, hn', Caller.resume_stored] at he
      simp at he
    · have hdisk : d.sh.holder .peersDisk = some i := by
        simpa [hpc, Pc.holds] using (hd.locks i).2 .peersDisk
      have hnot : (d.tasks j).holds .peersDisk = false := by
        have := (hd.locks j).2 .peersDisk
        simpa [hdisk, hji.symm] using this
      rw [hu] at he
      cases hpj : d.tasks j with
      | peers pc =>
        rw [hpj] at he hnot
        cases pc with
        | upsert k' e' =>
          obtain rfl : e = e' := List.mem_singleton.mp he
          exact ha.1 p hc hl j k' e hpj hep
        | _ => simp [Pc.stored, Pc.holds] at he hnot
      | _ => simp [hpj, Pc.stored] at he
    · simp [(spawned_recordless hn hs).1] at he

theorem Removed.saving_step (hp : standings d a st p ≠ .member) {k : Caller} {attempt : ℕ}
    {stored : List StoredPeer} (hj : u.tasks j = .peers (.saveWrite k attempt stored))
    (hk : k.withdraws p) : ∀ e ∈ stored, e.peerId ≠ p := by
  intro e he hep
  have hc := (System.move_of_step h).came j
  generalize u.tasks j = pc at hc hj
  cases hc with
  | stays =>
    obtain hs | ⟨i, ch, rfl, hw⟩ := standings_ne_member hp
    · exact hr.saving p hs j k attempt stored hj hk e he hep
    · -- a removal and a save that withdraws are both commands of task 0
      have hi := Pc.withdraws_runsOn hw (hd.onTask i)
      have hj0 : j = 0 := Caller.withdraws_runsOn hk (by simpa [hj, Pc.runsOn, PeersPc.caller] using hd.onTask j)
      rw [hi, ← hj0, hj] at hw
      simp [Pc.withdraws] at hw
  | starts => rename_i op _ _ _ _; cases op <;> simp [Op.entry] at hj
  | @moves ch n ha hn =>
    obtain ⟨⟨existing, hpc⟩, hrec⟩ := advance_saveWrite hn hj
    obtain ⟨t, ht⟩ := hrec e he
    rw [hep] at ht
    obtain hs | ⟨i, ch, hi, hw⟩ := standings_ne_member hp
    · simp [hr.absent p hs] at ht
    · obtain ⟨rfl, rfl⟩ := Act.lockSection.injEq .. ▸ ha.symm.trans hi
      simp [hpc, Pc.withdraws] at hw
  | spawns ha hn hs =>
    obtain ⟨c, already, -, rfl⟩ | ⟨-, rfl⟩ := advance_spawned hn hs <;> simp at hj
  | crashes => simp at hj

theorem Removed.restorable_step (hp : standings d a st p = .gone) :
    ∀ r ∈ (u.tasks 0).restorable, r.1 ≠ p := by
  rintro r hmem rfl
  have hm := System.move_of_step h
  obtain hg | ⟨i, ch, rfl, hc, -⟩ := standings_gone hp
  · obtain hmem | ht := hm.restorable hmem
    · exact hr.restorable _ hg r hmem rfl
    · simp [hr.absent r.1 (by simp [hg])] at ht
  · obtain ⟨n, hn, -, hj⟩ := hm.of_section
    obtain ⟨k, attempt, stored, hpc, hk, -, hn'⟩ := advance_completes hn hc
    have hi : i = 0 := Caller.withdraws_runsOn hk (by simpa [hpc, Pc.runsOn, PeersPc.caller] using hd.onTask i)
    obtain ⟨-, hu⟩ | ⟨h0, -⟩ | hs := hj 0
    · rw [hu, hn'] at hmem
      cases k <;> simp [Caller.withdraws] at hk <;>
        simp [Caller.resume, Pc.restorable] at hmem
    · exact h0 hi.symm
    · simp [(spawned_recordless hn hs).2] at hmem

theorem Removed.step (ha : Undisturbed (d, st) a) : Removed (u, standings d a st) where
  absent _ hp := hr.absent_step hd h ha hp
  peersFile _ hp := hr.peersFile_step h hp
  stored _ hp j := hr.stored_step hd h ha hp j
  saving _ hp _ _ _ _ hj hk := hr.saving_step hd h hp hj hk
  restorable _ hp := hr.restorable_step hd h hp

end

theorem removed_init : Removed (System.init, fun _ ↦ .member) where
  absent p h := by simp at h
  peersFile p h := by simp at h
  stored p h := by simp at h
  saving p h := by simp at h
  restorable p h := by simp at h

/-- A run next to the standings its steps lead to. -/
abbrev watchedStep (κ : Crypto) : System × (PeerId → Standing) → Act →
    Option (System × (PeerId → Standing)) :=
  monitored (System.step κ) standings

theorem removed_run {l : List Act} {x : System × (PeerId → Standing)}
    (h : Run (watchedStep κ) Undisturbed (System.init, fun _ ↦ .member) l x) :
    x.1.Sound κ ∧ Removed x := by
  refine h.invariant (I := fun x ↦ x.1.Sound κ ∧ Removed x) ⟨System.sound_init, removed_init⟩ ?_
  rintro ⟨d, st⟩ a ⟨u, st'⟩ ⟨hd, hr⟩ ha hs
  obtain ⟨hstep, rfl⟩ := monitored_eq_some.mp hs
  exact ⟨hd.step hstep, hr.step hd hstep ha⟩

/-- When every completed removal is undisturbed, a peer whose removal was
replied ok stays off the disk until it is admitted again. -/
theorem revocation_durable {l : List Act} {x : System × (PeerId → Standing)}
    (h : Run (watchedStep κ) Undisturbed (System.init, fun _ ↦ .member) l x)
    (hp : x.2 p = .gone) : ∀ e ∈ x.1.sh.peersFile, e.peerId ≠ p :=
  (removed_run h).2.peersFile p hp

/-- The command loop alone disturbs no removal. -/
theorem undisturbed_of_within (hd : d.Within 1) (ht : d.OnTask) (ha : a.within 1) :
    Undisturbed (d, st) a := by
  cases a with
  | lockSection i ch =>
    obtain rfl : i = 0 := by
      simp only [Act.within, Bool.and_eq_true, decide_eq_true_eq] at ha
      omega
    refine ⟨fun p hc _ j k e hj ↦ ?_, fun expired removed hk ↦ ?_⟩
    · dsimp only at hc hj
      obtain rfl | h0 := Nat.eq_zero_or_pos j
      · simp [hj, Pc.completes] at hc
      · simp [hd j h0] at hj
    · have := ht 0
      dsimp only at hk
      simp [hk, Pc.runsOn, TeardownPc.runsOn, Caller.runsOn] at this
  | _ => trivial

theorem within_undisturbed {l : List Act} {x : System × (PeerId → Standing)}
    (h : Run (watchedStep κ) (fun _ a ↦ a.within 1) (System.init, fun _ ↦ .member) l x) :
    (x.1.Within 1 ∧ x.1.OnTask) ∧
      Run (watchedStep κ) Undisturbed (System.init, fun _ ↦ .member) l x := by
  induction h with
  | nil => exact ⟨⟨fun _ _ ↦ rfl, fun _ ↦ rfl⟩, .nil⟩
  | snoc _ ha hs ih =>
    obtain ⟨hstep, -⟩ := monitored_eq_some.mp hs
    exact ⟨⟨ih.1.1.step hstep ha, ih.1.2.step hstep⟩,
      .snoc ih.2 (undisturbed_of_within ih.1.1 ih.1.2 ha) hs⟩

/-- A peer is paired by a command and then revoked. -/
def pairThenRevoke : List Act :=
  .start 0 (.pair (plainContact 1)) :: sections 0 6 ++ .start 0 (.revoke 1) :: sections 0 4

theorem pairThenRevoke_runs :
    (pairThenRevoke.foldlM (watchedStep plainCrypto) (System.init, fun _ ↦ .member)).isSome := by
  decide +kernel

theorem revocation_durable_pairThenRevoke :
    ∃ x, Run (watchedStep plainCrypto) Undisturbed (System.init, fun _ ↦ .member) pairThenRevoke x ∧
      x.2 1 = .gone ∧ ∀ e ∈ x.1.sh.peersFile, e.peerId ≠ 1 := by
  have hrun := run_of_isSome pairThenRevoke_runs
  have hu := (within_undisturbed (hrun.labels (p := fun a ↦ a.within 1) (by decide))).2
  have hp : ((pairThenRevoke.foldlM (watchedStep plainCrypto)
    (System.init, fun _ ↦ .member)).get pairThenRevoke_runs).2 1 = .gone := by decide +kernel
  exact ⟨_, hu, hp, revocation_durable hu hp⟩

/-- The handshake's `persist_last_addr` reads the peer's record before the
revoke and writes it after the revoke has replied. -/
def lateLastAddr : List Act :=
  .start 0 .pairShow :: sections 0 1 ++ .start 3 (.responder (plainContact 1) false) :: sections 3 6 ++
    .start 0 (.revoke 1) :: sections 0 4 ++ sections 3 2

theorem lateLastAddr_runs :
    (lateLastAddr.foldlM (watchedStep plainCrypto) (System.init, fun _ ↦ .member)).isSome := by
  decide +kernel

theorem lateLastAddr_resurrects :
    ∃ x, Run (watchedStep plainCrypto) Always (System.init, fun _ ↦ .member) lateLastAddr x ∧
      x.2 1 = .gone ∧ x.1.sh.peersFile.map StoredPeer.peerId = [1] :=
  ⟨_, run_of_isSome lateLastAddr_runs, by decide +kernel, by decide +kernel⟩

end FluxSync.Daemon
