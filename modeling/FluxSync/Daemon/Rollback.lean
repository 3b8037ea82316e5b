import FluxSync.Daemon.Coherence

namespace FluxSync.Daemon

open Std Runs

variable {κ : Crypto} {d u : System} {a : Act} {i j : ℕ} {ch : Choice} {s : Shared} {pc : Pc} {n : Next}
variable {saved : ExtTreeMap PeerId TrustedPeer}

def Caller.snapshot : Caller → Option (ExtTreeMap PeerId TrustedPeer)
  | .unpair snapshot => some snapshot
  | _ => none

/-- The trusted set that an Unpair under way puts back if its save fails. -/
def Pc.snapshot : Pc → Option (ExtTreeMap PeerId TrustedPeer)
  | .peers pc => pc.caller.snapshot
  | .teardown (.unpairClear snapshot) | .teardown (.unpairRestore snapshot) => some snapshot
  | .teardown (.purge _ (.save k)) => k.snapshot
  | _ => none

theorem Caller.resume_snapshot (k : Caller) (ok : Bool) :
    (k.resume ok).snapshot = none ∨ (k.resume ok).snapshot = k.snapshot := by
  cases k with
  | handshake c role =>
    cases role with
    | initiator sasGate => cases sasGate <;> exact .inl rfl
    | rekey => exact .inl rfl
    | responder known => exact .inl rfl
  | _ => cases ok <;> first | exact .inl rfl | exact .inr rfl

/-- A section drops the snapshot, keeps it or takes it. -/
theorem advance_snapshot (h : advance i ch s pc = some n) :
    n.pc.snapshot = none ∨ n.pc.snapshot = pc.snapshot ∨
      pc = .teardown .unpairClone ∧ n.pc.snapshot = some s.trusted := by
  cases pc with
  | idle => simp [advance] at h
  | handshake pc =>
    cases handshakeStep h with
    | @trusts _ known => cases known <;> exact .inl rfl
    | @tofuPark _ known => cases known <;> exact .inl rfl
    | _ => exact .inl rfl
  | peers pc =>
    cases peersStep h <;> first
      | exact (Caller.resume_snapshot _ _).imp_right .inl
      | exact .inr (.inl rfl)
  | pair pc => cases pairStep h <;> exact .inl rfl
  | pending pc => cases pendingStep h <;> exact .inl rfl
  | teardown pc =>
    cases teardownStep h with
    | unpairClone => exact .inr (.inr ⟨rfl, rfl⟩)
    | @purged next => cases next <;> first | exact .inl rfl | exact .inr (.inl rfl)
    | @purge p rest next => cases next <;> first | exact .inl rfl | exact .inr (.inl rfl)
    | _ => first | exact .inl rfl | exact .inr (.inl rfl)
  | data pc =>
    cases dataStep h with
    | @passed p f =>
      cases f with
      | item relay => cases relay <;> exact .inl rfl
      | _ => exact .inl rfl
    | @sent what k => cases k <;> exact .inl rfl
    | _ => exact .inl rfl

theorem Op.entry_snapshot (op : Op) : op.entry.snapshot = none := by
  cases op <;> rfl

theorem spawned_snapshot {pc' : Pc} (h : advance i ch s pc = some n) (hs : n.spawned = some pc') :
    pc'.snapshot = none := by
  obtain ⟨c, already, -, rfl⟩ | ⟨-, rfl⟩ := advance_spawned h hs
  · rfl
  · rfl

/-- Only the main loop unpairs. -/
theorem Pc.runsOn_of_snapshot (h : pc.runsOn i) (hs : pc.snapshot = some saved) : i = 0 := by
  have hk : ∀ k : Caller, k.runsOn i → k.snapshot = some saved → i = 0 := by
    intro k hr hk
    cases k <;> first | simp [Caller.snapshot] at hk; done | exact of_decide_eq_true hr
  cases pc with
  | peers pc => exact hk pc.caller h hs
  | teardown pc =>
    cases pc with
    | unpairClear | unpairRestore => exact of_decide_eq_true h
    | purge peers next =>
      cases next with
      | save k => exact hk k h hs
      | _ => simp [Pc.snapshot] at hs
    | _ => simp [Pc.snapshot] at hs
  | _ => simp [Pc.snapshot] at hs

/-- Whom an Unpair found trusted, and whom other tasks have enrolled since. -/
structure Unpairing where
  before : List PeerId := []
  since : List PeerId := []

/-- Another task changes the trusted set. -/
def Unpairing.follow (w : Unpairing) (s s' : Shared) : Unpairing :=
  { w with
    since := (w.since ++ s'.trusted.keys.filter fun p ↦ !s.trusted.contains p).filter fun p ↦
      !s.trusted.contains p || s'.trusted.contains p }

/-- What a failed Unpair has to leave trusted is trusted. -/
def Unpairing.Kept (w : Unpairing) (s : Shared) : Prop :=
  ∀ p, p ∈ w.before ∨ p ∈ w.since → s.trusted.contains p

namespace System

variable {w w' : Unpairing}

/-- The place of the section that runs. -/
def site (d : System) : Act → Pc
  | .lockSection i _ => d.tasks i
  | _ => .idle

def unpairing (κ : Crypto) (d : System) (a : Act) (w : Unpairing) : Unpairing :=
  match d.site a with
  | .teardown .unpairClone => ⟨d.sh.trusted.keys, []⟩
  | .teardown (.unpairClear _) => w
  | _ => (step κ d a).elim w fun u ↦ w.follow d.sh u.sh

/-- The system with a record of the Unpair under way. -/
abbrev unpairStep (κ : Crypto) : System × Unpairing → Act → Option (System × Unpairing) :=
  monitored (step κ) (unpairing κ)

/-- A failed Unpair gets the lock and puts its snapshot back. -/
def rollsBack (d : System) (a : Act) : Bool :=
  match d.site a with
  | .teardown (.unpairRestore _) => d.sh.trustedBy.isNone
  | _ => false

theorem unpairing_before :
    (∃ i ch, a = .lockSection i ch ∧ d.tasks i = .teardown .unpairClone ∧
      unpairing κ d a w = ⟨d.sh.trusted.keys, []⟩) ∨ (unpairing κ d a w).before = w.before := by
  have hfollow : ((step κ d a).elim w fun u ↦ w.follow d.sh u.sh).before = w.before := by
    cases step κ d a <;> rfl
  unfold unpairing
  split
  · rename_i hsite
    cases a with
    | lockSection i ch => exact .inl ⟨i, ch, rfl, hsite, rfl⟩
    | _ => simp [site] at hsite
  · exact .inr rfl
  · exact .inr hfollow

/-- The snapshot under way is the trusted set that the record has. -/
structure Snapshots (x : System × Unpairing) : Prop where
  onTask : x.1.OnTask
  before : ∀ i saved, (x.1.tasks i).snapshot = some saved →
    ∀ p, p ∈ x.2.before ↔ saved.contains p

theorem snapshots_init : Snapshots (init, {}) where
  onTask _ := rfl
  before i saved h := by simp [init, Pc.snapshot] at h

theorem Snapshots.step {x y : System × Unpairing} (hx : Snapshots x) (h : unpairStep κ x a = some y) :
    Snapshots y := by
  obtain ⟨hs, hw⟩ := monitored_eq_some.mp h
  refine ⟨hx.onTask.step hs, fun j saved hsaved p ↦ ?_⟩
  have hkept (hj : (x.1.tasks j).snapshot = some saved) : p ∈ y.2.before ↔ saved.contains p := by
    obtain ⟨i, ch, rfl, hi, -⟩ | hb := unpairing_before (κ := κ) (d := x.1) (a := a) (w := x.2)
    · -- a second Unpair cannot begin: both would run as task 0
      obtain rfl := Pc.runsOn_of_snapshot (hx.onTask j) hj
      obtain rfl : i = 0 := of_decide_eq_true (hi ▸ hx.onTask i : (Pc.teardown .unpairClone).runsOn i)
      simp [hi, Pc.snapshot] at hj
    · rw [hw, hb]
      exact hx.before j saved hj p
  have hcame := (move_of_step hs).came j
  generalize y.1.tasks j = pc' at hcame hsaved
  cases hcame with
  | stays => exact hkept hsaved
  | starts => simp [Op.entry_snapshot] at hsaved
  | @moves ch n ha hn =>
    obtain hnone | hsame | ⟨hclone, hn⟩ := advance_snapshot hn
    · simp [hnone] at hsaved
    · exact hkept (hsame ▸ hsaved)
    · subst ha
      obtain rfl := Option.some.inj (hn.symm.trans hsaved)
      simp [hw, unpairing, site, hclone, ExtTreeMap.mem_keys]
  | spawns _ hn hspawned => simp [spawned_snapshot hn hspawned] at hsaved
  | crashes => simp [Pc.snapshot] at hsaved

theorem step_rollsBack (h : d.rollsBack a) :
    ∃ i saved u, (d.tasks i).snapshot = some saved ∧ step κ d a = some u ∧ u.sh.trusted = saved := by
  unfold rollsBack at h
  split at h
  · rename_i saved hsite
    cases a with
    | lockSection i ch =>
      have hpc : d.tasks i = .teardown (.unpairRestore saved) := hsite
      refine ⟨i, saved, ⟨{ d.sh with trusted := saved }, Function.update d.tasks i .idle⟩, ?_, ?_, rfl⟩
      · rw [hpc]
        rfl
      · simp [step, hpc, advance, advanceTeardown, Option.isNone_iff_eq_none.mp h, Pc.toNext, proceed]
    | _ => simp [site] at hsite
  · simp at h

theorem Snapshots.kept_iff {x : System × Unpairing} (hx : Snapshots x) (h : x.1.rollsBack a)
    (hs : System.step κ x.1 a = some u) : x.2.Kept u.sh ↔ ∀ p ∈ x.2.since, p ∈ x.2.before := by
  obtain ⟨i, saved, u', hi, hs', htrusted⟩ := step_rollsBack (κ := κ) h
  obtain rfl := Option.some.inj (hs.symm.trans hs')
  have hsaved := hx.before i saved hi
  constructor
  · intro hkept p hp
    exact (hsaved p).mpr (htrusted ▸ hkept p (.inr hp))
  · rintro hsince p (hp | hp)
    · exact htrusted ▸ (hsaved p).mp hp
    · exact htrusted ▸ (hsaved p).mp (hsince p hp)

/-- In a run, every failed Unpair leaves trusted whoever was trusted before it or enrolled beside it
exactly when nobody whom it had not found trusted is enrolled beside it and still there. -/
theorem rollback_keeps_iff {l : List Act} (h : Run (unpairStep κ) Always (init, {}) l (d, w)) :
    (∀ l' a d' w' u, l' ++ [a] <+: l → Run (unpairStep κ) Always (init, {}) l' (d', w') →
      d'.rollsBack a → step κ d' a = some u → w'.Kept u.sh) ↔
      Run (unpairStep κ) (fun x a ↦ x.1.rollsBack a → ∀ p ∈ x.2.since, p ∈ x.2.before)
        (init, {}) l (d, w) := by
  have hsnap : ∀ {l' x}, Run (unpairStep κ) Always (init, {}) l' x → Snapshots x := fun hr ↦
    hr.invariant snapshots_init fun _ _ _ hi _ hs ↦ hi.step hs
  rw [run_iff_forall_steps]
  constructor
  · intro hkept
    refine ⟨h, fun l' a x hl hr hback ↦ ?_⟩
    obtain ⟨i, saved, u, -, hs, -⟩ := step_rollsBack (κ := κ) hback
    exact ((hsnap hr).kept_iff hback hs).mp (hkept l' a x.1 x.2 u hl hr hback hs)
  · rintro ⟨-, hok⟩ l' a d' w' u hl hr hback hs
    exact ((hsnap hr).kept_iff hback hs).mpr (hok l' a (d', w') hl hr hback)

end System

/-- A joined peer is trusted when an Unpair fails. -/
def unpairFails : List Act :=
  .start 0 .pairShow :: sections 0 1 ++ .start 3 (.responder (plainContact 1) false) :: sections 3 4 ++
    .start 0 .unpair :: sections 0 3 ++ (List.replicate 3
      [.lockSection 0 { succeeds with order := [] }, .lockSection 0 fails]).flatten ++ sections 0 1

theorem unpairFails_runs :
    (unpairFails.foldlM (System.unpairStep plainCrypto) (System.init, {})).isSome := by
  decide +kernel

theorem rollback_keeps_unpairFails :
    ∃ d w, Run (System.unpairStep plainCrypto) Always (System.init, {}) unpairFails (d, w) ∧
      w.before = [1] ∧ d.sh.trusted.contains 1 ∧
      ((∀ l' a d' w' u, l' ++ [a] <+: unpairFails →
        Run (System.unpairStep plainCrypto) Always (System.init, {}) l' (d', w') →
        d'.rollsBack a → System.step plainCrypto d' a = some u → w'.Kept u.sh) ↔
        Run (System.unpairStep plainCrypto)
          (fun x a ↦ x.1.rollsBack a → ∀ p ∈ x.2.since, p ∈ x.2.before)
          (System.init, {}) unpairFails (d, w)) :=
  ⟨_, _, run_of_isSome unpairFails_runs, by decide +kernel, by decide +kernel,
    System.rollback_keeps_iff (run_of_isSome unpairFails_runs)⟩

/-- A peer joins under the pairing window after the Unpair has cleared the set. -/
def joinsBeside : List Act :=
  .start 0 .pairShow :: sections 0 1 ++ .start 0 .unpair :: sections 0 2 ++
    .start 3 (.responder (plainContact 2) false) :: sections 3 4 ++ sections 0 1 ++
      (List.replicate 3
        [.lockSection 0 { succeeds with order := [2] }, .lockSection 0 fails]).flatten

theorem joinsBeside_runs :
    (joinsBeside.foldlM (System.unpairStep plainCrypto) (System.init, {})).isSome := by
  decide +kernel

/-- The rollback forgets the peer, which `peers.json` lists. -/
theorem joinsBeside_forgotten :
    ∃ d w u, Run (System.unpairStep plainCrypto) Always (System.init, {}) joinsBeside (d, w) ∧
      d.rollsBack (.lockSection 0 succeeds) ∧
      System.step plainCrypto d (.lockSection 0 succeeds) = some u ∧
      2 ∈ w.since ∧ d.sh.trusted.contains 2 ∧ u.sh.trusted.contains 2 = false ∧
      u.sh.peersFile.map StoredPeer.peerId = [2] ∧ ¬ w.Kept u.sh := by
  have hrun := run_of_isSome joinsBeside_runs
  have hback : ((joinsBeside.foldlM (System.unpairStep plainCrypto) (System.init, {})).get
      joinsBeside_runs).1.rollsBack (.lockSection 0 succeeds) := by decide +kernel
  have hsince : 2 ∈ ((joinsBeside.foldlM (System.unpairStep plainCrypto) (System.init, {})).get
      joinsBeside_runs).2.since := by decide +kernel
  have htrusted : ((joinsBeside.foldlM (System.unpairStep plainCrypto) (System.init, {})).get
      joinsBeside_runs).1.sh.trusted.contains 2 := by decide +kernel
  have hnext : ((System.step plainCrypto ((joinsBeside.foldlM (System.unpairStep plainCrypto)
      (System.init, {})).get joinsBeside_runs).1 (.lockSection 0 succeeds)).map fun u ↦
        (u.sh.trusted.contains 2, u.sh.peersFile.map StoredPeer.peerId)) = some (false, [2]) := by
    decide +kernel
  generalize (joinsBeside.foldlM (System.unpairStep plainCrypto) (System.init, {})).get
    joinsBeside_runs = x at hrun hback hsince htrusted hnext
  obtain ⟨u, hs, hu⟩ := Option.map_eq_some_iff.mp hnext
  obtain ⟨hlost, hfile⟩ := Prod.mk.injEq .. ▸ hu
  refine ⟨x.1, x.2, u, hrun, hback, hs, hsince, htrusted, hlost, hfile, fun hkept ↦ ?_⟩
  exact Bool.false_ne_true (hlost.symm.trans (hkept 2 (.inr hsince)))

end FluxSync.Daemon
