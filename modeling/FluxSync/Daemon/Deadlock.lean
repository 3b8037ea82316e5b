import FluxSync.Foundation.WaitFor
import FluxSync.Daemon.Steps

namespace FluxSync.Daemon

open Runs

variable {κ : Crypto} {d u : System} {a : Act} {i : ℕ} {ch : Choice} {s : Shared} {pc : Pc} {n : Next}

inductive Lock
  | trusted
  | peersDisk
  deriving DecidableEq

def Shared.holder (s : Shared) : Lock → Option ℕ
  | .trusted => s.trustedBy
  | .peersDisk => s.diskBy

def Caller.isTofu : Caller → Bool
  | .tofu .. => true
  | _ => false

/-- The locks a task keeps from one section to the next. -/
def Pc.holds : Pc → Lock → Bool
  | .peers (.upsert k _), .trusted => k.isTofu
  | .peers (.upsertWrite k _ _), .trusted => k.isTofu
  | .peers (.upsertWrite ..), .peersDisk => true
  | .peers (.snapshot ..), .peersDisk => true
  | .peers (.saveWrite ..), .peersDisk => true
  | _, _ => false

/-- The lock a task's next section starts by taking. -/
def Pc.wants : Pc → Option Lock
  | .handshake (.resolve ..) | .handshake (.recheck ..) => some .trusted
  | .peers (.lastAddr _ addr _) => if isRedialableAddr addr then some .trusted else none
  | .peers (.snapshot ..) => some .trusted
  | .peers (.upsert ..) | .peers (.save _) => some .peersDisk
  | .pair (.dial ..) => none
  | .pair _ => some .trusted
  | .pending (.verifyTrusted _) => some .trusted
  | .teardown (.rejectRemove ..) | .teardown (.revokeRemove _) | .teardown .unpairClone
  | .teardown (.unpairClear _) | .teardown (.unpairRestore _) | .teardown (.reaperRemove _)
  | .teardown (.retrust _) | .teardown (.remoteRevokeRemove _)
  | .teardown (.remoteRejectRemove _) => some .trusted
  | .data (.gateTrusted ..) => some .trusted
  | _ => none

def System.Deadlocked (d : System) : Prop :=
  WaitFor.Deadlocked (fun i l ↦ (d.tasks i).wants = some l) d.sh.holder

/-- A task cannot move while the lock it wants is held. -/
theorem advance_blocked {l : Lock} (hw : pc.wants = some l) (hh : s.holder l ≠ none) :
    advance i ch s pc = none := by
  cases pc with
  | idle => simp [Pc.wants] at hw
  | handshake pc =>
    cases pc <;> simp only [Pc.wants, Option.some.injEq, reduceCtorEq] at hw <;> subst hw <;>
      simp_all [advance, advanceHandshake, Shared.holder]
  | peers pc =>
    cases pc <;> simp only [Pc.wants, Option.some.injEq, Option.ite_none_right_eq_some,
      reduceCtorEq] at hw <;> (try obtain ⟨_, rfl⟩ := hw) <;>
      simp_all [advance, advancePeers, Shared.holder]
  | pair pc =>
    cases pc <;> simp only [Pc.wants, Option.some.injEq, reduceCtorEq] at hw <;> subst hw <;>
      simp_all [advance, advancePair, Shared.holder]
  | pending pc =>
    cases pc <;> simp only [Pc.wants, Option.some.injEq, reduceCtorEq] at hw
    subst hw
    simp_all [advance, advancePending, Shared.holder]
  | teardown pc =>
    cases pc <;> simp only [Pc.wants, Option.some.injEq, reduceCtorEq] at hw <;> subst hw <;>
      simp_all [advance, advanceTeardown, Shared.holder]
  | data pc =>
    cases pc <;> simp only [Pc.wants, Option.some.injEq, reduceCtorEq] at hw
    subst hw
    simp_all [advance, advanceData, Shared.holder]

/-- Only `run_responder` waits in `upsert_peer_persist` with `trusted` held. -/
def Pc.lawful : Pc → Bool
  | .peers (.lastAddr _ _ k) => !k.isTofu
  | _ => true

/-- A task that has no lock. -/
def Pc.lockless (pc : Pc) : Bool := pc.lawful && !pc.holds .trusted && !pc.holds .peersDisk

/-- The locks a task has are those its place in the code says it keeps. -/
def KeepsLocks (s : Shared) (i : ℕ) (pc : Pc) : Prop :=
  pc.lawful ∧ ∀ l, s.holder l = some i ↔ pc.holds l

theorem Pc.lockless_iff : pc.lockless ↔ pc.lawful ∧ ∀ l, pc.holds l = false := by
  simp only [Pc.lockless, Bool.and_eq_true, Bool.not_eq_true', and_assoc, and_congr_right_iff]
  refine fun _ ↦ ⟨fun h l ↦ ?_, fun h ↦ ⟨h _, h _⟩⟩
  cases l
  · exact h.1
  · exact h.2

theorem afterHandshake_lockless (c : Contact) (role : Role) : (afterHandshake c role).lockless := by
  cases role with
  | initiator sasGate => cases sasGate <;> rfl
  | rekey => rfl
  | responder known => rfl

theorem respond_lockless (c : Contact) (known : Bool) : (respond c known).lockless := by
  cases known <;> rfl

theorem Caller.resume_lockless (k : Caller) (ok : Bool) : (k.resume ok).lockless := by
  cases k with
  | tofu c known => cases ok <;> rfl
  | handshake c role => exact afterHandshake_lockless c role
  | _ => cases ok <;> rfl

theorem DataFrame.admitted_lockless (p : PeerId) (d : DataFrame) : (d.admitted p).lockless := by
  cases d with
  | item relay => cases relay <;> rfl
  | resyncOffer pulls => rfl
  | resyncPull served => rfl

/-- A section that neither takes a lock past its end nor releases one. -/
structure Lockless (s : Shared) (n : Next) : Prop where
  trustedBy : n.sh.trustedBy = s.trustedBy
  diskBy : n.sh.diskBy = s.diskBy
  lockless : n.pc.lockless

theorem Lockless.of_pair {pc : PairPc} (h : PairStep s pc n) : Lockless s n := by
  cases h <;> exact ⟨rfl, rfl, rfl⟩

theorem Lockless.of_pending {pc : PendingPc} (h : PendingStep ch s pc n) : Lockless s n := by
  cases h with
  | verifyPark hp =>
    obtain ⟨pending, -, rfl⟩ := Shared.park_eq hp
    exact ⟨rfl, rfl, rfl⟩
  | _ => exact ⟨rfl, rfl, rfl⟩

theorem Lockless.of_teardown {pc : TeardownPc} (h : TeardownStep s pc n) : Lockless s n := by
  cases h with
  | @purged next => exact ⟨rfl, rfl, by cases next <;> rfl⟩
  | _ => exact ⟨rfl, rfl, rfl⟩

theorem Lockless.of_data {pc : DataPc} (h : DataStep s pc n) : Lockless s n := by
  cases h with
  | @passed p d => exact ⟨rfl, rfl, d.admitted_lockless p⟩
  | @sent what k => exact ⟨rfl, rfl, by cases k <;> rfl⟩
  | _ => exact ⟨rfl, rfl, rfl⟩

theorem Lockless.keeps (h : Lockless s n) (hp : ∀ l, pc.holds l = false) (hk : KeepsLocks s i pc) :
    KeepsLocks n.sh i n.pc ∧ ∀ l, n.sh.holder l = s.holder l := by
  have hh : ∀ l, n.sh.holder l = s.holder l := fun l ↦ by
    cases l
    · exact h.trustedBy
    · exact h.diskBy
  obtain ⟨hl, hf⟩ := Pc.lockless_iff.mp h.lockless
  refine ⟨⟨hl, fun l ↦ ?_⟩, hh⟩
  rw [hh, hk.2, hf, hp]

/-- Tasks other than `i` have the same locks in `s` and `s'`. -/
def SameForOthers (i : ℕ) (s s' : Shared) : Prop :=
  ∀ j, j ≠ i → ∀ l, s'.holder l = some j ↔ s.holder l = some j

theorem Lockless.section (h : Lockless s n) (hp : ∀ l, pc.holds l = false)
    (hk : KeepsLocks s i pc) : KeepsLocks n.sh i n.pc ∧ SameForOthers i s n.sh := by
  obtain ⟨h₁, h₂⟩ := h.keeps hp hk
  exact ⟨h₁, fun j _ l ↦ by rw [h₂]⟩

/-- The TOFU insert is the one handshake section that keeps a lock. -/
theorem Lockless.of_handshake {pc : HandshakePc} (h : HandshakeStep i ch s pc n)
    (hc : ∀ c known, pc = .resolve c known → ¬ s.Tofu c) : Lockless s n := by
  cases h with
  | @tofu c known _ ht => exact absurd ht (hc c known rfl)
  | trusts _ _ _ => exact ⟨rfl, rfl, respond_lockless _ _⟩
  | tofuPark hs =>
    obtain ⟨pending, -, rfl⟩ := Shared.park_eq hs
    exact ⟨rfl, rfl, respond_lockless _ _⟩
  | gatedPark hs =>
    obtain ⟨pending, -, rfl⟩ := Shared.park_eq hs
    exact ⟨rfl, rfl, rfl⟩
  | @install c role _ =>
    obtain ⟨ps, hps⟩ := s.link_eq c.peer
    exact ⟨by rw [hps], by rw [hps], rfl⟩
  | _ => exact ⟨rfl, rfl, rfl⟩

theorem handshake_keepsLocks {pc : HandshakePc} (h : HandshakeStep i ch s pc n)
    (hk : KeepsLocks s i (.handshake pc)) :
    KeepsLocks n.sh i n.pc ∧ SameForOthers i s n.sh := by
  have hp : ∀ l, (Pc.handshake pc).holds l = false := fun l ↦ by cases l <;> rfl
  by_cases hc : ∀ c known, pc = .resolve c known → ¬ s.Tofu c
  · exact (Lockless.of_handshake h hc).section hp hk
  push Not at hc
  obtain ⟨c, known, rfl, hc⟩ := hc
  cases h with
  | refuse _ hn => exact absurd hc hn
  | trusts _ ht _ => simp [hc.unknown] at ht
  | tofu ht _ =>
    have hd : s.diskBy ≠ some i := by simpa [Shared.holder, Pc.holds] using hk.2 .peersDisk
    refine ⟨⟨rfl, fun l ↦ ?_⟩, fun j hj l ↦ ?_⟩ <;> cases l
    · simp [Shared.holder, Pc.holds, Caller.isTofu]
    · simpa [Shared.holder, Pc.holds, Shared.enroll] using hd
    · simp [Shared.holder, ht, hj.symm]
    · rfl

theorem Shared.settle_trustedBy (s : Shared) (k : Caller) (ok : Bool) :
    (s.settle k ok).trustedBy = if k.isTofu then none else s.trustedBy := by
  cases k <;> rfl

theorem Shared.settle_diskBy (s : Shared) (k : Caller) (ok : Bool) :
    (s.settle k ok).diskBy = s.diskBy := by
  cases k <;> cases ok <;> rfl

/-- The end of an upsert gives back what the upsert held. -/
theorem settle_keepsLocks {k : Caller} {ok : Bool} (ht : s.trustedBy = some i ↔ k.isTofu)
    (hd : s.diskBy ≠ some i) :
    KeepsLocks (s.settle k ok) i (k.resume ok) ∧ SameForOthers i s (s.settle k ok) := by
  obtain ⟨hl, hf⟩ := Pc.lockless_iff.mp (k.resume_lockless ok)
  refine ⟨⟨hl, fun l ↦ ?_⟩, fun j hj l ↦ ?_⟩ <;> cases l
  · cases hk : k.isTofu <;> simp_all [Shared.holder, Shared.settle_trustedBy]
  · simp [Shared.holder, Shared.settle_diskBy, hf, hd]
  · cases hk : k.isTofu <;> simp_all [Shared.holder, Shared.settle_trustedBy, hj.symm]
  · simp only [Shared.holder, Shared.settle_diskBy]

/-- Dropping `peers_disk_lock` and then settling with the caller. -/
theorem release_keepsLocks {k : Caller} {ok : Bool} (ht : s.trustedBy = some i ↔ k.isTofu)
    (hd : s.diskBy = some i) (peersFile : List StoredPeer) :
    KeepsLocks (({ s with peersFile := peersFile, diskBy := none }).settle k ok) i (k.resume ok) ∧
      SameForOthers i s (({ s with peersFile := peersFile, diskBy := none }).settle k ok) := by
  obtain ⟨h₁, h₂⟩ := @settle_keepsLocks i { s with peersFile := peersFile, diskBy := none } k ok ht
    (by simp)
  refine ⟨h₁, fun j hj l ↦ (h₂ j hj l).trans ?_⟩
  cases l <;> simp [Shared.holder, hd, hj.symm]

theorem unlock_keepsLocks (ht : s.trustedBy ≠ some i) (hd : s.diskBy = some i)
    (peersFile : List StoredPeer) (hpc : pc.lockless) :
    KeepsLocks { s with peersFile := peersFile, diskBy := none } i pc ∧
      SameForOthers i s { s with peersFile := peersFile, diskBy := none } := by
  obtain ⟨hl, hf⟩ := Pc.lockless_iff.mp hpc
  refine ⟨⟨hl, fun l ↦ ?_⟩, fun j hj l ↦ ?_⟩ <;> cases l
  · simp [Shared.holder, hf, ht]
  · simp [Shared.holder, hf]
  · rfl
  · simp [Shared.holder, hd, hj.symm]

theorem peers_keepsLocks {pc : PeersPc} (h : PeersStep i ch s pc n)
    (hk : KeepsLocks s i (.peers pc)) :
    KeepsLocks n.sh i n.pc ∧ SameForOthers i s n.sh := by
  obtain ⟨hl, hh⟩ := hk
  have ht := hh .trusted
  have hd := hh .peersDisk
  simp only [Shared.holder] at ht hd
  cases h with
  | @skip p addr k hs =>
    exact Lockless.section ⟨rfl, rfl, k.resume_lockless true⟩ (fun l ↦ by cases l <;> rfl) ⟨hl, hh⟩
  | @lastAddr p addr k t _ hfree _ =>
    have hkt : k.isTofu = false := by simpa [Pc.lawful] using hl
    refine ⟨⟨rfl, fun l ↦ ?_⟩, fun j _ l ↦ Iff.rfl⟩
    cases l
    · simp [Shared.holder, Pc.holds, hfree, hkt]
    · exact hh .peersDisk
  | @upsert k entry hfree _ =>
    refine ⟨⟨rfl, fun l ↦ ?_⟩, fun j hj l ↦ ?_⟩ <;> cases l
    · exact ht
    · simp [Shared.holder, Pc.holds]
    · rfl
    · simp [Shared.holder, hfree, hj.symm]
  | @unreadable k entry hfree _ => exact settle_keepsLocks ht (by simp [hfree])
  | @upserted k attempt stored _ => exact release_keepsLocks ht (hd.mpr rfl) stored
  | upsertRetry _ _ => exact ⟨⟨rfl, fun l ↦ by cases l; exacts [ht, hd]⟩, fun j _ l ↦ Iff.rfl⟩
  | @upsertFail k attempt stored _ _ => exact release_keepsLocks ht (hd.mpr rfl) s.peersFile
  | @save k hfree =>
    refine ⟨⟨rfl, fun l ↦ ?_⟩, fun j hj l ↦ ?_⟩ <;> cases l
    · exact ht
    · simp [Shared.holder, Pc.holds]
    · rfl
    · simp [Shared.holder, hfree, hj.symm]
  | snapshot _ _ => exact ⟨⟨rfl, fun l ↦ by cases l; exacts [ht, hd]⟩, fun j _ l ↦ Iff.rfl⟩
  | @saved k attempt stored _ =>
    exact unlock_keepsLocks (by simpa [Pc.holds] using ht) (hd.mpr rfl) stored
      (k.resume_lockless true)
  | saveRetry _ _ => exact ⟨⟨rfl, fun l ↦ by cases l; exacts [ht, hd]⟩, fun j _ l ↦ Iff.rfl⟩
  | @saveFail k attempt stored _ _ =>
    exact unlock_keepsLocks (by simpa [Pc.holds] using ht) (hd.mpr rfl) s.peersFile
      (k.resume_lockless false)

theorem advance_keepsLocks (h : advance i ch s pc = some n) (hk : KeepsLocks s i pc) :
    KeepsLocks n.sh i n.pc ∧ SameForOthers i s n.sh := by
  cases pc with
  | idle => simp [advance] at h
  | handshake pc => exact handshake_keepsLocks (handshakeStep h) hk
  | peers pc => exact peers_keepsLocks (peersStep h) hk
  | pair pc =>
    exact (Lockless.of_pair (pairStep h)).section (fun l ↦ by cases l <;> rfl) hk
  | pending pc =>
    exact (Lockless.of_pending (pendingStep h)).section (fun l ↦ by cases l <;> rfl) hk
  | teardown pc =>
    exact (Lockless.of_teardown (teardownStep h)).section (fun l ↦ by cases l <;> rfl) hk
  | data pc =>
    exact (Lockless.of_data (dataStep h)).section (fun l ↦ by cases l <;> rfl) hk

theorem KeepsLocks.of_idle {pc' : Pc} (h : KeepsLocks s i .idle) (hpc : pc'.lockless) :
    KeepsLocks s i pc' := by
  obtain ⟨hl, hf⟩ := Pc.lockless_iff.mp hpc
  exact ⟨hl, fun l ↦ (h.2 l).trans (by rw [hf]; cases l <;> rfl)⟩

theorem spawned_lockless {pc' : Pc} (h : advance i ch s pc = some n) (hs : n.spawned = some pc') :
    pc'.lockless := by
  obtain ⟨c, already, -, rfl⟩ | ⟨-, rfl⟩ := advance_spawned h hs
  · rfl
  · rfl

def System.LockInvariant (d : System) : Prop := ∀ i, KeepsLocks d.sh i (d.tasks i)

theorem Op.entry_lockless (op : Op) : op.entry.lockless := by
  cases op <;> rfl

theorem System.lockInvariant_init : init.LockInvariant := by
  refine fun i ↦ ⟨rfl, fun l ↦ ?_⟩
  cases l <;> simp [init, Shared.holder, Pc.holds]

theorem System.LockInvariant.step (hd : d.LockInvariant) (h : System.step κ d a = some u) :
    u.LockInvariant := by
  refine (move_of_step h).forall_tasks hd ?_ ?_ ?_ ?_ ?_ ?_
  · refine fun i readable ↦ ⟨rfl, fun l ↦ ?_⟩
    cases l <;> simp [Shared.boot, Shared.holder, Pc.holds]
  · exact fun i op hi _ _ ↦ hi.of_idle op.entry_lockless
  · exact fun i ch n hn ↦ (advance_keepsLocks hn (hd i)).1
  · exact fun i ch n j pc hn hs _ hj ↦ hj.of_idle (spawned_lockless hn hs)
  · exact fun i ch n j hn hj ↦
      ⟨(hd j).1, fun l ↦ ((advance_keepsLocks hn (hd i)).2 j hj l).trans ((hd j).2 l)⟩
  · intro i s hs
    cases a <;> simp only [Act.ambient, Option.some.injEq, reduceCtorEq] at hs <;> subst hs <;>
      exact ⟨(hd i).1, fun l ↦ by cases l; exacts [(hd i).2 .trusted, (hd i).2 .peersDisk]⟩

/-- `run_responder` waits for `peers_disk_lock` with `trusted` held. -/
def Pc.tofuWaits : Pc → Bool
  | .peers (.upsert k _) => k.isTofu
  | _ => false

/-- `save_current_peers` waits for `trusted` with `peers_disk_lock` held. -/
def Pc.saveWaits : Pc → Bool
  | .peers (.snapshot ..) => true
  | _ => false

theorem Pc.waits_of_holds {l l' : Lock} (hh : pc.holds l) (hw : pc.wants = some l') :
    pc.tofuWaits ∧ l = .trusted ∧ l' = .peersDisk ∨ pc.saveWaits ∧ l = .peersDisk ∧ l' = .trusted := by
  cases pc with
  | peers pc =>
    cases pc <;> cases l <;> simp_all [Pc.holds, Pc.wants, Pc.tofuWaits, Pc.saveWaits]
  | _ => cases l <;> simp [Pc.holds] at hh

theorem Pc.holds_of_tofuWaits (h : pc.tofuWaits) : pc.holds .trusted ∧ pc.wants = some .peersDisk := by
  cases pc with
  | peers pc => cases pc <;> simp_all [Pc.holds, Pc.wants, Pc.tofuWaits]
  | _ => simp [Pc.tofuWaits] at h

theorem Pc.holds_of_saveWaits (h : pc.saveWaits) : pc.holds .peersDisk ∧ pc.wants = some .trusted := by
  cases pc with
  | peers pc => cases pc <;> simp_all [Pc.holds, Pc.wants, Pc.saveWaits]
  | _ => simp [Pc.saveWaits] at h

theorem System.LockInvariant.deadlocked_iff (hd : d.LockInvariant) :
    d.Deadlocked ↔ (∃ i, (d.tasks i).tofuWaits) ∧ ∃ i, (d.tasks i).saveWaits := by
  constructor
  · intro h
    by_contra hn
    rw [not_and_or] at hn
    rcases hn with hn | hn
    · refine WaitFor.not_deadlocked_of_rank (fun l : Lock ↦ if l = .trusted then 1 else 0) ?_ h
      intro i l l' hl hw
      obtain ⟨ht, -⟩ | ⟨-, rfl, rfl⟩ := Pc.waits_of_holds (((hd i).2 l).mp hl) hw
      · exact absurd ⟨i, ht⟩ hn
      · simp
    · refine WaitFor.not_deadlocked_of_rank (fun l : Lock ↦ if l = .trusted then 0 else 1) ?_ h
      intro i l l' hl hw
      obtain ⟨-, rfl, rfl⟩ | ⟨hs, -⟩ := Pc.waits_of_holds (((hd i).2 l).mp hl) hw
      · simp
      · exact absurd ⟨i, hs⟩ hn
  · rintro ⟨⟨i, hi⟩, j, hj⟩
    have hij := Pc.holds_of_tofuWaits hi
    have hji := Pc.holds_of_saveWaits hj
    exact WaitFor.deadlocked_of_two (((hd i).2 _).mpr hij.1) (((hd j).2 _).mpr hji.1) hij.2 hji.2

/-- The section inserts a peer in `run_responder` and keeps `trusted`. -/
def Pc.insertsTofu (s : Shared) (pc : Pc) : Prop :=
  ∃ c known, pc = .handshake (.resolve c known) ∧ s.Tofu c

/-- The section begins or retries a save with `peers_disk_lock` held. -/
def Pc.opensSave (ch : Choice) (pc : Pc) : Prop :=
  (∃ k, pc = .peers (.save k)) ∨
    ∃ k attempt stored, pc = .peers (.saveWrite k attempt stored) ∧ ch.ok = false ∧
      attempt + 1 < PEERS_PERSIST_ATTEMPTS

/-- A TOFU insert finds no save between its two locks, and a save begins or is
retried while no TOFU insert waits for the file. -/
def Orderly (d : System) : Act → Prop
  | .lockSection i ch =>
    ((d.tasks i).insertsTofu d.sh → ∀ j, ¬ (d.tasks j).saveWaits) ∧
      ((d.tasks i).opensSave ch → ∀ j, ¬ (d.tasks j).tofuWaits)
  | _ => True

theorem Pc.not_waits_of_lockless (h : pc.lockless) : ¬ pc.tofuWaits ∧ ¬ pc.saveWaits := by
  have hf := (Pc.lockless_iff.mp h).2
  exact ⟨fun ht ↦ by simpa [hf] using (Pc.holds_of_tofuWaits ht).1,
    fun hs ↦ by simpa [hf] using (Pc.holds_of_saveWaits hs).1⟩

/-- Which sections leave their task waiting with a lock held. -/
def WaitsAfter (ch : Choice) (s : Shared) (pc : Pc) (n : Next) : Prop :=
  (n.pc.tofuWaits ↔ pc.insertsTofu s) ∧ (n.pc.saveWaits ↔ pc.opensSave ch)

theorem Lockless.waitsAfter (h : Lockless s n) (hpc : ∀ pc', pc ≠ .peers pc')
    (hc : ∀ c known, pc = .handshake (.resolve c known) → ¬ s.Tofu c) : WaitsAfter ch s pc n := by
  obtain ⟨h₁, h₂⟩ := Pc.not_waits_of_lockless h.lockless
  refine ⟨iff_of_false h₁ ?_, iff_of_false h₂ ?_⟩
  · rintro ⟨c, known, hr, ht⟩
    exact hc c known hr ht
  · rintro (⟨k, hk⟩ | ⟨k, attempt, stored, hk, -⟩) <;> exact hpc _ hk

theorem peers_waitsAfter {pc : PeersPc} (h : PeersStep i ch s pc n) (hl : (Pc.peers pc).lawful) :
    WaitsAfter ch s (.peers pc) n := by
  have hr : ∀ (k : Caller) (ok : Bool), (k.resume ok).tofuWaits = false ∧
      (k.resume ok).saveWaits = false := fun k ok ↦ by
    simpa using Pc.not_waits_of_lockless (k.resume_lockless ok)
  cases h <;> simp_all [WaitsAfter, Pc.insertsTofu, Pc.opensSave, Pc.tofuWaits, Pc.saveWaits, Pc.lawful]

theorem advance_waitsAfter (h : advance i ch s pc = some n) (hl : pc.lawful) :
    WaitsAfter ch s pc n := by
  cases pc with
  | idle => simp [advance] at h
  | handshake pc =>
    have hs := handshakeStep h
    by_cases hc : ∀ c known, pc = .resolve c known → ¬ s.Tofu c
    · exact (Lockless.of_handshake hs hc).waitsAfter (by simp) (by simpa using hc)
    push Not at hc
    obtain ⟨c, known, rfl, hc⟩ := hc
    cases hs with
    | refuse _ hn => exact absurd hc hn
    | trusts _ ht _ => simp [hc.unknown] at ht
    | tofu _ _ => simp [WaitsAfter, Pc.insertsTofu, Pc.opensSave, Pc.tofuWaits, Pc.saveWaits, Caller.isTofu, hc]
  | peers pc => exact peers_waitsAfter (peersStep h) hl
  | pair pc => exact (Lockless.of_pair (pairStep h)).waitsAfter (by simp) (by simp)
  | pending pc => exact (Lockless.of_pending (pendingStep h)).waitsAfter (by simp) (by simp)
  | teardown pc => exact (Lockless.of_teardown (teardownStep h)).waitsAfter (by simp) (by simp)
  | data pc => exact (Lockless.of_data (dataStep h)).waitsAfter (by simp) (by simp)

theorem System.orderly_iff (hd : d.LockInvariant) (hfree : ¬ d.Deadlocked)
    (h : System.step κ d a = some u) : ¬ u.Deadlocked ↔ Orderly d a := by
  rw [hd.deadlocked_iff] at hfree
  rw [(hd.step h).deadlocked_iff]
  have hm := move_of_step h
  cases a with
  | lockSection i ch =>
    obtain ⟨n, hn, -, hu⟩ := hm.exists_task_iff
    obtain ⟨ht, hs⟩ := advance_waitsAfter hn (hd i).1
    have hsp : ∀ pc, n.spawned = some pc → pc.tofuWaits = false ∧ pc.saveWaits = false :=
      fun pc hp ↦ by simpa using Pc.not_waits_of_lockless (spawned_lockless hn hp)
    have htu : n.Leaves ch Pc.tofuWaits ↔ (d.tasks i).insertsTofu d.sh :=
      ⟨Or.rec ht.mp fun ⟨pc, hp, _, hf⟩ ↦ by simp [hsp pc hp] at hf, fun h ↦ .inl (ht.mpr h)⟩
    have hsu : n.Leaves ch Pc.saveWaits ↔ (d.tasks i).opensSave ch :=
      ⟨Or.rec hs.mp fun ⟨pc, hp, _, hf⟩ ↦ by simp [hsp pc hp] at hf, fun h ↦ .inl (hs.mpr h)⟩
    rw [hu _ rfl, hu _ rfl, htu, hsu]
    constructor
    · intro hnot
      refine ⟨fun hi j hj ↦ hnot ⟨.inl hi, .inr ⟨j, ?_, hj⟩⟩,
        fun ho j hj ↦ hnot ⟨.inr ⟨j, ?_, hj⟩, .inl ho⟩⟩
      · rintro rfl
        obtain ⟨c, known, hi, -⟩ := hi
        simp [hi, Pc.saveWaits] at hj
      · rintro rfl
        obtain ⟨k, ho⟩ | ⟨k, attempt, stored, ho, -⟩ := ho <;> simp [ho, Pc.tofuWaits] at hj
    · rintro ⟨hi, ho⟩ ⟨hT | ⟨j, -, hj⟩, hS | ⟨k, -, hk⟩⟩
      · obtain ⟨c, known, hr, -⟩ := hT
        obtain ⟨k, hw⟩ | ⟨k, attempt, stored, hw, -⟩ := hS <;> simp [hr] at hw
      · exact hi hT k hk
      · exact ho hS j hj
      · exact hfree ⟨⟨j, hj⟩, k, hk⟩
  | start i op =>
    refine iff_of_true ?_ trivial
    cases hm with
    | ambient hs => simp [Act.ambient] at hs
    | start hi _ _ =>
      have hop := Pc.not_waits_of_lockless op.entry_lockless
      rintro ⟨⟨j, hj⟩, k, hk⟩
      refine hfree ⟨⟨j, ?_⟩, k, ?_⟩
      · obtain rfl | hji := eq_or_ne j i
        · exact absurd (by simpa using hj) hop.1
        · simpa [hji] using hj
      · obtain rfl | hki := eq_or_ne k i
        · exact absurd (by simpa using hk) hop.2
        · simpa [hki] using hk
  | crash readable =>
    refine iff_of_true ?_ trivial
    cases hm with
    | ambient hs => simp [Act.ambient] at hs
    | crash => simp [Pc.tofuWaits]
  | _ => 
    refine iff_of_true ?_ trivial
    cases hm
    exact hfree

/-- Along any run, no cycle of waiting tasks ever forms exactly when every step
is orderly. -/
theorem deadlockFree_iff {l : List Act} (h : Run (System.step κ) Always System.init l d) :
    (∀ l' d', l' <+: l → Run (System.step κ) Always System.init l' d' → ¬ d'.Deadlocked) ↔
      Run (System.step κ) Orderly System.init l d := by
  have hinv : ∀ {l' d'}, Run (System.step κ) Always System.init l' d' → d'.LockInvariant :=
    fun hr ↦ hr.invariant System.lockInvariant_init fun _ _ _ hi _ hs ↦ hi.step hs
  have h₀ : ¬ System.init.Deadlocked := by
    rw [System.lockInvariant_init.deadlocked_iff]
    simp [System.init, Pc.tofuWaits]
  rw [← run_guarded_iff (I := fun d ↦ d.LockInvariant ∧ ¬ d.Deadlocked)
    ⟨System.lockInvariant_init, h₀⟩ (fun t a u ⟨ht, hf⟩ hs ↦
      (and_iff_right (ht.step hs)).trans (System.orderly_iff ht hf hs)) h]
  exact ⟨fun hf l' d' hl hr ↦ ⟨hinv hr, hf l' d' hl hr⟩, fun hf l' d' hl hr ↦ (hf l' d' hl hr).2⟩

/-- A peer joins under the pairing window and is revoked, up to the save. -/
def tofuThenRevoke : List Act :=
  [.start 0 .pairShow, .lockSection 0 succeeds,
    .start 3 (.responder (plainContact 1) false), .lockSection 3 succeeds, .lockSection 3 succeeds,
    .lockSection 3 succeeds,
    .start 0 (.revoke 1), .lockSection 0 succeeds, .lockSection 0 succeeds]

theorem tofuThenRevoke_runs :
    (tofuThenRevoke.foldlM (System.step plainCrypto) System.init).isSome := by
  decide +kernel

theorem deadlockFree_tofuThenRevoke :
    ∃ d, Run (System.step plainCrypto) Always System.init tofuThenRevoke d ∧
      ((∀ l' d', l' <+: tofuThenRevoke → Run (System.step plainCrypto) Always System.init l' d' →
        ¬ d'.Deadlocked) ↔ Run (System.step plainCrypto) Orderly System.init tofuThenRevoke d) :=
  ⟨_, run_of_isSome tofuThenRevoke_runs, deadlockFree_iff (run_of_isSome tofuThenRevoke_runs)⟩

/-- A second peer's handshake takes `trusted` while that save has the file. -/
def tofuAgainstRevoke : List Act :=
  tofuThenRevoke ++ [.start 4 (.responder (plainContact 2) false), .lockSection 4 succeeds]

theorem tofuAgainstRevoke_runs :
    (tofuAgainstRevoke.foldlM (System.step plainCrypto) System.init).isSome := by
  decide +kernel

theorem tofuAgainstRevoke_deadlocks :
    ∃ d, Run (System.step plainCrypto) Always System.init tofuAgainstRevoke d ∧ d.Deadlocked := by
  refine ⟨_, run_of_isSome tofuAgainstRevoke_runs, ?_⟩
  have hi : ((tofuAgainstRevoke.foldlM (System.step plainCrypto) System.init).get
    tofuAgainstRevoke_runs).sh.holder .trusted = some 4 := by decide +kernel
  have hj : ((tofuAgainstRevoke.foldlM (System.step plainCrypto) System.init).get
    tofuAgainstRevoke_runs).sh.holder .peersDisk = some 0 := by decide +kernel
  exact WaitFor.deadlocked_of_two hi hj (by decide +kernel) (by decide +kernel)

end FluxSync.Daemon
