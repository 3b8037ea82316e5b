import FluxSync.Foundation.Runs
import FluxSync.Types

namespace FluxSync.EventSeq

open Runs

def RESERVE : UInt64 := 1000

def MAX : UInt64 := 0xffffffffffffffff

def saturatingAdd (a b : UInt64) : UInt64 := if a ≤ MAX - b then a + b else MAX

/-- `event_seq.json` and its backup, as the horizons they hold. -/
structure Disk where
  main : Option UInt64
  bak : Option UInt64

def readHorizon (disk : Disk) : UInt64 := (disk.main <|> disk.bak).getD 0

/-- Where the daemon stands between two disk writes or allocations. -/
inductive Pc
  | ready
  | advance (current : UInt64)
  | persistBak (newHorizon : UInt64)
  | persistMain (newHorizon : UInt64)

/-- `App.local_seq` and the `SeqStore` of a running daemon. -/
structure Process where
  localSeq : UInt64
  horizon : UInt64
  pc : Pc

structure Daemon where
  selfDevice : PeerId
  disk : Disk
  process : Option Process
  /-- The ids handed out so far. Nothing reads them. -/
  issued : List EventId

inductive Act
  | boot
  | allocate
  | resume
  | crash

/-- `SeqStore::load` up to its first write, with the counter it returns. -/
def load (disk : Disk) : Process where
  localSeq := readHorizon disk
  horizon := readHorizon disk
  pc := .persistBak (saturatingAdd (readHorizon disk) RESERVE)

/-- One disk write, or the test of `SeqStore::advance`. Writes succeed. -/
def Process.resume (p : Process) (disk : Disk) : Option (Process × Disk) :=
  match p.pc with
  | .ready => none
  | .advance current =>
    if current < p.horizon then some ({ p with pc := .ready }, disk)
    else some ({ p with pc := .persistBak (saturatingAdd current RESERVE) }, disk)
  | .persistBak newHorizon =>
    some ({ p with pc := .persistMain newHorizon }, { disk with bak := some p.horizon })
  | .persistMain newHorizon =>
    some ({ p with horizon := newHorizon, pc := .ready }, { disk with main := some newHorizon })

/-- `dispatch` allocates an id with the wrapping addition of a release build and
calls `advance` with the seq after it. -/
def step (d : Daemon) : Act → Option Daemon
  | .boot =>
    match d.process with
    | none => some { d with process := some (load d.disk) }
    | some _ => none
  | .allocate =>
    match d.process with
    | some ⟨localSeq, horizon, .ready⟩ =>
      some
        { d with
          process := some ⟨localSeq + 1, horizon, .advance (localSeq + 1)⟩
          issued := d.issued ++ [⟨d.selfDevice, localSeq⟩] }
    | _ => none
  | .resume =>
    d.process.bind fun p ↦ (p.resume d.disk).map fun (p, disk) ↦
      { d with process := some p, disk := disk }
  | .crash => some { d with process := none }

def Daemon.init (selfDevice : PeerId) : Daemon := ⟨selfDevice, ⟨none, none⟩, none, []⟩

/-- No seq is handed out after `u64::MAX` has been. -/
def Unspent (d : Daemon) : Act → Prop
  | .allocate => ∀ e ∈ d.issued, e.seq ≠ MAX
  | _ => True

/-- `n` is above everything handed out. -/
def Above (issued : List EventId) (n : UInt64) : Prop := ∀ e ∈ issued, e.seq.toNat < n.toNat

/-- A counter that may be handed out under a horizon, where the two meet only at the top. -/
def Below (localSeq horizon : UInt64) : Prop :=
  localSeq.toNat < horizon.toNat ∨ localSeq = MAX ∧ horizon = MAX

def Process.Reserved (p : Process) (disk : Disk) : Prop :=
  match p.pc with
  | .ready => disk.main = some p.horizon ∧ Below p.localSeq p.horizon
  | .advance current =>
    disk.main = some p.horizon ∧ current = p.localSeq ∧ p.localSeq.toNat ≤ p.horizon.toNat
  | .persistBak newHorizon | .persistMain newHorizon =>
    (∀ h, disk.main = some h → h = p.horizon) ∧ p.horizon.toNat ≤ newHorizon.toNat ∧
      Below p.localSeq newHorizon

structure Reserved (d : Daemon) : Prop where
  disk : Above d.issued (readHorizon d.disk)
  process : ∀ p, d.process = some p →
    Above d.issued p.localSeq ∧ Above d.issued p.horizon ∧ p.Reserved d.disk

theorem saturatingAdd_toNat (a : UInt64) :
    (saturatingAdd a RESERVE).toNat = min (a.toNat + 1000) (2 ^ 64 - 1) := by
  have ha := a.toNat_lt
  have hmax : (MAX - RESERVE).toNat = 2 ^ 64 - 1001 := rfl
  have htop : MAX.toNat = 2 ^ 64 - 1 := rfl
  unfold saturatingAdd
  split
  · rename_i h
    have hle : a.toNat ≤ (MAX - RESERVE).toNat := h
    rw [UInt64.toNat_add, show RESERVE.toNat = 1000 from rfl]
    omega
  · rename_i h
    have hlt : ¬ a.toNat ≤ (MAX - RESERVE).toNat := h
    omega

theorem eq_MAX_iff {a : UInt64} : a = MAX ↔ a.toNat = 2 ^ 64 - 1 := by
  rw [← UInt64.toNat_inj]
  rfl

theorem below_saturatingAdd (a : UInt64) : Below a (saturatingAdd a RESERVE) := by
  have ha := a.toNat_lt
  have hsum := saturatingAdd_toNat a
  rw [Below, eq_MAX_iff, eq_MAX_iff]
  omega

theorem le_saturatingAdd (a : UInt64) : a.toNat ≤ (saturatingAdd a RESERVE).toNat := by
  have ha := a.toNat_lt
  have hsum := saturatingAdd_toNat a
  omega

variable {d u : Daemon} {a : Act}

theorem Above.mono {issued : List EventId} {n m : UInt64} (h : Above issued n)
    (hnm : n.toNat ≤ m.toNat) : Above issued m :=
  fun e he ↦ (h e he).trans_le hnm

theorem Reserved.boot (hd : Reserved d) : Reserved { d with process := some (load d.disk) } where
  disk := hd.disk
  process := by
    rintro p hp
    obtain rfl := Option.some.inj hp
    refine ⟨hd.disk, hd.disk, fun h hh ↦ ?_, le_saturatingAdd _, below_saturatingAdd _⟩
    simp [load, readHorizon, show d.disk.main = some h from hh]

/-- A disk write or the test of `advance` keeps the reservation. -/
theorem Reserved.resume {p p' : Process} {disk : Disk} (hd : Reserved d) (hp : d.process = some p)
    (h : p.resume d.disk = some (p', disk)) :
    Reserved { d with process := some p', disk := disk } := by
  obtain ⟨hlocal, hhorizon, hpc⟩ := hd.process p hp
  unfold Process.Reserved at hpc
  unfold Process.resume at h
  cases hcase : p.pc with
  | ready => simp [hcase] at h
  | advance current =>
    simp only [hcase] at h hpc
    obtain ⟨hmain, rfl, hle⟩ := hpc
    split at h
    · rename_i hlt
      obtain ⟨rfl, rfl⟩ := Prod.mk.inj (Option.some.inj h)
      refine ⟨hd.disk, fun q hq ↦ ?_⟩
      obtain rfl := Option.some.inj hq
      exact ⟨hlocal, hhorizon, hmain, .inl hlt⟩
    · rename_i hge
      have hge : ¬ p.localSeq.toNat < p.horizon.toNat := hge
      obtain ⟨rfl, rfl⟩ := Prod.mk.inj (Option.some.inj h)
      refine ⟨hd.disk, fun q hq ↦ ?_⟩
      obtain rfl := Option.some.inj hq
      refine ⟨hlocal, hhorizon, fun h hh ↦ ?_, ?_, below_saturatingAdd _⟩
      · exact (Option.some.inj (hmain.symm.trans hh)).symm
      · have := le_saturatingAdd p.localSeq
        show p.horizon.toNat ≤ _
        omega
  | persistBak newHorizon =>
    simp only [hcase] at h hpc
    obtain ⟨hmain, hle, hbelow⟩ := hpc
    obtain ⟨rfl, rfl⟩ := Prod.mk.inj (Option.some.inj h)
    refine ⟨?_, fun q hq ↦ ?_⟩
    · cases hm : d.disk.main with
      | none => simpa [readHorizon, hm] using hhorizon
      | some h => simpa [readHorizon, hm, hmain h hm] using hhorizon
    · obtain rfl := Option.some.inj hq
      exact ⟨hlocal, hhorizon, hmain, hle, hbelow⟩
  | persistMain newHorizon =>
    simp only [hcase] at h hpc
    obtain ⟨hmain, hle, hbelow⟩ := hpc
    obtain ⟨rfl, rfl⟩ := Prod.mk.inj (Option.some.inj h)
    refine ⟨by simpa [readHorizon] using hhorizon.mono hle, fun q hq ↦ ?_⟩
    obtain rfl := Option.some.inj hq
    exact ⟨hlocal, hhorizon.mono hle, rfl, hbelow⟩

theorem Reserved.allocate {localSeq horizon : UInt64} (hd : Reserved d)
    (hp : d.process = some ⟨localSeq, horizon, .ready⟩) :
    (∀ e ∈ d.issued, e.seq ≠ localSeq) ∧
      (localSeq ≠ MAX → Reserved
        { d with
          process := some ⟨localSeq + 1, horizon, .advance (localSeq + 1)⟩
          issued := d.issued ++ [⟨d.selfDevice, localSeq⟩] }) := by
  obtain ⟨hlocal, hhorizon, hmain, hbelow⟩ := hd.process _ hp
  refine ⟨fun e he heq ↦ ?_, fun hne ↦ ?_⟩
  · have := hlocal e he
    rw [heq] at this
    exact lt_irrefl _ this
  · have hlt : localSeq.toNat < horizon.toNat := hbelow.resolve_right fun h ↦ hne h.1
    have hsucc : (localSeq + 1).toNat = localSeq.toNat + 1 := by
      have := horizon.toNat_lt
      rw [UInt64.toNat_add, UInt64.toNat_one]
      omega
    have habove : ∀ n : UInt64, localSeq.toNat < n.toNat →
        Above (d.issued ++ [⟨d.selfDevice, localSeq⟩]) n := by
      intro n hn e he
      obtain he | he := List.mem_append.mp he
      · exact (hlocal e he).trans hn
      · obtain rfl := List.mem_singleton.mp he
        exact hn
    refine ⟨habove _ ?_, fun q hq ↦ ?_⟩
    · simpa [readHorizon, show d.disk.main = some horizon from hmain] using hlt
    · obtain rfl := Option.some.inj hq
      exact ⟨habove _ (by dsimp only; omega), habove _ hlt, hmain, rfl, by dsimp only; omega⟩

/-- No id has been handed out twice, and the counter is reserved until its top
has been handed out. -/
structure Fresh (d : Daemon) : Prop where
  nodup : d.issued.Nodup
  reserved : (∀ e ∈ d.issued, e.seq ≠ MAX) → Reserved d

theorem fresh_init (selfDevice : PeerId) : Fresh (.init selfDevice) where
  nodup := List.nodup_nil
  reserved := fun _ ↦ ⟨fun e he ↦ by simp [Daemon.init] at he, fun p hp ↦ by simp [Daemon.init] at hp⟩

theorem Fresh.step (hd : Fresh d) (ha : Unspent d a) (h : step d a = some u) : Fresh u := by
  cases a with
  | boot =>
    simp only [EventSeq.step] at h
    split at h
    · obtain rfl := Option.some.inj h
      exact ⟨hd.nodup, fun hmax ↦ (hd.reserved hmax).boot⟩
    · simp at h
  | allocate =>
    simp only [EventSeq.step] at h
    split at h
    · rename_i localSeq horizon hp
      obtain rfl := Option.some.inj h
      obtain ⟨hnew, hnext⟩ := (hd.reserved ha).allocate hp
      refine ⟨?_, fun hmax ↦ hnext ?_⟩
      · refine List.nodup_append.mpr ⟨hd.nodup, List.nodup_singleton _, ?_⟩
        rintro e he _ hmem rfl
        obtain rfl := List.mem_singleton.mp hmem
        exact hnew _ he rfl
      · exact hmax ⟨d.selfDevice, localSeq⟩ (by simp)
    · simp at h
  | resume =>
    obtain ⟨p, hp, hr⟩ := Option.bind_eq_some_iff.mp h
    obtain ⟨⟨p', disk⟩, hres, rfl⟩ := Option.map_eq_some_iff.mp hr
    exact ⟨hd.nodup, fun hmax ↦ (hd.reserved hmax).resume hp hres⟩
  | crash =>
    obtain rfl := Option.some.inj h
    exact ⟨hd.nodup, fun hmax ↦ ⟨(hd.reserved hmax).disk, fun p hp ↦ by simp at hp⟩⟩

/-- Over any boots, allocations and crashes, no id is handed out twice as long
as none is handed out after the last one of the counter. -/
theorem issued_nodup {selfDevice : PeerId} {l : List Act}
    (h : Run step Unspent (.init selfDevice) l d) : d.issued.Nodup :=
  (h.invariant (fresh_init selfDevice) fun _ _ _ hd ha hs ↦ hd.step ha hs).nodup

/-- A crash before the allocation's own reservation is looked at. -/
def allocateThenCrash : List Act :=
  [.boot, .resume, .resume, .allocate, .crash, .boot, .resume, .resume, .allocate, .resume]

theorem issued_nodup_allocateThenCrash :
    ∃ d, Run step Unspent (.init 1) allocateThenCrash d ∧ d.issued = [⟨1, 0⟩, ⟨1, 1000⟩] ∧
      d.issued.Nodup := by
  have hrun : Run step (fun d _ ↦ (d.issued.all fun e ↦ e.seq != MAX) = true) (.init 1)
      allocateThenCrash _ := run_of_checked (by decide +kernel)
  have hunspent : Run step Unspent (.init 1) allocateThenCrash _ :=
    hrun.mono fun d a hc ↦ by
      cases a with
      | allocate => simpa [Unspent] using hc
      | _ => trivial
  exact ⟨_, hunspent, by decide +kernel, issued_nodup hunspent⟩

/-- `n` starts that hand out nothing. -/
def restarts (n : ℕ) : List Act := (List.replicate n [.boot, .resume, .resume, .crash]).flatten

/-- Each start reserves another block, up to the top of the counter. -/
theorem restarts_run (selfDevice : PeerId) (n : ℕ) :
    ∃ disk, (restarts n).foldlM step (.init selfDevice) = some ⟨selfDevice, disk, none, []⟩ ∧
      (readHorizon disk).toNat = min (1000 * n) (2 ^ 64 - 1) := by
  induction n with
  | zero => exact ⟨⟨none, none⟩, rfl, rfl⟩
  | succ n ih =>
    obtain ⟨disk, hrun, hn⟩ := ih
    refine ⟨⟨some (saturatingAdd (readHorizon disk) RESERVE), some (readHorizon disk)⟩, ?_, ?_⟩
    · rw [restarts, List.replicate_succ', List.flatten_append, List.foldlM_append, ← restarts, hrun]
      rfl
    · have hsum := saturatingAdd_toNat (readHorizon disk)
      rw [hn] at hsum
      show (saturatingAdd (readHorizon disk) RESERVE).toNat = _
      omega

/-- The counter is at its top after this many starts. -/
def exhausted : List Act :=
  restarts 18446744073709552 ++
    [.boot, .resume, .resume, .allocate, .crash, .boot, .resume, .resume, .allocate]

theorem exhausted_reissues :
    ∃ d, Run step Always (.init 1) exhausted d ∧ d.issued = [⟨1, MAX⟩, ⟨1, MAX⟩] := by
  obtain ⟨disk, hrun, hn⟩ := restarts_run 1 18446744073709552
  have htop : readHorizon disk = MAX := eq_MAX_iff.mpr (hn.trans (by decide))
  refine ⟨_, run_of_foldlM (t := ?_) ?_, ?_⟩
  · exact ⟨1, ⟨some MAX, some MAX⟩, some ⟨0, MAX, .advance 0⟩, [⟨1, MAX⟩, ⟨1, MAX⟩]⟩
  · rw [exhausted, List.foldlM_append, hrun]
    simp only [List.foldlM_cons, List.foldlM_nil, Option.bind_eq_bind, Option.bind_some, step, load,
      Process.resume, htop, Option.map_some]
    rfl
  · rfl

end FluxSync.EventSeq
