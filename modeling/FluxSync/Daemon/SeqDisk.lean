import FluxSync.Daemon.EventSeq
import FluxSync.Daemon.Keystore

/-! ## The counter of the event ids on a disk that crashes -/

namespace FluxSync.SeqDisk

open Runs Keystore EventSeq

/-- Where the daemon stands between two system calls or allocations. -/
inductive Pc
  | ready
  | advance (current : UInt64)
  | persistBak (newHorizon : UInt64)
  | writeBak (newHorizon : UInt64)
  | persistMain (newHorizon : UInt64)
  | writeMain (newHorizon : UInt64)

structure Process where
  localSeq : UInt64
  horizon : UInt64
  pc : Pc

structure State where
  stores : Fsutil.System Store String
  process : Option Process
  /-- The numbers handed out so far. Nothing reads them. -/
  issued : List UInt64
  /-- The last write of the main file failed, or the flush after it. Nothing reads it. -/
  failed : Bool

inductive Act
  | boot
  | allocate
  | resume
  | disk (a : Fsutil.Act Store String)

/-- `read_horizon` of the two files. -/
def readHorizon (stores : Fsutil.System Store String) : UInt64 :=
  EventSeq.readHorizon ⟨readOne (stores.read layout .eventSeq), readOne (stores.read layout .eventSeqBak)⟩

def load (stores : Fsutil.System Store String) : Process where
  localSeq := readHorizon stores
  horizon := readHorizon stores
  pc := .persistBak (saturatingAdd (readHorizon stores) RESERVE)

/-- What `advance` and `persist` do between the writes. -/
def Process.resume (p : Process) (stores : Fsutil.System Store String) :
    Option (Process × Fsutil.System Store String) :=
  match p.pc with
  | .advance current =>
    if current < p.horizon then some ({ p with pc := .ready }, stores)
    else some ({ p with pc := .persistBak (saturatingAdd current RESERVE) }, stores)
  | .persistBak newHorizon =>
    (Fsutil.step layout stores (.save .eventSeqBak (saveHorizon p.horizon))).map fun stores ↦
      ({ p with pc := .writeBak newHorizon }, stores)
  | .persistMain newHorizon =>
    (Fsutil.step layout stores (.save .eventSeq (saveHorizon newHorizon))).map fun stores ↦
      ({ p with pc := .writeMain newHorizon }, stores)
  | _ => none

/-- The call for the main file has come to the flush of the directory, the failure of which is
only logged. -/
def written (stores : Fsutil.System Store String) : Bool :=
  match stores.calls .eventSeq with
  | some ⟨_, .syncDir⟩ => true
  | _ => false

/-- The daemon goes on when the call it waits for is over. -/
def Process.settle (p : Process) (before after : Fsutil.System Store String) : Process :=
  match p.pc with
  | .writeBak newHorizon =>
    match after.calls .eventSeqBak with
    | none => { p with pc := .persistMain newHorizon }
    | some _ => p
  | .writeMain newHorizon =>
    match after.calls .eventSeq with
    | none => { p with horizon := if written before then newHorizon else p.horizon, pc := .ready }
    | some _ => p
  | _ => p

/-- The two files are written by `persist` alone and never removed. -/
def spares : Fsutil.Act Store String → Bool
  | .save f _ => f ≠ .eventSeq ∧ f ≠ .eventSeqBak
  | .remove f => f ≠ .eventSeq ∧ f ≠ .eventSeqBak
  | _ => true

def fails : Fsutil.Act Store String → Bool
  | .fail f => f = .eventSeq
  | _ => false

def completes (before : Fsutil.System Store String) : Fsutil.Act Store String → Bool
  | .advance f => f = .eventSeq ∧ written before
  | _ => false

def step (d : State) : Act → Option State
  | .boot =>
    match d.process with
    | none => some { d with process := some (load d.stores) }
    | some _ => none
  | .allocate =>
    match d.process with
    | some ⟨localSeq, horizon, .ready⟩ =>
      some
        { d with
          process := some ⟨localSeq + 1, horizon, .advance (localSeq + 1)⟩
          issued := d.issued ++ [localSeq] }
    | _ => none
  | .resume =>
    d.process.bind fun p ↦ (p.resume d.stores).map fun x ↦
      { d with process := some x.1, stores := x.2 }
  | .disk a =>
    if spares a ∧ (d.process.isSome ∨ a.crashes) then
      (Fsutil.step layout d.stores a).map fun stores ↦
        { d with
          stores := stores
          process := if a.crashes then none else d.process.map fun p ↦ p.settle d.stores stores
          failed := (d.failed || fails a) && !completes d.stores a }
    else none

/-- The daemon is not lost while its reservation is not on the disk, and no number is handed
out after the top of the counter. -/
def Spared (d : State) : Act → Prop
  | .allocate => MAX ∉ d.issued
  | .disk a => a.crashes → d.failed = false
  | _ => True

/-- `n` is above everything handed out. -/
def Above (issued : List UInt64) (n : UInt64) : Prop := ∀ e ∈ issued, e.toNat < n.toNat

/-- Every crash leaves a main file with this horizon. -/
def Holds (stores : Fsutil.System Store String) (horizon : UInt64) : Prop :=
  Fsutil.Safe layout .eventSeq (fun v ↦ readOne v = some horizon) stores

/-- Every crash leaves a main file above what was handed out, if anything was. -/
def Recovers (issued : List UInt64) (stores : Fsutil.System Store String) : Prop :=
  Fsutil.Safe layout .eventSeq
    (fun v ↦ issued = [] ∨ ∃ h, readOne v = some h ∧ Above issued h) stores

def Process.Reserved (p : Process) (failed : Bool) (stores : Fsutil.System Store String) : Prop :=
  match p.pc with
  | .ready => failed = false → Holds stores p.horizon ∧ Below p.localSeq p.horizon
  | .advance current =>
    current = p.localSeq ∧
      (failed = false → Holds stores p.horizon ∧ p.localSeq.toNat ≤ p.horizon.toNat)
  | .persistBak newHorizon | .writeBak newHorizon | .persistMain newHorizon =>
    Below p.localSeq newHorizon
  | .writeMain newHorizon =>
    Below p.localSeq newHorizon ∧
      ∃ stage, stores.calls .eventSeq = some ⟨saveHorizon newHorizon, stage⟩

structure Reserved (d : State) : Prop where
  sound : Fsutil.Safe layout .eventSeq (fun _ ↦ True) d.stores
  recovers : d.failed = false → Recovers d.issued d.stores
  running : d.failed = true → d.process ≠ none
  calls : d.stores.calls .eventSeq ≠ none → ∃ p n, d.process = some p ∧ p.pc = .writeMain n
  counter : ∀ p, d.process = some p → Above d.issued p.localSeq
  process : ∀ p, d.process = some p → p.Reserved d.failed d.stores

variable {d u : State} {a : Act} {p q : Process} {stores after : Fsutil.System Store String}
  {n m : UInt64} {e : Fsutil.Act Store String} {issued : List UInt64}

theorem le_of_below (h : Below n m) : n.toNat ≤ m.toNat := by
  obtain h | ⟨rfl, rfl⟩ := h
  · exact h.le
  · exact le_rfl

theorem Above.mono (h : Above issued n) (hnm : n.toNat ≤ m.toNat) : Above issued m :=
  fun e he ↦ (h e he).trans_le hnm

theorem Recovers.above (h : Recovers issued stores) : Above issued (readHorizon stores) := by
  obtain rfl | ⟨n, hn, habove⟩ := h.read
  · intro e he
    cases he
  · have heq : readHorizon stores = n := by simp [readHorizon, EventSeq.readHorizon, hn]
    rw [heq]
    exact habove

theorem Holds.recovers (h : Holds stores n) (hn : Above issued n) : Recovers issued stores :=
  h.mono fun _ hv ↦ .inr ⟨n, hv, hn⟩

/-- Whatever is no write of the main file keeps what a crash leaves. -/
theorem safe_step {ok : Option (List UInt8) → Prop} (h : Fsutil.Safe layout .eventSeq ok stores)
    (he : spares e) (ht : Fsutil.step layout stores e = some after) :
    Fsutil.Safe layout .eventSeq ok after := by
  refine h.step ?_ ?_ ht
  · rintro b rfl
    simp [spares] at he
  · rintro rfl
    simp [spares] at he

theorem safe_saveBak {ok : Option (List UInt8) → Prop} {b : List UInt8}
    (h : Fsutil.Safe layout .eventSeq ok stores)
    (ht : Fsutil.step layout stores (.save .eventSeqBak b) = some after) :
    Fsutil.Safe layout .eventSeq ok after := by
  refine h.step ?_ ?_ ht
  · rintro c hc
    cases hc
  · intro hc
    cases hc

theorem Reserved.boot (hd : Reserved d) (hp : d.process = none) :
    Reserved { d with process := some (load d.stores) } := by
  have hfailed : d.failed = false := by
    by_contra hf
    exact hd.running (by simpa using hf) hp
  have hidle : d.stores.calls .eventSeq = none := by
    by_contra hc
    obtain ⟨q, n, hq, -⟩ := hd.calls hc
    cases hp.symm.trans hq
  refine ⟨hd.sound, hd.recovers, fun _ h ↦ (by cases h), fun h ↦ absurd hidle h, ?_, ?_⟩
  · rintro q hq
    obtain rfl := Option.some.inj hq
    exact (hd.recovers hfailed).above
  · rintro q hq
    obtain rfl := Option.some.inj hq
    exact below_saturatingAdd _

theorem Reserved.allocate (hd : Reserved d) (hp : d.process = some ⟨n, m, .ready⟩)
    (hn : n ≠ MAX) : Reserved
      { d with
        process := some ⟨n + 1, m, .advance (n + 1)⟩
        issued := d.issued ++ [n] } := by
  have hcounter := hd.counter _ hp
  have hsucc : (n + 1).toNat = n.toNat + 1 := by
    have hlt := n.toNat_lt
    have htop := mt eq_MAX_iff.mpr hn
    rw [UInt64.toNat_add, UInt64.toNat_one]
    omega
  have habove : ∀ k : UInt64, n.toNat < k.toNat → Above (d.issued ++ [n]) k := by
    intro k hk e he
    obtain he | he := List.mem_append.mp he
    · exact (hcounter e he).trans hk
    · rw [List.mem_singleton.mp he]
      exact hk
  have hready : d.failed = false → Holds d.stores m ∧ n.toNat < m.toNat := by
    intro hf
    obtain ⟨hholds, hbelow⟩ := hd.process _ hp hf
    exact ⟨hholds, hbelow.resolve_right fun h ↦ hn h.1⟩
  refine ⟨hd.sound, ?_, fun _ h ↦ (by cases h), ?_, ?_, ?_⟩
  · intro hf
    exact (hready hf).1.recovers (habove m (hready hf).2)
  · intro hc
    obtain ⟨q, k, hq, hpc⟩ := hd.calls hc
    obtain rfl := Option.some.inj (hp.symm.trans hq)
    cases hpc
  · rintro q hq
    obtain rfl := Option.some.inj hq
    exact habove _ (by dsimp only; omega)
  · rintro q hq
    obtain rfl := Option.some.inj hq
    refine ⟨rfl, fun hf ↦ ⟨(hready hf).1, ?_⟩⟩
    have hlt := (hready hf).2
    dsimp only
    omega

theorem Reserved.idle (hd : Reserved d) (hp : d.process = some p) (hpc : ∀ n, p.pc ≠ .writeMain n) :
    d.stores.calls .eventSeq = none := by
  by_contra hc
  obtain ⟨q, n, hq, hn⟩ := hd.calls hc
  obtain rfl := Option.some.inj (hp.symm.trans hq)
  exact hpc n hn

/-- A step of the process that leaves the disk alone. -/
theorem Reserved.move (hd : Reserved d) (hp : d.process = some p) (hpc : ∀ n, p.pc ≠ .writeMain n)
    (hq : q.localSeq = p.localSeq) (hres : q.Reserved d.failed d.stores) :
    Reserved { d with process := some q } where
  sound := hd.sound
  recovers := hd.recovers
  running _ h := by cases h
  calls hc := absurd (hd.idle hp hpc) hc
  counter r hr := by
    obtain rfl := Option.some.inj hr
    rw [hq]
    exact hd.counter p hp
  process r hr := by
    obtain rfl := Option.some.inj hr
    exact hres

theorem Reserved.resume (hd : Reserved d) (hp : d.process = some p)
    (h : p.resume d.stores = some (q, after)) :
    Reserved { d with process := some q, stores := after } := by
  have hres := hd.process p hp
  have hidle := hd.idle hp
  have hcounter := hd.counter p hp
  unfold Process.Reserved at hres
  unfold Process.resume at h
  cases hpc : p.pc with
  | ready => simp [hpc] at h
  | writeBak n => simp [hpc] at h
  | writeMain n => simp [hpc] at h
  | advance current =>
    simp only [hpc] at h hres
    obtain ⟨rfl, hholds⟩ := hres
    split at h
    case isTrue hlt =>
      obtain ⟨rfl, rfl⟩ := Prod.mk.inj (Option.some.inj h)
      exact hd.move hp (by simp [hpc]) rfl fun hf ↦ ⟨(hholds hf).1, .inl hlt⟩
    case isFalse =>
      obtain ⟨rfl, rfl⟩ := Prod.mk.inj (Option.some.inj h)
      exact hd.move hp (by simp [hpc]) rfl (below_saturatingAdd _)
  | persistBak n =>
    simp only [hpc] at h hres
    obtain ⟨stores, hs, h⟩ := Option.map_eq_some_iff.mp h
    obtain ⟨rfl, rfl⟩ := Prod.mk.inj h
    have hnone : stores.calls .eventSeq = none :=
      Fsutil.step_idle hs (hidle (by simp [hpc])) fun b hb ↦ by cases hb
    refine ⟨safe_saveBak hd.sound hs, fun hf ↦ safe_saveBak (hd.recovers hf) hs,
      fun _ h ↦ (by cases h), fun hc ↦ absurd hnone hc, ?_, ?_⟩
    · rintro r hr
      obtain rfl := Option.some.inj hr
      exact hcounter
    · rintro r hr
      obtain rfl := Option.some.inj hr
      exact hres
  | persistMain n =>
    simp only [hpc] at h hres
    obtain ⟨stores, hs, h⟩ := Option.map_eq_some_iff.mp h
    obtain ⟨rfl, rfl⟩ := Prod.mk.inj h
    have hcall : stores.calls .eventSeq = some ⟨saveHorizon n, .create⟩ := by
      simp only [Fsutil.step, hidle (by simp [hpc])] at hs
      obtain rfl := Option.some.inj hs
      exact Fsutil.put_calls_self
    refine ⟨hd.sound.step (fun _ _ ↦ trivial) (fun _ ↦ trivial) hs, ?_, fun _ h ↦ (by cases h), ?_,
      ?_, ?_⟩
    · intro hf
      refine (hd.recovers hf).step ?_ ?_ hs
      · rintro b hb
        obtain ⟨-, rfl⟩ := Fsutil.Act.save.inj hb
        exact .inr ⟨n, readOne_saveHorizon n, hcounter.mono (le_of_below hres)⟩
      · intro hb
        cases hb
    · intro _
      exact ⟨_, n, rfl, rfl⟩
    · rintro r hr
      obtain rfl := Option.some.inj hr
      exact hcounter
    · rintro r hr
      obtain rfl := Option.some.inj hr
      exact ⟨hres, .create, hcall⟩

theorem settle_localSeq (p : Process) (stores after : Fsutil.System Store String) :
    (p.settle stores after).localSeq = p.localSeq := by
  unfold Process.settle
  split
  · split <;> rfl
  · split <;> rfl
  · rfl

theorem Reserved.crash (hd : Reserved d) (he : spares e) (hcrash : e.crashes)
    (hf : d.failed = false) (h : Fsutil.step layout d.stores e = some after) (failed : Bool)
    (hfailed : failed = false) :
    Reserved { d with stores := after, process := none, failed := failed } where
  sound := safe_step hd.sound he h
  recovers _ := safe_step (hd.recovers hf) he h
  running h := by
    rw [hfailed] at h
    cases h
  calls hc := absurd (Fsutil.step_crashes h hcrash) hc
  counter _ hq := by cases hq
  process _ hq := by cases hq

/-- A system call while the daemon writes no main file. -/
theorem Reserved.aside (hd : Reserved d) (hp : d.process = some p) (hpc : ∀ n, p.pc ≠ .writeMain n)
    (he : spares e) (h : Fsutil.step layout d.stores e = some after) (failed : Bool)
    (hfailed : failed = false → d.failed = false) :
    Reserved
      { d with stores := after, process := some (p.settle d.stores after), failed := failed } := by
  have hnone : after.calls .eventSeq = none := by
    refine Fsutil.step_idle h (hd.idle hp hpc) ?_
    rintro b rfl
    simp [spares] at he
  have hholds : ∀ {n}, Holds d.stores n → Holds after n := fun hn ↦ safe_step hn he h
  have hres := hd.process p hp
  refine ⟨safe_step hd.sound he h, fun hf ↦ safe_step (hd.recovers (hfailed hf)) he h,
    fun _ h ↦ (by cases h), fun hc ↦ absurd hnone hc, ?_, ?_⟩
  · rintro q hq
    obtain rfl := Option.some.inj hq
    rw [settle_localSeq]
    exact hd.counter p hp
  · rintro q hq
    obtain rfl := Option.some.inj hq
    unfold Process.Reserved at hres
    cases hcase : p.pc with
    | ready =>
      simp only [hcase] at hres
      have hsettle : p.settle d.stores after = p := by simp [Process.settle, hcase]
      simp only [hsettle, Process.Reserved, hcase]
      exact fun hf ↦ ⟨hholds (hres (hfailed hf)).1, (hres (hfailed hf)).2⟩
    | advance current =>
      simp only [hcase] at hres
      have hsettle : p.settle d.stores after = p := by simp [Process.settle, hcase]
      simp only [hsettle, Process.Reserved, hcase]
      exact ⟨hres.1, fun hf ↦ ⟨hholds (hres.2 (hfailed hf)).1, (hres.2 (hfailed hf)).2⟩⟩
    | persistBak n =>
      simp only [hcase] at hres
      have hsettle : p.settle d.stores after = p := by simp [Process.settle, hcase]
      simp only [hsettle, Process.Reserved, hcase]
      exact hres
    | persistMain n =>
      simp only [hcase] at hres
      have hsettle : p.settle d.stores after = p := by simp [Process.settle, hcase]
      simp only [hsettle, Process.Reserved, hcase]
      exact hres
    | writeBak n =>
      simp only [hcase] at hres
      cases hbak : after.calls .eventSeqBak with
      | none =>
        have hsettle : p.settle d.stores after = { p with pc := .persistMain n } := by
          simp [Process.settle, hcase, hbak]
        rw [hsettle]
        exact hres
      | some c =>
        have hsettle : p.settle d.stores after = p := by simp [Process.settle, hcase, hbak]
        simp only [hsettle, Process.Reserved, hcase]
        exact hres
    | writeMain n => exact absurd hcase (hpc n)

theorem written_eq_true (h : written stores) :
    ∃ b, stores.calls .eventSeq = some ⟨b, .syncDir⟩ := by
  unfold written at h
  split at h
  case h_1 b hb => exact ⟨b, hb⟩
  case h_2 => cases h

theorem fails_eq_true (h : fails e) : e = .fail .eventSeq := by
  cases e with
  | fail f =>
    have hf : f = .eventSeq := by simpa [fails] using h
    rw [hf]
  | _ => cases h

theorem completes_eq_true (h : completes stores e) : e = .advance .eventSeq ∧ written stores := by
  cases e with
  | advance f =>
    have hf : f = .eventSeq ∧ written stores := by simpa [completes] using h
    exact ⟨by rw [hf.1], hf.2⟩
  | _ => cases h

/-- A system call while the daemon writes the main file. -/
theorem Reserved.main (hd : Reserved d) (hp : d.process = some p) (hpc : p.pc = .writeMain n)
    (he : spares e) (hcrash : e.crashes = false) (h : Fsutil.step layout d.stores e = some after) :
    Reserved
      { d with
        stores := after
        process := some (p.settle d.stores after)
        failed := (d.failed || fails e) && !completes d.stores e } := by
  have hres := hd.process p hp
  simp only [Process.Reserved, hpc] at hres
  obtain ⟨hbelow, stage, hcall⟩ := hres
  have hcounter : Above d.issued (p.settle d.stores after).localSeq := by
    rw [settle_localSeq]
    exact hd.counter p hp
  obtain ⟨⟨stage', hafter⟩, hend⟩ | ⟨hafter, hend⟩ := Fsutil.step_calls h hcall hcrash
  · have hsettle : p.settle d.stores after = p := by simp [Process.settle, hpc, hafter]
    have hfails : fails e = false := by
      by_contra hf
      exact hend (.inl (fails_eq_true (by simpa using hf)))
    have hcompletes : completes d.stores e = false := by
      by_contra hc
      obtain ⟨he, hw⟩ := completes_eq_true (by simpa using hc)
      obtain ⟨b, hb⟩ := written_eq_true hw
      rw [hcall] at hb
      exact hend (.inr ⟨he, congrArg Fsutil.Call.stage (Option.some.inj hb)⟩)
    rw [hsettle, hfails, hcompletes, Bool.or_false, Bool.not_false, Bool.and_true]
    refine ⟨safe_step hd.sound he h, fun hf ↦ safe_step (hd.recovers hf) he h,
      fun _ h ↦ (by cases h), fun _ ↦ ⟨p, n, rfl, hpc⟩, ?_, ?_⟩
    · rintro q hq
      obtain rfl := Option.some.inj hq
      exact hd.counter p hp
    · rintro q hq
      obtain rfl := Option.some.inj hq
      simp only [Process.Reserved, hpc]
      exact ⟨hbelow, stage', hafter⟩
  · have hsettle : p.settle d.stores after =
        { p with horizon := if written d.stores then n else p.horizon, pc := .ready } := by
      simp [Process.settle, hpc, hafter]
    obtain rfl | ⟨rfl, rfl⟩ := hend
    · have hfailed : ((d.failed || fails (.fail .eventSeq)) &&
          !completes d.stores (.fail .eventSeq)) = true := by simp [fails, completes]
      rw [hfailed]
      refine ⟨safe_step hd.sound he h, fun hf ↦ (by cases hf), fun _ h ↦ (by cases h),
        fun hc ↦ absurd hafter hc, ?_, ?_⟩
      · rintro q hq
        obtain rfl := Option.some.inj hq
        exact hcounter
      · rintro q hq
        obtain rfl := Option.some.inj hq
        rw [hsettle]
        intro hf
        cases hf
    · have hw : written d.stores = true := by simp [written, hcall]
      have hfailed : ((d.failed || fails (.advance .eventSeq)) &&
          !completes d.stores (.advance .eventSeq)) = false := by simp [completes, hw]
      have hholds : Holds after n := by
        refine (hd.sound.flushed hcall h).mono ?_
        rintro v rfl
        exact readOne_saveHorizon n
      rw [hfailed]
      refine ⟨safe_step hd.sound he h, fun _ ↦ ?_, fun hf ↦ (by cases hf),
        fun hc ↦ absurd hafter hc, ?_, ?_⟩
      · exact hholds.recovers ((hd.counter p hp).mono (le_of_below hbelow))
      · rintro q hq
        obtain rfl := Option.some.inj hq
        exact hcounter
      · rintro q hq
        obtain rfl := Option.some.inj hq
        rw [hsettle, hw]
        exact fun _ ↦ ⟨hholds, hbelow⟩

theorem Reserved.disk (hd : Reserved d) (he : spares e) (hs : e.crashes → d.failed = false)
    (hrun : d.process.isSome ∨ e.crashes) (h : Fsutil.step layout d.stores e = some after) :
    Reserved
      { d with
        stores := after
        process := if e.crashes then none else d.process.map fun p ↦ p.settle d.stores after
        failed := (d.failed || fails e) && !completes d.stores e } := by
  by_cases hcrash : e.crashes
  · rw [if_pos hcrash]
    refine hd.crash he hcrash (hs hcrash) h _ ?_
    have hfails : fails e = false := by
      cases e with
      | kill => rfl
      | powerCut k junk => rfl
      | _ => cases hcrash
    rw [hs hcrash, hfails]
    rfl
  · rw [if_neg hcrash]
    obtain ⟨p, hp⟩ := Option.isSome_iff_exists.mp (hrun.resolve_right hcrash)
    rw [hp, Option.map_some]
    by_cases hpc : ∃ n, p.pc = .writeMain n
    · obtain ⟨n, hpc⟩ := hpc
      exact hd.main hp hpc he (by simpa using hcrash) h
    · have hpc : ∀ n, p.pc ≠ .writeMain n := fun n hn ↦ hpc ⟨n, hn⟩
      refine hd.aside hp hpc he h _ ?_
      have hcompletes : completes d.stores e = false := by
        by_contra hc
        obtain ⟨-, hw⟩ := completes_eq_true (by simpa using hc)
        obtain ⟨b, hb⟩ := written_eq_true hw
        cases hb.symm.trans (hd.idle hp hpc)
      simp [hcompletes]
      exact fun hf _ ↦ hf

/-- No number has been handed out twice, and the counter is reserved until its top has been
handed out. -/
structure Fresh (d : State) : Prop where
  nodup : d.issued.Nodup
  reserved : MAX ∉ d.issued → Reserved d

theorem Fresh.step (hd : Fresh d) (ha : Spared d a) (h : SeqDisk.step d a = some u) : Fresh u := by
  cases a with
  | boot =>
    simp only [SeqDisk.step] at h
    split at h
    case h_1 hp =>
      obtain rfl := Option.some.inj h
      exact ⟨hd.nodup, fun hmax ↦ (hd.reserved hmax).boot hp⟩
    · cases h
  | allocate =>
    simp only [SeqDisk.step] at h
    split at h
    case h_1 localSeq horizon hp =>
      obtain rfl := Option.some.inj h
      have hres := hd.reserved ha
      refine ⟨?_, fun hmax ↦ hres.allocate hp ?_⟩
      · refine List.nodup_append.mpr ⟨hd.nodup, List.nodup_singleton _, ?_⟩
        rintro e he _ hmem rfl
        obtain rfl := List.mem_singleton.mp hmem
        exact lt_irrefl _ (hres.counter _ hp e he)
      · rintro rfl
        exact hmax (by simp)
    · cases h
  | resume =>
    obtain ⟨p, hp, h⟩ := Option.bind_eq_some_iff.mp h
    obtain ⟨⟨q, after⟩, hq, rfl⟩ := Option.map_eq_some_iff.mp h
    exact ⟨hd.nodup, fun hmax ↦ (hd.reserved hmax).resume hp hq⟩
  | disk e =>
    rw [SeqDisk.step] at h
    obtain ⟨⟨he, hrun⟩, h⟩ := Option.ite_none_right_eq_some.mp h
    obtain ⟨after, hafter, rfl⟩ := Option.map_eq_some_iff.mp h
    exact ⟨hd.nodup, fun hmax ↦ (hd.reserved hmax).disk he ha hrun hafter⟩

/-- A daemon that was never started, over whatever the boot of the machine found. -/
def State.init (stores : Fsutil.System Store String) : State := ⟨stores, none, [], false⟩

theorem fresh_init (hs : Fsutil.Booted stores) : Fresh (.init stores) where
  nodup := List.nodup_nil
  reserved _ :=
    { sound := (hs.safe (layout_alone (by decide))).mono fun _ _ ↦ trivial
      recovers := fun _ ↦ (hs.safe (layout_alone (by decide))).mono fun _ _ ↦ .inl rfl
      running := fun h ↦ by cases h
      calls := fun h ↦ absurd (hs.calls .eventSeq) h
      counter := fun _ h ↦ by cases h
      process := fun _ h ↦ by cases h }

/-- The system calls of a write, all of which succeed. -/
def write (f : Store) : List Act := List.replicate 5 (.disk (.advance f))

end FluxSync.SeqDisk
