import FluxSync.Daemon.EventSeq

namespace FluxSync.EventSeq

open Runs

variable {selfDevice : PeerId} {l : List Act} {d d' : Daemon} {p : Process} {a : Act}
  {spent spent' : Bool} {b : UInt64}

/-- Whether the daemon is about to write the backup. -/
def Daemon.backsUp (d : Daemon) : Bool :=
  d.process.any fun p ↦
    match p.pc with
    | .persistBak _ => true
    | _ => false

/-- Whether a number was handed out since the backup was written. -/
def watch (d : Daemon) (a : Act) (spent : Bool) : Bool :=
  match a with
  | .allocate => true
  | .resume => spent && !d.backsUp
  | _ => spent

/-- The counter of a running daemon is never below the backup it has made. -/
def Process.Backed (p : Process) (disk : Disk) : Prop :=
  match p.pc with
  | .persistBak _ => p.horizon.toNat ≤ p.localSeq.toNat
  | _ => ∀ b, disk.bak = some b → b.toNat ≤ p.localSeq.toNat

/-- What the backup says of the numbers handed out, before the last of them. -/
structure Kept (d : Daemon) (spent : Bool) : Prop where
  reserved : Reserved d
  backed : ∀ p, d.process = some p → p.Backed d.disk
  unspent : spent = false → ∀ b, d.disk.bak = some b → Above d.issued b
  spent : spent = true → ∀ b, d.disk.bak = some b → ∃ e ∈ d.issued, b.toNat ≤ e.seq.toNat

theorem kept_init : Kept (.init selfDevice) false where
  reserved := (fresh_init selfDevice).reserved fun e he ↦ absurd he List.not_mem_nil
  backed := fun p hp ↦ by cases hp
  unspent := fun _ b hb ↦ by cases hb
  spent := fun h ↦ by cases h

theorem Kept.boot (hd : Kept d spent) : Kept { d with process := some (load d.disk) } spent where
  reserved := hd.reserved.boot
  backed := by
    intro p hp
    obtain rfl := Option.some.inj hp
    exact le_rfl
  unspent := hd.unspent
  spent := hd.spent

theorem Kept.crash (hd : Kept d spent) : Kept { d with process := none } spent where
  reserved := ⟨hd.reserved.disk, fun p hp ↦ by cases hp⟩
  backed := fun p hp ↦ by cases hp
  unspent := hd.unspent
  spent := hd.spent

/-- The number handed out is at or above the backup. -/
theorem Kept.allocate {localSeq horizon : UInt64} (hd : Kept d spent)
    (hp : d.process = some ⟨localSeq, horizon, .ready⟩) (hne : localSeq ≠ MAX) :
    Kept
      { d with
        process := some ⟨localSeq + 1, horizon, .advance (localSeq + 1)⟩
        issued := d.issued ++ [⟨d.selfDevice, localSeq⟩] } true where
  reserved := (hd.reserved.allocate hp).2 hne
  backed := by
    intro p hp'
    obtain rfl := Option.some.inj hp'
    intro b hb
    have hle : b.toNat ≤ localSeq.toNat := hd.backed _ hp b hb
    have hlt := localSeq.toNat_lt
    have htop := mt eq_MAX_iff.mpr hne
    show b.toNat ≤ (localSeq + 1).toNat
    rw [UInt64.toNat_add, UInt64.toNat_one]
    omega
  unspent := fun h ↦ by cases h
  spent := by
    intro _ b hb
    exact ⟨⟨d.selfDevice, localSeq⟩, by simp, hd.backed _ hp b hb⟩

theorem Kept.resume {p' : Process} {disk : Disk} (hd : Kept d spent) (hp : d.process = some p)
    (h : p.resume d.disk = some (p', disk)) :
    Kept { d with process := some p', disk := disk } (spent && !d.backsUp) := by
  have hres := hd.reserved.resume hp h
  have hhorizon := (hd.reserved.process p hp).2.1
  have hpc := (hd.reserved.process p hp).2.2
  have hback := hd.backed p hp
  have hup : d.backsUp = match p.pc with
      | .persistBak _ => true
      | _ => false := by rw [Daemon.backsUp, hp, Option.any_some]
  rw [hup]
  unfold Process.Reserved at hpc
  unfold Process.Backed at hback
  unfold Process.resume at h
  cases hcase : p.pc with
  | ready => simp [hcase] at h
  | advance current =>
    simp only [hcase] at h hpc hback
    rw [Bool.not_false, Bool.and_true]
    split at h
    · obtain ⟨rfl, rfl⟩ := Prod.mk.inj (Option.some.inj h)
      refine ⟨hres, fun q hq ↦ ?_, hd.unspent, hd.spent⟩
      obtain rfl := Option.some.inj hq
      exact hback
    case isFalse hge =>
      obtain ⟨rfl, rfl⟩ := Prod.mk.inj (Option.some.inj h)
      refine ⟨hres, fun q hq ↦ ?_, hd.unspent, hd.spent⟩
      obtain rfl := Option.some.inj hq
      have hge : ¬ current.toNat < p.horizon.toNat := hge
      rw [hpc.2.1] at hge
      exact not_lt.mp hge
  | persistBak newHorizon =>
    simp only [hcase] at h hback
    obtain ⟨rfl, rfl⟩ := Prod.mk.inj (Option.some.inj h)
    rw [Bool.not_true, Bool.and_false]
    refine ⟨hres, fun q hq ↦ ?_, fun _ b hb ↦ ?_, fun hs ↦ by cases hs⟩
    · obtain rfl := Option.some.inj hq
      intro b hb
      obtain rfl := Option.some.inj hb
      exact hback
    · obtain rfl := Option.some.inj hb
      exact hhorizon
  | persistMain newHorizon =>
    simp only [hcase] at h hback
    obtain ⟨rfl, rfl⟩ := Prod.mk.inj (Option.some.inj h)
    rw [Bool.not_false, Bool.and_true]
    refine ⟨hres, fun q hq ↦ ?_, hd.unspent, hd.spent⟩
    obtain rfl := Option.some.inj hq
    exact hback

/-- Until the top of the counter is handed out, every step keeps what the backup says. -/
theorem Kept.step (hd : (∀ e ∈ d.issued, e.seq ≠ MAX) → Kept d spent)
    (h : step d a = some d') (hmax : ∀ e ∈ d'.issued, e.seq ≠ MAX) :
    Kept d' (watch d a spent) := by
  cases a with
  | boot =>
    simp only [EventSeq.step] at h
    split at h
    · obtain rfl := Option.some.inj h
      exact (hd hmax).boot
    · cases h
  | allocate =>
    simp only [EventSeq.step] at h
    split at h
    case h_1 localSeq horizon hp =>
      obtain rfl := Option.some.inj h
      have hkept := hd fun e he ↦ hmax e (List.mem_append_left _ he)
      exact hkept.allocate hp (hmax ⟨d.selfDevice, localSeq⟩ (by simp))
    · cases h
  | resume =>
    obtain ⟨p, hp, hr⟩ := Option.bind_eq_some_iff.mp h
    obtain ⟨⟨p', disk⟩, hres, rfl⟩ := Option.map_eq_some_iff.mp hr
    exact (hd hmax).resume hp hres
  | crash =>
    obtain rfl := Option.some.inj h
    exact (hd hmax).crash

end FluxSync.EventSeq
