import FluxSync.Foundation.Runs
import FluxSync.Daemon.Rules

namespace FluxSync.Daemon

open Function Runs

variable {κ : Crypto} {d u : System} {a : Act}

/-- What happens to the shared state outside every task. -/
def Act.ambient (s : Shared) : Act → Option Shared
  | .elapse t => some { s with now := s.now + t }
  | .drop p => some (s.unlink p)
  | .ack hash p => some (s.acked hash p)
  | .wipe => some { s with inflight := ∅ }
  | _ => none

/-- A section leaves a task at a place of the kind `f`, its own or one it spawned. -/
def Next.Leaves (n : Next) (ch : Choice) (f : Pc → Bool) : Prop :=
  f n.pc ∨ ∃ pc, n.spawned = some pc ∧ ch.spawn.isSome ∧ f pc

namespace System

/-- The steps of the system, one constructor for each kind of action. -/
inductive Move (κ : Crypto) (d : System) : Act → System → Prop
  | start {i : ℕ} {op : Op} :
      d.tasks i = .idle → op.task i → op.admissible κ d.sh →
      Move κ d (.start i op) ⟨d.sh, update d.tasks i op.entry⟩
  | lockSection {i : ℕ} {ch : Choice} {n : Next} :
      advance i ch d.sh (d.tasks i) = some n → n.spawned = none ∨ ch.spawn = none →
      Move κ d (.lockSection i ch) ⟨n.sh, update d.tasks i n.pc⟩
  | spawn {i j : ℕ} {ch : Choice} {n : Next} {pc : Pc} :
      advance i ch d.sh (d.tasks i) = some n → n.spawned = some pc → ch.spawn = some j → 3 ≤ j →
      update d.tasks i n.pc j = .idle →
      Move κ d (.lockSection i ch) ⟨n.sh, update (update d.tasks i n.pc) j pc⟩
  | ambient {a : Act} {s : Shared} : a.ambient d.sh = some s → Move κ d a { d with sh := s }
  | crash (readable : Bool) : Move κ d (.crash readable) ⟨d.sh.boot κ readable, fun _ ↦ .idle⟩

theorem move_of_proceed {i : ℕ} {ch : Choice} {n : Next} (h : advance i ch d.sh (d.tasks i) = some n)
    (hp : d.proceed i ch.spawn n = some u) : Move κ d (.lockSection i ch) u := by
  unfold proceed at hp
  cases hs : n.spawned with
  | none => exact Option.some.inj (by simpa [hs] using hp) ▸ .lockSection h (.inl hs)
  | some pc =>
    cases hj : ch.spawn with
    | none => exact Option.some.inj (by simpa [hs, hj] using hp) ▸ .lockSection h (.inr hj)
    | some j =>
      simp only [hs, hj] at hp
      split at hp
      · rename_i hi
        split at hp
        · exact Option.some.inj hp ▸ .spawn h hs hj ‹_› hi
        · simp at hp
      · simp at hp

theorem move_of_step (h : step κ d a = some u) : Move κ d a u := by
  cases a with
  | start i op =>
    simp only [step] at h
    split at h
    · rename_i hi
      split at h
      · rename_i hop
        obtain rfl := Option.some.inj h
        rw [Bool.and_eq_true] at hop
        exact .start hi hop.1 hop.2
      · simp at h
    · simp at h
  | lockSection i ch =>
    obtain ⟨n, hn, hp⟩ := Option.bind_eq_some_iff.mp h
    exact move_of_proceed hn hp
  | elapse t => exact Option.some.inj h ▸ .ambient rfl
  | drop p => exact Option.some.inj h ▸ .ambient rfl
  | ack hash p => exact Option.some.inj h ▸ .ambient rfl
  | wipe => exact Option.some.inj h ▸ .ambient rfl
  | crash readable => exact Option.some.inj h ▸ .crash readable

/-- How task `j` comes to stand where it does after a step. -/
inductive Came (κ : Crypto) (d : System) (a : Act) (j : ℕ) : Pc → Prop
  | stays : Came κ d a j (d.tasks j)
  | starts {op : Op} : a = .start j op → d.tasks j = .idle → op.task j → op.admissible κ d.sh →
      Came κ d a j op.entry
  | moves {ch : Choice} {n : Next} : a = .lockSection j ch →
      advance j ch d.sh (d.tasks j) = some n → Came κ d a j n.pc
  | spawns {i : ℕ} {ch : Choice} {n : Next} {pc : Pc} : a = .lockSection i ch →
      advance i ch d.sh (d.tasks i) = some n → n.spawned = some pc → 3 ≤ j → Came κ d a j pc
  | crashes {readable : Bool} : a = .crash readable → Came κ d a j .idle

theorem Move.came (h : Move κ d a u) (j : ℕ) : Came κ d a j (u.tasks j) := by
  cases h with
  | @start i op hi ht ha =>
    obtain rfl | hj := eq_or_ne j i
    · simpa using Came.starts rfl hi ht ha
    · simpa [hj] using Came.stays
  | @lockSection i ch n hn _ =>
    obtain rfl | hj := eq_or_ne j i
    · simpa using Came.moves rfl hn
    · simpa [hj] using Came.stays
  | @spawn i k ch n pc hn hs _ hk _ =>
    obtain rfl | hjk := eq_or_ne j k
    · simpa using Came.spawns rfl hn hs hk
    · obtain rfl | hj := eq_or_ne j i
      · simpa [hjk] using Came.moves rfl hn
      · simpa [hjk, hj] using Came.stays
  | ambient => exact .stays
  | crash readable => exact .crashes rfl

/-- How the shared state comes to be what it is after a step. -/
inductive Became (κ : Crypto) (d : System) (a : Act) : Shared → Prop
  | stays {i : ℕ} {op : Op} : a = .start i op → Became κ d a d.sh
  | moves {i : ℕ} {ch : Choice} {n : Next} : a = .lockSection i ch →
      advance i ch d.sh (d.tasks i) = some n → Became κ d a n.sh
  | ambient {s : Shared} : a.ambient d.sh = some s → Became κ d a s
  | crashes {readable : Bool} : a = .crash readable → Became κ d a (d.sh.boot κ readable)

theorem Move.became (h : Move κ d a u) : Became κ d a u.sh := by
  cases h with
  | start => exact .stays rfl
  | lockSection hn _ => exact .moves rfl hn
  | spawn hn => exact .moves rfl hn
  | ambient hs => exact .ambient hs
  | crash readable => exact .crashes rfl

theorem Move.of_section {i : ℕ} {ch : Choice} (h : Move κ d (.lockSection i ch) u) :
    ∃ n, advance i ch d.sh (d.tasks i) = some n ∧ u.sh = n.sh ∧
      ∀ j, j = i ∧ u.tasks j = n.pc ∨ j ≠ i ∧ u.tasks j = d.tasks j ∨
        n.spawned = some (u.tasks j) := by
  cases h with
  | @lockSection _ _ n hn _ =>
    refine ⟨n, hn, rfl, fun j ↦ ?_⟩
    obtain rfl | hj := eq_or_ne j i
    · exact .inl ⟨rfl, by simp⟩
    · exact .inr (.inl ⟨hj, by simp [hj]⟩)
  | @spawn _ k _ n pc hn hs _ _ _ =>
    refine ⟨n, hn, rfl, fun j ↦ ?_⟩
    obtain rfl | hk := eq_or_ne j k
    · exact .inr (.inr (by simpa using hs))
    · obtain rfl | hj := eq_or_ne j i
      · exact .inl ⟨rfl, by simp [hk]⟩
      · exact .inr (.inl ⟨hj, by simp [hj, hk]⟩)
  | ambient hs => simp [Act.ambient] at hs

theorem exists_update_iff {f : Pc → Bool} {tasks : ℕ → Pc} {i : ℕ} {pc : Pc} :
    (∃ j, f (update tasks i pc j)) ↔ f pc ∨ ∃ j, j ≠ i ∧ f (tasks j) := by
  constructor
  · rintro ⟨j, hj⟩
    obtain rfl | hji := eq_or_ne j i
    · exact .inl (by simpa using hj)
    · exact .inr ⟨j, hji, by simpa [hji] using hj⟩
  · rintro (hpc | ⟨j, hji, hj⟩)
    · exact ⟨i, by simpa using hpc⟩
    · exact ⟨j, by simpa [hji] using hj⟩

/-- After a section some task is at a place of the kind `f` when the one that
moved came to one or spawned a task at one, or another was at one before. -/
theorem Move.exists_task_iff {i : ℕ} {ch : Choice} (h : Move κ d (.lockSection i ch) u) :
    ∃ n, advance i ch d.sh (d.tasks i) = some n ∧ u.sh = n.sh ∧
      ∀ f : Pc → Bool, f .idle = false → ((∃ j, f (u.tasks j)) ↔ n.Leaves ch f ∨
        ∃ j, j ≠ i ∧ f (d.tasks j)) := by
  cases h with
  | @lockSection _ _ n hn hs =>
    refine ⟨n, hn, rfl, fun f _ ↦ exists_update_iff.trans (or_congr_left ?_)⟩
    refine ⟨.inl, Or.rec id ?_⟩
    rintro ⟨pc, hpc, hch, -⟩
    rcases hs with hs | hs
    · simp [hs] at hpc
    · simp [hs] at hch
  | @spawn _ j _ n pc hn hsp hch _ hidle =>
    refine ⟨n, hn, rfl, fun f hf ↦ ?_⟩
    have hold : (∃ k, k ≠ j ∧ f (update d.tasks i n.pc k)) ↔
        ∃ k, f (update d.tasks i n.pc k) := by
      refine ⟨fun ⟨k, _, hk⟩ ↦ ⟨k, hk⟩, fun ⟨k, hk⟩ ↦ ⟨k, ?_, hk⟩⟩
      rintro rfl
      simp [hidle, hf] at hk
    have hpc : f pc ↔ ∃ pc, n.spawned = some pc ∧ ch.spawn.isSome ∧ f pc := by simp [hsp, hch]
    rw [exists_update_iff, hold, exists_update_iff, hpc, Next.Leaves, or_left_comm, or_assoc]
  | ambient hs => simp [Act.ambient] at hs

/-- An assertion about each task survives a step when the task that moves
establishes its own and every other one is stable under the move. -/
theorem Move.forall_tasks {T : Shared → ℕ → Pc → Prop} (h : Move κ d a u)
    (hT : ∀ i, T d.sh i (d.tasks i))
    (hidle : ∀ i readable, T (d.sh.boot κ readable) i .idle)
    (hstart : ∀ i (op : Op), T d.sh i .idle → op.task i → op.admissible κ d.sh → T d.sh i op.entry)
    (hsection : ∀ i ch n, advance i ch d.sh (d.tasks i) = some n → T n.sh i n.pc)
    (hspawn : ∀ i ch n j pc, advance i ch d.sh (d.tasks i) = some n → n.spawned = some pc → 3 ≤ j →
      T n.sh j .idle → T n.sh j pc)
    (hframe : ∀ i ch n j, advance i ch d.sh (d.tasks i) = some n → j ≠ i → T n.sh j (d.tasks j))
    (hambient : ∀ i s, a.ambient d.sh = some s → T s i (d.tasks i)) :
    ∀ i, T u.sh i (u.tasks i) := by
  intro k
  cases h with
  | @start i op hi ht ha =>
    obtain rfl | hk := eq_or_ne k i
    · simpa using hstart k op (hi ▸ hT k) ht ha
    · simpa [hk] using hT k
  | @lockSection i ch n hn _ =>
    obtain rfl | hk := eq_or_ne k i
    · simpa using hsection k ch n hn
    · simpa [hk] using hframe i ch n k hn hk
  | @spawn i j ch n pc hn hs _ hj hidle =>
    have hold : T n.sh k (update d.tasks i n.pc k) := by
      obtain rfl | hk := eq_or_ne k i
      · simpa using hsection k ch n hn
      · simpa [hk] using hframe i ch n k hn hk
    obtain rfl | hkj := eq_or_ne k j
    · simpa using hspawn i ch n k pc hn hs hj (hidle ▸ hold)
    · simpa [hkj] using hold
  | ambient hs => exact hambient k _ hs
  | crash readable => exact hidle k readable

/-- Only the first `m` tasks are under way. -/
def Within (m : ℕ) (d : System) : Prop := ∀ j, m ≤ j → d.tasks j = .idle

end System

/-- The step concerns the first `m` tasks and spawns nothing beyond them. -/
def Act.within (m : ℕ) : Act → Bool
  | .start i _ => i < m
  | .lockSection i ch => i < m && ch.spawn.all fun j ↦ j < m
  | _ => true

theorem System.Within.step {m : ℕ} (hd : d.Within m) (h : System.step κ d a = some u)
    (ha : a.within m) : u.Within m := by
  intro j hj
  have hm := move_of_step h
  cases hm with
  | @start i op =>
    have hi : j ≠ i := by
      rintro rfl
      simp [Act.within] at ha
      omega
    simpa [hi] using hd j hj
  | @lockSection i ch n =>
    have hi : j ≠ i := by
      rintro rfl
      simp [Act.within] at ha
      omega
    simpa [hi] using hd j hj
  | @spawn i k ch n pc _ _ hs =>
    simp only [Act.within, hs, Bool.and_eq_true, decide_eq_true_eq, Option.all_some] at ha
    have hi : j ≠ i := by omega
    have hk : j ≠ k := by omega
    simpa [hi, hk] using hd j hj
  | ambient => exact hd j hj
  | crash => rfl

/-- Every key is valid and is its own id. -/
def plainCrypto : Crypto := ⟨id, fun _ ↦ true⟩

def plainContact (key : Key) : Contact := ⟨key, key, "", .v4 0x0a000001 7878, []⟩

/-- A section whose disk call or install succeeds. -/
def succeeds : Choice := ⟨true, true, [], 0, none⟩

def sections (i m : ℕ) : List Act := List.replicate m (.lockSection i succeeds)

/-- A section whose disk call or install fails. -/
def fails : Choice := { succeeds with ok := false }

end FluxSync.Daemon
