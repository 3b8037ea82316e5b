import Mathlib.Logic.Function.Basic
import Mathlib.Data.List.Basic

namespace FluxSync.Storage

variable {ν : Type}

abbrev Inode := Nat

abbrev Dir (ν : Type) := ν → Option Inode

/-- What reads see of a file, and whether a power cut leaves it as it is. -/
structure File where
  bytes : List UInt8
  synced : Bool

/-- The bytes `old` with `bs` from the offset on. -/
def overwrite (old : List UInt8) (off : Nat) (bs : List UInt8) : List UInt8 :=
  old.take off ++ List.replicate (off - old.length) 0 ++ bs ++ old.drop (off + bs.length)

theorem overwrite_end {old rest bytes : List UInt8} (bs : List UInt8) (h : old ++ rest = bytes) :
    overwrite old (bytes.length - rest.length) bs = old ++ bs := by
  have hoff : bytes.length - rest.length = old.length := by
    rw [← h, List.length_append]
    omega
  rw [hoff, overwrite, List.take_length, Nat.sub_self, List.replicate_zero, List.append_nil,
    List.drop_eq_nil_of_le (Nat.le_add_right _ _), List.append_nil]

/-- A directory and its files. Changes of the directory reach the medium in the
order they were made: a power cut leaves one of `survivors`, the directories
there have been since the last flush. -/
structure Disk (ν : Type) where
  dir : Dir ν
  survivors : List (Dir ν)
  files : Inode → File
  next : Inode

namespace Disk

variable {d : Disk ν} {D D' : Dir ν} {i j : Inode} {n m p : ν} {f : File} {bs : List UInt8}
  {ok ok' : Option (List UInt8) → Prop} {junk : Inode → List UInt8}

/-- The contents of the file that `D` has under a name. -/
def look (d : Disk ν) (D : Dir ν) (n : ν) : Option (List UInt8) :=
  (D n).map fun i ↦ (d.files i).bytes

def read (d : Disk ν) (n : ν) : Option (List UInt8) := d.look d.dir n

def edit (d : Disk ν) (i : Inode) (f : File) : Disk ν :=
  { d with files := Function.update d.files i f }

def enter (d : Disk ν) (D : Dir ν) : Disk ν :=
  { d with dir := D, survivors := d.survivors ++ [D] }

/-- Open a file for writing from its start, a new one where there is none. -/
def create [DecidableEq ν] (d : Disk ν) (n : ν) : Disk ν × Inode :=
  match d.dir n with
  | some i => (d.edit i ⟨[], false⟩, i)
  | none =>
    ({ (d.edit d.next ⟨[], false⟩).enter (Function.update d.dir n (some d.next)) with
        next := d.next + 1 }, d.next)

/-- Write at an offset. What is missing before it reads as zeros. -/
def writeAt (d : Disk ν) (i : Inode) (off : Nat) (bs : List UInt8) : Disk ν :=
  d.edit i ⟨overwrite (d.files i).bytes off bs, false⟩

def sync (d : Disk ν) (i : Inode) : Disk ν := d.edit i ⟨(d.files i).bytes, true⟩

def move [DecidableEq ν] (d : Disk ν) (n m : ν) (i : Inode) : Disk ν :=
  d.enter (Function.update (Function.update d.dir m (some i)) n none)

/-- Give a file another name, in place of the file that has it; there has to be one. -/
def rename [DecidableEq ν] (d : Disk ν) (n m : ν) : Option (Disk ν) := (d.dir n).map (d.move n m)

def remove [DecidableEq ν] (d : Disk ν) (n : ν) : Disk ν := d.enter (Function.update d.dir n none)

def syncDir (d : Disk ν) : Disk ν := { d with survivors := [d.dir] }

/-- What is found after a power cut: one of the directories that may survive, and
anything at all in the files that were not synced. -/
def powerCut (d : Disk ν) (D : Dir ν) (junk : Inode → List UInt8) : Disk ν where
  dir := D
  survivors := [D]
  files i := if (d.files i).synced then d.files i else ⟨junk i, true⟩
  next := d.next

/-- No file has two names, whatever happens. -/
structure Sound (d : Disk ν) : Prop where
  current : d.dir ∈ d.survivors
  fresh : ∀ D ∈ d.survivors, ∀ n i, D n = some i → i < d.next
  apart : ∀ D ∈ d.survivors, ∀ n m i, D n = some i → D m = some i → n = m

/-- Whatever happens, the file named `p` is whole and its contents are `ok`. -/
structure Keeps (d : Disk ν) (p : ν) (ok : Option (List UInt8) → Prop) : Prop where
  stays : ∀ D ∈ d.survivors, ∀ i n, D p = some i → d.dir n = some i → n = p
  synced : ∀ D ∈ d.survivors, ∀ i, D p = some i → (d.files i).synced = true
  holds : ∀ D ∈ d.survivors, ok (d.look D p)

theorem Keeps.mono (h : d.Keeps p ok) (hok : ∀ v, ok v → ok' v) : d.Keeps p ok' :=
  ⟨h.stays, h.synced, fun D hD ↦ hok _ (h.holds D hD)⟩

theorem Keeps.read (h : d.Keeps p ok) (hd : d.Sound) : ok (d.read p) := h.holds _ hd.current

theorem edit_apply_ne (hij : j ≠ i) : (d.edit i f).files j = d.files j := by
  simp only [edit, Function.update_of_ne hij]

theorem edit_apply_self : (d.edit i f).files i = f := by
  simp only [edit, Function.update_self]

theorem look_edit_of_ne (h : D n ≠ some i) : (d.edit i f).look D n = d.look D n := by
  unfold look
  cases hn : D n with
  | none => rfl
  | some j =>
    have hij : j ≠ i := by
      intro he
      exact h (he ▸ hn)
    simp only [Option.map_some, edit_apply_ne hij]

theorem Sound.edit (h : d.Sound) : (d.edit i f).Sound := ⟨h.current, h.fresh, h.apart⟩

/-- A file under another name is not one that `p` may name. -/
theorem Keeps.ne_of_named (h : d.Keeps p ok) (hn : d.dir n = some i) (hnp : n ≠ p) :
    ∀ D ∈ d.survivors, D p ≠ some i := by
  intro D hD he
  exact hnp (h.stays D hD i n he hn)

/-- Writing to a file that `p` does not name leaves `p` alone. -/
theorem Keeps.edit (h : d.Keeps p ok) (hne : ∀ D ∈ d.survivors, D p ≠ some i) :
    (d.edit i f).Keeps p ok := by
  refine ⟨h.stays, ?_, ?_⟩
  · intro D hD j hj
    have hij : j ≠ i := by
      intro he
      exact hne D hD (he ▸ hj)
    rw [edit_apply_ne hij]
    exact h.synced D hD j hj
  · intro D hD
    rw [look_edit_of_ne (hne D hD)]
    exact h.holds D hD

theorem mem_survivors_enter : D' ∈ (d.enter D).survivors ↔ D' ∈ d.survivors ∨ D' = D := by
  simp [enter]

theorem Sound.enter (h : d.Sound) (hf : ∀ n i, D n = some i → i < d.next)
    (ha : ∀ n m i, D n = some i → D m = some i → n = m) : (d.enter D).Sound where
  current := mem_survivors_enter.mpr (.inr rfl)
  fresh := by
    intro D' hD'
    obtain hD' | rfl := mem_survivors_enter.mp hD'
    · exact h.fresh D' hD'
    · exact hf
  apart := by
    intro D' hD'
    obtain hD' | rfl := mem_survivors_enter.mp hD'
    · exact h.apart D' hD'
    · exact ha

/-- A change of the directory that gives a file named `p` no other name. -/
theorem Keeps.enter (h : d.Keeps p ok)
    (hs : ∀ D' ∈ d.survivors, ∀ i n, D' p = some i → D n = some i → n = p)
    (ha : ∀ n i, D p = some i → D n = some i → n = p)
    (hp : ∀ i, D p = some i → (d.files i).synced = true) (hok : ok (d.look D p)) :
    (d.enter D).Keeps p ok where
  stays := by
    intro D' hD' i n hi hn
    obtain hD' | rfl := mem_survivors_enter.mp hD'
    · exact hs D' hD' i n hi hn
    · exact ha n i hi hn
  synced := by
    intro D' hD'
    obtain hD' | rfl := mem_survivors_enter.mp hD'
    · exact h.synced D' hD'
    · exact hp
  holds := by
    intro D' hD'
    obtain hD' | rfl := mem_survivors_enter.mp hD'
    · exact h.holds D' hD'
    · exact hok

/-- A change of the directory that leaves `p` as it is and moves no file to a name of its own. -/
theorem Keeps.enter_of_eq (h : d.Keeps p ok) (hd : d.Sound) (hD : D p = d.dir p)
    (hm : ∀ n i, D n = some i → (∃ m, m ≠ p ∧ d.dir m = some i) ∨ d.dir n = some i) :
    (d.enter D).Keeps p ok := by
  have hs : ∀ D' ∈ d.survivors, ∀ i n, D' p = some i → D n = some i → n = p := by
    intro D' hD' i n hi hn
    obtain ⟨m, hmp, hm⟩ | hn := hm n i hn
    · exact absurd (h.stays D' hD' i m hi hm) hmp
    · exact h.stays D' hD' i n hi hn
  refine h.enter hs ?_ ?_ ?_
  · intro n i hi hn
    exact hs _ hd.current i n (hD ▸ hi) hn
  · intro i hi
    exact h.synced _ hd.current i (hD ▸ hi)
  · have hl : d.look D p = d.look d.dir p := by rw [look, look, hD]
    rw [hl]
    exact h.holds _ hd.current

theorem Sound.syncDir (h : d.Sound) : d.syncDir.Sound where
  current := List.mem_singleton_self _
  fresh := by
    intro D hD
    obtain rfl := List.mem_singleton.mp hD
    exact h.fresh _ h.current
  apart := by
    intro D hD
    obtain rfl := List.mem_singleton.mp hD
    exact h.apart _ h.current

/-- Flushing the directory settles on what is read. -/
theorem Keeps.syncDir (h : d.Keeps p ok) (hd : d.Sound) : d.syncDir.Keeps p (· = d.read p) where
  stays := by
    intro D hD
    obtain rfl := List.mem_singleton.mp hD
    exact h.stays _ hd.current
  synced := by
    intro D hD
    obtain rfl := List.mem_singleton.mp hD
    exact h.synced _ hd.current
  holds := by
    intro D hD
    obtain rfl := List.mem_singleton.mp hD
    rfl

theorem Sound.powerCut (h : d.Sound) (hD : D ∈ d.survivors) : (d.powerCut D junk).Sound where
  current := List.mem_singleton_self D
  fresh := by
    intro D' hD'
    obtain rfl := List.mem_singleton.mp hD'
    exact h.fresh _ hD
  apart := by
    intro D' hD'
    obtain rfl := List.mem_singleton.mp hD'
    exact h.apart _ hD

theorem powerCut_files (h : (d.files i).synced = true) : (d.powerCut D junk).files i = d.files i := by
  simp [powerCut, h]

theorem Keeps.powerCut (h : d.Keeps p ok) (hd : d.Sound) (hD : D ∈ d.survivors) :
    (d.powerCut D junk).Keeps p ok where
  stays := by
    intro D' hD' i n hi hn
    obtain rfl := List.mem_singleton.mp hD'
    exact hd.apart D' hD n p i hn hi
  synced := by
    intro D' hD' i hi
    obtain rfl := List.mem_singleton.mp hD'
    rw [powerCut_files (h.synced D' hD i hi)]
    exact h.synced D' hD i hi
  holds := by
    intro D' hD'
    obtain rfl := List.mem_singleton.mp hD'
    have hl : (d.powerCut D' junk).look D' p = d.look D' p := by
      unfold look
      cases hp : D' p with
      | none => rfl
      | some i => simp only [Option.map_some, powerCut_files (h.synced D' hD i hp)]
    rw [hl]
    exact h.holds D' hD

/-- A change that leaves a name and its file alone. -/
structure Same (d d' : Disk ν) (n : ν) : Prop where
  dir : d'.dir n = d.dir n
  files : ∀ i, d.dir n = some i → d'.files i = d.files i

theorem Same.refl (d : Disk ν) (n : ν) : d.Same d n := ⟨rfl, fun _ _ ↦ rfl⟩

theorem Same.read {d' : Disk ν} (h : d.Same d' n) : d'.read n = d.read n := by
  unfold Disk.read look
  rw [h.dir]
  cases hn : d.dir n with
  | none => rfl
  | some i => simp only [Option.map_some, h.files i hn]

theorem same_edit (hn : d.dir n ≠ some i) : d.Same (d.edit i f) n :=
  ⟨rfl, fun _ hj ↦ edit_apply_ne fun he ↦ hn (he ▸ hj)⟩

theorem Sound.ne_of_named (h : d.Sound) (hm : d.dir m = some i) (hnm : n ≠ m) : d.dir n ≠ some i :=
  fun hn ↦ hnm (h.apart _ h.current n m i hn hm)

/-- The file `i` is none that `p` may name, whatever happens, and not the one that `q` names now. -/
structure Away (d : Disk ν) (p q : ν) (i : Inode) : Prop where
  kept : ∀ D ∈ d.survivors, D p ≠ some i
  other : d.dir q ≠ some i
  old : i < d.next

theorem Away.edit {q : ν} (h : d.Away p q i) : (d.edit j f).Away p q i := ⟨h.kept, h.other, h.old⟩

theorem Away.syncDir {q : ν} (h : d.Away p q i) (hd : d.Sound) : d.syncDir.Away p q i where
  kept := by
    intro D hD
    obtain rfl := List.mem_singleton.mp hD
    exact h.kept _ hd.current
  other := h.other
  old := h.old

theorem Away.enter {q : ν} (h : d.Away p q i) (hp : D p ≠ some i) (hq : D q ≠ some i) :
    (d.enter D).Away p q i where
  kept := by
    intro D' hD'
    obtain hD' | rfl := mem_survivors_enter.mp hD'
    · exact h.kept D' hD'
    · exact hp
  other := hq
  old := h.old

variable [DecidableEq ν]

theorem create_of_some (hn : d.dir n = some i) : d.create n = (d.edit i ⟨[], false⟩, i) := by
  rw [create, hn]

theorem create_of_none (hn : d.dir n = none) :
    d.create n = ({ (d.edit d.next ⟨[], false⟩).enter (Function.update d.dir n (some d.next)) with
      next := d.next + 1 }, d.next) := by
  rw [create, hn]

theorem create_files_self : (d.create n).1.files (d.create n).2 = ⟨[], false⟩ := by
  cases hn : d.dir n with
  | some i => simp only [create_of_some hn, edit_apply_self]
  | none =>
    simp only [create_of_none hn, enter]
    exact edit_apply_self

theorem create_dir_self : (d.create n).1.dir n = some (d.create n).2 := by
  cases hn : d.dir n with
  | some i =>
    rw [create_of_some hn]
    exact hn
  | none =>
    rw [create_of_none hn]
    exact Function.update_self n _ _

theorem create_dir_ne (hnm : m ≠ n) : (d.create n).1.dir m = d.dir m := by
  cases hn : d.dir n with
  | some i =>
    rw [create_of_some hn]
    rfl
  | none =>
    rw [create_of_none hn]
    exact Function.update_of_ne hnm _ _

/-- The file opened is not one that has another name. -/
theorem create_files_ne (hd : d.Sound) (hnm : m ≠ n) (hm : d.dir m = some i) :
    (d.create n).1.files i = d.files i := by
  cases hn : d.dir n with
  | some j =>
    rw [create_of_some hn]
    apply edit_apply_ne
    rintro rfl
    exact hnm (hd.apart _ hd.current m n _ hm hn)
  | none =>
    rw [create_of_none hn]
    apply edit_apply_ne
    exact Nat.ne_of_lt (hd.fresh _ hd.current m i hm)

theorem Sound.create (h : d.Sound) : (d.create n).1.Sound := by
  cases hn : d.dir n with
  | some i =>
    rw [create_of_some hn]
    exact h.edit
  | none =>
    rw [create_of_none hn]
    have hlt : ∀ m i, Function.update d.dir n (some d.next) m = some i →
        m = n ∧ i = d.next ∨ m ≠ n ∧ d.dir m = some i := by
      intro m i hm
      by_cases hmn : m = n
      · subst hmn
        rw [Function.update_self, Option.some.injEq] at hm
        exact .inl ⟨rfl, hm.symm⟩
      · rw [Function.update_of_ne hmn] at hm
        exact .inr ⟨hmn, hm⟩
    refine ⟨mem_survivors_enter.mpr (.inr rfl), ?_, ?_⟩
    · intro D hD m i hm
      have hi : i < d.next + 1 := by
        obtain hD | rfl := mem_survivors_enter.mp hD
        · exact Nat.lt_succ_of_lt (h.fresh D hD m i hm)
        · obtain ⟨-, rfl⟩ | ⟨-, hm⟩ := hlt m i hm
          · exact Nat.lt_succ_self d.next
          · exact Nat.lt_succ_of_lt (h.fresh _ h.current m i hm)
      exact hi
    · intro D hD m k i hm hk
      obtain hD | rfl := mem_survivors_enter.mp hD
      · exact h.apart D hD m k i hm hk
      · obtain ⟨rfl, rfl⟩ | ⟨-, hm'⟩ := hlt m i hm
        · obtain ⟨rfl, -⟩ | ⟨-, hk'⟩ := hlt k _ hk
          · rfl
          · exact absurd (h.fresh _ h.current k _ hk') (Nat.lt_irrefl _)
        · obtain ⟨rfl, rfl⟩ | ⟨-, hk'⟩ := hlt k _ hk
          · exact absurd (h.fresh _ h.current m _ hm') (Nat.lt_irrefl _)
          · exact h.apart _ h.current m k i hm' hk'

theorem Keeps.create (h : d.Keeps p ok) (hd : d.Sound) (hnp : n ≠ p) :
    (d.create n).1.Keeps p ok := by
  cases hn : d.dir n with
  | some i =>
    rw [create_of_some hn]
    exact h.edit (h.ne_of_named hn hnp)
  | none =>
    rw [create_of_none hn]
    have hlt : ∀ D ∈ d.survivors, ∀ i, D p = some i → i ≠ d.next := by
      intro D hD i hi he
      exact absurd (hd.fresh D hD p i hi) (he ▸ Nat.lt_irrefl _)
    have hedit : (d.edit d.next ⟨[], false⟩).Keeps p ok := by
      refine ⟨h.stays, ?_, ?_⟩
      · intro D hD i hi
        rw [edit_apply_ne (hlt D hD i hi)]
        exact h.synced D hD i hi
      · intro D hD
        rw [look_edit_of_ne (fun he ↦ hlt D hD _ he rfl)]
        exact h.holds D hD
    have henter := hedit.enter (D := Function.update d.dir n (some d.next)) ?_ ?_ ?_ ?_
    · exact ⟨henter.stays, henter.synced, henter.holds⟩
    · intro D hD i m hi hm
      by_cases hmn : m = n
      · subst hmn
        rw [Function.update_self, Option.some.injEq] at hm
        exact absurd hm.symm (hlt D hD i hi)
      · rw [Function.update_of_ne hmn] at hm
        exact h.stays D hD i m hi hm
    · intro m i hi hm
      rw [Function.update_of_ne hnp.symm] at hi
      by_cases hmn : m = n
      · subst hmn
        rw [Function.update_self, Option.some.injEq] at hm
        exact absurd hm.symm (hlt _ hd.current i hi)
      · rw [Function.update_of_ne hmn] at hm
        exact h.stays _ hd.current i m hi hm
    · intro i hi
      rw [Function.update_of_ne hnp.symm] at hi
      exact hedit.synced _ hd.current i hi
    · have hl : ∀ e : Disk ν, e.look (Function.update d.dir n (some d.next)) p = e.look d.dir p := by
        intro e
        rw [look, look, Function.update_of_ne hnp.symm]
      rw [hl]
      exact hedit.holds _ hd.current

theorem move_apply (k : ν) :
    (d.move n m i).dir k = if k = n then none else if k = m then some i else d.dir k := by
  simp only [move, enter, Function.update_apply]

theorem Sound.move (h : d.Sound) (hnm : n ≠ m) (hn : d.dir n = some i) :
    (d.move n m i).Sound := by
  have hmove : ∀ k j, (d.move n m i).dir k = some j →
      k = m ∧ j = i ∨ k ≠ m ∧ k ≠ n ∧ d.dir k = some j := by
    intro k j hk
    rw [move_apply] at hk
    grind
  refine h.enter ?_ ?_
  · intro k j hk
    obtain ⟨-, rfl⟩ | ⟨-, -, hk⟩ := hmove k j hk
    · exact h.fresh _ h.current n _ hn
    · exact h.fresh _ h.current k j hk
  · intro k k' j hk hk'
    obtain ⟨rfl, rfl⟩ | ⟨-, hkn, hk₀⟩ := hmove k j hk
    · obtain ⟨rfl, -⟩ | ⟨-, hkn', hk₀⟩ := hmove k' _ hk'
      · rfl
      · exact absurd (h.apart _ h.current k' n _ hk₀ hn) hkn'
    · obtain ⟨rfl, rfl⟩ | ⟨-, -, hk₁⟩ := hmove k' _ hk'
      · exact absurd (h.apart _ h.current k n _ hk₀ hn) hkn
      · exact h.apart _ h.current k k' j hk₀ hk₁

/-- A synced file takes the name `p`. -/
theorem Keeps.move_self (h : d.Keeps p ok) (hd : d.Sound) (hnp : n ≠ p) (hn : d.dir n = some i)
    (hi : (d.files i).synced = true) (hok : ok (some (d.files i).bytes)) :
    (d.move n p i).Keeps p ok := by
  have hp : (d.move n p i).dir p = some i := by
    rw [move_apply p, if_neg hnp.symm, if_pos rfl]
  have hmove : ∀ k j, (d.move n p i).dir k = some j →
      k = p ∨ k ≠ n ∧ d.dir k = some j := by
    intro k j hk
    rw [move_apply] at hk
    grind
  refine h.enter ?_ ?_ ?_ ?_
  · intro D hD j k hj hk
    obtain rfl | ⟨-, hk⟩ := hmove k j hk
    · rfl
    · exact h.stays D hD j k hj hk
  · intro k j hj hk
    obtain rfl : i = j := Option.some.inj (hp.symm.trans hj)
    obtain rfl | ⟨hkn, hk⟩ := hmove k i hk
    · rfl
    · exact absurd (hd.apart _ hd.current k n i hk hn) hkn
  · intro j hj
    obtain rfl : i = j := Option.some.inj (hp.symm.trans hj)
    exact hi
  · have hl : d.look (d.move n p i).dir p = some (d.files i).bytes := by
      rw [look, hp, Option.map_some]
    exact hl ▸ hok

/-- A renaming of other names leaves `p` alone. -/
theorem Keeps.move (h : d.Keeps p ok) (hd : d.Sound) (hnm : n ≠ m) (hnp : n ≠ p) (hmp : m ≠ p)
    (hn : d.dir n = some i) : (d.move n m i).Keeps p ok := by
  refine h.enter_of_eq hd ?_ ?_
  · exact (move_apply p).trans (by rw [if_neg hnp.symm, if_neg hmp.symm])
  · intro k j hk
    have hk := (move_apply k).symm.trans hk
    by_cases hkm : k = m
    · subst hkm
      rw [if_neg hnm.symm, if_pos rfl, Option.some.injEq] at hk
      exact .inl ⟨n, hnp, hk ▸ hn⟩
    · by_cases hkn : k = n
      · simp [hkn] at hk
      · rw [if_neg hkn, if_neg hkm] at hk
        exact .inr hk

theorem Sound.remove (h : d.Sound) : (d.remove n).Sound := by
  have hk : ∀ k i, Function.update d.dir n none k = some i → d.dir k = some i := by
    intro k i hk
    rw [Function.update_apply] at hk
    grind
  refine h.enter ?_ ?_
  · intro k i hi
    exact h.fresh _ h.current k i (hk k i hi)
  · intro k k' i hi hi'
    exact h.apart _ h.current k k' i (hk k i hi) (hk k' i hi')

theorem Keeps.remove (h : d.Keeps p ok) (hd : d.Sound) (hok : n = p → ok none) :
    (d.remove n).Keeps p ok := by
  by_cases hnp : n = p
  · subst hnp
    have hp : Function.update d.dir n none n = none := Function.update_self n none d.dir
    have hk : ∀ k i, Function.update d.dir n none k = some i → d.dir k = some i := by
      intro k i hk
      rw [Function.update_apply] at hk
      grind
    refine h.enter ?_ ?_ ?_ ?_
    · intro D hD i k hi hi'
      exact h.stays D hD i k hi (hk k i hi')
    · intro k i hi
      rw [hp] at hi
      cases hi
    · intro i hi
      rw [hp] at hi
      cases hi
    · rw [look, hp]
      exact hok rfl
  · refine h.enter_of_eq hd (Function.update_of_ne (Ne.symm hnp) _ _) ?_
    intro k i hk
    rw [Function.update_apply] at hk
    grind

theorem same_create (hd : d.Sound) (hnm : n ≠ m) : d.Same (d.create m).1 n :=
  ⟨create_dir_ne hnm, fun _ hn ↦ create_files_ne hd hnm hn⟩

theorem same_move {k : ν} (hkn : k ≠ n) (hkm : k ≠ m) : d.Same (d.move n m i) k :=
  ⟨(move_apply k).trans (by rw [if_neg hkn, if_neg hkm]), fun _ _ ↦ rfl⟩

theorem same_remove (hnm : n ≠ m) : d.Same (d.remove m) n :=
  ⟨Function.update_of_ne hnm _ _, fun _ _ ↦ rfl⟩

theorem Away.create {q : ν} (h : d.Away p q i) (hd : d.Sound) : (d.create n).1.Away p q i := by
  cases hn : d.dir n with
  | some j =>
    rw [create_of_some hn]
    exact h.edit
  | none =>
    rw [create_of_none hn]
    have happly : ∀ k, d.dir k ≠ some i → Function.update d.dir n (some d.next) k ≠ some i := by
      intro k hk
      rw [Function.update_apply]
      split
      · exact fun he ↦ Nat.ne_of_gt h.old (Option.some.inj he)
      · exact hk
    have henter : ((d.edit d.next ⟨[], false⟩).enter (Function.update d.dir n (some d.next))).Away p q i :=
      h.edit.enter (happly p (h.kept _ hd.current)) (happly q h.other)
    exact ⟨henter.kept, henter.other, Nat.lt_succ_of_lt h.old⟩

/-- A file opened under another name. -/
theorem Keeps.away_create {q : ν} (h : d.Keeps p ok) (hd : d.Sound) (hnp : n ≠ p) (hnq : n ≠ q) :
    (d.create n).1.Away p q (d.create n).2 := by
  cases hn : d.dir n with
  | some i =>
    rw [create_of_some hn]
    exact Away.edit ⟨h.ne_of_named hn hnp, hd.ne_of_named hn (Ne.symm hnq), hd.fresh _ hd.current n i hn⟩
  | none =>
    rw [create_of_none hn]
    have hnew : ∀ D ∈ d.survivors, ∀ k, D k ≠ some d.next := by
      intro D hD k hk
      exact Nat.lt_irrefl _ (hd.fresh D hD k _ hk)
    have happly : ∀ k, n ≠ k → Function.update d.dir n (some d.next) k ≠ some d.next := by
      intro k hk
      rw [Function.update_of_ne (Ne.symm hk)]
      exact hnew _ hd.current k
    refine ⟨?_, happly q hnq, Nat.lt_succ_self _⟩
    intro D hD
    obtain hD | rfl := mem_survivors_enter.mp hD
    · exact hnew D hD p
    · exact happly p hnp

theorem Away.move {q : ν} (h : d.Away p q i) (hd : d.Sound) (hmp : m = p → j ≠ i) (hmq : m ≠ q) :
    (d.move n m j).Away p q i := by
  refine h.enter ?_ ?_
  · refine (move_apply p).trans_ne ?_
    split
    · simp
    · split
      · rename_i hpm
        exact fun he ↦ hmp hpm.symm (Option.some.inj he)
      · exact h.kept _ hd.current
  · refine (move_apply q).trans_ne ?_
    rw [if_neg (Ne.symm hmq)]
    split
    · simp
    · exact h.other

theorem Away.remove {q : ν} (h : d.Away p q i) (hd : d.Sound) : (d.remove n).Away p q i := by
  have happly : ∀ k, d.dir k ≠ some i → Function.update d.dir n none k ≠ some i := by
    intro k hk
    rw [Function.update_apply]
    split
    · simp
    · exact hk
  exact h.enter (happly p (h.kept _ hd.current)) (happly q h.other)

end Disk

end FluxSync.Storage
