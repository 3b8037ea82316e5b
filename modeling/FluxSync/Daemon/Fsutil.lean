import FluxSync.Foundation.Runs
import FluxSync.Foundation.Storage

namespace FluxSync.Fsutil

open Runs Storage

variable {φ ν : Type}

/-- The writers of a directory, each with its file and the temporary file beside it. -/
structure Layout (φ ν : Type) where
  path : φ → ν
  tmp : φ → ν
  path_ne_tmp : ∀ f g, path f ≠ tmp g

/-- No other writer has the file of `f` or its temporary file. -/
structure Layout.Alone (L : Layout φ ν) (f : φ) : Prop where
  path : ∀ g, g ≠ f → L.path g ≠ L.path f
  tmp : ∀ g, g ≠ f → L.tmp g ≠ L.tmp f

/-- The system call that `write_atomic` comes to next. -/
inductive Stage
  | create
  | write (file : Inode) (rest : List UInt8)
  | sync (file : Inode)
  | rename
  | syncDir

structure Call where
  bytes : List UInt8
  stage : Stage

/-- The disk, and for each writer the call of `write_atomic` that is being made. -/
structure System (φ ν : Type) where
  disk : Disk ν
  calls : φ → Option Call

inductive Act (φ ν : Type)
  | save (f : φ) (bytes : List UInt8)
  | advance (f : φ)
  | short (f : φ) (n : ℕ)
  | fail (f : φ)
  | removeTmp (f : φ)
  | remove (f : φ)
  | kill
  | powerCut (k : ℕ) (junk : Inode → List UInt8)

/-- The daemon is gone. -/
def Act.crashes : Act φ ν → Bool
  | .kill => true
  | .powerCut _ _ => true
  | _ => false

/-- Whose step it is. -/
def Act.writer : Act φ ν → Option φ
  | .save f _ => some f
  | .advance f => some f
  | .short f _ => some f
  | .fail f => some f
  | .removeTmp f => some f
  | .remove f => some f
  | .kill => none
  | .powerCut _ _ => none

variable {L L' : Layout φ ν} {s t u : System φ ν} {a : Act φ ν} {f g : φ} {c : Call} {b : List UInt8}
  {l l₁ l₂ : List (Act φ ν)} {d d' : Disk ν} {i : Inode} {rest : List UInt8}
  {ok ok' : Option (List UInt8) → Prop} {v w : Option (List UInt8)}

def System.read (L : Layout φ ν) (s : System φ ν) (f : φ) : Option (List UInt8) :=
  s.disk.read (L.path f)

def System.put [DecidableEq φ] (s : System φ ν) (d : Disk ν) (f : φ) (c : Option Call) : System φ ν where
  disk := d
  calls := Function.update s.calls f c

/-- A system call of `write_atomic` that succeeds. -/
def advance [DecidableEq ν] (L : Layout φ ν) (f : φ) (d : Disk ν) (bytes : List UInt8) :
    Stage → Option (Disk ν × Option Call)
  | .create =>
    let (d, file) := d.create (L.tmp f)
    some (d, some ⟨bytes, .write file bytes⟩)
  | .write file rest =>
    some (d.writeAt file (bytes.length - rest.length) rest, some ⟨bytes, .sync file⟩)
  | .sync file => some (d.sync file, some ⟨bytes, .rename⟩)
  | .rename => do
    let d ← d.rename (L.tmp f) (L.path f)
    some (d, some ⟨bytes, .syncDir⟩)
  | .syncDir => some (d.syncDir, none)

/-- One step of the daemon's stores. A call that fails is over: its error is
returned, or for the flush of the directory only logged. -/
def step [DecidableEq φ] [DecidableEq ν] (L : Layout φ ν) (s : System φ ν) : Act φ ν → Option (System φ ν)
  | .save f bytes =>
    match s.calls f with
    | none => some (s.put s.disk f (some ⟨bytes, .create⟩))
    | some _ => none
  | .advance f => do
    let c ← s.calls f
    let (d, c) ← advance L f s.disk c.bytes c.stage
    some (s.put d f c)
  | .short f n =>
    match s.calls f with
    | some ⟨bytes, .write file rest⟩ =>
      some (s.put (s.disk.writeAt file (bytes.length - rest.length) (rest.take n)) f
        (some ⟨bytes, .write file (rest.drop n)⟩))
    | _ => none
  | .fail f => some (s.put s.disk f none)
  | .removeTmp f =>
    match s.calls f with
    | none => some { s with disk := s.disk.remove (L.tmp f) }
    | some _ => none
  | .remove f =>
    match s.calls f with
    | none => some { s with disk := s.disk.remove (L.path f) }
    | some _ => none
  | .kill => some { s with calls := fun _ ↦ none }
  | .powerCut k junk => do
    let D ← s.disk.survivors[k]?
    some ⟨s.disk.powerCut D junk, fun _ ↦ none⟩

/-- How far the call for `f` has come on the disk. -/
def Call.Fits (L : Layout φ ν) (f : φ) (d : Disk ν) (c : Call) : Prop :=
  match c.stage with
  | .create => True
  | .write file rest => d.dir (L.tmp f) = some file ∧ (d.files file).bytes ++ rest = c.bytes
  | .sync file => d.dir (L.tmp f) = some file ∧ (d.files file).bytes = c.bytes
  | .rename => ∃ file, d.dir (L.tmp f) = some file ∧ d.files file = ⟨c.bytes, true⟩
  | .syncDir => d.read (L.path f) = some c.bytes

/-- The file that a call for another writer has open is not one that `f` has or may take. -/
def Call.Aside (L : Layout φ ν) (f : φ) (d : Disk ν) (c : Call) : Prop :=
  match c.stage with
  | .write file _ => d.Away (L.path f) (L.tmp f) file
  | .sync file => d.Away (L.path f) (L.tmp f) file
  | _ => True

/-- Whatever happens next, the file of `f` is whole and its contents are `ok`. -/
structure Safe (L : Layout φ ν) (f : φ) (ok : Option (List UInt8) → Prop) (s : System φ ν) : Prop where
  alone : L.Alone f
  sound : s.disk.Sound
  keeps : s.disk.Keeps (L.path f) ok
  fits : ∀ c, s.calls f = some c → c.Fits L f s.disk
  aside : ∀ g c, g ≠ f → s.calls g = some c → c.Aside L f s.disk
  saves : ∀ c, s.calls f = some c → ok (some c.bytes)

theorem Safe.read (h : Safe L f ok s) : ok (s.read L f) := h.keeps.read h.sound

/-- A call is not disturbed by changes elsewhere. -/
theorem Call.Fits.frame (h : c.Fits L f d) (ht : d.Same d' (L.tmp f)) (hp : d.Same d' (L.path f)) :
    c.Fits L f d' := by
  obtain ⟨bytes, stage⟩ := c
  cases stage with
  | create => trivial
  | write file rest => exact ⟨ht.dir.trans h.1, by rw [ht.files file h.1]; exact h.2⟩
  | sync file => exact ⟨ht.dir.trans h.1, by rw [ht.files file h.1]; exact h.2⟩
  | rename =>
    obtain ⟨file, hd, hf⟩ := h
    exact ⟨file, ht.dir.trans hd, (ht.files file hd).trans hf⟩
  | syncDir => exact hp.read.trans h

theorem Call.Aside.frame (h : c.Aside L f d)
    (ha : ∀ i, d.Away (L.path f) (L.tmp f) i → d'.Away (L.path f) (L.tmp f) i) : c.Aside L f d' := by
  obtain ⟨bytes, stage⟩ := c
  cases stage with
  | write file rest => exact ha file h
  | sync file => exact ha file h
  | _ => trivial

theorem Safe.mono (h : Safe L f ok s) (hok : ∀ v, ok v → ok' v) : Safe L f ok' s :=
  ⟨h.alone, h.sound, h.keeps.mono hok, h.fits, h.aside, fun c hc ↦ hok _ (h.saves c hc)⟩

theorem safe_idle (hf : L.Alone f) (hd : d.Sound) (hk : d.Keeps (L.path f) ok) :
    Safe L f ok ⟨d, fun _ ↦ none⟩ where
  alone := hf
  sound := hd
  keeps := hk
  fits := fun _ he ↦ by cases he
  aside := fun _ _ _ he ↦ by cases he
  saves := fun _ he ↦ by cases he

/-- A writer that has no call under way removes a file. -/
theorem Safe.remove [DecidableEq ν] (h : Safe L f ok s) {n : ν} (hn : s.calls f = none ∨ n ≠ L.path f ∧ n ≠ L.tmp f)
    (hok : n = L.path f → ok none) : Safe L f ok { s with disk := s.disk.remove n } where
  alone := h.alone
  sound := h.sound.remove
  keeps := h.keeps.remove h.sound hok
  fits c hc := by
    obtain hnone | ⟨hp, ht⟩ := hn
    · cases hnone.symm.trans hc
    · exact (h.fits c hc).frame (Disk.same_remove (Ne.symm ht)) (Disk.same_remove (Ne.symm hp))
  aside g c hgf hc := (h.aside g c hgf hc).frame fun _ hi ↦ hi.remove h.sound
  saves := h.saves

/-- The disk as a boot finds it, and nothing being written. -/
structure Booted (s : System φ ν) : Prop where
  calls : ∀ f, s.calls f = none
  survivors : s.disk.survivors = [s.disk.dir]
  whole : ∀ n i, s.disk.dir n = some i → (s.disk.files i).synced = true ∧ i < s.disk.next
  apart : ∀ n m i, s.disk.dir n = some i → s.disk.dir m = some i → n = m

theorem Booted.safe (h : Booted s) (hf : L.Alone f) : Safe L f (· = s.read L f) s := by
  have hD : ∀ D ∈ s.disk.survivors, D = s.disk.dir := by
    rw [h.survivors]
    exact fun D ↦ List.mem_singleton.mp
  refine ⟨hf, ⟨?_, ?_, ?_⟩, ⟨?_, ?_, ?_⟩, ?_, ?_, ?_⟩
  · rw [h.survivors]
    exact List.mem_singleton_self _
  · rintro D hD' n i hi
    obtain rfl := hD D hD'
    exact (h.whole n i hi).2
  · rintro D hD'
    obtain rfl := hD D hD'
    exact h.apart
  · rintro D hD' i n hi hn
    obtain rfl := hD D hD'
    exact h.apart n _ i hn hi
  · rintro D hD' i hi
    obtain rfl := hD D hD'
    exact (h.whole _ i hi).1
  · rintro D hD'
    obtain rfl := hD D hD'
    rfl
  · intro c hc
    cases (h.calls f).symm.trans hc
  · intro g c _ hc
    cases (h.calls g).symm.trans hc
  · intro c hc
    cases (h.calls f).symm.trans hc

/-- A disk on which nothing was ever written. -/
def System.blank : System φ ν where
  disk := ⟨fun _ ↦ none, [fun _ ↦ none], fun _ ↦ ⟨[], true⟩, 0⟩
  calls _ := none

theorem booted_blank : Booted (.blank : System φ ν) where
  calls _ := rfl
  survivors := rfl
  whole _ _ h := by cases h
  apart _ _ _ h := by cases h

variable [DecidableEq φ]

theorem put_calls_self {o : Option Call} : (s.put d f o).calls f = o := by
  simp only [System.put, Function.update_self]

theorem put_calls_ne {o : Option Call} (h : g ≠ f) : (s.put d f o).calls g = s.calls g := by
  simp only [System.put, Function.update_of_ne h]

/-- A change that the call for `f` makes. -/
theorem Safe.own (h : Safe L f ok s) {o : Option Call} (hd : d.Sound) (hk : d.Keeps (L.path f) ok')
    (ha : ∀ i, s.disk.Away (L.path f) (L.tmp f) i → d.Away (L.path f) (L.tmp f) i)
    (ho : ∀ e, o = some e → e.Fits L f d ∧ ok' (some e.bytes)) : Safe L f ok' (s.put d f o) where
  alone := h.alone
  sound := hd
  keeps := hk
  fits e he := (ho e (put_calls_self.symm.trans he)).1
  aside g e hgf he := (h.aside g e hgf ((put_calls_ne hgf).symm.trans he)).frame ha
  saves e he := (ho e (put_calls_self.symm.trans he)).2

/-- A change that the call for another writer makes. -/
theorem Safe.other (h : Safe L f ok s) {o : Option Call} (hgf : g ≠ f) (hd : d.Sound)
    (hk : d.Keeps (L.path f) ok)
    (ha : ∀ i, s.disk.Away (L.path f) (L.tmp f) i → d.Away (L.path f) (L.tmp f) i)
    (ht : s.disk.Same d (L.tmp f)) (hp : s.disk.Same d (L.path f))
    (ho : ∀ e, o = some e → e.Aside L f d) : Safe L f ok (s.put d g o) where
  alone := h.alone
  sound := hd
  keeps := hk
  fits e he := (h.fits e ((put_calls_ne (Ne.symm hgf)).symm.trans he)).frame ht hp
  aside k e hkf he := by
    by_cases hkg : k = g
    · subst hkg
      exact ho e (put_calls_self.symm.trans he)
    · exact (h.aside k e hkf ((put_calls_ne hkg).symm.trans he)).frame ha
  saves e he := h.saves e ((put_calls_ne (Ne.symm hgf)).symm.trans he)

/-- Work of the call for `f` on its temporary file. -/
theorem Safe.edit_own (h : Safe L f ok s) {e : File} (hf : s.disk.dir (L.tmp f) = some i)
    (hc : c.Fits L f (s.disk.edit i e)) (hok : ok (some c.bytes)) :
    Safe L f ok (s.put (s.disk.edit i e) f (some c)) := by
  refine h.own h.sound.edit ?_ (fun _ ha ↦ ha.edit) ?_
  · exact h.keeps.edit (h.keeps.ne_of_named hf (Ne.symm (L.path_ne_tmp f f)))
  · intro e he
    obtain rfl := Option.some.inj he
    exact ⟨hc, hok⟩

/-- Work of another call on the file it has open. -/
theorem Safe.edit_other (h : Safe L f ok s) {e : File} {o : Option Call} (hgf : g ≠ f)
    (hi : s.disk.Away (L.path f) (L.tmp f) i) (ho : ∀ c, o = some c → c.Aside L f (s.disk.edit i e)) :
    Safe L f ok (s.put (s.disk.edit i e) g o) :=
  h.other hgf h.sound.edit (h.keeps.edit hi.kept) (fun _ ha ↦ ha.edit) (Disk.same_edit hi.other)
    (Disk.same_edit (hi.kept _ h.sound.current)) ho

theorem Safe.syncDir (h : Safe L f ok s) (hok : ok' (s.read L f)) :
    Safe L f ok' (s.put s.disk.syncDir f none) := by
  refine h.own h.sound.syncDir ?_ (fun _ hi ↦ hi.syncDir h.sound) ?_
  · refine (h.keeps.syncDir h.sound).mono ?_
    rintro v rfl
    exact hok
  · intro e he
    cases he

/-- Another writer takes up a call or gives one up. -/
theorem Safe.turn (h : Safe L f ok s) (hgf : g ≠ f) {o : Option Call}
    (ho : ∀ e, o = some e → e.Aside L f s.disk) : Safe L f ok (s.put s.disk g o) :=
  h.other hgf h.sound h.keeps (fun _ hi ↦ hi) (.refl _ _) (.refl _ _) ho

variable [DecidableEq ν]

theorem Safe.advance_own (h : Safe L f ok s) (hc : s.calls f = some c) {c' : Option Call}
    (ha : advance L f s.disk c.bytes c.stage = some (d, c')) : Safe L f ok (s.put d f c') := by
  have hok := h.saves c hc
  have hfit := h.fits c hc
  have hne : L.tmp f ≠ L.path f := Ne.symm (L.path_ne_tmp f f)
  obtain ⟨bytes, stage⟩ := c
  cases stage with
  | create =>
    simp only [Fsutil.advance, Option.some.injEq, Prod.mk.injEq] at ha
    obtain ⟨rfl, rfl⟩ := ha
    refine h.own h.sound.create (h.keeps.create h.sound hne) (fun _ hi ↦ hi.create h.sound) ?_
    intro e he
    obtain rfl := Option.some.inj he
    exact ⟨⟨Disk.create_dir_self, by rw [Disk.create_files_self]; rfl⟩, hok⟩
  | write file rest =>
    obtain ⟨rfl, rfl⟩ := Prod.mk.inj (Option.some.inj ha)
    refine h.edit_own hfit.1 ⟨hfit.1, ?_⟩ hok
    rw [Disk.edit_apply_self, overwrite_end rest hfit.2]
    exact hfit.2
  | sync file =>
    obtain ⟨rfl, rfl⟩ := Prod.mk.inj (Option.some.inj ha)
    refine h.edit_own hfit.1 ⟨file, hfit.1, ?_⟩ hok
    rw [Disk.edit_apply_self, hfit.2]
  | rename =>
    obtain ⟨file, hf, hfile⟩ := hfit
    have ha : some (s.disk.move (L.tmp f) (L.path f) file, some ⟨bytes, .syncDir⟩) = some (d, c') := by
      rw [← ha]
      simp [Fsutil.advance, Disk.rename, hf]
    obtain ⟨rfl, rfl⟩ := Prod.mk.inj (Option.some.inj ha)
    refine h.own (h.sound.move hne hf) ?_ ?_ ?_
    · refine h.keeps.move_self h.sound hne hf ?_ ?_
      · rw [hfile]
      · rw [hfile]
        exact hok
    · intro i hi
      refine hi.move h.sound (fun _ ↦ ?_) (L.path_ne_tmp f f)
      rintro rfl
      exact hi.other hf
    · intro e he
      obtain rfl := Option.some.inj he
      have hp : (s.disk.move (L.tmp f) (L.path f) file).dir (L.path f) = some file := by
        rw [Disk.move_apply, if_neg hne.symm, if_pos rfl]
      refine ⟨?_, hok⟩
      change Disk.read _ _ = _
      rw [Disk.read, Disk.look, hp, Option.map_some]
      change some (s.disk.files file).bytes = _
      rw [hfile]
  | syncDir =>
    obtain ⟨rfl, rfl⟩ := Prod.mk.inj (Option.some.inj ha)
    exact h.syncDir h.read

theorem Safe.advance_other (h : Safe L f ok s) (hgf : g ≠ f) (hc : s.calls g = some c)
    {c' : Option Call} (ha : advance L g s.disk c.bytes c.stage = some (d, c')) :
    Safe L f ok (s.put d g c') := by
  have haside := h.aside g c hgf hc
  have htmp := h.alone.tmp g hgf
  have htp : L.tmp g ≠ L.path f := Ne.symm (L.path_ne_tmp f g)
  obtain ⟨bytes, stage⟩ := c
  cases stage with
  | create =>
    simp only [Fsutil.advance, Option.some.injEq, Prod.mk.injEq] at ha
    obtain ⟨rfl, rfl⟩ := ha
    refine h.other hgf h.sound.create (h.keeps.create h.sound htp) (fun _ hi ↦ hi.create h.sound)
      (Disk.same_create h.sound (Ne.symm htmp)) (Disk.same_create h.sound (Ne.symm htp)) ?_
    intro e he
    obtain rfl := Option.some.inj he
    exact h.keeps.away_create h.sound htp htmp
  | write file rest =>
    obtain ⟨rfl, rfl⟩ := Prod.mk.inj (Option.some.inj ha)
    refine h.edit_other hgf haside ?_
    intro e he
    obtain rfl := Option.some.inj he
    exact Disk.Away.edit haside
  | sync file =>
    obtain ⟨rfl, rfl⟩ := Prod.mk.inj (Option.some.inj ha)
    refine h.edit_other hgf haside ?_
    intro e he
    obtain rfl := Option.some.inj he
    trivial
  | rename =>
    simp only [Fsutil.advance, Disk.rename, Option.bind_eq_bind, Option.bind_eq_some_iff,
      Option.map_eq_some_iff] at ha
    obtain ⟨_, ⟨file, hg, rfl⟩, ha⟩ := ha
    obtain ⟨rfl, rfl⟩ := Prod.mk.inj (Option.some.inj ha)
    have hne : L.tmp g ≠ L.path g := Ne.symm (L.path_ne_tmp g g)
    have hpath := h.alone.path g hgf
    refine h.other hgf (h.sound.move hne hg) (h.keeps.move h.sound hne htp hpath hg) ?_ ?_ ?_ ?_
    · exact fun i hi ↦ hi.move h.sound (fun he ↦ absurd he hpath) (L.path_ne_tmp g f)
    · exact Disk.same_move (Ne.symm htmp) (Ne.symm (L.path_ne_tmp g f))
    · exact Disk.same_move (L.path_ne_tmp f g) (Ne.symm hpath)
    · intro e he
      obtain rfl := Option.some.inj he
      trivial
  | syncDir =>
    obtain ⟨rfl, rfl⟩ := Prod.mk.inj (Option.some.inj ha)
    have hsame : ∀ n, s.disk.Same s.disk.syncDir n := fun n ↦ ⟨rfl, fun _ _ ↦ rfl⟩
    refine h.other hgf h.sound.syncDir ?_ (fun _ hi ↦ hi.syncDir h.sound) (hsame _) (hsame _) ?_
    · refine (h.keeps.syncDir h.sound).mono ?_
      rintro v rfl
      exact h.read
    · intro e he
      cases he

theorem Safe.step (h : Safe L f ok s) (hs : ∀ b, a = .save f b → ok (some b))
    (hr : a = .remove f → ok none) (ht : Fsutil.step L s a = some t) : Safe L f ok t := by
  cases a with
  | save g bytes =>
    simp only [Fsutil.step] at ht
    split at ht
    · obtain rfl := Option.some.inj ht
      by_cases hgf : g = f
      · subst hgf
        refine h.own h.sound h.keeps (fun _ hi ↦ hi) ?_
        intro e he
        obtain rfl := Option.some.inj he
        exact ⟨trivial, hs bytes rfl⟩
      · refine h.turn hgf ?_
        intro e he
        obtain rfl := Option.some.inj he
        trivial
    · cases ht
  | advance g =>
    simp only [Fsutil.step, Option.bind_eq_bind, Option.bind_eq_some_iff] at ht
    obtain ⟨c, hc, ⟨d, c'⟩, ha, ht⟩ := ht
    obtain rfl := Option.some.inj ht
    by_cases hgf : g = f
    · subst hgf
      exact h.advance_own hc ha
    · exact h.advance_other hgf hc ha
  | short g n =>
    simp only [Fsutil.step] at ht
    split at ht
    · rename_i bytes file rest hc
      obtain rfl := Option.some.inj ht
      by_cases hgf : g = f
      · subst hgf
        obtain ⟨hdir, hbytes⟩ := h.fits _ hc
        refine h.edit_own hdir ⟨hdir, ?_⟩ (h.saves ⟨bytes, .write file rest⟩ hc)
        rw [Disk.edit_apply_self, overwrite_end _ hbytes, List.append_assoc, List.take_append_drop]
        exact hbytes
      · have haside := h.aside g _ hgf hc
        refine h.edit_other hgf haside ?_
        intro e he
        obtain rfl := Option.some.inj he
        exact Disk.Away.edit haside
    · cases ht
  | fail g =>
    obtain rfl := Option.some.inj ht
    by_cases hgf : g = f
    · subst hgf
      refine h.own h.sound h.keeps (fun _ hi ↦ hi) ?_
      intro e he
      cases he
    · refine h.turn hgf ?_
      intro e he
      cases he
  | removeTmp g =>
    simp only [Fsutil.step] at ht
    split at ht
    · rename_i hg
      obtain rfl := Option.some.inj ht
      refine h.remove ?_ fun he ↦ absurd he.symm (L.path_ne_tmp f g)
      by_cases hgf : g = f
      · exact .inl (hgf ▸ hg)
      · exact .inr ⟨Ne.symm (L.path_ne_tmp f g), h.alone.tmp g hgf⟩
    · cases ht
  | remove g =>
    simp only [Fsutil.step] at ht
    split at ht
    · rename_i hg
      obtain rfl := Option.some.inj ht
      by_cases hgf : g = f
      · subst hgf
        exact h.remove (.inl hg) fun _ ↦ hr rfl
      · have hpath := h.alone.path g hgf
        exact h.remove (.inr ⟨hpath, L.path_ne_tmp g f⟩) fun he ↦ absurd he hpath
    · cases ht
  | kill =>
    obtain rfl := Option.some.inj ht
    exact safe_idle h.alone h.sound h.keeps
  | powerCut k junk =>
    simp only [Fsutil.step, Option.bind_eq_bind, Option.bind_eq_some_iff] at ht
    obtain ⟨D, hD, ht⟩ := ht
    obtain rfl := Option.some.inj ht
    have hD := List.mem_of_getElem? hD
    exact safe_idle h.alone (h.sound.powerCut hD) (h.keeps.powerCut h.sound hD)

/-- The step ends the call for `f`: it fails, or the directory is flushed. -/
def Ends (f : φ) (c : Call) (a : Act φ ν) : Prop := a = .fail f ∨ a = .advance f ∧ c.stage = .syncDir

/-- A call goes on with its bytes until it is ended. -/
theorem step_calls (ht : Fsutil.step L s a = some t) (hc : s.calls f = some c)
    (ha : a.crashes = false) :
    (∃ stage, t.calls f = some ⟨c.bytes, stage⟩) ∧ ¬ Ends f c a ∨ t.calls f = none ∧ Ends f c a := by
  have hother : ∀ {g d o}, f ≠ g → ∃ stage, (s.put d g o).calls f = some ⟨c.bytes, stage⟩ :=
    fun hne ↦ ⟨c.stage, (put_calls_ne hne).trans hc⟩
  cases a with
  | save g bytes =>
    simp only [Fsutil.step] at ht
    split at ht
    · rename_i hg
      obtain rfl := Option.some.inj ht
      refine .inl ⟨hother ?_, by simp [Ends]⟩
      rintro rfl
      cases hg.symm.trans hc
    · cases ht
  | advance g =>
    simp only [Fsutil.step, Option.bind_eq_bind, Option.bind_eq_some_iff] at ht
    obtain ⟨e, he, ⟨d, o⟩, hd, ht⟩ := ht
    obtain rfl := Option.some.inj ht
    by_cases hg : f = g
    · subst hg
      obtain rfl := Option.some.inj (hc.symm.trans he)
      rw [put_calls_self]
      obtain ⟨bytes, stage⟩ := c
      cases stage with
      | rename =>
        obtain ⟨d', -, hd⟩ := Option.bind_eq_some_iff.mp hd
        obtain ⟨-, rfl⟩ := Prod.mk.inj (Option.some.inj hd)
        exact .inl ⟨⟨_, rfl⟩, by simp [Ends]⟩
      | syncDir =>
        obtain ⟨-, rfl⟩ := Prod.mk.inj (Option.some.inj hd)
        exact .inr ⟨rfl, .inr ⟨rfl, rfl⟩⟩
      | _ =>
        obtain ⟨-, rfl⟩ := Prod.mk.inj (Option.some.inj hd)
        exact .inl ⟨⟨_, rfl⟩, by simp [Ends]⟩
    · exact .inl ⟨hother hg, by simp [Ends, Ne.symm hg]⟩
  | short g n =>
    simp only [Fsutil.step] at ht
    split at ht
    · rename_i bytes file rest hg
      obtain rfl := Option.some.inj ht
      refine .inl ⟨?_, by simp [Ends]⟩
      by_cases hfg : f = g
      · subst hfg
        obtain rfl := Option.some.inj (hc.symm.trans hg)
        exact ⟨_, put_calls_self⟩
      · exact hother hfg
    · cases ht
  | fail g =>
    obtain rfl := Option.some.inj ht
    by_cases hfg : f = g
    · subst hfg
      exact .inr ⟨put_calls_self, .inl rfl⟩
    · exact .inl ⟨hother hfg, by simp [Ends, Ne.symm hfg]⟩
  | removeTmp g =>
    simp only [Fsutil.step] at ht
    split at ht
    · obtain rfl := Option.some.inj ht
      exact .inl ⟨⟨c.stage, hc⟩, by simp [Ends]⟩
    · cases ht
  | remove g =>
    simp only [Fsutil.step] at ht
    split at ht
    · obtain rfl := Option.some.inj ht
      exact .inl ⟨⟨c.stage, hc⟩, by simp [Ends]⟩
    · cases ht
  | kill => cases ha
  | powerCut k junk => cases ha

/-- No other step begins a call. -/
theorem step_idle (ht : Fsutil.step L s a = some t) (hc : s.calls f = none)
    (ha : ∀ b, a ≠ .save f b) : t.calls f = none := by
  have hother : ∀ {g d o}, f ≠ g → (s.put d g o).calls f = none := fun hne ↦ (put_calls_ne hne).trans hc
  cases a with
  | save g bytes =>
    simp only [Fsutil.step] at ht
    split at ht
    · obtain rfl := Option.some.inj ht
      refine hother ?_
      rintro rfl
      exact ha bytes rfl
    · cases ht
  | advance g =>
    simp only [Fsutil.step, Option.bind_eq_bind, Option.bind_eq_some_iff] at ht
    obtain ⟨e, he, ⟨d, o⟩, -, ht⟩ := ht
    obtain rfl := Option.some.inj ht
    refine hother ?_
    rintro rfl
    cases hc.symm.trans he
  | short g n =>
    simp only [Fsutil.step] at ht
    split at ht
    · rename_i hg
      obtain rfl := Option.some.inj ht
      refine hother ?_
      rintro rfl
      cases hc.symm.trans hg
    · cases ht
  | fail g =>
    obtain rfl := Option.some.inj ht
    by_cases hfg : f = g
    · subst hfg
      exact put_calls_self
    · exact hother hfg
  | removeTmp g =>
    simp only [Fsutil.step] at ht
    split at ht
    · obtain rfl := Option.some.inj ht
      exact hc
    · cases ht
  | remove g =>
    simp only [Fsutil.step] at ht
    split at ht
    · obtain rfl := Option.some.inj ht
      exact hc
    · cases ht
  | kill =>
    obtain rfl := Option.some.inj ht
    rfl
  | powerCut k junk =>
    simp only [Fsutil.step, Option.bind_eq_bind, Option.bind_eq_some_iff] at ht
    obtain ⟨D, -, ht⟩ := ht
    obtain rfl := Option.some.inj ht
    rfl

theorem step_crashes (ht : Fsutil.step L s a = some t) (ha : a.crashes) : t.calls f = none := by
  cases a with
  | kill =>
    obtain rfl := Option.some.inj ht
    rfl
  | powerCut k junk =>
    simp only [Fsutil.step, Option.bind_eq_bind, Option.bind_eq_some_iff] at ht
    obtain ⟨D, -, ht⟩ := ht
    obtain rfl := Option.some.inj ht
    rfl
  | _ => cases ha

/-- What a store may show after the steps `l`, if `v` is what it had before. -/
def Shows (l : List (Act φ ν)) (f : φ) (v w : Option (List UInt8)) : Prop :=
  w = v ∨ (∃ b, .save f b ∈ l ∧ w = some b) ∨ .remove f ∈ l ∧ w = none

theorem Safe.run (h : Safe L f (· = v) s) (hr : Run (Fsutil.step L) Always s l t) :
    Safe L f (Shows l f v) t := by
  induction hr with
  | nil => exact h.mono fun w hw ↦ .inl hw
  | @snoc l t u a _ _ ht ih =>
    have hok : ∀ w, Shows l f v w → Shows (l ++ [a]) f v w := by
      intro w hw
      obtain hw | ⟨b, hb, hw⟩ | ⟨hl, hw⟩ := hw
      · exact .inl hw
      · exact .inr (.inl ⟨b, List.mem_append_left _ hb, hw⟩)
      · exact .inr (.inr ⟨List.mem_append_left _ hl, hw⟩)
    refine (ih.mono hok).step ?_ ?_ ht
    · rintro b rfl
      exact .inr (.inl ⟨b, by simp, rfl⟩)
    · rintro rfl
      exact .inr (.inr ⟨by simp, rfl⟩)

/-- From a save whose directory was flushed on, whatever fails and whenever the power
goes, the store shows that save or a later one. -/
theorem Safe.flushed (h : Safe L f ok s) (hc : s.calls f = some ⟨b, .syncDir⟩)
    (ht : Fsutil.step L s (.advance f) = some t) : Safe L f (· = some b) t := by
  have ht : s.put s.disk.syncDir f none = t := by simpa [Fsutil.step, hc, Fsutil.advance] using ht
  rw [← ht]
  exact h.syncDir (h.fits _ hc)

/-- The files of the others do not matter to a writer's step. -/
theorem step_congr (h : ∀ f, a.writer = some f → L.path f = L'.path f ∧ L.tmp f = L'.tmp f) :
    Fsutil.step L s a = Fsutil.step L' s a := by
  cases a with
  | advance f =>
    obtain ⟨hp, ht⟩ := h f rfl
    have hadvance : ∀ d b stage, Fsutil.advance L f d b stage = Fsutil.advance L' f d b stage := by
      intro d b stage
      cases stage with
      | create | rename => simp only [Fsutil.advance, hp, ht]
      | _ => rfl
    simp only [Fsutil.step, hadvance]
  | removeTmp f => simp only [Fsutil.step, (h f rfl).2]
  | remove f => simp only [Fsutil.step, (h f rfl).1]
  | _ => rfl

end FluxSync.Fsutil
