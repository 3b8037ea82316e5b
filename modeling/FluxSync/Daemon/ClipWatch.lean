import FluxSync.Core.ReadBack
import FluxSync.Proto.Types

/-! ## The clipboard watcher beside the clipboard writer -/

namespace FluxSync.ClipWatch

open Proto Runs

/-- The hashes that the daemon wrote to the clipboard lately, and when. -/
abbrev RecentWrites := List (ContentHash × ℕ)

namespace RecentWrites

def CAP : ℕ := 10

/-- Milliseconds. -/
def ECHO_WINDOW : ℕ := ECHO_WINDOW_MS.toNat

def record (w : RecentWrites) (hash : ContentHash) (now : ℕ) : RecentWrites :=
  if CAP < (w ++ [(hash, now)]).length then (w ++ [(hash, now)]).tail else w ++ [(hash, now)]

def isEcho (w : RecentWrites) (hash : ContentHash) (now : ℕ) : Bool :=
  w.any fun x ↦ x.1 = hash ∧ now - x.2 < ECHO_WINDOW

end RecentWrites

/-- A file as it lies on the disk: path, length and time of the last change. -/
structure FileKey where
  path : String
  len : UInt64
  modified : Option ℕ
  deriving DecidableEq

/-- `copied_file`, with the name and the bytes that reading the file gives. -/
inductive CopiedFile
  | none
  /-- Several files, a folder, or one that is too long. -/
  | unsendable
  | file (key : FileKey) (content : Option (String × ByteArray))
  deriving DecidableEq

/-- What the three reads of the clipboard give. -/
structure Content where
  file : CopiedFile := .none
  image : Option (UInt32 × UInt32 × ByteArray) := none
  text : Option String := none

/-- What a poll comes upon. -/
inductive Seen
  | file (name : String) (bytes : ByteArray)
  | image (width height : UInt32) (rgba : ByteArray)
  | text (raw : String)

def Seen.hash (blake3 : ByteArray → ContentHash) : Seen → ContentHash
  | .file name bytes => blake3 (File.encode name bytes)
  | .image width height rgba => imageRgbaHash blake3 width height rgba
  | .text raw => clipboardDedupHash blake3 raw

/-- Files hide images, and images hide text. -/
def Content.seen (c : Content) : Option Seen :=
  match c.file, c.image with
  | .file _ content, _ => content.map fun f ↦ .file f.1 f.2
  | .unsendable, _ => none
  | .none, some i => some (.image i.1 i.2.1 i.2.2)
  | .none, none => (c.text.filter (trim · ≠ "")).map .text

/-- A write owed to the clipboard, with the place of its record, or the end of a secret. -/
inductive Job
  | put (w : ClipWrite) (record : ℕ)
  | clearIfStill (text : String)

/-- The clipboard after a write. A text may come back with other line ends, and a file that is too
long to be sent is one that is not sent. -/
def shows : ClipWrite → Content → Bool
  | .text t, c => c.file = .none ∧ c.image = none ∧ c.text.any (canonText · = canonText t)
  | .files name bytes, c =>
    match c.file with
    | .file _ content => content = some (name, bytes)
    | .unsendable => true
    | .none => false
  | .image width height rgba, c => c.file = .none ∧ c.image = some (width, height, rgba)

/-- Where the watcher is. -/
inductive Pc
  | idle
  | seedFile
  | seedImage
  | seedText
  | pollFile
  | pollImage
  | pollText
  /-- With what it came upon, and the period and the record that this is of. -/
  | judge (seen : Seen) (period : ℕ) (source : Option ℕ)

inductive Cmd
  | pushBinary (kind : Kind) (hash : ContentHash) (payload : ByteArray)
  | push (text : String)
  | pushConcealed (text : String)

/-- A command that the watcher sent, and when. -/
structure Sent where
  cmd : Cmd
  period : ℕ
  source : Option ℕ
  noticed : Option ℕ
  now : ℕ
  records : ℕ

/-- The clipboard, its writer and its watcher. The contents of the clipboard are counted in
periods, in each of which it reads the same. -/
structure State where
  now : ℕ := 0
  clip : Content := {}
  period : ℕ := 0
  /-- The record of the daemon's write that the clipboard shows. -/
  source : Option ℕ := none
  jobs : List Job := []
  secrets : List (String × ℕ) := []
  lastWritten : RecentWrites := []
  /-- All records. Nothing reads them. -/
  records : List (ContentHash × ℕ) := []
  session : Option UInt64 := none
  lastSeenHash : Option ContentHash := none
  lastFile : Option FileKey := none
  lastSessionEst : UInt64 := 0
  pc : Pc := .idle
  /-- The period in which the watcher last noticed a new session. -/
  noticed : Option ℕ := none
  sent : List Sent := []

inductive Act
  | wait (ms : ℕ)
  /-- The user, or another program, changes the clipboard. -/
  | copy (c : Content)
  | writeClipboard (folder : List String) (kind : Kind) (payload : ByteArray) (sensitive : Bool)
  /-- A received secret has had its time. -/
  | expire (text : String)
  /-- A turn of the writer. It takes the newest of the jobs it finds, which the clipboard may refuse. -/
  | write (older : ℕ) (shown : Option Content)
  | session (est : Option UInt64)
  | tick
  | read
  | judge (concealed : Bool)

/-- The third-party codecs. -/
structure Codecs where
  blake3 : ByteArray → ContentHash
  decodePng : ByteArray → Option (UInt32 × UInt32 × ByteArray)
  encodePng : UInt32 → UInt32 → ByteArray → Option ByteArray

def MAX_IMAGE_SIDE : UInt32 := 16384

/-- Milliseconds. -/
def SECRET_LIFETIME : ℕ := 60000

/-- The hash that the watcher reads a write back under. -/
def readBack (blake3 : ByteArray → ContentHash) : ClipWrite → ContentHash
  | .text t => clipboardDedupHash blake3 t
  | .files name bytes => blake3 (File.encode name bytes)
  | .image width height rgba => imageRgbaHash blake3 width height rgba

/-- The hashes that a write is recorded under. A file is known by how it was framed, too. -/
def recorded (blake3 : ByteArray → ContentHash) (payload : ByteArray) (w : ClipWrite) :
    List ContentHash :=
  match w with
  | .files .. => [blake3 payload, readBack blake3 w]
  | _ => [readBack blake3 w]

def State.record (s : State) (hash : ContentHash) : State :=
  { s with
    lastWritten := s.lastWritten.record hash s.now
    records := s.records ++ [(hash, s.now)] }

def State.change (s : State) (c : Content) (source : Option ℕ) : State :=
  { s with clip := c, period := s.period + 1, source }

/-- What is sent of what a poll came upon, unless it is an echo. -/
def Codecs.command (κ : Codecs) (seen : Seen) (concealed : Bool) : Option Cmd :=
  match seen with
  | .file name bytes => some (.pushBinary .file (seen.hash κ.blake3) (File.encode name bytes))
  | .image width height rgba =>
    if MAX_IMAGE_SIDE < width ∨ MAX_IMAGE_SIDE < height then none
    else ((κ.encodePng width height rgba).filter (·.size ≤ MAX_PAYLOAD)).map
      (.pushBinary .image (seen.hash κ.blake3) ·)
  | .text raw =>
    if MAX_PAYLOAD < (trim raw).utf8ByteSize then none
    else some (if concealed then .pushConcealed (trim raw) else .push (trim raw))

def State.read (κ : Codecs) (s : State) : Option State :=
  match s.pc with
  | .seedFile =>
    match s.clip.file with
    | .file key _ => some { s with lastFile := some key, pc := .seedImage }
    | _ => some { s with pc := .seedImage }
  | .seedImage =>
    match s.clip.image with
    | some i =>
      some { s with lastSeenHash := some (imageRgbaHash κ.blake3 i.1 i.2.1 i.2.2), pc := .pollFile }
    | none => some { s with pc := .seedText }
  | .seedText =>
    match s.clip.text with
    | some raw => some { s with lastSeenHash := some (clipboardDedupHash κ.blake3 raw), pc := .pollFile }
    | none => some { s with pc := .pollFile }
  | .pollFile =>
    match s.clip.file with
    | .unsendable => some { s with pc := .idle }
    | .file key content =>
      if s.lastFile = some key then some { s with pc := .idle }
      else
        match content with
        | some f => some { s with lastFile := some key, pc := .judge (.file f.1 f.2) s.period s.source }
        | none => some { s with lastFile := some key, pc := .idle }
    | .none => some { s with lastFile := none, pc := .pollImage }
  | .pollImage =>
    match s.clip.image with
    | some i =>
      if s.lastSeenHash = some (imageRgbaHash κ.blake3 i.1 i.2.1 i.2.2) then some { s with pc := .idle }
      else some { s with pc := .judge (.image i.1 i.2.1 i.2.2) s.period s.source }
    | none => some { s with pc := .pollText }
  | .pollText =>
    match s.clip.text with
    | some raw =>
      if trim raw = "" ∨ s.lastSeenHash = some (clipboardDedupHash κ.blake3 raw) then
        some { s with pc := .idle }
      else some { s with pc := .judge (.text raw) s.period s.source }
    | none => some { s with pc := .idle }
  | _ => none

def step (κ : Codecs) (s : State) : Act → Option State
  | .wait ms => some { s with now := s.now + ms }
  | .copy c => some (s.change c none)
  | .writeClipboard folder kind payload sensitive =>
    match clipWrite κ.decodePng folder kind payload with
    | none => some s
    | some w =>
      let s := (recorded κ.blake3 payload w).foldl State.record s
      some { s with
        jobs := s.jobs ++ [.put w (s.records.length - 1)]
        secrets :=
          match w with
          | .text t => if sensitive then s.secrets ++ [(t, s.now)] else s.secrets
          | _ => s.secrets }
  | .expire text =>
    if s.secrets.any fun x ↦ x.1 = text ∧ x.2 + SECRET_LIFETIME ≤ s.now then
      some { s with jobs := s.jobs ++ [.clearIfStill text] }
    else none
  | .write older shown =>
    let rest := { s with jobs := s.jobs.drop (older + 1) }
    match s.jobs[older]?, shown with
    | none, _ => none
    | some _, none => some rest
    | some (.put w i), some c => if shows w c then some (rest.change c (some i)) else none
    | some (.clearIfStill text), some _ =>
      some (if s.clip.text = some text then rest.change {} none else rest)
  | .session est => if est = some 0 then none else some { s with session := est }
  | .tick =>
    match s.pc, s.session with
    | .idle, some est =>
      if est = s.lastSessionEst then some { s with pc := .pollFile }
      else some { s with lastSessionEst := est, noticed := some s.period, pc := .seedFile }
    | _, _ => none
  | .read => s.read κ
  | .judge concealed =>
    match s.pc with
    | .judge seen period source =>
      let hash := seen.hash κ.blake3
      let after := { s with lastSeenHash := some hash, pc := .idle }
      match if s.lastWritten.isEcho hash s.now then none else κ.command seen concealed with
      | none => some after
      | some cmd =>
        some { after with sent := s.sent ++ [⟨cmd, period, source, s.noticed, s.now, s.records.length⟩] }
    | _ => none

/-- Between the reads of one tick, nothing that has a file or an image came to the clipboard: where
an image is read there is no file beside it, and where a text is read there is neither. -/
def Steady (s : State) : Act → Prop
  | .read => (s.pc = .pollImage → s.clip.file = .none) ∧
      (s.pc = .pollText → s.clip.file = .none ∧ s.clip.image = none)
  | _ => True

variable {κ : Codecs} {s t : State} {a : Act} {l : List Act} {c : Content} {source : Option ℕ}
  {hash : ContentHash} {now : ℕ} {pc : Pc} {seen : Seen}

/-- The watcher knows the file of the clipboard. -/
def FileKnown (c : Content) (lastFile : Option FileKey) : Prop :=
  ∀ key content, c.file = .file key content → lastFile = some key

/-- The watcher knows what the clipboard shows. -/
structure Known (κ : Codecs) (c : Content) (lastFile : Option FileKey)
    (lastSeenHash : Option ContentHash) : Prop where
  file : FileKnown c lastFile
  image : c.file = .none → ∀ i, c.image = some i →
    lastSeenHash = some (imageRgbaHash κ.blake3 i.1 i.2.1 i.2.2)
  text : c.file = .none → c.image = none → ∀ raw, c.text = some raw →
    trim raw = "" ∨ lastSeenHash = some (clipboardDedupHash κ.blake3 raw)

/-- Nothing is to be sent of these periods any more. -/
def Barred (s : State) (period : ℕ) : Prop :=
  s.noticed = some period ∨ ∃ x ∈ s.sent, x.period = period

/-- What the watcher knows of a barred period. -/
def Pc.Knows (κ : Codecs) (c : Content) (lastFile : Option FileKey)
    (lastSeenHash : Option ContentHash) : Pc → Prop
  | .seedFile => True
  | .seedImage => FileKnown c lastFile
  | .seedText => FileKnown c lastFile ∧ c.image = none
  | .judge .. => False
  | _ => Known κ c lastFile lastSeenHash

/-- The record at a place is one of this hash. -/
def Recorded (s : State) (i : ℕ) (hash : ContentHash) : Prop :=
  ∃ time, s.records[i]? = some (hash, time)

/-- What the watcher came upon is of a period that is not barred. -/
def Pc.Finds (κ : Codecs) (s : State) : Pc → Prop
  | .judge seen period source => period ≤ s.period ∧ (∀ b, Barred s b → b < period) ∧
      (period = s.period → s.clip.seen = some seen ∧ FileKnown s.clip s.lastFile) ∧
      ∀ i, source = some i → Recorded s i (seen.hash κ.blake3)
  | _ => True

structure Polled (κ : Codecs) (s : State) : Prop where
  past : ∀ b, Barred s b → b ≤ s.period
  knows : Barred s s.period → s.pc.Knows κ s.clip s.lastFile s.lastSeenHash
  finds : s.pc.Finds κ s
  established : s.session ≠ some 0
  begun : s.pc ≠ .idle ∨ s.lastSessionEst ≠ 0 → s.noticed.isSome
  once : s.sent.Pairwise (·.period < ·.period)
  fresh : ∀ x ∈ s.sent, ∃ n, x.noticed = some n ∧ n < x.period
  recent : s.lastWritten = s.records.drop (s.records.length - RecentWrites.CAP)
  jobs : ∀ w i, .put w i ∈ s.jobs → Recorded s i (readBack κ.blake3 w)
  shown : ∀ i seen, s.source = some i → s.clip.seen = some seen → Recorded s i (seen.hash κ.blake3)
  late : ∀ x ∈ s.sent, ∀ i, x.source = some i → ∃ y, s.records[i]? = some y ∧
    (y.2 + RecentWrites.ECHO_WINDOW ≤ x.now ∨ i + RecentWrites.CAP < x.records)

theorem polled_start : Polled κ {} where
  past b hb := by simp [Barred] at hb
  knows hb := by simp [Barred] at hb
  finds := trivial
  established := by simp
  begun h := by simp at h
  once := List.Pairwise.nil
  fresh x hx := by cases hx
  recent := rfl
  jobs w i hw := by cases hw
  shown i seen hi := by cases hi
  late x hx := by cases hx

theorem Pc.Finds.change (h : pc.Finds κ s) : pc.Finds κ (s.change c source) := by
  cases pc with
  | judge seen period source =>
    obtain ⟨hle, hbars, -, hsource⟩ := h
    exact ⟨hle.trans (Nat.le_succ _), hbars, fun he ↦ absurd (he ▸ hle) (Nat.not_succ_le_self _), hsource⟩
  | _ => trivial

/-- A new period has begun. -/
theorem Polled.change (h : Polled κ s)
    (hshown : ∀ i seen, source = some i → c.seen = some seen → Recorded s i (seen.hash κ.blake3)) :
    Polled κ (s.change c source) where
  past b hb := (h.past b hb).trans (Nat.le_succ _)
  knows hb := absurd (h.past _ hb) (Nat.not_succ_le_self _)
  finds := h.finds.change
  established := h.established
  begun := h.begun
  once := h.once
  fresh := h.fresh
  recent := h.recent
  jobs := h.jobs
  shown := hshown
  late := h.late

/-- The watcher goes on, with what it knows now. -/
theorem Polled.turn (h : Polled κ s) (hn : s.noticed.isSome) {file : Option FileKey}
    {seen : Option ContentHash}
    (hknows : Barred s s.period → pc.Knows κ s.clip file seen)
    (hfinds : pc.Finds κ { s with lastFile := file, lastSeenHash := seen, pc }) :
    Polled κ { s with lastFile := file, lastSeenHash := seen, pc } where
  past := h.past
  knows := hknows
  finds := hfinds
  established := h.established
  begun _ := hn
  once := h.once
  fresh := h.fresh
  recent := h.recent
  jobs := h.jobs
  shown := h.shown
  late := h.late

/-- What was read is not known, so it is of a period that is not barred. -/
theorem Polled.find (h : Polled κ s) (hn : s.noticed.isSome) (hnew : ¬ Barred s s.period)
    {file : Option FileKey} (hseen : s.clip.seen = some seen)
    (hfile : FileKnown s.clip file) :
    Polled κ { s with lastFile := file, pc := .judge seen s.period s.source } := by
  refine h.turn hn (fun hb ↦ absurd hb hnew) ⟨le_rfl, ?_, fun _ ↦ ⟨hseen, hfile⟩, fun i hi ↦
    h.shown i seen hi hseen⟩
  intro b hb
  have hle := h.past b hb
  have hne : b ≠ s.period := by
    rintro rfl
    exact hnew hb
  omega

theorem Polled.read (h : Polled κ s) (ha : Steady s .read) (hs : s.read κ = some t) : Polled κ t := by
  have hknows := h.knows
  have hbegun : s.pc ≠ .idle → s.noticed.isSome := fun hpc ↦ h.begun (.inl hpc)
  cases hpc : s.pc with
  | idle => simp [State.read, hpc] at hs
  | judge => simp [State.read, hpc] at hs
  | seedFile =>
    have hn := hbegun (by rw [hpc]; exact Pc.noConfusion)
    simp only [State.read, hpc] at hs
    split at hs
    · rename_i key content hfile
      obtain rfl := Option.some.inj hs
      refine h.turn hn (fun _ k c hk ↦ ?_) trivial
      cases hfile.symm.trans hk
      rfl
    · rename_i hfile
      obtain rfl := Option.some.inj hs
      exact h.turn hn (fun _ k c hk ↦ absurd hk (hfile k c)) trivial
  | seedImage =>
    have hn := hbegun (by rw [hpc]; exact Pc.noConfusion)
    rw [hpc] at hknows
    simp only [State.read, hpc] at hs
    split at hs
    · rename_i i hi
      obtain rfl := Option.some.inj hs
      refine h.turn hn (fun hb ↦ ⟨hknows hb, fun _ j hj ↦ ?_, fun _ hnone ↦ ?_⟩) trivial
      · cases hi.symm.trans hj
        rfl
      · cases hi.symm.trans hnone
    · rename_i hnone
      obtain rfl := Option.some.inj hs
      exact h.turn hn (fun hb ↦ ⟨hknows hb, hnone⟩) trivial
  | seedText =>
    have hn := hbegun (by rw [hpc]; exact Pc.noConfusion)
    rw [hpc] at hknows
    simp only [State.read, hpc] at hs
    split at hs
    · rename_i raw hraw
      obtain rfl := Option.some.inj hs
      refine h.turn hn (fun hb ↦ ⟨(hknows hb).1, fun _ i hi ↦ ?_, fun _ _ r hr ↦ .inr ?_⟩) trivial
      · cases (hknows hb).2.symm.trans hi
      · cases hraw.symm.trans hr
        rfl
    · rename_i hnone
      obtain rfl := Option.some.inj hs
      refine h.turn hn (fun hb ↦ ⟨(hknows hb).1, fun _ i hi ↦ ?_, fun _ _ r hr ↦ ?_⟩) trivial
      · cases (hknows hb).2.symm.trans hi
      · cases hnone.symm.trans hr
  | pollFile =>
    have hn := hbegun (by rw [hpc]; exact Pc.noConfusion)
    rw [hpc] at hknows
    simp only [State.read, hpc] at hs
    split at hs
    · obtain rfl := Option.some.inj hs
      exact h.turn hn hknows trivial
    · rename_i key content hfile
      split at hs
      · obtain rfl := Option.some.inj hs
        exact h.turn hn hknows trivial
      · rename_i hnew
        have hbar : ¬ Barred s s.period := fun hb ↦ hnew ((hknows hb).file key content hfile)
        split at hs
        · rename_i f
          obtain rfl := Option.some.inj hs
          refine h.find hn hbar ?_ fun k c hk ↦ ?_
          · rw [Content.seen, hfile]
            rfl
          · cases hfile.symm.trans hk
            rfl
        · obtain rfl := Option.some.inj hs
          exact h.turn hn (fun hb ↦ absurd hb hbar) trivial
    · rename_i hfile
      obtain rfl := Option.some.inj hs
      refine h.turn hn (fun hb ↦ ⟨fun k c hk ↦ ?_, (hknows hb).image, (hknows hb).text⟩) trivial
      cases hfile.symm.trans hk
  | pollImage =>
    have hn := hbegun (by rw [hpc]; exact Pc.noConfusion)
    have hfile := ha.1 hpc
    rw [hpc] at hknows
    simp only [State.read, hpc] at hs
    split at hs
    · rename_i i hi
      split at hs
      · obtain rfl := Option.some.inj hs
        exact h.turn hn hknows trivial
      · rename_i hnew
        obtain rfl := Option.some.inj hs
        refine h.find hn (fun hb ↦ hnew ((hknows hb).image hfile i hi)) ?_ fun k c hk ↦ ?_
        · rw [Content.seen, hfile, hi]
        · cases hfile.symm.trans hk
    · obtain rfl := Option.some.inj hs
      exact h.turn hn hknows trivial
  | pollText =>
    have hn := hbegun (by rw [hpc]; exact Pc.noConfusion)
    obtain ⟨hfile, himage⟩ := ha.2 hpc
    rw [hpc] at hknows
    simp only [State.read, hpc] at hs
    split at hs
    · rename_i raw hraw
      split at hs
      · obtain rfl := Option.some.inj hs
        exact h.turn hn hknows trivial
      · rename_i hnew
        obtain rfl := Option.some.inj hs
        refine h.find hn (fun hb ↦ hnew ((hknows hb).text hfile himage raw hraw)) ?_ fun k c hk ↦ ?_
        · rw [Content.seen, hfile, himage, hraw, Option.filter_some, if_pos]
          · rfl
          · exact decide_eq_true fun he ↦ hnew (.inl he)
        · cases hfile.symm.trans hk
    · obtain rfl := Option.some.inj hs
      exact h.turn hn hknows trivial

/-- What a judgement comes to. -/
theorem judge_cases {concealed : Bool} (hs : step κ s (.judge concealed) = some t) :
    ∃ seen period source, s.pc = .judge seen period source ∧
      ∃ sent, t = { s with lastSeenHash := some (seen.hash κ.blake3), pc := .idle, sent := s.sent ++ sent } ∧
        (sent = [] ∨ s.lastWritten.isEcho (seen.hash κ.blake3) s.now = false ∧ ∃ cmd,
          sent = [⟨cmd, period, source, s.noticed, s.now, s.records.length⟩]) := by
  simp only [step] at hs
  split at hs
  · rename_i seen period source hpc
    refine ⟨seen, period, source, hpc, ?_⟩
    split at hs
    · obtain rfl := Option.some.inj hs
      exact ⟨[], by rw [List.append_nil], .inl rfl⟩
    · rename_i cmd hcmd
      obtain rfl := Option.some.inj hs
      obtain ⟨hecho, -⟩ := Option.ite_none_left_eq_some.mp hcmd
      exact ⟨_, rfl, .inr ⟨by simpa using hecho, cmd, rfl⟩⟩
  · cases hs

/-- After a judgement the watcher knows what the clipboard showed. -/
theorem known_of_seen {file : Option FileKey} (hseen : c.seen = some seen) (hfile : FileKnown c file) :
    Known κ c file (some (seen.hash κ.blake3)) := by
  refine ⟨hfile, fun hnone i hi ↦ ?_, fun hnone himage raw hraw ↦ ?_⟩
  · rw [Content.seen, hnone, hi] at hseen
    obtain rfl := Option.some.inj hseen
    rfl
  · by_cases htrim : trim raw = ""
    · exact .inl htrim
    · rw [Content.seen, hnone, himage, hraw, Option.filter_some, if_pos (by simpa using htrim)] at hseen
      obtain rfl := Option.some.inj hseen
      exact .inr rfl

/-- What is recorded and no echo was recorded too long ago, or too many records ago. -/
theorem late_of_not_echo {i time : ℕ}
    (hrecent : s.lastWritten = s.records.drop (s.records.length - RecentWrites.CAP))
    (hecho : s.lastWritten.isEcho hash s.now = false) (hi : s.records[i]? = some (hash, time)) :
    time + RecentWrites.ECHO_WINDOW ≤ s.now ∨ i + RecentWrites.CAP < s.records.length := by
  by_cases hlast : i + RecentWrites.CAP < s.records.length
  · exact .inr hlast
  · have hmem : (hash, time) ∈ s.lastWritten := by
      rw [hrecent]
      refine List.mem_of_getElem? (i := i - (s.records.length - RecentWrites.CAP)) ?_
      rw [List.getElem?_drop, ← hi]
      congr 1
      omega
    have hold : RecentWrites.ECHO_WINDOW ≤ s.now - time := by
      simpa using List.any_eq_false.mp hecho _ hmem
    have hpos : 0 < RecentWrites.ECHO_WINDOW := by decide
    exact .inl (by omega)

theorem Polled.judge (h : Polled κ s) {concealed : Bool} (hs : step κ s (.judge concealed) = some t) :
    Polled κ t := by
  obtain ⟨seen, period, source, hpc, sent, rfl, hsent⟩ := judge_cases hs
  have hfinds := h.finds
  rw [hpc] at hfinds
  obtain ⟨hle, hbars, hcontent, hsource⟩ := hfinds
  have hn : s.noticed.isSome := h.begun (.inl (by rw [hpc]; exact Pc.noConfusion))
  have hbarred : ∀ b, Barred { s with lastSeenHash := some (seen.hash κ.blake3), pc := .idle, sent := s.sent ++ sent } b →
      Barred s b ∨ b = period := by
    rintro b (hb | ⟨x, hx, rfl⟩)
    · exact .inl (.inl hb)
    · rcases List.mem_append.mp hx with hx | hx
      · exact .inl (.inr ⟨x, hx, rfl⟩)
      · obtain rfl | ⟨-, cmd, rfl⟩ := hsent
        · cases hx
        · obtain rfl := List.mem_singleton.mp hx
          exact .inr rfl
  refine ⟨?_, ?_, trivial, h.established, fun _ ↦ hn, ?_, ?_, h.recent, h.jobs, h.shown, ?_⟩
  · intro b hb
    obtain hb | rfl := hbarred b hb
    · exact h.past b hb
    · exact hle
  · intro hb
    obtain hb | hb := hbarred _ hb
    · exact absurd hle (Nat.not_le.mpr (hbars _ hb))
    · obtain ⟨hseen, hfile⟩ := hcontent hb.symm
      exact known_of_seen hseen hfile
  · refine List.pairwise_append.mpr ⟨h.once, ?_, ?_⟩
    · obtain rfl | ⟨-, cmd, rfl⟩ := hsent
      · exact List.Pairwise.nil
      · exact List.pairwise_singleton _ _
    · intro x hx y hy
      obtain rfl | ⟨-, cmd, rfl⟩ := hsent
      · cases hy
      · obtain rfl := List.mem_singleton.mp hy
        exact hbars _ (.inr ⟨x, hx, rfl⟩)
  · intro x hx
    rcases List.mem_append.mp hx with hx | hx
    · exact h.fresh x hx
    · obtain rfl | ⟨-, cmd, rfl⟩ := hsent
      · cases hx
      · obtain rfl := List.mem_singleton.mp hx
        obtain ⟨n, hnoticed⟩ := Option.isSome_iff_exists.mp hn
        exact ⟨n, hnoticed, hbars n (.inl hnoticed)⟩
  · intro x hx i hi
    rcases List.mem_append.mp hx with hx | hx
    · exact h.late x hx i hi
    · obtain rfl | ⟨hecho, cmd, rfl⟩ := hsent
      · cases hx
      · obtain rfl := List.mem_singleton.mp hx
        obtain ⟨time, hrecord⟩ := hsource i hi
        refine ⟨_, hrecord, late_of_not_echo h.recent hecho hrecord⟩

theorem Polled.tick (h : Polled κ s) (hs : step κ s .tick = some t) : Polled κ t := by
  simp only [step] at hs
  split at hs
  · rename_i est hpc hest
    have hknows := h.knows
    rw [hpc] at hknows
    have hne : est ≠ 0 := by
      rintro rfl
      exact h.established hest
    split at hs
    · rename_i hsame
      obtain rfl := Option.some.inj hs
      have hn := h.begun (.inr (hsame ▸ hne))
      exact h.turn hn hknows trivial
    · obtain rfl := Option.some.inj hs
      refine ⟨?_, fun _ ↦ trivial, trivial, h.established, fun _ ↦ rfl, h.once, h.fresh, h.recent,
        h.jobs, h.shown, h.late⟩
      rintro b (hb | hb)
      · exact (Option.some.inj hb).ge
      · exact h.past b (.inr hb)
  · cases hs

theorem getElem?_of_prefix {i : ℕ} {y : ContentHash × ℕ} (ht : s.records <+: t.records)
    (hi : s.records[i]? = some y) : t.records[i]? = some y := by
  obtain ⟨rest, hrest⟩ := ht
  rw [← hrest, List.getElem?_append_left (List.getElem?_eq_some_iff.mp hi).1, hi]

theorem Recorded.mono {i : ℕ} (h : Recorded s i hash) (ht : s.records <+: t.records) :
    Recorded t i hash := by
  obtain ⟨time, hi⟩ := h
  exact ⟨time, getElem?_of_prefix ht hi⟩

/-- The last records are kept. -/
theorem record_eq {records : List (ContentHash × ℕ)} :
    RecentWrites.record (records.drop (records.length - RecentWrites.CAP)) hash now =
      (records ++ [(hash, now)]).drop (records.length + 1 - RecentWrites.CAP) := by
  have hlen : (records.drop (records.length - RecentWrites.CAP) ++ [(hash, now)]).length =
      records.length - (records.length - RecentWrites.CAP) + 1 := by simp
  rw [RecentWrites.record, hlen]
  split
  · rename_i hfull
    have hle : records.length - RecentWrites.CAP ≤ records.length := Nat.sub_le _ _
    rw [← List.drop_append_of_le_length hle, List.tail_drop]
    congr 1
    omega
  · have hzero : records.length - RecentWrites.CAP = 0 := by omega
    have hzero' : records.length + 1 - RecentWrites.CAP = 0 := by omega
    rw [hzero, hzero', List.drop_zero, List.drop_zero]

theorem Polled.record (h : Polled κ s) : Polled κ (s.record hash) := by
  have hmore : s.records <+: (s.record hash).records := List.prefix_append _ _
  refine ⟨h.past, h.knows, ?_, h.established, h.begun, h.once, h.fresh, ?_, ?_, ?_, ?_⟩
  · have hfinds := h.finds
    show s.pc.Finds κ (s.record hash)
    cases hpc : s.pc with
    | judge seen period source =>
      rw [hpc] at hfinds
      obtain ⟨hle, hbars, hcontent, hsource⟩ := hfinds
      exact ⟨hle, hbars, hcontent, fun i hi ↦ (hsource i hi).mono hmore⟩
    | _ => trivial
  · rw [State.record, h.recent, record_eq, List.length_append, List.length_singleton]
  · exact fun w i hw ↦ (h.jobs w i hw).mono hmore
  · exact fun i seen hi hseen ↦ (h.shown i seen hi hseen).mono hmore
  · intro x hx i hi
    obtain ⟨y, hy, hlate⟩ := h.late x hx i hi
    exact ⟨y, getElem?_of_prefix hmore hy, hlate⟩

/-- The time goes on, and jobs come and go. -/
theorem Polled.queue (h : Polled κ s) {jobs : List Job} {secrets : List (String × ℕ)}
    (hjobs : ∀ w i, .put w i ∈ jobs → Recorded s i (readBack κ.blake3 w)) :
    Polled κ { s with now, jobs, secrets } :=
  ⟨h.past, h.knows, h.finds, h.established, h.begun, h.once, h.fresh, h.recent, hjobs, h.shown, h.late⟩

/-- The records of a write, the one it is read back under as the last. -/
theorem Polled.recorded {payload : ByteArray} {w : ClipWrite} (h : Polled κ s) :
    Polled κ ((recorded κ.blake3 payload w).foldl State.record s) ∧
      Recorded ((recorded κ.blake3 payload w).foldl State.record s)
        (((recorded κ.blake3 payload w).foldl State.record s).records.length - 1)
        (readBack κ.blake3 w) := by
  have hone : ∀ s : State, ∀ hash, Recorded (s.record hash) ((s.record hash).records.length - 1) hash := by
    intro s hash
    exact ⟨s.now, by simp [State.record]⟩
  cases w with
  | files name bytes => exact ⟨h.record.record, hone _ _⟩
  | text | image => exact ⟨h.record, hone _ _⟩

theorem hash_of_shows {w : ClipWrite} (h : shows w c) (hseen : c.seen = some seen) :
    seen.hash κ.blake3 = readBack κ.blake3 w := by
  cases w with
  | text t =>
    obtain ⟨hfile, himage, htext⟩ := of_decide_eq_true h
    obtain ⟨raw, hraw, hcanon⟩ := (Option.any_eq_true _ _).mp htext
    rw [Content.seen, hfile, himage, hraw] at hseen
    obtain ⟨raw', hraw', rfl⟩ := Option.map_eq_some_iff.mp hseen
    obtain rfl := Option.some.inj (Option.filter_eq_some_iff.mp hraw').1
    rw [readBack, Seen.hash, clipboardDedupHash, clipboardDedupHash, of_decide_eq_true hcanon]
  | files name bytes =>
    cases hfile : c.file with
    | none => simp [shows, hfile] at h
    | unsendable => simp [Content.seen, hfile] at hseen
    | file key content =>
      simp only [shows, hfile, decide_eq_true_eq] at h
      simp only [Content.seen, hfile, h, Option.map_some, Option.some.injEq] at hseen
      rw [← hseen]
      rfl
  | image width height rgba =>
    obtain ⟨hfile, himage⟩ := of_decide_eq_true h
    rw [Content.seen, hfile, himage] at hseen
    obtain rfl := Option.some.inj hseen
    rfl

theorem Polled.step (h : Polled κ s) (ha : Steady s a) (hs : ClipWatch.step κ s a = some t) :
    Polled κ t := by
  cases a with
  | wait ms =>
    obtain rfl := Option.some.inj hs
    exact h.queue h.jobs
  | copy c =>
    obtain rfl := Option.some.inj hs
    exact h.change fun i seen hi ↦ by cases hi
  | writeClipboard folder kind payload sensitive =>
    simp only [ClipWatch.step] at hs
    split at hs
    · obtain rfl := Option.some.inj hs
      exact h
    · rename_i w _
      obtain rfl := Option.some.inj hs
      obtain ⟨hs, hnew⟩ := h.recorded
      refine hs.queue fun w' i hw ↦ ?_
      rcases List.mem_append.mp hw with hw | hw
      · exact hs.jobs w' i hw
      · obtain ⟨rfl, rfl⟩ := Job.put.inj (List.mem_singleton.mp hw)
        exact hnew
  | expire text =>
    obtain ⟨-, hs⟩ := Option.ite_none_right_eq_some.mp hs
    obtain rfl := Option.some.inj hs
    refine h.queue fun w i hw ↦ ?_
    rcases List.mem_append.mp hw with hw | hw
    · exact h.jobs w i hw
    · cases List.mem_singleton.mp hw
  | write older shown =>
    have hrest : Polled κ { s with jobs := s.jobs.drop (older + 1) } :=
      h.queue fun w i hw ↦ h.jobs w i (List.mem_of_mem_drop hw)
    simp only [ClipWatch.step] at hs
    split at hs
    · cases hs
    · obtain rfl := Option.some.inj hs
      exact hrest
    · rename_i w i c hjob
      obtain ⟨hshows, hs⟩ := Option.ite_none_right_eq_some.mp hs
      obtain rfl := Option.some.inj hs
      refine hrest.change fun j seen hj hseen ↦ ?_
      obtain rfl := Option.some.inj hj
      rw [hash_of_shows hshows hseen]
      exact h.jobs w i (List.mem_of_getElem? hjob)
    · obtain rfl := Option.some.inj hs
      split
      · exact hrest.change fun i seen hi ↦ by cases hi
      · exact hrest
  | session est =>
    obtain ⟨hest, hs⟩ := Option.ite_none_left_eq_some.mp hs
    obtain rfl := Option.some.inj hs
    exact ⟨h.past, h.knows, h.finds, hest, h.begun, h.once, h.fresh, h.recent, h.jobs, h.shown, h.late⟩
  | tick => exact h.tick hs
  | read => exact h.read ha hs
  | judge concealed => exact h.judge hs

/-- However copies, received items, the writer's turns, new sessions and the watcher's reads fall
between each other: of no period of the clipboard is something sent twice, nothing is sent of what
it showed when the watcher noticed the session, and of what the daemon wrote there itself nothing
is sent within the echo window, unless ten records came after it. -/
theorem watcher_sends (h : Run (step κ) Steady {} l s) :
    s.sent.Pairwise (·.period < ·.period) ∧
    (∀ x ∈ s.sent, ∃ n, x.noticed = some n ∧ n < x.period) ∧
    ∀ x ∈ s.sent, ∀ i, x.source = some i → ∃ y, s.records[i]? = some y ∧
      (y.2 + RecentWrites.ECHO_WINDOW ≤ x.now ∨ i + RecentWrites.CAP < x.records) := by
  have hs : Polled κ s := h.invariant polled_start fun _ _ _ hI ha hstep ↦ hI.step ha hstep
  exact ⟨hs.once, hs.fresh, hs.late⟩

/-- Codecs for a test: every picture is one byte. -/
def oneByte : Codecs := ⟨App.lastBytes, fun _ ↦ none, fun _ _ _ ↦ some ⟨#[0]⟩⟩

def text (t : String) : Content := { text := some t }

/-- A tick in which no file and no image is found. -/
def textTick : List Act := [.tick, .read, .read, .read]

/-- A text from before the session, one that is copied, one that a peer sends. -/
def copyAndReceive : List Act :=
  [.copy (text "old"), .session (some 1), .tick, .read, .read, .read, .read, .read, .read,
    .copy (text "new")] ++ textTick ++ [.judge false] ++
  [.writeClipboard [] .text "hi".toUTF8 false, .write 0 (some (text "hi"))] ++ textTick ++ [.judge false]

/-- A test of `Steady`. -/
def steady (s : State) : Act → Bool
  | .read =>
    match s.pc with
    | .pollImage => s.clip.file = .none
    | .pollText => s.clip.file = .none ∧ s.clip.image = none
    | _ => true
  | _ => true

theorem steady_of_test (h : steady s a) : Steady s a := by
  cases a with
  | read =>
    refine ⟨fun hpc ↦ ?_, fun hpc ↦ ?_⟩
    · simpa [steady, hpc] using h
    · simpa [steady, hpc] using h
  | _ => trivial

theorem watcher_sends_copy : ∃ s, Run (step oneByte) Steady {} copyAndReceive s ∧
    s.sent.map (·.period) = [2] ∧ s.sent.Pairwise (·.period < ·.period) := by
  have hrun : Run (step oneByte) (fun s a ↦ steady s a) {} copyAndReceive _ :=
    run_of_checked (by decide +kernel)
  have hsteady : Run (step oneByte) Steady {} copyAndReceive _ := hrun.mono fun _ _ ↦ steady_of_test
  exact ⟨_, hsteady, by decide +kernel, (watcher_sends hsteady).1⟩

/-- A file that comes to the clipboard, with its icon, between two reads of a tick. -/
def fileMidTick : List Act :=
  [.session (some 1), .tick, .read, .read, .read, .read,
    .copy { file := .file ⟨"a.txt", 1, none⟩ (some ("a.txt", ⟨#[97]⟩)), image := some (1, 1, ⟨#[0]⟩) },
    .read, .judge false, .tick, .read, .judge false]

/-- The icon is sent, and then the file. -/
theorem file_sent_twice : ∃ s, Run (step oneByte) Always {} fileMidTick s ∧
    s.sent.map (·.period) = [1, 1] := by
  have hrun : Run (step oneByte) Always {} fileMidTick _ := run_of_isSome (by decide +kernel)
  exact ⟨_, hrun, by decide +kernel⟩

end FluxSync.ClipWatch
