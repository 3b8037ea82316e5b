import Mathlib.Data.List.Basic
import FluxSync.Types

/-! ## The clipboard writer -/

namespace FluxSync.ClipWriter

/-- A write owed to the OS clipboard. -/
inductive ClipWrite
  | text (text : String)
  | files (paths : List String)
  /-- How a received secret expires. -/
  | clearIfStill (text : String)
  | image (width height : UInt32) (rgba : List UInt8)
  deriving DecidableEq

/-- What the clipboard holds. -/
inductive Clip
  | empty
  | text (text : String)
  | files (paths : List String)
  | image (width height : UInt32) (rgba : List UInt8)
  deriving DecidableEq

def Clip.getText : Clip → Option String
  | .text t => some t
  | _ => none

namespace ClipWrite

/-- `os` says which calls the clipboard takes; the others are logged and leave it as it is. -/
def apply (os : ClipWrite → Bool) (c : Clip) (job : ClipWrite) : Clip :=
  if os job then
    match job with
    | .text t => .text t
    | .files paths => .files paths
    | .clearIfStill t => if c.getText = some t then .empty else c
    | .image width height rgba => .image width height rgba
  else c

end ClipWrite

/-- The jobs one turn of `serve_newest` takes from the channel. -/
structure Turn where
  first : ClipWrite
  queued : List ClipWrite

def Turn.jobs (t : Turn) : List ClipWrite := t.first :: t.queued

/-- The inner loop: `job = newer`. -/
def Turn.newest (t : Turn) : ClipWrite := t.queued.foldl (fun _ newer ↦ newer) t.first

def oneByOne (os : ClipWrite → Bool) (c : Clip) (jobs : List ClipWrite) : Clip :=
  jobs.foldl (ClipWrite.apply os) c

/-- A content and the texts that are to be cleared after it. -/
structure Standing where
  clip : Clip
  expiring : List String := []

/-- Nothing is left of the content. -/
def Standing.Gone (s : Standing) : Prop :=
  s.clip = .empty ∨ ∃ text ∈ s.expiring, s.clip.getText = some text

instance (s : Standing) : Decidable s.Gone := inferInstanceAs (Decidable (_ ∨ _))

/-- Nothing is left of both, or the same. -/
def Standing.Agrees (s s' : Standing) : Prop :=
  (s.Gone ∧ s'.Gone) ∨ (¬ s.Gone ∧ ¬ s'.Gone ∧ s.clip = s'.clip)

instance (s s' : Standing) : Decidable (s.Agrees s') := inferInstanceAs (Decidable (_ ∨ _))

variable {os : ClipWrite → Bool} {c : Clip} {jobs : List ClipWrite} {job : ClipWrite} {s s' : Standing}

/-- What stays of a content once the clears behind it are done. -/
def Standing.left (s : Standing) : Clip := if s.Gone then .empty else s.clip

end FluxSync.ClipWriter
