import FluxSync.Types

namespace FluxSync

def DEDUP_CAPACITY : ℕ := 50

def ECHO_WINDOW_MS : UInt64 := 5000

/-- Entries seeded from persisted history have no live sighting. -/
structure Entry where
  hash : ContentHash
  seenAtMs : Option UInt64
  deriving DecidableEq

/-- Oldest first. -/
structure DedupRing where
  capacity : ℕ := DEDUP_CAPACITY
  inner : List Entry := []

/-- Recently seen event ids, oldest first. -/
structure SeenSet where
  capacity : ℕ := 256
  inner : List EventId := []

/-- The difference of two clock readings, or 0. -/
def saturatingSub (a b : UInt64) : UInt64 := if b ≤ a then a - b else 0

namespace DedupRing

def contains (r : DedupRing) (hash : ContentHash) : Bool := r.inner.any (·.hash == hash)

def push (r : DedupRing) (entry : Entry) : DedupRing :=
  { r with inner := (if r.inner.length = r.capacity then r.inner.tail else r.inner) ++ [entry] }

def observe (r : DedupRing) (hash : ContentHash) : DedupRing × Bool :=
  if r.contains hash then (r, false) else (r.push ⟨hash, none⟩, true)

def Entry.recent (e : Entry) (nowMs : UInt64) : Bool :=
  e.seenAtMs.any fun t ↦ saturatingSub nowMs t < ECHO_WINDOW_MS

/-- A repeat is an echo while it is the newest content or was seen within the
echo window; a fresh repeat moves to the newest place. -/
def observeClipboard (r : DedupRing) (hash : ContentHash) (nowMs : UInt64) : DedupRing × Bool :=
  match r.inner.findIdx? (·.hash == hash) with
  | some pos =>
    let newest := pos + 1 == r.inner.length
    let recent := r.inner[pos]?.any fun e ↦ Entry.recent e nowMs
    if newest || recent then (r, false)
    else (({ r with inner := r.inner.eraseIdx pos } : DedupRing).push ⟨hash, some nowMs⟩, true)
  | none => (r.push ⟨hash, some nowMs⟩, true)

end DedupRing

namespace SeenSet

/-- The flag is true when `id` was not in the window. -/
def observe (s : SeenSet) (id : EventId) : SeenSet × Bool :=
  if id ∈ s.inner then (s, false)
  else
    ({ s with inner := (if s.inner.length = s.capacity then s.inner.tail else s.inner) ++ [id] },
      true)

end SeenSet

end FluxSync
