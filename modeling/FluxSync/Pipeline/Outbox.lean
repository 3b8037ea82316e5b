import FluxSync.Foundation.OrderedMap
import FluxSync.Proto.Codec

namespace FluxSync.Pipeline

open Std OrderedMap

def MAX_ITEMS : ℕ := 16

def MAX_TOTAL_BYTES : ℕ := 2 * Proto.MAX_PAYLOAD

/-- Times are in milliseconds. -/
def MAX_AGE : ℕ := 24 * 60 * 60 * 1000

/-- Where a buffered payload comes from. Nothing of the daemon reads it. -/
structure Capture where
  /-- The number of its arrival and its direct sender, for an item received. -/
  arrival : Option (ℕ × PeerId)
  sensitive : Bool
  /-- How many security wipes had been made when it was captured. -/
  wipes : ℕ
  deriving DecidableEq

structure OutboxEntry where
  payload : List UInt8
  kind : Kind
  origin : PeerId
  seq : UInt64
  created : ℕ
  capture : Capture
  deriving DecidableEq

abbrev Stage := ExtTreeMap ContentHash OutboxEntry

structure Outbox where
  /-- Oldest first. -/
  order : List ContentHash := []
  entries : Stage := ∅
  totalBytes : ℕ := 0

namespace Outbox

variable {o : Outbox} {h k : ContentHash} {e x : OutboxEntry} {now : ℕ} {l : List ContentHash}

def isExpired (e : OutboxEntry) (now : ℕ) : Bool := MAX_AGE < now - e.created

def remove (o : Outbox) (hash : ContentHash) : Outbox :=
  match o.entries[hash]? with
  | some old =>
    { order := o.order.erase hash
      entries := o.entries.erase hash
      totalBytes := o.totalBytes - old.payload.length }
  | none => o

def removeMany (o : Outbox) (hashes : List ContentHash) : Outbox := hashes.foldl remove o

def purgeExpired (o : Outbox) (now : ℕ) : Outbox :=
  o.removeMany ((o.entries.toList.filter fun he ↦ isExpired he.2 now).map Prod.fst)

def evictFrom : List ContentHash → Stage → ℕ → Outbox
  | [], entries, totalBytes => ⟨[], entries, totalBytes⟩
  | oldest :: order, entries, totalBytes =>
    if MAX_ITEMS < (oldest :: order).length ∨ MAX_TOTAL_BYTES < totalBytes then
      evictFrom order (entries.erase oldest)
        (match entries[oldest]? with
          | some e => totalBytes - e.payload.length
          | none => totalBytes)
    else ⟨oldest :: order, entries, totalBytes⟩

def evictOverCaps (o : Outbox) : Outbox := evictFrom o.order o.entries o.totalBytes

def insert (o : Outbox) (now : ℕ) (hash : ContentHash) (entry : OutboxEntry) : Outbox :=
  let o := (o.purgeExpired now).remove hash
  ({ order := o.order ++ [hash]
     entries := o.entries.insert hash entry
     totalBytes := o.totalBytes + entry.payload.length } : Outbox).evictOverCaps

def get (o : Outbox) (now : ℕ) (hash : ContentHash) : Option OutboxEntry :=
  o.entries[hash]?.filter fun e ↦ !isExpired e now

/-- Newest first. -/
def hashes (o : Outbox) (now : ℕ) : List ContentHash :=
  o.order.reverse.filter fun h ↦ (o.get now h).isSome

theorem lookup_remove (hx : (o.remove h).entries[k]? = some x) : o.entries[k]? = some x := by
  rw [remove] at hx
  split at hx
  · rw [lookup_erase] at hx
    split at hx
    · cases hx
    · exact hx
  · exact hx

theorem lookup_removeMany (hx : (o.removeMany l).entries[k]? = some x) :
    o.entries[k]? = some x := by
  induction l generalizing o with
  | nil => exact hx
  | cons h l ih => exact lookup_remove (ih hx)

theorem lookup_evictFrom {entries : Stage} {totalBytes : ℕ}
    (hx : (evictFrom l entries totalBytes).entries[k]? = some x) : entries[k]? = some x := by
  induction l generalizing entries totalBytes with
  | nil => exact hx
  | cons oldest l ih =>
    rw [evictFrom] at hx
    split at hx
    · have := ih hx
      rw [lookup_erase] at this
      split at this
      · cases this
      · exact this
    · exact hx

/-- An insertion adds its own entry and no other. -/
theorem lookup_insert (hx : (o.insert now h e).entries[k]? = some x) :
    k = h ∧ x = e ∨ o.entries[k]? = some x := by
  have hx := lookup_evictFrom hx
  rw [OrderedMap.lookup_insert] at hx
  split at hx
  case isTrue hk => exact .inl ⟨hk.symm, (Option.some.inj hx).symm⟩
  case isFalse => exact .inr (lookup_removeMany (lookup_remove hx))

theorem lookup_get (hx : o.get now k = some x) : o.entries[k]? = some x :=
  (Option.filter_eq_some_iff.mp hx).1

end Outbox

end FluxSync.Pipeline
