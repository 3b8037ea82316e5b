import FluxSync.Transport.Attribution

namespace FluxSync.Transport

open Std Function Runs

variable {N : Type} {decrypt : N → List UInt8 → N × Option (List UInt8)}
variable {t : Transport (Installed N)} {pc : Pc N} {id : PeerId} {slot : Slot} {now : UInt64}

/-- The slot on which this section installs or drops a session. -/
def Pc.stores (t : Transport (Installed N)) : Pc N → Option Slot
  | .install _ _ slot => some slot
  | .tryInstall _ _ slot => if t.live slot then none else some slot
  | .casInstall _ _ slot g => if (t.conns slot).sessionGeneration = g then some slot else none
  | .dropStore slot _ => some slot
  | .promoteTake id n => if t.live (.secondary id n) then some (.secondary id n) else none
  | .promoteStore .. => some .primary
  | _ => none

/-- The slot whose generation this section advances. -/
def Pc.bumps (t : Transport (Installed N)) : Pc N → Option Slot
  | .casInstall _ _ slot g => if (t.conns slot).sessionGeneration = g then some slot else none
  | .bumpGeneration slot => some slot
  | .dropBump slot _ => some slot
  | _ => none

/-- The slot whose session the call has stored and whose generation it has still to advance. -/
def Pc.owesBump : Pc N → Option Slot
  | .stampId _ slot true => some slot
  | .bumpGeneration slot => some slot
  | .dropBump slot _ => some slot
  | .promoteStampId .. | .promoteReadAddr .. | .promoteStoreAddr .. | .promoteStoreLastAddr ..
  | .promoteLastRx .. => some .primary
  | _ => none

/-- The generation a call of `install_session_if_generation_for` was given. -/
def Pc.expects : Pc N → Option UInt64
  | .connForReadId (.installSessionIfGenerationFor _ g) _ => some g
  | .connForExtra (.installSessionIfGenerationFor _ g) _ => some g
  | .casInstall _ _ _ g => some g
  | _ => none

def Pc.Promotes (slot : Slot) : Pc N → Prop
  | .promoteTake id n => slot = .secondary id n
  | _ => False

def Allocated (t : Transport (Installed N)) : Slot → Prop
  | .primary => True
  | .secondary _ n => n < t.allocated

def ExtraAllocated (t : Transport (Installed N)) : Prop :=
  ∀ (id : PeerId) (n : ℕ), t.extra[id]? = some n → n < t.allocated

section

variable {f : PeerConn (Installed N) → PeerConn (Installed N)} {s : Slot}

theorem generation_modify :
    ((t.modify s f).conns slot).sessionGeneration =
      if slot = s then (f (t.conns slot)).sessionGeneration else (t.conns slot).sessionGeneration := by
  simp only [modify]
  split
  · subst slot
    rw [update_self]
  · rw [update_of_ne ‹_›]

theorem generation_keep (hf : ∀ c, (f c).sessionGeneration = c.sessionGeneration) :
    ((t.modify s f).conns slot).sessionGeneration = (t.conns slot).sessionGeneration := by
  rw [generation_modify, hf, ite_self]

theorem generation_extraEntry (h : Allocated t slot) :
    ((t.extraEntry now id).1.conns slot).sessionGeneration =
      (t.conns slot).sessionGeneration := by
  rw [extraEntry]
  split
  · rfl
  · have hne : slot ≠ .secondary id t.allocated := by
      rintro rfl
      exact Nat.lt_irrefl _ h
    simp only [update_of_ne hne]

theorem generation_roam (c : PeerConn (Installed N)) (src : SocketAddr) :
    (roam c src now).sessionGeneration = c.sessionGeneration := by
  rw [roam]
  split <;> rfl

end

/-- A section advances the generation of the slot it bumps, once, and no other. -/
theorem advance_generation (h : Allocated t slot) :
    ((advance decrypt t now pc).1.conns slot).sessionGeneration =
      if pc.bumps t = some slot then (t.conns slot).sessionGeneration + 1
      else (t.conns slot).sessionGeneration := by
  have bumped {s : Slot} : ((t.bumpGeneration s).conns slot).sessionGeneration =
      if some s = some slot then (t.conns slot).sessionGeneration + 1
      else (t.conns slot).sessionGeneration := by
    rw [bumpGeneration, generation_modify]
    simp only [Option.some.injEq, eq_comm]
  cases pc with
  | acquireExtra e id => exact generation_extraEntry h
  | tryInstall noise id s =>
    simp only [advance, storeSession, Pc.bumps, reduceCtorEq, if_false]
    split
    · rfl
    · dsimp only
      exact generation_keep fun _ ↦ rfl
  | casInstall noise id s g =>
    simp only [advance, Pc.bumps]
    by_cases hg : (t.conns s).sessionGeneration = g
    · simp only [hg, ne_eq, not_true_eq_false, if_false, if_true, bumpGeneration, storeSession,
        modify_modify]
      rw [generation_modify]
      simp only [comp_apply, Option.some.injEq, eq_comm]
    · simp only [hg, ne_eq, not_false_eq_true, if_true, if_false, reduceCtorEq]
  | bumpGeneration s => exact bumped
  | dropBump s purge => exact bumped
  | promoteDetach =>
    simp only [advance, detachSecondary, Pc.bumps, reduceCtorEq, if_false]
    cases t.liveSecondaries.head? <;> rfl
  | promoteTake id n =>
    simp only [advance, storeSession, Pc.bumps, reduceCtorEq, if_false]
    split
    · dsimp only
      exact generation_keep fun _ ↦ rfl
    · rfl
  | recvTry d candidates =>
    cases candidates with
    | nil => rfl
    | cons c rest =>
      obtain ⟨id, s⟩ := c
      simp only [advance, storeSession, Pc.bumps, reduceCtorEq, if_false]
      split
      · rfl
      · dsimp only
        exact generation_keep fun _ ↦ rfl
  | recvRoam r s =>
    simp only [advance, Pc.bumps, reduceCtorEq, if_false]
    exact generation_keep fun c ↦ generation_roam c r.src
  | idle | acquireReadId | acquireReadLive | connForReadId | connForExtra | removeExtra
  | promoteReadAddr | recvReadId | recvReadExtra => rfl
  | install | setPeerAddr | setLastPeerAddr | setLastPeerId | pushHistory | stampId
  | storeEstablished | dropStore | promoteStore | promoteStampId | promoteStoreAddr
  | promoteStoreLastAddr | promoteLastRx | recvCount | recvLastRx =>
    simp only [advance, storeSession, storePeerAddr, storeLastPeerAddr, storeLastPeerId,
      Transport.pushHistory, Transport.storeEstablished, Pc.bumps, reduceCtorEq, if_false]
    exact generation_keep fun _ ↦ rfl

/-- A call that has stored a session bumps the generation at once or owes it, but for
a promotion, which leaves the slot it empties behind. -/
theorem advance_stores (decrypt : N → List UInt8 → N × Option (List UInt8)) (now : UInt64)
    (h : pc.stores t = some slot) :
    pc.bumps t = some slot ∨ (advance decrypt t now pc).2.owesBump = some slot ∨
      pc.Promotes slot := by
  cases pc with
  | install noise id s => exact .inr (.inl h)
  | tryInstall noise id s =>
    refine .inr (.inl ?_)
    simp only [Pc.stores] at h
    simp only [advance]
    split at h
    · cases h
    · rwa [if_neg ‹_›]
  | casInstall noise id s g => exact .inl h
  | dropStore s purge => exact .inr (.inl h)
  | promoteTake id n =>
    simp only [Pc.stores] at h
    split at h
    · exact .inr (.inr (Option.some.inj h).symm)
    · cases h
  | promoteStore id n session => exact .inr (.inl h)
  | _ => cases h

theorem advance_owesBump (decrypt : N → List UInt8 → N × Option (List UInt8)) (now : UInt64)
    (t : Transport (Installed N)) (h : pc.owesBump = some slot) :
    pc.bumps t = some slot ∨ (advance decrypt t now pc).2.owesBump = some slot := by
  cases pc with
  | stampId id s bumps =>
    cases bumps with
    | false => cases h
    | true => exact .inr h
  | bumpGeneration s => exact .inl h
  | dropBump s purge => exact .inl h
  | promoteStoreAddr id n addr => cases addr <;> exact .inr h
  | promoteStampId | promoteReadAddr | promoteStoreLastAddr | promoteLastRx => exact .inr h
  | _ => cases h

theorem advance_expects {g : UInt64} (h : (advance decrypt t now pc).2.expects = some g) :
    pc.expects = some g := by
  cases pc with
  | connForReadId v id =>
    simp only [advance] at h
    cases v <;> split at h <;> exact h
  | connForExtra v id =>
    simp only [advance] at h
    cases v with
    | installSessionIfGenerationFor noise g' => split at h <;> first | exact h | cases h
    | dropSessionFor purge => split at h <;> cases purge <;> cases h
  | acquireReadLive e id cur =>
    simp only [advance] at h
    cases e <;> split at h <;> cases h
  | acquireExtra e id => cases e <;> cases h
  | stampId id s bumps => cases bumps <;> cases h
  | dropBump s purge => cases purge <;> cases h
  | tryInstall | casInstall =>
    simp only [advance] at h
    split at h <;> cases h
  | promoteDetach =>
    simp only [advance] at h
    split at h <;> cases h
  | promoteTake id n =>
    simp only [advance] at h
    split at h <;> cases h
  | promoteStoreAddr id n addr => cases addr <;> cases h
  | recvTry d candidates =>
    cases candidates with
    | nil => cases h
    | cons c rest =>
      simp only [advance] at h
      split at h
      · cases h
      · dsimp only at h
        split at h <;> cases h
  | _ => cases h

theorem advance_allocated : t.allocated ≤ (advance decrypt t now pc).1.allocated := by
  cases pc with
  | acquireExtra e id =>
    simp only [advance, extraEntry]
    split
    · exact Nat.le_refl _
    · exact Nat.le_succ _
  | tryInstall | casInstall | promoteTake =>
    simp only [advance]
    split <;> exact Nat.le_refl _
  | promoteDetach =>
    simp only [advance, detachSecondary]
    cases t.liveSecondaries.head? <;> exact Nat.le_refl _
  | recvTry d candidates =>
    cases candidates with
    | nil => exact Nat.le_refl _
    | cons c rest =>
      simp only [advance]
      split <;> exact Nat.le_refl _
  | _ => exact Nat.le_refl _

theorem Allocated.advance (h : Allocated t slot) :
    Allocated (advance decrypt t now pc).1 slot := by
  cases slot with
  | primary => trivial
  | secondary id n => exact Nat.lt_of_lt_of_le h advance_allocated

theorem ExtraAllocated.erase (h : ExtraAllocated t) {id : PeerId} :
    ExtraAllocated (t.removeExtra id) := by
  intro id' n hn
  simp only [removeExtra, OrderedMap.lookup_erase] at hn
  split at hn
  · cases hn
  · exact h id' n hn

theorem ExtraAllocated.advance (h : ExtraAllocated t) :
    ExtraAllocated (advance decrypt t now pc).1 := by
  cases pc with
  | acquireExtra e id =>
    simp only [Transport.advance, extraEntry]
    split
    · exact h
    · intro id' n hn
      simp only [OrderedMap.lookup_insert] at hn
      split at hn
      · obtain rfl := Option.some.inj hn
        exact Nat.lt_succ_self _
      · exact Nat.lt_succ_of_lt (h id' n hn)
  | tryInstall | casInstall | promoteTake =>
    simp only [Transport.advance]
    split <;> exact h
  | removeExtra id => exact h.erase
  | promoteDetach =>
    simp only [Transport.advance, detachSecondary]
    cases t.liveSecondaries.head? with
    | none => exact h
    | some e => exact h.erase
  | recvTry d candidates =>
    cases candidates with
    | nil => exact h
    | cons c rest =>
      simp only [Transport.advance]
      split <;> exact h
  | _ => exact h

deriving instance DecidableEq for Installed, Errand, Visit, Datagram, Received, Pc

/-- A generation that `session_generation_for` read, with what has happened to its
slot since. The daemon keeps `id` and `generation` only. -/
structure Hold where
  id : PeerId
  slot : Slot
  generation : UInt64
  /-- The other calls that have installed or dropped a session on the slot. -/
  stored : List ℕ := []
  bumped : ℕ := 0
  deriving DecidableEq

/-- Where a task stands between reading a generation and installing on it. -/
inductive Caller
  | away
  | readId (id : PeerId)
  | readExtra (id : PeerId)
  | load (id : PeerId) (slot : Slot)
  | holds (h : Hold)
  deriving DecidableEq

/-- Any number of calls, some of them made by tasks that hold a generation. -/
structure Exchanges (N : Type) where
  calls : Calls N
  callers : ℕ → Caller

inductive Move (N : Type)
  | call (a : Act N)
  | beginRead (i : ℕ) (id : PeerId)
  | readSection (i : ℕ)
  | install (i : ℕ) (noise : N)
  | leave (i : ℕ)

/-- Task `i`'s hold after a section of task `j` at `pc`. -/
def Hold.watch (t : Transport (Installed N)) (i j : ℕ) (pc : Pc N) (h : Hold) : Hold :=
  { h with
    stored := if j ≠ i ∧ pc.stores t = some h.slot then j :: h.stored else h.stored
    bumped := if pc.bumps t = some h.slot then h.bumped + 1 else h.bumped }

def Caller.watch (t : Transport (Installed N)) (i j : ℕ) (pc : Pc N) : Caller → Caller
  | .holds h => .holds (h.watch t i j pc)
  | c => c

/-- The sections of `session_generation_for`. -/
def Caller.read (t : Transport (Installed N)) : Caller → Option Caller
  | .readId id =>
    some (if t.conn.lastPeerId = some id then .load id .primary else .readExtra id)
  | .readExtra id =>
    some (match t.extra[id]? with
      | some n => .load id (.secondary id n)
      | none => .away)
  | .load id slot => some (.holds { id, slot, generation := (t.conns slot).sessionGeneration })
  | _ => none

namespace Exchanges

def init (now : UInt64) : Exchanges N := ⟨.init now, fun _ ↦ .away⟩

def step (decrypt : N → List UInt8 → N × Option (List UInt8)) (s : Exchanges N) :
    Move N → Option (Exchanges N)
  | .call (.start i op) =>
    match s.callers i with
    | .away => (s.calls.step decrypt (.start i op)).map fun c ↦ { s with calls := c }
    | _ => none
  | .call (.lockSection i now) =>
    (s.calls.step decrypt (.lockSection i now)).map fun c ↦
      ⟨c, fun k ↦ (s.callers k).watch s.calls.transport k i (s.calls.tasks i)⟩
  | .beginRead i id =>
    match s.callers i, s.calls.tasks i with
    | .away, .idle => some { s with callers := update s.callers i (.readId id) }
    | _, _ => none
  | .readSection i =>
    ((s.callers i).read s.calls.transport).map fun c ↦
      { s with callers := update s.callers i c }
  | .install i noise =>
    match s.callers i with
    | .holds h =>
      (s.calls.step decrypt
        (.start i (.visit (.installSessionIfGenerationFor noise h.generation) h.id))).map
        fun c ↦ { s with calls := c }
    | _ => none
  | .leave i =>
    match s.calls.tasks i with
    | .idle => some { s with callers := update s.callers i .away }
    | _ => none

/-- Task `i` is about to replace the session of `slot`, with the generation it was given. -/
def Commits (s : Exchanges N) (i : ℕ) (slot : Slot) : Prop :=
  ∃ noise id g, s.calls.tasks i = .casInstall noise id slot g ∧
    (s.calls.transport.conns slot).sessionGeneration = g

/-- A replacement goes to the slot that was read, after every call that has stored a
session there since has bumped the generation, and before the counter has come
round. No promotion empties a slot whose generation a task holds. -/
def Settled (s : Exchanges N) : Move N → Prop
  | .call (.lockSection i _) =>
    (∀ h slot, s.callers i = .holds h → s.Commits i slot →
      slot = h.slot ∧ (∀ j ∈ h.stored, (s.calls.tasks j).owesBump ≠ some slot) ∧
        h.bumped < 2 ^ 64) ∧
      ∀ k h, s.callers k = .holds h → ¬ (s.calls.tasks i).Promotes h.slot
  | _ => True

/-- What the counter of a held slot says about the calls since. -/
structure Accounted (s : Exchanges N) (i : ℕ) (h : Hold) : Prop where
  allocated : Allocated s.calls.transport h.slot
  counted : (s.calls.transport.conns h.slot).sessionGeneration =
    h.generation + UInt64.ofNat h.bumped
  owed : h.stored ≠ [] →
    0 < h.bumped ∨ ∃ j ∈ h.stored, (s.calls.tasks j).owesBump = some h.slot
  expects : ∀ g, (s.calls.tasks i).expects = some g → g = h.generation

structure Kept (s : Exchanges N) : Prop where
  extra : ExtraAllocated s.calls.transport
  resolved : ∀ i id slot, s.callers i = .load id slot → Allocated s.calls.transport slot
  reading : ∀ i, (∀ h, s.callers i ≠ .holds h) → s.callers i ≠ .away →
    s.calls.tasks i = .idle
  held : ∀ i h, s.callers i = .holds h → s.Accounted i h

variable {s s' : Exchanges N} {m : Move N} {i : ℕ} {h : Hold}

theorem kept_init : Kept (init now : Exchanges N) where
  extra := by simp [ExtraAllocated, init, Calls.init, new]
  resolved := nofun
  reading := fun _ _ hne ↦ absurd rfl hne
  held := nofun

theorem Accounted.section {j : ℕ} {c : Calls N} (ha : s.Accounted i h)
    (hp : ¬ (s.calls.tasks j).Promotes h.slot)
    (hs : s.calls.step decrypt (.lockSection j now) = some c) (callers : ℕ → Caller) :
    Accounted ⟨c, callers⟩ i (h.watch s.calls.transport i j (s.calls.tasks j)) := by
  obtain rfl := step_lockSection hs
  refine ⟨ha.allocated.advance, ?_, fun hne ↦ ?_, fun g hg ↦ ?_⟩
  · simp only [Hold.watch, advance_generation ha.allocated, ha.counted]
    split
    · rw [UInt64.ofNat_add, ← UInt64.add_assoc]
      rfl
    · rfl
  · simp only [Hold.watch]
    by_cases hb : (s.calls.tasks j).bumps s.calls.transport = some h.slot
    · rw [if_pos hb]
      exact .inl (Nat.succ_pos _)
    rw [if_neg hb]
    by_cases hst : j ≠ i ∧ (s.calls.tasks j).stores s.calls.transport = some h.slot
    · rw [if_pos hst]
      obtain hb' | ho | hpr := advance_stores decrypt now hst.2
      · exact absurd hb' hb
      · exact .inr ⟨j, List.mem_cons_self, by simpa only [update_self] using ho⟩
      · exact absurd hpr hp
    · rw [if_neg hst]
      simp only [Hold.watch, if_neg hst] at hne
      obtain hpos | ⟨k, hk, ho⟩ := ha.owed hne
      · exact .inl hpos
      · refine .inr ⟨k, hk, ?_⟩
        by_cases hkj : k = j
        · subst hkj
          obtain hb' | ho' := advance_owesBump decrypt now s.calls.transport ho
          · exact absurd hb' hb
          · simpa only [update_self] using ho'
        · simpa only [update_of_ne hkj] using ho
  · by_cases hij : i = j
    · subst hij
      simp only [update_self] at hg
      exact ha.expects g (advance_expects hg)
    · simp only [update_of_ne hij] at hg
      exact ha.expects g hg

theorem Accounted.of_eq {i : ℕ} {c : Calls N} {callers : ℕ → Caller} (ha : s.Accounted i h)
    (ht : c.transport = s.calls.transport) (ho : ∀ j, (s.calls.tasks j).owesBump ≠ none →
      (c.tasks j).owesBump = (s.calls.tasks j).owesBump)
    (he : ∀ g, (c.tasks i).expects = some g → g = h.generation) :
    Accounted ⟨c, callers⟩ i h where
  allocated := ht ▸ ha.allocated
  counted := ht ▸ ha.counted
  owed := fun hne ↦ by
    obtain hpos | ⟨j, hj, hd⟩ := ha.owed hne
    · exact .inl hpos
    · exact .inr ⟨j, hj, (ho j (by simp [hd])).trans hd⟩
  expects := he

theorem step_call_lockSection (hs : s.step decrypt (.call (.lockSection i now)) = some s') :
    ∃ c, s.calls.step decrypt (.lockSection i now) = some c ∧
      s' = ⟨c, fun k ↦ (s.callers k).watch s.calls.transport k i (s.calls.tasks i)⟩ := by
  obtain ⟨c, hc, rfl⟩ := Option.map_eq_some_iff.mp hs
  exact ⟨c, hc, rfl⟩

theorem step_call_start {op : Op N} (hs : s.step decrypt (.call (.start i op)) = some s') :
    s.callers i = .away ∧ s.calls.tasks i = .idle ∧
      s' = { s with calls := { s.calls with tasks := update s.calls.tasks i op.entry } } := by
  simp only [step] at hs
  split at hs
  · obtain ⟨c, hc, rfl⟩ := Option.map_eq_some_iff.mp hs
    obtain ⟨hidle, rfl⟩ := step_start hc
    exact ⟨‹_›, hidle, rfl⟩
  · cases hs

theorem step_install {noise : N} (hs : s.step decrypt (.install i noise) = some s') :
    ∃ h, s.callers i = .holds h ∧ s.calls.tasks i = .idle ∧
      s' = { s with calls := { s.calls with
        tasks := update s.calls.tasks i
          (.connForReadId (.installSessionIfGenerationFor noise h.generation) h.id) } } := by
  simp only [step] at hs
  split at hs
  · obtain ⟨c, hc, rfl⟩ := Option.map_eq_some_iff.mp hs
    obtain ⟨hidle, rfl⟩ := step_start hc
    exact ⟨_, ‹_›, hidle, rfl⟩
  · cases hs

theorem step_beginRead (hs : s.step decrypt (.beginRead i id) = some s') :
    s.callers i = .away ∧ s.calls.tasks i = .idle ∧
      s' = { s with callers := update s.callers i (.readId id) } := by
  simp only [step] at hs
  split at hs
  · exact ⟨‹_›, ‹_›, (Option.some.inj hs).symm⟩
  · cases hs

theorem step_readSection (hs : s.step decrypt (.readSection i) = some s') :
    ∃ c, (s.callers i).read s.calls.transport = some c ∧
      s' = { s with callers := update s.callers i c } := by
  obtain ⟨c, hc, rfl⟩ := Option.map_eq_some_iff.mp hs
  exact ⟨c, hc, rfl⟩

theorem step_leave (hs : s.step decrypt (.leave i) = some s') :
    s.calls.tasks i = .idle ∧ s' = { s with callers := update s.callers i .away } := by
  simp only [step] at hs
  split at hs
  · exact ⟨‹_›, (Option.some.inj hs).symm⟩
  · cases hs

/-- A task that starts a call owes nothing yet. -/
theorem owesBump_update {pc : Pc N} (hidle : s.calls.tasks i = .idle) (j : ℕ)
    (hj : (s.calls.tasks j).owesBump ≠ none) :
    (update s.calls.tasks i pc j).owesBump = (s.calls.tasks j).owesBump := by
  have hne : j ≠ i := by
    rintro rfl
    rw [hidle] at hj
    exact hj rfl
  rw [update_of_ne hne]

/-- The other states of a caller are not watched. -/
theorem watch_eq (c : Caller) (t : Transport (Installed N)) (i j : ℕ) (pc : Pc N) :
    c.watch t i j pc = c ∨ ∃ h, c = .holds h ∧ c.watch t i j pc = .holds (h.watch t i j pc) := by
  cases c with
  | holds h => exact .inr ⟨h, rfl, rfl⟩
  | _ => exact .inl rfl

theorem Kept.section (hk : s.Kept) (hok : s.Settled (.call (.lockSection i now)))
    (hs : s.step decrypt (.call (.lockSection i now)) = some s') : s'.Kept := by
  obtain ⟨c, hc, rfl⟩ := step_call_lockSection hs
  have hcs := step_lockSection hc
  refine ⟨?_, fun k id slot hl ↦ ?_, fun k hnh hna ↦ ?_, fun k h' hh ↦ ?_⟩
  · rw [hcs]
    exact hk.extra.advance
  · have hl' : s.callers k = .load id slot := by
      replace hl : (s.callers k).watch s.calls.transport k i (s.calls.tasks i) = .load id slot := hl
      obtain he | ⟨h, -, he⟩ := watch_eq (s.callers k) s.calls.transport k i (s.calls.tasks i) <;>
        rw [he] at hl
      · exact hl
      · cases hl
    rw [hcs]
    exact (hk.resolved k id slot hl').advance
  · have hidle : s.calls.tasks k = .idle := by
      refine hk.reading k (fun h hh ↦ ?_) fun ha ↦ hna (by simp [ha, Caller.watch])
      exact hnh _ (by simp only [hh, Caller.watch]; rfl)
    have hne : k ≠ i := by
      rintro rfl
      simp only [Calls.step, hidle] at hc
      cases hc
    rw [hcs]
    simpa only [update_of_ne hne] using hidle
  · cases hcaller : s.callers k with
    | holds h =>
      simp only [hcaller, Caller.watch, Caller.holds.injEq] at hh
      subst hh
      exact (hk.held k h hcaller).section (hok.2 k h hcaller) hc _
    | _ => simp [hcaller, Caller.watch] at hh

/-- A section of `session_generation_for`, or the caller's coming and going. -/
theorem Kept.update_caller {c : Caller} (hk : s.Kept) (hidle : s.calls.tasks i = .idle)
    (hl : ∀ id slot, c = .load id slot → Allocated s.calls.transport slot)
    (hh : ∀ h, c = .holds h → s.Accounted i h) :
    Kept { s with callers := update s.callers i c } where
  extra := hk.extra
  resolved := fun k id slot hk' ↦ by
    by_cases hne : k = i
    · subst hne
      exact hl id slot (by simpa only [update_self] using hk')
    · exact hk.resolved k id slot (by simpa only [update_of_ne hne] using hk')
  reading := fun k hnh hna ↦ by
    by_cases hne : k = i
    · exact hne ▸ hidle
    · simp only [update_of_ne hne] at hnh hna
      exact hk.reading k hnh hna
  held := fun k h hk' ↦ by
    have ha : s.Accounted k h := by
      by_cases hne : k = i
      · subst hne
        exact hh h (by simpa only [update_self] using hk')
      · exact hk.held k h (by simpa only [update_of_ne hne] using hk')
    exact ha.of_eq rfl (fun _ _ ↦ rfl) ha.expects

/-- A generation just read accounts for nothing yet. -/
theorem Kept.accounted_load {slot : Slot} (hk : s.Kept) (hc : s.callers i = .load id slot) :
    s.Accounted i
      { id, slot, generation := (s.calls.transport.conns slot).sessionGeneration } where
  allocated := hk.resolved i id slot hc
  counted := (UInt64.add_zero _).symm
  owed := fun hne ↦ absurd rfl hne
  expects := fun g hg ↦ by
    rw [hk.reading i (by simp [hc]) (by simp [hc])] at hg
    cases hg

theorem Kept.step (hk : s.Kept) (hok : s.Settled m) (hs : s.step decrypt m = some s') :
    s'.Kept := by
  cases m with
  | call a =>
    cases a with
    | lockSection i now => exact hk.section hok hs
    | start i op =>
      obtain ⟨haway, hidle, rfl⟩ := step_call_start hs
      refine ⟨hk.extra, hk.resolved, fun k hnh hna ↦ ?_, fun k h hh ↦ ?_⟩
      · have hne : k ≠ i := by
          rintro rfl
          exact hna haway
        simpa only [update_of_ne hne] using hk.reading k hnh hna
      · have hne : k ≠ i := by
          rintro rfl
          simp [haway] at hh
        refine (hk.held k h hh).of_eq rfl (owesBump_update hidle) fun g hg ↦ ?_
        simp only [update_of_ne hne] at hg
        exact (hk.held k h hh).expects g hg
  | install i noise =>
    obtain ⟨h₀, hcaller, hidle, rfl⟩ := step_install hs
    refine ⟨hk.extra, hk.resolved, fun k hnh hna ↦ ?_, fun k h hh ↦ ?_⟩
    · have hne : k ≠ i := by
        rintro rfl
        exact hnh _ hcaller
      simpa only [update_of_ne hne] using hk.reading k hnh hna
    · refine (hk.held k h hh).of_eq rfl (owesBump_update hidle) fun g hg ↦ ?_
      by_cases hne : k = i
      · subst hne
        obtain rfl := Caller.holds.inj (hcaller.symm.trans hh)
        simpa only [update_self, Pc.expects, Option.some.injEq, eq_comm] using hg
      · simp only [update_of_ne hne] at hg
        exact (hk.held k h hh).expects g hg
  | beginRead i id =>
    obtain ⟨haway, hidle, rfl⟩ := step_beginRead hs
    exact hk.update_caller hidle nofun nofun
  | readSection i =>
    obtain ⟨c, hc, rfl⟩ := step_readSection hs
    have hidle : s.calls.tasks i = .idle := by
      refine hk.reading i (fun h hh ↦ ?_) fun ha ↦ ?_
      · rw [hh] at hc
        cases hc
      · rw [ha] at hc
        cases hc
    cases hcaller : s.callers i with
    | away | holds => simp [hcaller, Caller.read] at hc
    | readId id =>
      simp only [hcaller, Caller.read, Option.some.injEq] at hc
      subst hc
      refine hk.update_caller hidle (fun id' slot hl ↦ ?_) fun h hh ↦ ?_
      · split at hl
        · obtain ⟨-, rfl⟩ := Caller.load.inj hl
          trivial
        · cases hl
      · split at hh <;> cases hh
    | readExtra id =>
      simp only [hcaller, Caller.read, Option.some.injEq] at hc
      subst hc
      refine hk.update_caller hidle (fun id' slot hl ↦ ?_) fun h hh ↦ ?_
      · split at hl
        case h_1 n hn =>
          obtain ⟨-, rfl⟩ := Caller.load.inj hl
          exact hk.extra id n hn
        · cases hl
      · split at hh <;> cases hh
    | load id slot =>
      simp only [hcaller, Caller.read, Option.some.injEq] at hc
      subst hc
      refine hk.update_caller hidle nofun fun h hh ↦ ?_
      obtain rfl := Caller.holds.inj hh
      exact hk.accounted_load hcaller
  | leave i =>
    obtain ⟨hidle, rfl⟩ := step_leave hs
    exact hk.update_caller hidle nofun nofun

/-- No other call has installed or dropped a session on the slot between the read of
its generation and the replacement that the generation allows. -/
theorem replaced_untouched {now₀ : UInt64} {l : List (Move N)} {slot : Slot}
    (hrun : Run (step decrypt) Settled (.init now₀) l s)
    (hok : s.Settled (.call (.lockSection i now))) (hh : s.callers i = .holds h)
    (hc : s.Commits i slot) : slot = h.slot ∧ h.stored = [] := by
  have hk : s.Kept := hrun.invariant kept_init fun _ _ _ hk hok hs ↦ hk.step hok hs
  obtain ⟨hslot, hdebt, hlt⟩ := hok.1 h slot hh hc
  obtain ⟨noise, id, g, hpc, hg⟩ := hc
  have ha := hk.held i h hh
  refine ⟨hslot, ?_⟩
  subst hslot
  have hgen : g = h.generation := ha.expects g (by rw [hpc]; rfl)
  have hzero : UInt64.ofNat h.bumped = 0 := by
    have heq := ha.counted
    rw [hg, hgen] at heq
    exact UInt64.add_eq_left.mp heq.symm
  have hbumped : h.bumped = 0 := by
    have := congrArg UInt64.toNat hzero
    rwa [UInt64.toNat_ofNat', Nat.mod_eq_of_lt hlt] at this
  by_contra hne
  obtain hpos | ⟨j, hj, ho⟩ := ha.owed hne
  · omega
  · exact hdebt j hj ho

/-- `n` sections of task `i`. -/
def sections (i n : ℕ) : List (Move UInt8) := List.replicate n (.call (.lockSection i 0))

/-- Peer 1 is linked, and task 1 has read its generation. -/
def linkThenRead : List (Move UInt8) :=
  .call (.start 0 (.acquire (.tryInstallSession 7) 1)) :: sections 0 6 ++
    [.beginRead 1 1, .readSection 1, .readSection 1]

def linkThenRekey : List (Move UInt8) := linkThenRead ++ .install 1 9 :: sections 1 1

/-- Neither a replacement nor a promotion. -/
def quiet (s : Exchanges N) : Move N → Bool
  | .call (.lockSection i _) =>
    match s.calls.tasks i with
    | .casInstall .. | .promoteTake .. => false
    | _ => true
  | _ => true

theorem settled_of_quiet (hq : s.quiet m) : s.Settled m := by
  cases m with
  | call a =>
    cases a with
    | start => trivial
    | lockSection i now =>
      simp only [quiet] at hq
      refine ⟨fun h slot _ hc ↦ ?_, fun k h _ hp ↦ ?_⟩
      · obtain ⟨noise, id, g, hpc, -⟩ := hc
        rw [hpc] at hq
        cases hq
      · cases hpc : s.calls.tasks i with
        | promoteTake => simp [hpc] at hq
        | _ => simp [hpc, Pc.Promotes] at hp
  | _ => trivial

theorem replaced_untouched_linkThenRekey :
    ∃ s h, Run (step openWith) Settled (.init 0) linkThenRekey s ∧ s.callers 1 = .holds h ∧
      s.Commits 1 .primary ∧ .primary = h.slot ∧ h.stored = [] := by
  have hrun : Run (step openWith) (fun s a ↦ quiet s a = true) (.init 0) linkThenRekey _ :=
    run_of_checked (by decide +kernel)
  have hsettled : Run (step openWith) Settled (.init 0) linkThenRekey _ :=
    hrun.mono fun _ _ ↦ settled_of_quiet
  generalize hs : Option.get _ _ = s at hsettled
  have hcaller : s.callers 1 = .holds ⟨1, .primary, 1, [], 0⟩ := by
    subst hs
    decide +kernel
  have hpc : s.calls.tasks 1 = .casInstall 9 1 .primary 1 := by
    subst hs
    decide +kernel
  have hgen : (s.calls.transport.conns .primary).sessionGeneration = 1 := by
    subst hs
    decide +kernel
  have hcommits : s.Commits 1 .primary := ⟨9, 1, 1, hpc, hgen⟩
  have hok : s.Settled (.call (.lockSection 1 0)) := by
    refine ⟨fun h slot hh hc ↦ ?_, fun k h _ hp ↦ ?_⟩
    · obtain rfl := Caller.holds.inj (hcaller.symm.trans hh)
      obtain ⟨noise, id, g, hpc', -⟩ := hc
      obtain ⟨-, -, rfl, -⟩ := Pc.casInstall.inj (hpc.symm.trans hpc')
      exact ⟨rfl, nofun, by decide⟩
    · rw [hpc] at hp
      exact hp
  exact ⟨s, _, hsettled, hcaller, hcommits, replaced_untouched hsettled hok hcaller hcommits⟩

/-- The drop has cleared the session and not yet bumped the generation. -/
def dropAmidRekey : List (Move UInt8) :=
  linkThenRead ++ .call (.start 2 (.visit (.dropSessionFor false) 1)) :: sections 2 2 ++
    .install 1 9 :: sections 1 1

theorem dropAmidRekey_replaces :
    ∃ s h s', Run (step openWith) Always (.init 0) dropAmidRekey s ∧ s.callers 1 = .holds h ∧
      s.Commits 1 .primary ∧ h.stored = [2] ∧ s.calls.transport.linkedPeerIds = [] ∧
      Run (step openWith) Always s (sections 1 3 ++ sections 2 1) s' ∧
      s'.calls.transport.linkedPeerIds = [1] := by
  have hrun : Run (step openWith) Always (.init 0) dropAmidRekey _ :=
    run_of_isSome (by decide +kernel)
  refine ⟨_, ⟨1, .primary, 1, [2], 0⟩, _, hrun, ?_, ⟨9, 1, 1, ?_, ?_⟩, rfl, ?_,
    run_of_isSome ?_, ?_⟩ <;> decide +kernel

end Exchanges

end FluxSync.Transport
