import FluxSync.Foundation.Runs
import FluxSync.Transport.Conn

namespace FluxSync.Transport

open Std Function Runs

variable {S : Type} {t u : Transport S} {s : Slot} {id a : PeerId} {f : PeerConn S → PeerConn S}
  {now : UInt64}

inductive Call (S : Type)
  | installSession (id : PeerId) (session : S)
  | tryInstallSession (id : PeerId) (session : S)
  | installSessionIfGenerationFor (id : PeerId) (session : S) (expectedGeneration : UInt64)
  | setPeerInfo (id : PeerId) (addr : SocketAddr)
  | dropSession
  | dropSessionFor (id : PeerId)
  | purgePeer (id : PeerId)
  | promoteSecondary
  deriving DecidableEq

def call (t : Transport S) (now : UInt64) : Call S → Transport S
  | .installSession id session => t.installSession now id session
  | .tryInstallSession id session => (t.tryInstallSession now id session).1
  | .installSessionIfGenerationFor id session g =>
    (t.installSessionIfGenerationFor now id session g).1
  | .setPeerInfo id addr => t.setPeerInfo now id addr
  | .dropSession => t.dropSession
  | .dropSessionFor id => t.dropSessionFor id
  | .purgePeer id => t.purgePeer id
  | .promoteSecondary => (t.promoteSecondary now).1

/-- A call at the clock reading it makes. -/
def step (t : Transport S) (c : UInt64 × Call S) : Option (Transport S) := some (t.call c.1 c.2)

def SlotsAgree (t : Transport S) : Prop :=
  t.linkedPeerIds.Nodup ∧ ∀ id ∈ t.linkedPeerIds, t.hasSessionFor id

/-- `id` has an entry in `extra` and a live session on it. -/
def LiveSecondary (t : Transport S) (id : PeerId) : Prop :=
  ∃ n, t.extra[id]? = some n ∧ t.live (.secondary id n)

/-- A peer's own live secondary is never shadowed by the primary slot's id. -/
def Unshadowed (t : Transport S) : Prop := ∀ id, t.LiveSecondary id → t.conn.lastPeerId ≠ some id

/-- The calls that may stamp their peer's id on the primary slot do not do so
for a peer whose session lives in `extra`. -/
def FollowsLiveSession (t : Transport S) (c : UInt64 × Call S) : Prop :=
  match c.2 with
  | .installSession id _ | .tryInstallSession id _ | .setPeerInfo id _ =>
    t.LiveSecondary id → t.live .primary
  | _ => True

theorem mem_liveSecondaries : id ∈ t.liveSecondaries.map Prod.fst ↔ t.LiveSecondary id := by
  simp only [liveSecondaries, List.mem_map, List.mem_filter, Prod.exists, exists_and_right,
    exists_eq_right, OrderedMap.mem_entries, LiveSecondary]

theorem mem_linkedPeerIds :
    id ∈ t.linkedPeerIds ↔ (t.live .primary ∧ t.conn.lastPeerId = some id) ∨ t.LiveSecondary id := by
  rw [linkedPeerIds, List.mem_append, mem_liveSecondaries]
  by_cases h : t.live .primary
  · simp [h]
  · simp [h]

theorem hasSessionFor_of_ne (h : t.conn.lastPeerId ≠ some id) :
    t.hasSessionFor id ↔ t.LiveSecondary id := by
  rw [hasSessionFor, connFor, if_neg h, LiveSecondary]
  cases t.extra[id]? with
  | none => simp
  | some n => simp

theorem slotsAgree_iff : t.SlotsAgree ↔ t.Unshadowed := by
  constructor
  · rintro ⟨hnodup, hsession⟩ id hlive hlast
    have hmem : id ∈ t.linkedPeerIds := mem_linkedPeerIds.mpr (.inr hlive)
    have hprimary : t.live .primary := by
      have h := hsession id hmem
      rwa [hasSessionFor, connFor, if_pos hlast] at h
    rw [linkedPeerIds, if_pos hprimary, hlast] at hnodup
    exact (List.nodup_cons.mp hnodup).1 (mem_liveSecondaries.mpr hlive)
  · intro h
    constructor
    · rw [linkedPeerIds, List.nodup_append]
      refine ⟨?_, OrderedMap.filtered_keys_nodup _, fun id hid id' hid' heq ↦ ?_⟩
      · split
        · cases t.conn.lastPeerId <;> simp
        · simp
      · subst heq
        refine h id (mem_liveSecondaries.mp hid') ?_
        by_cases hp : t.live .primary
        · simpa [hp] using hid
        · simp [hp] at hid
    · intro id hmem
      rcases mem_linkedPeerIds.mp hmem with ⟨hlive, hlast⟩ | hlive
      · rwa [hasSessionFor, connFor, if_pos hlast]
      · exact (hasSessionFor_of_ne (h id hlive)).mpr hlive

theorem liveSecondary_modify_primary : (t.modify .primary f).LiveSecondary id ↔ t.LiveSecondary id := by
  simp [LiveSecondary, extra_modify, live_modify_ne]

theorem liveSecondary_modify_ne {n : ℕ} (h : a ≠ id) :
    (t.modify (.secondary id n) f).LiveSecondary a ↔ t.LiveSecondary a := by
  simp [LiveSecondary, extra_modify, live_modify_ne, h]

def Identified (t : Transport S) : Prop := t.live .primary → t.conn.lastPeerId ≠ none

def SlotInvariant (t : Transport S) : Prop := t.Unshadowed ∧ t.Identified

theorem identified_of_conn (h : t.Identified) (hu : u.conn = t.conn) : u.Identified := by
  rw [Identified, live_primary_eq, hu]
  exact h

theorem slotInvariant_modify_secondary {n : ℕ} (h : t.SlotInvariant)
    (hid : t.conn.lastPeerId ≠ some id) : (t.modify (.secondary id n) f).SlotInvariant := by
  constructor
  · intro a hlive
    rw [conn_modify_secondary]
    by_cases ha : a = id
    · rwa [ha]
    · exact h.1 a ((liveSecondary_modify_ne ha).mp hlive)
  · exact identified_of_conn h.2 conn_modify_secondary

/-- Stamping `id` on the primary slot is harmless exactly when `id` has no live secondary. -/
theorem slotInvariant_stamp_primary (hf : (f t.conn).lastPeerId = some id) :
    (t.modify .primary f).SlotInvariant ↔ ¬ t.LiveSecondary id := by
  simp only [SlotInvariant, Unshadowed, Identified, liveSecondary_modify_primary,
    conn_modify_primary, hf]
  constructor
  · exact fun h hlive ↦ h.1 id hlive rfl
  · refine fun h ↦ ⟨fun a ha heq ↦ ?_, fun _ ↦ by simp⟩
    obtain rfl : id = a := by simpa using heq
    exact h ha

theorem extraEntry_spec (t : Transport S) (now : UInt64) (id : PeerId) :
    ∃ t' n, t.extraEntry now id = (t', .secondary id n) ∧ t'.conn = t.conn ∧
      ∀ a, t'.LiveSecondary a ↔ t.LiveSecondary a := by
  unfold extraEntry
  split
  · exact ⟨t, _, rfl, rfl, fun a ↦ Iff.rfl⟩
  · rename_i hnone
    refine ⟨_, _, rfl, by simp [conn], fun a ↦ ?_⟩
    by_cases ha : id = a
    · subst ha
      simp [LiveSecondary, live, hnone, PeerConn.new]
    · simp [LiveSecondary, live, OrderedMap.lookup_insert, ha, Ne.symm ha]

/-- The three calls that resolve their slot by `acquire_conn` stamp their id on
it, and keep the invariant exactly when they follow the live session. -/
theorem slotInvariant_acquired (h : t.SlotInvariant)
    (hf : ∀ c, (f c).lastPeerId = some id) :
    ((t.acquireConn now id).1.modify (t.acquireConn now id).2 f).SlotInvariant ↔
      (t.LiveSecondary id → t.live .primary) := by
  unfold acquireConn
  split
  · rename_i hreuse
    rw [slotInvariant_stamp_primary (hf _)]
    refine ⟨fun hno hlive ↦ absurd hlive hno, fun hfollow hlive ↦ ?_⟩
    have hlast : t.conn.lastPeerId ≠ some id := h.1 id hlive
    have hsome : t.conn.lastPeerId ≠ none := h.2 (hfollow hlive)
    simp [reusesPrimary, hlast, hsome, hfollow hlive] at hreuse
  · rename_i hreuse
    have hp : t.live .primary := by
      simp [reusesPrimary] at hreuse
      exact hreuse.2
    have hlast : t.conn.lastPeerId ≠ some id := by
      simp [reusesPrimary] at hreuse
      exact hreuse.1.1
    obtain ⟨t', n, heq, hconn, hsec⟩ := extraEntry_spec t now id
    have ht' : t'.SlotInvariant :=
      ⟨fun a ha ↦ hconn ▸ h.1 a ((hsec a).mp ha), identified_of_conn h.2 hconn⟩
    rw [heq]
    exact iff_of_true (slotInvariant_modify_secondary ht' (hconn ▸ hlast)) fun _ ↦ hp

theorem slotInvariant_installSession (h : t.SlotInvariant) (session : S) :
    (t.installSession now id session).SlotInvariant ↔ (t.LiveSecondary id → t.live .primary) := by
  simp only [installSession, storeSession, storeLastPeerId, bumpGeneration, storeEstablished,
    modify_modify]
  exact slotInvariant_acquired h fun _ ↦ rfl

theorem slotInvariant_setPeerInfo (h : t.SlotInvariant) (addr : SocketAddr) :
    (t.setPeerInfo now id addr).SlotInvariant ↔ (t.LiveSecondary id → t.live .primary) := by
  simp only [setPeerInfo, storePeerAddr, storeLastPeerAddr, storeLastPeerId, pushHistory,
    modify_modify]
  exact slotInvariant_acquired h fun _ ↦ rfl

/-- A refused install leaves at most a fresh entry, on a slot that is not live. -/
theorem slotInvariant_tryInstallSession (h : t.SlotInvariant) (session : S) :
    (t.tryInstallSession now id session).1.SlotInvariant ↔
      (t.LiveSecondary id → t.live .primary) := by
  unfold tryInstallSession
  split
  rename_i t' target heq
  split
  · rename_i hlive
    unfold acquireConn at heq
    split at heq
    · cases heq
      exact iff_of_true h fun _ ↦ hlive
    · rename_i hreuse
      have hp : t.live .primary := by
        simp [reusesPrimary] at hreuse
        exact hreuse.2
      obtain ⟨t₁, n, heq₁, hconn, hsec⟩ := extraEntry_spec t now id
      obtain rfl : t₁ = t' := by simpa using congrArg Prod.fst (heq₁.symm.trans heq)
      exact iff_of_true
        ⟨fun a ha ↦ hconn ▸ h.1 a ((hsec a).mp ha), identified_of_conn h.2 hconn⟩ fun _ ↦ hp
  · simp only [storeSession, storeLastPeerId, bumpGeneration, storeEstablished, modify_modify]
    obtain ⟨rfl, rfl⟩ : (t.acquireConn now id).1 = t' ∧ (t.acquireConn now id).2 = target := by
      simp [heq]
    exact slotInvariant_acquired h fun _ ↦ rfl

theorem connFor_eq_some (h : t.connFor id = some s) :
    (s = .primary ∧ t.conn.lastPeerId = some id) ∨
      ∃ n, s = .secondary id n ∧ t.extra[id]? = some n ∧ t.conn.lastPeerId ≠ some id := by
  unfold connFor at h
  split at h
  · rename_i hlast
    exact .inl ⟨(Option.some.inj h).symm, hlast⟩
  · rename_i hlast
    obtain ⟨n, hn, rfl⟩ := Option.map_eq_some_iff.mp h
    exact .inr ⟨n, rfl, hn, hlast⟩

/-- Calls that resolve their slot by `conn_for` and keep its id keep the invariant. -/
theorem slotInvariant_connFor (h : t.SlotInvariant) (hs : t.connFor id = some s)
    (hf : ∀ c : PeerConn S, c.lastPeerId = some id → (f c).lastPeerId = some id) :
    (t.modify s f).SlotInvariant := by
  rcases connFor_eq_some hs with ⟨rfl, hlast⟩ | ⟨n, rfl, -, hlast⟩
  · exact (slotInvariant_stamp_primary (hf _ hlast)).mpr fun hlive ↦ h.1 id hlive hlast
  · exact slotInvariant_modify_secondary h hlast

theorem slotInvariant_installSessionIfGenerationFor (h : t.SlotInvariant) (session : S)
    (g : UInt64) : (t.installSessionIfGenerationFor now id session g).1.SlotInvariant := by
  unfold installSessionIfGenerationFor
  split
  · exact h
  · rename_i target hs
    split
    · exact h
    · simp only [storeSession, storeLastPeerId, bumpGeneration, storeEstablished, modify_modify]
      exact slotInvariant_connFor h hs fun _ _ ↦ rfl

theorem slotInvariant_dropSession (h : t.SlotInvariant) : t.dropSession.SlotInvariant := by
  simp only [dropSession, storeSession, bumpGeneration, modify_modify]
  refine ⟨fun a ha ↦ ?_, by simp [Identified, live_modify_self]⟩
  rw [conn_modify_primary]
  exact h.1 a (liveSecondary_modify_primary.mp ha)

theorem slotInvariant_dropSessionFor (h : t.SlotInvariant) (id : PeerId) :
    (t.dropSessionFor id).SlotInvariant := by
  unfold dropSessionFor
  split
  · exact h
  · rename_i s hs
    simp only [storeSession, bumpGeneration, modify_modify]
    exact slotInvariant_connFor h hs fun _ h ↦ h

theorem liveSecondary_removeExtra :
    (t.removeExtra id).LiveSecondary a ↔ a ≠ id ∧ t.LiveSecondary a := by
  by_cases ha : id = a
  · simp [LiveSecondary, removeExtra, ha]
  · simp [LiveSecondary, removeExtra, OrderedMap.lookup_erase, live, ha, Ne.symm ha]

theorem slotInvariant_removeExtra (h : t.SlotInvariant) (id : PeerId) :
    (t.removeExtra id).SlotInvariant :=
  ⟨fun a ha ↦ h.1 a (liveSecondary_removeExtra.mp ha).2, h.2⟩

theorem slotInvariant_promoteSecondary (h : t.SlotInvariant) (now : UInt64) :
    (t.promoteSecondary now).1.SlotInvariant := by
  unfold promoteSecondary
  split
  · exact h
  · rename_i t' id n heq
    obtain ⟨e, -, he⟩ := Option.map_eq_some_iff.mp heq
    obtain ⟨rfl, rfl, rfl⟩ : t.removeExtra e.1 = t' ∧ e.1 = id ∧ e.2 = n := by
      simpa only [Prod.mk.injEq] using he
    split
    · exact slotInvariant_removeExtra h _
    · simp only [storeSession, storeLastPeerId, adoptAddr, bumpGeneration, storeEstablished,
        modify_modify]
      refine (slotInvariant_stamp_primary rfl).mpr ?_
      rintro ⟨k, hk, -⟩
      rw [extra_modify] at hk
      simp [removeExtra] at hk

/-- One call keeps the invariant exactly when it follows the live session. -/
theorem slotInvariant_call (h : t.SlotInvariant) (c : UInt64 × Call S) :
    (t.call c.1 c.2).SlotInvariant ↔ t.FollowsLiveSession c := by
  obtain ⟨now, c⟩ := c
  cases c with
  | installSession id session => exact slotInvariant_installSession h session
  | tryInstallSession id session => exact slotInvariant_tryInstallSession h session
  | installSessionIfGenerationFor id session g =>
    exact iff_of_true (slotInvariant_installSessionIfGenerationFor h session g) trivial
  | setPeerInfo id addr => exact slotInvariant_setPeerInfo h addr
  | dropSession => exact iff_of_true (slotInvariant_dropSession h) trivial
  | dropSessionFor id => exact iff_of_true (slotInvariant_dropSessionFor h id) trivial
  | purgePeer id =>
    exact iff_of_true (slotInvariant_removeExtra (slotInvariant_dropSessionFor h id) id) trivial
  | promoteSecondary => exact iff_of_true (slotInvariant_promoteSecondary h now) trivial

theorem acquireConn_conn (t : Transport S) (now : UInt64) (id : PeerId) :
    (t.acquireConn now id).1.conn = t.conn := by
  unfold acquireConn
  split
  · rfl
  · obtain ⟨t', n, heq, hconn, -⟩ := extraEntry_spec t now id
    rw [heq]
    exact hconn

theorem identified_modify (h : t.Identified)
    (hf : ∀ c : PeerConn S, (f c).session.isSome → (f c).lastPeerId = none →
      c.session.isSome ∧ c.lastPeerId = none) : (t.modify s f).Identified := by
  cases s with
  | primary =>
    intro hlive hnone
    rw [conn_modify_primary] at hnone
    rw [live_modify_self] at hlive
    obtain ⟨hlive', hnone'⟩ := hf _ hlive hnone
    exact h hlive' hnone'
  | secondary id n => exact identified_of_conn h conn_modify_secondary

theorem identified_dropSessionFor (h : t.Identified) (id : PeerId) :
    (t.dropSessionFor id).Identified := by
  unfold dropSessionFor
  split
  · exact h
  · simp only [storeSession, bumpGeneration, modify_modify]
    exact identified_modify h (by simp)

theorem identified_promoteSecondary (h : t.Identified) (now : UInt64) :
    (t.promoteSecondary now).1.Identified := by
  unfold promoteSecondary
  split
  · exact h
  · rename_i t' id n heq
    obtain ⟨e, -, he⟩ := Option.map_eq_some_iff.mp heq
    obtain rfl : t.removeExtra e.1 = t' := congrArg Prod.fst he
    split
    · exact h
    · simp only [storeSession, storeLastPeerId, adoptAddr, bumpGeneration, storeEstablished,
        modify_modify]
      exact identified_modify (identified_of_conn h conn_modify_secondary) (by simp)

/-- A live primary slot knows its peer, whatever the calls. -/
theorem identified_call (h : t.Identified) (c : UInt64 × Call S) :
    (t.call c.1 c.2).Identified := by
  obtain ⟨now, c⟩ := c
  have hacquire (id : PeerId) : (t.acquireConn now id).1.Identified :=
    identified_of_conn h (acquireConn_conn t now id)
  cases c with
  | installSession id session =>
    simp only [call, installSession, storeSession, storeLastPeerId, bumpGeneration,
      storeEstablished, modify_modify]
    exact identified_modify (hacquire id) (by simp)
  | tryInstallSession id session =>
    simp only [call, tryInstallSession, storeSession, storeLastPeerId, bumpGeneration,
      storeEstablished, modify_modify]
    split
    · exact hacquire id
    · exact identified_modify (hacquire id) (by simp)
  | installSessionIfGenerationFor id session g =>
    simp only [call, installSessionIfGenerationFor, storeSession, storeLastPeerId,
      bumpGeneration, storeEstablished, modify_modify]
    split
    · exact h
    · split
      · exact h
      · exact identified_modify h (by simp)
  | setPeerInfo id addr =>
    simp only [call, setPeerInfo, storePeerAddr, storeLastPeerAddr, storeLastPeerId, pushHistory,
      modify_modify]
    exact identified_modify (hacquire id) (by simp)
  | dropSession =>
    simp only [call, dropSession, storeSession, bumpGeneration, modify_modify]
    exact identified_modify h (by simp)
  | dropSessionFor id => exact identified_dropSessionFor h id
  | purgePeer id => exact identified_of_conn (identified_dropSessionFor h id) rfl
  | promoteSecondary => exact identified_promoteSecondary h now

theorem identified_run {now₀ : UInt64} {l : List (UInt64 × Call S)}
    (h : Run step Always (new now₀) l t) : t.Identified :=
  h.invariant (by simp [Identified, new, live, PeerConn.new]) fun t c u ht _ hu ↦ by
    obtain rfl : t.call c.1 c.2 = u := Option.some.inj hu
    exact identified_call ht c

theorem slotInvariant_new (now : UInt64) : (new now : Transport S).SlotInvariant := by
  simp [SlotInvariant, Unshadowed, Identified, LiveSecondary, new, live, PeerConn.new]

/-- The slots agree in every state of a run exactly when each of its calls
follows the session its peer already has. -/
theorem slotsAgree_throughout_iff {now₀ : UInt64} {l : List (UInt64 × Call S)}
    (h : Run step Always (new now₀) l t) :
    (∀ l' t', l' <+: l → Run step Always (new now₀) l' t' → t'.SlotsAgree) ↔
      Run step FollowsLiveSession (new now₀) l t := by
  rw [← run_guarded_iff (I := SlotInvariant) (slotInvariant_new now₀) (fun t c u ht hu ↦ ?_) h]
  · refine forall₄_congr fun l' t' _ hr ↦ ?_
    rw [slotsAgree_iff, SlotInvariant, and_iff_left (identified_run hr)]
  · obtain rfl : t.call c.1 c.2 = u := Option.some.inj hu
    exact slotInvariant_call ht c

theorem slotsAgree_throughout_two_peers :
    (∀ l' t', l' <+: [(0, .installSession 1 ()), (0, .tryInstallSession 2 ())] →
      Run step Always (new 0) l' t' → t'.SlotsAgree) ↔
      Run step FollowsLiveSession (new 0) [(0, .installSession 1 ()), (0, .tryInstallSession 2 ())]
        (((new 0).call 0 (.installSession 1 ())).call 0 (.tryInstallSession 2 ())) :=
  slotsAgree_throughout_iff (.snoc (.snoc .nil trivial rfl) trivial rfl)

/-- Two installs, the primary link goes down, and the secondary dials again. -/
def reinstall : List (UInt64 × Call Unit) :=
  [(0, .tryInstallSession 1 ()), (0, .tryInstallSession 2 ()), (0, .dropSession),
    (0, .tryInstallSession 2 ())]

/-- The new session lands in the primary slot, with the old one still linked beside it. -/
theorem reinstall_links_twice :
    ∃ t, Run step Always (new 0) reinstall t ∧ t.linkedPeerIds = [2, 2] ∧ ¬ t.SlotsAgree := by
  refine ⟨_, run_of_foldlM rfl, by decide, fun h ↦ ?_⟩
  exact absurd h.1 (by decide)

/-! ### Roaming histories -/

/-- No roaming history has an address twice. -/
def DistinctHistories (t : Transport S) : Prop := ∀ slot, (t.conns slot).roamingHistory.Nodup

theorem recordAddr_nodup {h : List SocketAddr} (hh : h.Nodup) (addr : SocketAddr) :
    (recordAddr h addr).Nodup := by
  rw [recordAddr]
  split
  case isTrue => exact hh
  case isFalse hmem => exact (List.nodup_cons.mpr ⟨hmem, hh⟩).sublist (List.take_sublist 5 _)

theorem distinctHistories_new : (new now : Transport S).DistinctHistories :=
  fun _ ↦ List.nodup_nil

theorem DistinctHistories.modify (h : t.DistinctHistories)
    (hf : ∀ c, c.roamingHistory.Nodup → (f c).roamingHistory.Nodup) :
    (t.modify s f).DistinctHistories := by
  intro slot
  by_cases hs : slot = s
  · subst hs
    simpa [Transport.modify] using hf _ (h slot)
  · simpa [Transport.modify, hs] using h slot

theorem DistinctHistories.acquireConn (h : t.DistinctHistories) :
    (t.acquireConn now id).1.DistinctHistories := by
  rw [Transport.acquireConn]
  split
  · exact h
  · rw [extraEntry]
    split
    · exact h
    · intro slot
      show (update t.conns _ _ slot).roamingHistory.Nodup
      by_cases hs : slot = .secondary id t.allocated
      · simp [hs, PeerConn.new]
      · simpa [hs] using h slot

/-- Only `push_history` writes a history, and it skips an address that is there. -/
theorem DistinctHistories.call (h : t.DistinctHistories) (c : Call S) :
    (t.call now c).DistinctHistories := by
  have hstore {t : Transport S} {s : Slot} (h : t.DistinctHistories) (x : Option S) :
      (t.storeSession s x).DistinctHistories := h.modify fun _ hc ↦ hc
  have hid {t : Transport S} {s : Slot} (h : t.DistinctHistories) (id : PeerId) :
      (t.storeLastPeerId s id).DistinctHistories := h.modify fun _ hc ↦ hc
  have hbump {t : Transport S} {s : Slot} (h : t.DistinctHistories) :
      (t.bumpGeneration s).DistinctHistories := h.modify fun _ hc ↦ hc
  have hest {t : Transport S} {s : Slot} (h : t.DistinctHistories) :
      (t.storeEstablished s now).DistinctHistories := h.modify fun _ hc ↦ hc
  have hdrop (id : PeerId) : (t.dropSessionFor id).DistinctHistories := by
    rw [dropSessionFor]
    split
    · exact h
    · exact hbump (hstore h none)
  cases c with
  | installSession id session => exact hest (hbump (hid (hstore h.acquireConn (some session)) id))
  | tryInstallSession id session =>
    simp only [Transport.call, tryInstallSession]
    split
    · exact h.acquireConn
    · exact hest (hbump (hid (hstore h.acquireConn (some session)) id))
  | installSessionIfGenerationFor id session g =>
    simp only [Transport.call, installSessionIfGenerationFor]
    split
    · exact h
    · split
      · exact h
      · exact hest (hid (hbump (hstore h (some session))) id)
  | setPeerInfo id addr =>
    have hpush {t : Transport S} {s : Slot} (h : t.DistinctHistories) :
        (t.pushHistory s addr).DistinctHistories := h.modify fun _ hc ↦ recordAddr_nodup hc addr
    have haddr {t : Transport S} {s : Slot} (h : t.DistinctHistories) :
        ((t.storePeerAddr s (some addr)).storeLastPeerAddr s addr).DistinctHistories :=
      DistinctHistories.modify (h.modify fun _ hc ↦ hc) fun _ hc ↦ hc
    exact hpush (hid (haddr h.acquireConn) id)
  | dropSession => exact hbump (hstore h none)
  | dropSessionFor id => exact hdrop id
  | purgePeer id => exact hdrop id
  | promoteSecondary =>
    simp only [Transport.call, promoteSecondary]
    split
    · exact h
    · rename_i t' id n hdetach
      have ht' : t'.DistinctHistories := by
        obtain ⟨e, -, he⟩ := Option.map_eq_some_iff.mp hdetach
        rw [← (Prod.mk.inj he).1]
        exact h
      split
      · exact ht'
      · refine hest (hbump (DistinctHistories.modify ?_ fun _ hc ↦ hc))
        exact hid (hstore (hstore ht' none) _) id

end FluxSync.Transport
