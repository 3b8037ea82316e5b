import FluxSync.Foundation.Runs
import FluxSync.Transport.Sections

namespace FluxSync.Transport

open Std Function Runs

variable {N : Type} {decrypt : N → List UInt8 → N × Option (List UInt8)}
variable {t t' : Transport (Installed N)} {s s' : Calls N} {a : Act N} {pc pc' : Pc N}
  {id X Y : PeerId} {slot : Slot} {now : UInt64}

/-- The id a call has still to write on the primary slot, once it is bound to do so. -/
def Pc.writesId : Pc N → Option PeerId
  | .stampId id .primary _ => some id
  | .setPeerAddr _ id .primary => some id
  | .setLastPeerAddr _ id .primary => some id
  | .setLastPeerId _ id .primary => some id
  | .promoteStampId id _ => some id
  | _ => none

/-- A `recv` that read `X` off the primary slot has still to try the slot's session. -/
def Pc.ReadsAs (X : PeerId) : Pc N → Prop
  | .recvReadExtra _ cur => cur = some X
  | .recvTry _ candidates => (X, .primary) ∈ candidates
  | _ => False

/-- The peer the primary slot's live session was installed for. -/
def tag (t : Transport (Installed N)) : Option PeerId := t.conn.session.map Installed.peer

/-- Every call still to write the primary slot's id writes `Y`. -/
def WritersAgree (s : Calls N) (Y : PeerId) : Prop := ∀ i X, (s.tasks i).writesId = some X → X = Y

/-- Every `recv` still to try the primary slot's session read `Y` off the slot. -/
def ReadersAgree (s : Calls N) (Y : PeerId) : Prop := ∀ i X, (s.tasks i).ReadsAs X → X = Y

/-- `Y` is what the primary slot's id is or is about to become. -/
def SpokenFor (s : Calls N) (Y : PeerId) : Prop :=
  WritersAgree s Y ∧ ((∀ i, (s.tasks i).writesId = none) → s.transport.conn.lastPeerId = some Y)

/-- The peer whose session this lock section puts into the primary slot. -/
def Pc.storesSession (t : Transport (Installed N)) : Pc N → Option PeerId
  | .install _ id .primary => some id
  | .tryInstall _ id .primary => if t.live .primary then none else some id
  | .casInstall _ id .primary g => if t.conn.sessionGeneration = g then some id else none
  | .promoteStore id _ _ => some id
  | _ => none

/-- The peer this lock section takes the session in the primary slot to be of. -/
def Pc.presumes (t : Transport (Installed N)) : Pc N → Option PeerId
  | .acquireReadLive (.setPeerInfo _) id cur =>
    if t.live .primary && reusesPrimary cur true id then some id else none
  | .recvReadId _ => if t.live .primary then t.conn.lastPeerId else none
  | _ => none

/-- A session goes into the primary slot only where no other call is between
the slot and an id of another peer, and a live slot is taken to be of a peer
only where no call is about to write another one's id. -/
def Undisputed (s : Calls N) : Act N → Prop
  | .start _ _ => True
  | .lockSection i _ =>
    (∀ Y, (s.tasks i).storesSession s.transport = some Y → WritersAgree s Y ∧ ReadersAgree s Y) ∧
      ∀ Y, (s.tasks i).presumes s.transport = some Y → SpokenFor s Y

def Admits (id : PeerId) : Slot → Prop
  | .primary => True
  | .secondary id' _ => id' = id

/-- A call touches its own peer's secondary slots only and carries its own peer's session. -/
def Pc.OwnSlots : Pc N → Prop
  | .install _ id slot => Admits id slot
  | .tryInstall _ id slot => Admits id slot
  | .casInstall _ id slot _ => Admits id slot
  | .promoteStore id _ session => session.peer = id
  | .recvTry _ candidates => ∀ c ∈ candidates, Admits c.1 c.2
  | .recvCount r _ _ => r.peerId = r.decryptedBy
  | .recvRoam r _ => r.peerId = r.decryptedBy
  | .recvLastRx r _ => r.peerId = r.decryptedBy
  | _ => True

def SecondariesTagged (t : Transport (Installed N)) : Prop :=
  ∀ id n x, (t.conns (.secondary id n)).session = some x → x.peer = id

structure Attributed (s : Calls N) : Prop where
  secondaries : SecondariesTagged s.transport
  tasks : ∀ i, (s.tasks i).OwnSlots
  primary : ∀ Y, tag s.transport = some Y → SpokenFor s Y ∧ ReadersAgree s Y
  received : ∀ r ∈ s.received, r.peerId = r.decryptedBy

theorem attributed_init (now : UInt64) : Attributed (Calls.init now : Calls N) where
  secondaries := by simp [SecondariesTagged, Calls.init, new, PeerConn.new]
  tasks := fun _ ↦ trivial
  primary := by simp [tag, Calls.init, new, conn, PeerConn.new]
  received := by simp [Calls.init]

variable {f : PeerConn (Installed N) → PeerConn (Installed N)}

theorem secondariesTagged_modify (h : SecondariesTagged t)
    (hf : ∀ x, (f (t.conns slot)).session = some x →
      (t.conns slot).session = some x ∨ Admits x.peer slot) :
    SecondariesTagged (t.modify slot f) := by
  intro id n x hx
  by_cases hs : .secondary id n = slot
  · subst hs
    simp only [modify, update_self] at hx
    rcases hf x hx with hx' | hadm
    · exact h id n x hx'
    · exact hadm.symm
  · simp only [modify, update_of_ne hs] at hx
    exact h id n x hx

theorem secondariesTagged_extraEntry (h : SecondariesTagged t) (now : UInt64) (id : PeerId) :
    SecondariesTagged (t.extraEntry now id).1 ∧ Admits id (t.extraEntry now id).2 := by
  unfold extraEntry
  split
  · exact ⟨h, rfl⟩
  · refine ⟨fun id' n x hx ↦ ?_, rfl⟩
    by_cases hs : Slot.secondary id' n = .secondary id t.allocated
    · simp [hs, PeerConn.new] at hx
    · simp only [update_of_ne hs] at hx
      exact h id' n x hx

theorem Errand.ownSlots_onSlot (e : Errand N) (h : Admits id slot) : (e.onSlot id slot).OwnSlots := by
  cases e with
  | installSession noise => exact h
  | tryInstallSession noise => exact h
  | setPeerInfo addr => trivial

theorem Visit.ownSlots_onSlot (v : Visit N) (h : Admits id slot) : (v.onSlot id slot).OwnSlots := by
  cases v with
  | installSessionIfGenerationFor noise g => exact h
  | dropSessionFor purge => trivial

theorem Visit.ownSlots_unresolved (v : Visit N) : (v.unresolved id).OwnSlots := by
  unfold Visit.unresolved
  split <;> trivial

/-- The `recv` section: where the session opened the datagram, its peer is the candidate's. -/
theorem admits_peer {x : Installed N} (h : SecondariesTagged t) (hadm : Admits id slot)
    (hx : (t.conns slot).session = some x) (hp : slot = .primary → tag t = some id) :
    id = x.peer := by
  cases slot with
  | primary =>
    have htag := hp rfl
    rw [tag, conn, hx] at htag
    exact (Option.some.inj htag).symm
  | secondary id' n =>
    obtain rfl : id' = id := hadm
    exact (h _ n x hx).symm

theorem secondariesTagged_keep (h : SecondariesTagged t) (hf : ∀ c, (f c).session = c.session) :
    SecondariesTagged (t.modify slot f) :=
  secondariesTagged_modify h fun _ hx ↦ .inl (hf _ ▸ hx)

theorem secondariesTagged_clear (h : SecondariesTagged t) :
    SecondariesTagged (t.storeSession slot none) :=
  secondariesTagged_modify h fun _ hx ↦ nomatch hx

theorem secondariesTagged_store {x : Installed N} (h : SecondariesTagged t)
    (hadm : Admits x.peer slot) : SecondariesTagged (t.storeSession slot (some x)) :=
  secondariesTagged_modify h fun _ hy ↦ .inr (Option.some.inj hy ▸ hadm)

theorem session_roam (c : PeerConn (Installed N)) (src : SocketAddr) (now : UInt64) :
    (roam c src now).session = c.session := by
  unfold roam
  split <;> rfl

theorem lastPeerId_roam (c : PeerConn (Installed N)) (src : SocketAddr) (now : UInt64) :
    (roam c src now).lastPeerId = c.lastPeerId := by
  unfold roam
  split <;> rfl

/-- Every lock section keeps sessions in slots of their peers. -/
theorem advance_ownSlots (h : SecondariesTagged t) (hpc : pc.OwnSlots)
    (hread : ∀ X Y, pc.ReadsAs X → tag t = some Y → X = Y) :
    SecondariesTagged (advance decrypt t now pc).1 ∧ (advance decrypt t now pc).2.OwnSlots := by
  cases pc with
  | acquireReadLive e id cur =>
    refine ⟨h, ?_⟩
    simp only [advance]
    split
    · exact e.ownSlots_onSlot trivial
    · trivial
  | acquireExtra e id =>
    obtain ⟨hsec, hadm⟩ := secondariesTagged_extraEntry h now id
    exact ⟨hsec, e.ownSlots_onSlot hadm⟩
  | install noise id slot => exact ⟨secondariesTagged_store h hpc, trivial⟩
  | tryInstall noise id slot =>
    simp only [advance]
    split
    · exact ⟨h, trivial⟩
    · exact ⟨secondariesTagged_store h hpc, trivial⟩
  | stampId id slot bumps =>
    simp only [advance, storeLastPeerId]
    refine ⟨secondariesTagged_keep h fun _ ↦ rfl, ?_⟩
    split <;> trivial
  | connForReadId v id =>
    refine ⟨h, ?_⟩
    simp only [advance]
    split
    · exact v.ownSlots_onSlot trivial
    · trivial
  | connForExtra v id =>
    refine ⟨h, ?_⟩
    simp only [advance]
    split
    · exact v.ownSlots_onSlot rfl
    · exact v.ownSlots_unresolved
  | casInstall noise id slot g =>
    simp only [advance, bumpGeneration, storeSession, modify_modify]
    split
    · exact ⟨h, trivial⟩
    · exact ⟨secondariesTagged_modify h fun x hx ↦ .inr (Option.some.inj hx ▸ hpc), trivial⟩
  | dropStore slot purge => exact ⟨secondariesTagged_clear h, trivial⟩
  | dropBump slot purge =>
    simp only [advance, bumpGeneration]
    refine ⟨secondariesTagged_keep h fun _ ↦ rfl, ?_⟩
    split <;> trivial
  | promoteDetach =>
    simp only [advance, detachSecondary]
    cases t.liveSecondaries.head? with
    | none => exact ⟨h, trivial⟩
    | some e => exact ⟨h, trivial⟩
  | promoteTake id n =>
    simp only [advance]
    split
    · rename_i x hx
      exact ⟨secondariesTagged_clear h, h id n x hx⟩
    · exact ⟨h, trivial⟩
  | promoteStore id n session => exact ⟨secondariesTagged_store h trivial, trivial⟩
  | promoteStoreAddr id n addr =>
    simp only [advance, storePeerAddr]
    refine ⟨secondariesTagged_keep h fun _ ↦ rfl, ?_⟩
    split <;> trivial
  | recvReadExtra d cur =>
    refine ⟨h, fun c hc ↦ ?_⟩
    rcases List.mem_append.mp hc with hc | hc
    · obtain ⟨id, -, rfl⟩ := List.mem_map.mp hc
      trivial
    · obtain ⟨e, -, rfl⟩ := List.mem_map.mp hc
      rfl
  | recvTry d candidates =>
    cases candidates with
    | nil => exact ⟨h, trivial⟩
    | cons c rest =>
      obtain ⟨id, slot⟩ := c
      have hadm : Admits id slot := hpc (id, slot) List.mem_cons_self
      have hrest : (Pc.recvTry d rest : Pc N).OwnSlots := fun c hc ↦
        hpc c (List.mem_cons_of_mem _ hc)
      simp only [advance]
      split
      · exact ⟨h, hrest⟩
      · rename_i x hx
        have hid : id = x.peer := by
          refine admits_peer h hadm hx fun hslot ↦ ?_
          subst hslot
          have htag : tag t = some x.peer := by rw [tag, conn, hx, Option.map_some]
          rw [htag, hread id x.peer List.mem_cons_self htag]
        refine ⟨secondariesTagged_store h (hid ▸ hadm), ?_⟩
        dsimp only
        split
        · exact hid
        · exact hrest
  | recvCount r slot len =>
    simp only [advance]
    exact ⟨secondariesTagged_keep h fun _ ↦ rfl, hpc⟩
  | recvRoam r slot =>
    simp only [advance]
    exact ⟨secondariesTagged_keep h fun c ↦ session_roam c r.src now, hpc⟩
  | idle | acquireReadId | removeExtra | promoteReadAddr | recvReadId => exact ⟨h, trivial⟩
  | setPeerAddr | setLastPeerAddr | setLastPeerId | pushHistory | bumpGeneration | storeEstablished
  | promoteStampId | promoteStoreLastAddr | promoteLastRx | recvLastRx =>
    simp only [advance, storePeerAddr, storeLastPeerAddr, storeLastPeerId, Transport.pushHistory,
      Transport.bumpGeneration, Transport.storeEstablished]
    exact ⟨secondariesTagged_keep h fun _ ↦ rfl, trivial⟩

/-- What one lock section can do to the primary slot and to its call's hold on it. -/
inductive PrimaryEffect (t t' : Transport (Installed N)) (pc pc' : Pc N) : Prop
  | quiet (session : tag t' = tag t) (id : t'.conn.lastPeerId = t.conn.lastPeerId)
      (writes : pc'.writesId = pc.writesId) (reads : ∀ X, pc'.ReadsAs X → pc.ReadsAs X)
  | dead (session : tag t' = none)
  | stored (Y : PeerId) (stores : pc.storesSession t = some Y) (session : tag t' = some Y)
      (writes : pc'.writesId = some Y) (reads : ∀ X, ¬ pc'.ReadsAs X)
  | stamped (Y : PeerId) (wrote : pc.writesId = some Y) (session : tag t' = tag t)
      (id : t'.conn.lastPeerId = some Y) (writes : pc'.writesId = none)
      (reads : ∀ X, ¬ pc'.ReadsAs X)
  | presumed (Y : PeerId) (presumes : pc.presumes t = some Y) (session : tag t' = tag t)
      (id : t'.conn.lastPeerId = t.conn.lastPeerId) (wrote : pc.writesId = none)
      (writes : ∀ X, pc'.writesId = some X → X = Y) (reads : ∀ X, pc'.ReadsAs X → X = Y)

theorem tag_eq_none : tag t = none ↔ t.live .primary = false := by
  simp [tag, live, conn]

theorem Errand.not_readsAs_onSlot (e : Errand N) : ¬ (e.onSlot id slot).ReadsAs X := by
  cases e <;> exact not_false

theorem Visit.not_readsAs_onSlot (v : Visit N) : ¬ (v.onSlot id slot).ReadsAs X := by
  cases v <;> exact not_false

theorem Visit.writesId_onSlot (v : Visit N) : (v.onSlot id slot).writesId = none := by
  cases v <;> rfl

theorem Errand.writesId_onSlot_secondary (e : Errand N) {n : ℕ} :
    (e.onSlot id (.secondary id n)).writesId = none := by
  cases e <;> rfl

/-- A section that leaves sessions and ids alone. -/
theorem PrimaryEffect.keep (hf : ∀ c, (f c).session = c.session)
    (hid : ∀ c, (f c).lastPeerId = c.lastPeerId) (hw : pc'.writesId = pc.writesId)
    (hr : ∀ X, pc'.ReadsAs X → pc.ReadsAs X) : PrimaryEffect t (t.modify slot f) pc pc' := by
  cases slot with
  | primary =>
    refine .quiet ?_ ?_ hw hr
    · rw [tag, conn_modify_primary, hf, tag]
    · rw [conn_modify_primary, hid]
  | secondary id n =>
    refine .quiet ?_ ?_ hw hr
    · rw [tag, conn_modify_secondary, tag]
    · rw [conn_modify_secondary]

/-- A section on a secondary slot. -/
theorem PrimaryEffect.secondary {n : ℕ} (hw : pc'.writesId = pc.writesId)
    (hr : ∀ X, pc'.ReadsAs X → pc.ReadsAs X) :
    PrimaryEffect t (t.modify (.secondary id n) f) pc pc' := by
  refine .quiet ?_ ?_ hw hr
  · rw [tag, conn_modify_secondary, tag]
  · rw [conn_modify_secondary]

theorem extraEntry_primary (t : Transport (Installed N)) (now : UInt64) (id : PeerId) :
    (t.extraEntry now id).1.conn = t.conn ∧ ∃ n, (t.extraEntry now id).2 = .secondary id n := by
  unfold extraEntry
  split
  · exact ⟨rfl, _, rfl⟩
  · exact ⟨by simp [conn], _, rfl⟩

theorem PrimaryEffect.unchanged (hw : pc'.writesId = pc.writesId)
    (hr : ∀ X, pc'.ReadsAs X → pc.ReadsAs X) : PrimaryEffect t t pc pc' :=
  .quiet rfl rfl hw hr

theorem PrimaryEffect.idStamped {id : PeerId} (hw : slot = .primary → pc.writesId = some id)
    (hw' : slot ≠ .primary → pc.writesId = none) (hnone : pc'.writesId = none)
    (hr : ∀ X, ¬ pc'.ReadsAs X) : PrimaryEffect t (t.storeLastPeerId slot id) pc pc' := by
  cases slot with
  | primary =>
    refine .stamped id (hw rfl) ?_ ?_ hnone hr
    · rw [storeLastPeerId, tag, conn_modify_primary, tag]
    · rw [storeLastPeerId, conn_modify_primary]
  | secondary id' n =>
    exact .secondary (hnone.trans (hw' (by simp)).symm) fun X hX ↦ absurd hX (hr X)

theorem advance_primary (hpc : pc.OwnSlots) :
    PrimaryEffect t (advance decrypt t now pc).1 pc (advance decrypt t now pc).2 := by
  cases pc with
  | idle => exact .unchanged rfl fun _ h ↦ h
  | acquireReadId e id => exact .unchanged rfl fun _ h ↦ h
  | acquireReadLive e id cur =>
    simp only [advance]
    cases hlive : t.live .primary with
    | false => exact .dead (tag_eq_none.mpr hlive)
    | true =>
      cases e with
      | installSession noise => split <;> exact .unchanged rfl fun _ h ↦ h
      | tryInstallSession noise => split <;> exact .unchanged rfl fun _ h ↦ h
      | setPeerInfo addr =>
        split
        · rename_i hreuse
          refine .presumed id ?_ rfl rfl rfl (fun X hX ↦ (Option.some.inj hX).symm) fun _ h ↦ nomatch h
          simp [Pc.presumes, hlive, hreuse]
        · exact .unchanged rfl fun _ h ↦ h
  | acquireExtra e id =>
    obtain ⟨hconn, n, hslot⟩ := extraEntry_primary t now id
    refine .quiet ?_ ?_ ?_ fun X hX ↦ absurd hX e.not_readsAs_onSlot
    · simp only [advance, tag, hconn]
    · simp only [advance, hconn]
    · simp only [advance, hslot]
      exact e.writesId_onSlot_secondary
  | install noise id slot =>
    cases slot with
    | primary =>
      refine .stored id rfl ?_ rfl fun _ h ↦ h
      simp only [advance, storeSession, tag, conn_modify_primary, Option.map_some]
    | secondary id' n =>
      simp only [advance, storeSession]
      exact .secondary rfl fun _ h ↦ h
  | tryInstall noise id slot =>
    simp only [advance]
    split
    · cases slot <;> exact .unchanged rfl fun _ h ↦ h
    · rename_i hlive
      cases slot with
      | primary =>
        refine .stored id (by simp [Pc.storesSession, hlive]) ?_ rfl fun _ h ↦ h
        simp only [storeSession, tag, conn_modify_primary, Option.map_some]
      | secondary id' n =>
        simp only [storeSession]
        exact .secondary rfl fun _ h ↦ h
  | setPeerAddr addr id slot =>
    simp only [advance, storePeerAddr]
    exact .keep (fun _ ↦ rfl) (fun _ ↦ rfl) (by cases slot <;> rfl) fun _ h ↦ h
  | setLastPeerAddr addr id slot =>
    simp only [advance, storeLastPeerAddr]
    exact .keep (fun _ ↦ rfl) (fun _ ↦ rfl) (by cases slot <;> rfl) fun _ h ↦ h
  | setLastPeerId addr id slot =>
    refine .idStamped (fun hs ↦ hs ▸ rfl) (fun hs ↦ ?_) rfl fun _ h ↦ h
    cases slot with
    | primary => exact absurd rfl hs
    | secondary => rfl
  | pushHistory addr slot =>
    simp only [advance, Transport.pushHistory]
    exact .keep (fun _ ↦ rfl) (fun _ ↦ rfl) rfl fun _ h ↦ h
  | stampId id slot bumps =>
    refine .idStamped (fun hs ↦ hs ▸ rfl) (fun hs ↦ ?_) ?_ fun _ h ↦ ?_
    · cases slot with
      | primary => exact absurd rfl hs
      | secondary => rfl
    · cases bumps <;> rfl
    · cases bumps <;> exact h
  | bumpGeneration slot =>
    simp only [advance, Transport.bumpGeneration]
    exact .keep (fun _ ↦ rfl) (fun _ ↦ rfl) rfl fun _ h ↦ h
  | storeEstablished slot =>
    simp only [advance, Transport.storeEstablished]
    exact .keep (fun _ ↦ rfl) (fun _ ↦ rfl) rfl fun _ h ↦ h
  | connForReadId v id =>
    simp only [advance]
    split
    · exact .unchanged v.writesId_onSlot fun X hX ↦ absurd hX v.not_readsAs_onSlot
    · exact .unchanged rfl fun _ h ↦ h
  | connForExtra v id =>
    simp only [advance]
    split
    · exact .unchanged v.writesId_onSlot fun X hX ↦ absurd hX v.not_readsAs_onSlot
    · unfold Visit.unresolved
      split <;> exact .unchanged rfl fun _ h ↦ h
  | casInstall noise id slot g =>
    simp only [advance]
    split
    · cases slot <;> exact .unchanged rfl fun _ h ↦ h
    · rename_i hg
      simp only [bumpGeneration, storeSession, modify_modify]
      cases slot with
      | primary =>
        refine .stored id (if_pos (not_not.mp hg)) ?_ rfl fun _ h ↦ h
        rw [tag, conn_modify_primary]
        rfl
      | secondary id' n => exact .secondary rfl fun _ h ↦ h
  | dropStore slot purge =>
    cases slot with
    | primary => exact .dead (by simp [advance, storeSession, tag, conn_modify_primary])
    | secondary id n =>
      simp only [advance, storeSession]
      exact .secondary rfl fun _ h ↦ h
  | dropBump slot purge =>
    simp only [advance, Transport.bumpGeneration]
    cases purge <;> exact .keep (fun _ ↦ rfl) (fun _ ↦ rfl) rfl fun _ h ↦ h
  | removeExtra id => exact .quiet rfl rfl rfl fun _ h ↦ h
  | promoteDetach =>
    simp only [advance, detachSecondary]
    cases t.liveSecondaries.head? with
    | none => exact .unchanged rfl fun _ h ↦ h
    | some e => exact .quiet rfl rfl rfl fun _ h ↦ h
  | promoteTake id n =>
    simp only [advance]
    split
    · simp only [storeSession]
      exact .secondary rfl fun _ h ↦ h
    · exact .unchanged rfl fun _ h ↦ h
  | promoteStore id n session =>
    obtain rfl : session.peer = id := hpc
    refine .stored session.peer rfl ?_ rfl fun _ h ↦ h
    simp only [advance, storeSession, tag, conn_modify_primary, Option.map_some]
  | promoteStampId id n => exact .idStamped (fun _ ↦ rfl) (fun hs ↦ absurd rfl hs) rfl fun _ h ↦ h
  | promoteReadAddr id n => exact .unchanged rfl fun _ h ↦ h
  | promoteStoreAddr id n addr =>
    simp only [advance, storePeerAddr]
    cases addr <;> exact .keep (fun _ ↦ rfl) (fun _ ↦ rfl) rfl fun _ h ↦ h
  | promoteStoreLastAddr id n addr =>
    simp only [advance, storeLastPeerAddr]
    exact .keep (fun _ ↦ rfl) (fun _ ↦ rfl) rfl fun _ h ↦ h
  | promoteLastRx id n =>
    simp only [advance]
    exact .keep (fun _ ↦ rfl) (fun _ ↦ rfl) rfl fun _ h ↦ h
  | recvReadId d =>
    cases hlive : t.live .primary with
    | false => exact .dead (tag_eq_none.mpr hlive)
    | true =>
      cases hid : t.conn.lastPeerId with
      | none =>
        refine .unchanged rfl fun X hX ↦ ?_
        rw [advance, Pc.ReadsAs, hid] at hX
        exact nomatch hX
      | some Y =>
        refine .presumed Y (by simp [Pc.presumes, hlive, hid]) rfl rfl rfl (fun _ h ↦ nomatch h)
          fun X hX ↦ ?_
        rw [advance, Pc.ReadsAs, hid] at hX
        exact (Option.some.inj hX).symm
  | recvReadExtra d cur =>
    refine .unchanged rfl fun X hX ↦ ?_
    rcases List.mem_append.mp hX with hX | hX
    · obtain ⟨id, hid, heq⟩ := List.mem_map.mp hX
      obtain rfl : id = X := congrArg Prod.fst heq
      exact Option.mem_toList.mp hid
    · obtain ⟨e, -, heq⟩ := List.mem_map.mp hX
      exact nomatch congrArg Prod.snd heq
  | recvTry d candidates =>
    cases candidates with
    | nil => exact .unchanged rfl fun _ h ↦ nomatch h
    | cons c rest =>
      obtain ⟨id, slot⟩ := c
      simp only [advance]
      split
      · exact .unchanged rfl fun _ h ↦ List.mem_cons_of_mem _ h
      · rename_i x hx
        have hstore (pc' : Pc N) (hw : pc'.writesId = none)
            (hr : ∀ X, pc'.ReadsAs X → (Pc.recvTry d ((id, slot) :: rest) : Pc N).ReadsAs X) :
            PrimaryEffect t (t.storeSession slot (some ⟨x.peer, (decrypt x.noise d.body).1⟩))
              (.recvTry d ((id, slot) :: rest)) pc' := by
          simp only [storeSession]
          cases slot with
          | primary =>
            refine .quiet ?_ ?_ hw hr
            · rw [tag, conn_modify_primary, tag, conn, hx]
              rfl
            · rw [conn_modify_primary]
          | secondary id' n => exact .secondary hw hr
        cases (decrypt x.noise d.body).2 with
        | none => exact hstore _ rfl fun _ h ↦ List.mem_cons_of_mem _ h
        | some plaintext => exact hstore _ rfl fun _ h ↦ False.elim h
  | recvCount r slot len =>
    simp only [advance]
    exact .keep (fun _ ↦ rfl) (fun _ ↦ rfl) rfl fun _ h ↦ h
  | recvRoam r slot =>
    simp only [advance]
    exact .keep (fun c ↦ session_roam c r.src now) (fun c ↦ lastPeerId_roam c r.src now) rfl fun _ h ↦ h
  | recvLastRx r slot =>
    simp only [advance]
    exact .keep (fun _ ↦ rfl) (fun _ ↦ rfl) rfl fun _ h ↦ h

theorem step_start {i : ℕ} {op : Op N} (h : s.step decrypt (.start i op) = some s') :
    s.tasks i = .idle ∧ s' = { s with tasks := update s.tasks i op.entry } := by
  simp only [Calls.step] at h
  split at h
  · rename_i hidle
    exact ⟨hidle, (Option.some.inj h).symm⟩
  · exact nomatch h

theorem step_lockSection {i : ℕ} (h : s.step decrypt (.lockSection i now) = some s') :
    s' =
      { transport := (advance decrypt s.transport now (s.tasks i)).1
        tasks := update s.tasks i (advance decrypt s.transport now (s.tasks i)).2
        received := s.received ++ (returned (s.tasks i)).toList } := by
  simp only [Calls.step] at h
  split at h
  · exact nomatch h
  · exact (Option.some.inj h).symm

theorem Op.ownSlots_entry (op : Op N) : op.entry.OwnSlots := by
  cases op <;> trivial

theorem Op.writesId_entry (op : Op N) : op.entry.writesId = none := by
  cases op <;> rfl

theorem Op.not_readsAs_entry (op : Op N) : ¬ op.entry.ReadsAs X := by
  cases op <;> exact not_false

theorem returned_ownSlots {r : Received} (hpc : pc.OwnSlots) (hr : returned pc = some r) :
    r.peerId = r.decryptedBy := by
  cases pc with
  | recvLastRx r' slot =>
    obtain rfl : r' = r := Option.some.inj hr
    exact hpc
  | _ => exact nomatch hr

/-- A property of all tasks after task `i` has moved to `pc'`. -/
theorem forall_update {P : Pc N → Prop} {tasks : ℕ → Pc N} {i : ℕ} (hi : P pc')
    (h : ∀ j, j ≠ i → P (tasks j)) (j : ℕ) : P (update tasks i pc' j) := by
  by_cases hj : j = i
  · subst hj
    rwa [update_self]
  · rw [update_of_ne hj]
    exact h j hj

theorem writersAgree_update {i : ℕ} {r : List Received} (h : WritersAgree s Y)
    (hi : ∀ X, pc'.writesId = some X → X = Y) :
    WritersAgree ⟨t', update s.tasks i pc', r⟩ Y :=
  forall_update (P := fun pc ↦ ∀ X, pc.writesId = some X → X = Y) hi fun j _ ↦ h j

theorem readersAgree_update {i : ℕ} {r : List Received} (h : ReadersAgree s Y)
    (hi : ∀ X, pc'.ReadsAs X → X = Y) : ReadersAgree ⟨t', update s.tasks i pc', r⟩ Y :=
  forall_update (P := fun pc ↦ ∀ X, pc.ReadsAs X → X = Y) hi fun j _ ↦ h j

/-- The primary slot's session stays undisputed under every effect a section can have. -/
theorem primary_of_effect {i : ℕ} {r : List Received}
    (h : ∀ Y, tag s.transport = some Y → SpokenFor s Y ∧ ReadersAgree s Y)
    (heff : PrimaryEffect s.transport t' (s.tasks i) pc')
    (hstore : ∀ Y, (s.tasks i).storesSession s.transport = some Y →
      WritersAgree s Y ∧ ReadersAgree s Y)
    (hpresume : ∀ Y, (s.tasks i).presumes s.transport = some Y → SpokenFor s Y)
    (Y : PeerId) (hY : tag t' = some Y) :
    SpokenFor ⟨t', update s.tasks i pc', r⟩ Y ∧ ReadersAgree ⟨t', update s.tasks i pc', r⟩ Y := by
  cases heff with
  | quiet session id writes reads =>
    obtain ⟨⟨hwriters, hlast⟩, hreaders⟩ := h Y (session ▸ hY)
    refine ⟨⟨?_, fun hall ↦ ?_⟩, ?_⟩
    · exact writersAgree_update hwriters fun X hX ↦ hwriters i X (writes ▸ hX)
    · rw [id]
      refine hlast fun j ↦ ?_
      by_cases hj : j = i
      · subst hj
        simpa [writes] using hall j
      · simpa [hj] using hall j
    · exact readersAgree_update hreaders fun X hX ↦ hreaders i X (reads X hX)
  | dead session => simp [session] at hY
  | stored Y' stores session writes reads =>
    obtain rfl : Y' = Y := Option.some.inj (session.symm.trans hY)
    obtain ⟨hwriters, hreaders⟩ := hstore Y' stores
    refine ⟨⟨?_, fun hall ↦ ?_⟩, ?_⟩
    · exact writersAgree_update hwriters fun X hX ↦ Option.some.inj (hX.symm.trans writes)
    · simpa [writes] using hall i
    · exact readersAgree_update hreaders fun X hX ↦ absurd hX (reads X)
  | stamped Y' wrote session id writes reads =>
    obtain ⟨⟨hwriters, -⟩, hreaders⟩ := h Y (session ▸ hY)
    obtain rfl : Y' = Y := hwriters i Y' wrote
    refine ⟨⟨?_, fun _ ↦ id⟩, ?_⟩
    · exact writersAgree_update hwriters fun X hX ↦ by simp [writes] at hX
    · exact readersAgree_update hreaders fun X hX ↦ absurd hX (reads X)
  | presumed Y' presumes session id wrote writes reads =>
    obtain ⟨⟨hwriters, hlast⟩, hreaders⟩ := h Y (session ▸ hY)
    have hY' : Y' = Y := by
      obtain ⟨hwriters', hlast'⟩ := hpresume Y' presumes
      by_cases hall : ∀ j, (s.tasks j).writesId = none
      · exact Option.some.inj ((hlast' hall).symm.trans (hlast hall))
      · obtain ⟨j, hj⟩ := not_forall.mp hall
        obtain ⟨X, hX⟩ := Option.ne_none_iff_exists'.mp hj
        exact (hwriters' j X hX).symm.trans (hwriters j X hX)
    subst hY'
    refine ⟨⟨?_, fun hall ↦ ?_⟩, ?_⟩
    · exact writersAgree_update hwriters writes
    · rw [id]
      refine hlast fun j ↦ ?_
      by_cases hj : j = i
      · subst hj
        exact wrote
      · simpa [hj] using hall j
    · exact readersAgree_update hreaders reads

theorem attributed_step (h : Attributed s) (hok : Undisputed s a) (hs : s.step decrypt a = some s') :
    Attributed s' := by
  cases a with
  | start i op =>
    obtain ⟨hidle, rfl⟩ := step_start hs
    refine ⟨h.secondaries, forall_update op.ownSlots_entry fun j _ ↦ h.tasks j, ?_, h.received⟩
    refine primary_of_effect h.primary (.unchanged ?_ fun X hX ↦ absurd hX op.not_readsAs_entry)
      (fun Y hY ↦ ?_) (fun Y hY ↦ ?_)
    · rw [op.writesId_entry, hidle]
      rfl
    · simp [hidle, Pc.storesSession] at hY
    · simp [hidle, Pc.presumes] at hY
  | lockSection i now =>
    obtain rfl := step_lockSection hs
    have hread (X Y : PeerId) (hX : (s.tasks i).ReadsAs X) (hY : tag s.transport = some Y) : X = Y :=
      (h.primary Y hY).2 i X hX
    have ⟨hsec, hown⟩ : SecondariesTagged (advance decrypt s.transport now (s.tasks i)).1 ∧
        (advance decrypt s.transport now (s.tasks i)).2.OwnSlots :=
      advance_ownSlots h.secondaries (h.tasks i) hread
    refine ⟨hsec, forall_update hown fun j _ ↦ h.tasks j, ?_, fun r hr ↦ ?_⟩
    · exact primary_of_effect h.primary (advance_primary (h.tasks i)) hok.1 hok.2
    · rcases List.mem_append.mp hr with hr | hr
      · exact h.received r hr
      · exact returned_ownSlots (h.tasks i) (Option.mem_toList.mp hr)

/-- In a run whose steps leave the primary slot undisputed, every plaintext is
labelled with the peer whose session decrypted it. -/
theorem received_attributed {now₀ : UInt64} {l : List (Act N)}
    (h : Run (Calls.step decrypt) Undisputed (.init now₀) l s) :
    ∀ r ∈ s.received, r.peerId = r.decryptedBy :=
  (h.invariant (attributed_init now₀) fun _ _ _ hs hok hstep ↦ attributed_step hs hok hstep).received

def Act.task : Act N → ℕ
  | .start i _ => i
  | .lockSection i _ => i

theorem undisputed_alone {i : ℕ} (hidle : ∀ j, j ≠ i → s.tasks j = .idle)
    (hpresume : ∀ Y, (s.tasks i).presumes s.transport = some Y →
      s.transport.conn.lastPeerId = some Y) : Undisputed s (.lockSection i now) := by
  have hagree (hw : (s.tasks i).writesId = none) (Y : PeerId) : WritersAgree s Y := by
    intro j X hX
    by_cases hj : j = i
    · simp [hj, hw] at hX
    · simp [hidle j hj, Pc.writesId] at hX
  refine ⟨fun Y hY ↦ ⟨hagree ?_ Y, fun j X hX ↦ ?_⟩, fun Y hY ↦ ⟨hagree ?_ Y, fun _ ↦ hpresume Y hY⟩⟩
  · unfold Pc.storesSession at hY
    split at hY <;> simp_all [Pc.writesId]
  · by_cases hj : j = i
    · subst hj
      unfold Pc.storesSession at hY
      split at hY <;> simp_all [Pc.ReadsAs]
    · simp [hidle j hj, Pc.ReadsAs] at hX
  · unfold Pc.presumes at hY
    split at hY <;> simp_all [Pc.writesId]

/-- What holds while one task makes all the calls. -/
structure Alone (s : Calls N) (i : ℕ) : Prop where
  attributed : Attributed s
  others : ∀ j, j ≠ i → s.tasks j = .idle
  current : ∀ e id cur, s.tasks i = .acquireReadLive e id cur → cur = s.transport.conn.lastPeerId

/-- With one task making the calls, a live primary slot's id is its session's. -/
theorem Alone.lastPeerId {i : ℕ} (h : Alone s i) (hw : (s.tasks i).writesId = none)
    (hlive : s.transport.live .primary) :
    ∃ Y, s.transport.conn.lastPeerId = some Y := by
  obtain ⟨Y, hY⟩ : ∃ Y, tag s.transport = some Y := by
    refine Option.ne_none_iff_exists'.mp fun hnone ↦ ?_
    rw [tag_eq_none.mp hnone] at hlive
    exact nomatch hlive
  refine ⟨Y, (h.attributed.primary Y hY).1.2 fun j ↦ ?_⟩
  by_cases hj : j = i
  · rw [hj, hw]
  · rw [h.others j hj]
    rfl

theorem Alone.presumes {i : ℕ} (h : Alone s i) (hY : (s.tasks i).presumes s.transport = some Y) :
    s.transport.conn.lastPeerId = some Y := by
  unfold Pc.presumes at hY
  split at hY
  · rename_i addr id cur hpc
    split at hY
    · rename_i hreuse
      obtain rfl := Option.some.inj hY
      rw [h.current _ _ _ hpc, Bool.and_eq_true] at hreuse
      obtain ⟨X, hX⟩ := h.lastPeerId (by rw [hpc]; rfl) hreuse.1
      simpa [reusesPrimary, hX] using hreuse.2
    · exact nomatch hY
  · split at hY
    · exact hY
    · exact nomatch hY
  · exact nomatch hY

theorem Alone.undisputed {i : ℕ} (h : Alone s i) (ha : a.task = i) : Undisputed s a := by
  cases a with
  | start j op => trivial
  | lockSection j now =>
    obtain rfl : j = i := ha
    exact undisputed_alone h.others fun Y ↦ h.presumes

/-- Only `acquire_conn`'s first section leads to its second one. -/
theorem advance_acquireReadLive {e : Errand N} {cur : Option PeerId}
    (h : (advance decrypt t now pc).2 = .acquireReadLive e id cur) :
    cur = (advance decrypt t now pc).1.conn.lastPeerId := by
  cases pc with
  | acquireReadId e' id' => exact (Pc.acquireReadLive.inj h).2.2.symm
  | acquireReadLive e' id' cur' =>
    simp only [advance] at h
    split at h
    · cases e' <;> exact nomatch h
    · exact nomatch h
  | acquireExtra e' id' => cases e' <;> exact nomatch h
  | connForReadId v id' =>
    simp only [advance] at h
    split at h
    · cases v <;> exact nomatch h
    · exact nomatch h
  | connForExtra v id' =>
    simp only [advance] at h
    split at h
    · cases v <;> exact nomatch h
    · unfold Visit.unresolved at h
      split at h <;> exact nomatch h
  | recvTry d candidates =>
    cases candidates with
    | nil => exact nomatch h
    | cons c rest =>
      simp only [advance] at h
      repeat' split at h
      all_goals simp at h
  | _ =>
    simp only [advance] at h
    repeat' split at h
    all_goals simp at h

theorem Alone.step {i : ℕ} (h : Alone s i) (ha : a.task = i) (hs : s.step decrypt a = some s') :
    Alone s' i := by
  have hattr := attributed_step h.attributed (h.undisputed ha) hs
  cases a with
  | start j op =>
    obtain rfl : j = i := ha
    obtain ⟨-, rfl⟩ := step_start hs
    refine ⟨hattr, fun k hk ↦ ?_, fun e id cur hpc ↦ ?_⟩
    · simpa [hk] using h.others k hk
    · cases op <;> simp [Op.entry] at hpc
  | lockSection j now =>
    obtain rfl : j = i := ha
    obtain rfl := step_lockSection hs
    refine ⟨hattr, fun k hk ↦ ?_, fun e id cur hpc ↦ ?_⟩
    · simpa [hk] using h.others k hk
    · have hpc' : (advance decrypt s.transport now (s.tasks j)).2 = .acquireReadLive e id cur := by
        simpa using hpc
      exact advance_acquireReadLive hpc'

theorem alone_run {now₀ : UInt64} {i : ℕ} {l : List (Act N)}
    (h : Run (Calls.step decrypt) (fun _ a ↦ a.task = i) (.init now₀) l s) :
    Alone s i ∧ Run (Calls.step decrypt) Undisputed (.init now₀) l s := by
  induction h with
  | nil => exact ⟨⟨attributed_init now₀, fun _ _ ↦ rfl, fun _ _ _ hpc ↦ nomatch hpc⟩, .nil⟩
  | snoc _ ha hstep ih => exact ⟨ih.1.step ha hstep, .snoc ih.2 (ih.1.undisputed ha) hstep⟩

/-- A toy cipher: a datagram opens under the key it starts with. -/
def openWith (key : UInt8) : List UInt8 → UInt8 × Option (List UInt8)
  | b :: rest => (key, if b = key then some rest else none)
  | [] => (key, none)

def exampleAddr : SocketAddr := .v4 0xc0a80102 48000

def callBy (i : ℕ) (op : Op UInt8) (sections : ℕ) : List (Act UInt8) :=
  .start i op :: List.replicate sections (.lockSection i 0)

def installThenRecv : List (Act UInt8) :=
  callBy 0 (.acquire (.tryInstallSession 10) 1) 6 ++ callBy 0 (.recv exampleAddr [10, 7]) 6

theorem received_attributed_installThenRecv :
    ∃ s, Run (Calls.step openWith) Undisputed (.init 0) installThenRecv s ∧
      s.received ≠ [] ∧ ∀ r ∈ s.received, r.peerId = r.decryptedBy := by
  have hrun : Run (Calls.step openWith) Always (.init 0) installThenRecv _ := run_of_foldlM rfl
  have hundisputed := (alone_run (hrun.labels (p := fun a ↦ a.task = 0) (by decide))).2
  exact ⟨_, hundisputed, by decide, received_attributed hundisputed⟩

/-- The session of peer 1 goes down and peer 2 takes over the primary slot
while a `recv` that read the slot's id has still to try its session. -/
def staleLabel : List (Act UInt8) :=
  callBy 0 (.acquire (.tryInstallSession 10) 1) 6 ++ callBy 1 (.recv exampleAddr [20, 7]) 1 ++
    callBy 2 .dropSession 2 ++ callBy 3 (.acquire (.tryInstallSession 20) 2) 6 ++
    List.replicate 5 (.lockSection 1 0)

theorem staleLabel_misattributes :
    ∃ s, Run (Calls.step openWith) Always (.init 0) staleLabel s ∧
      s.received = [⟨exampleAddr, 1, [7], 2⟩] ∧ ¬ ∀ r ∈ s.received, r.peerId = r.decryptedBy :=
  ⟨_, run_of_foldlM rfl, rfl, by decide⟩

end FluxSync.Transport
