import FluxSync.Transport.Slots

namespace FluxSync.Transport

open Std

variable {S : Type} {t : Transport S} {s : Slot} {c : Call S} {f : PeerConn S → PeerConn S}
  {p q : PeerId} {n : ℕ} {now : UInt64}

/-- The peer a call installs a session for. -/
def Call.installs : Call S → Option PeerId
  | .installSession id _ | .tryInstallSession id _ | .installSessionIfGenerationFor id _ _ => some id
  | _ => none

/-- The test an install makes of its peer's slot. -/
def Fills (t : Transport S) (now : UInt64) : Call S → Bool
  | .tryInstallSession id _ => !(t.acquireConn now id).1.live (t.acquireConn now id).2
  | .installSessionIfGenerationFor id _ g =>
    (t.connFor id).map (fun s ↦ (t.conns s).sessionGeneration) == some g
  | _ => true

/-- A live session of `p` sits in `extra` while the primary slot has `p`'s id. -/
def Shadowed (t : Transport S) (p : PeerId) : Prop :=
  t.conn.lastPeerId = some p ∧ t.LiveSecondary p

instance : Decidable (t.Shadowed p) :=
  decidable_of_iff
    (t.conn.lastPeerId = some p ∧ (t.extra[p]?).any fun n ↦ t.live (.secondary p n)) <| by
    simp [Shadowed, LiveSecondary, Option.any_eq_true]

theorem linked_dead (hf : ∀ c, (f c).session = none)
    (h : q ∈ (t.modify s f).linkedPeerIds) : q ∈ t.linkedPeerIds := by
  rcases mem_linkedPeerIds.mp h with ⟨hlive, hq⟩ | ⟨k, hk, hlive⟩
  · cases s with
    | primary => simp [live_modify_self, hf] at hlive
    | secondary p n =>
      rw [live_modify_ne (by simp)] at hlive
      rw [conn_modify_secondary] at hq
      exact mem_linkedPeerIds.mpr (.inl ⟨hlive, hq⟩)
  · by_cases hs : Slot.secondary q k = s
    · subst hs
      simp [live_modify_self, hf] at hlive
    · rw [live_modify_ne hs] at hlive
      exact mem_linkedPeerIds.mpr (.inr ⟨k, hk, hlive⟩)

/-- A write to `p`'s slot that leaves `p`'s id there links at most `p`. -/
theorem linked_write (hs : s = .primary ∨ s = .secondary p n)
    (hf : ∀ c, (f c).lastPeerId = some p) (h : q ∈ (t.modify s f).linkedPeerIds) :
    q ∈ t.linkedPeerIds ∨ q = p := by
  rcases hs with rfl | rfl
  · rcases mem_linkedPeerIds.mp h with ⟨-, hq⟩ | hlive
    · rw [conn_modify_primary, hf] at hq
      exact .inr (Option.some.inj hq).symm
    · exact .inl (mem_linkedPeerIds.mpr (.inr (liveSecondary_modify_primary.mp hlive)))
  · rcases mem_linkedPeerIds.mp h with ⟨hlive, hq⟩ | hlive
    · rw [live_modify_ne (by simp)] at hlive
      rw [conn_modify_secondary] at hq
      exact .inl (mem_linkedPeerIds.mpr (.inl ⟨hlive, hq⟩))
    · by_cases hqp : q = p
      · exact .inr hqp
      · exact .inl (mem_linkedPeerIds.mpr (.inr ((liveSecondary_modify_ne hqp).mp hlive)))

theorem linked_acquireConn (h : q ∈ (t.acquireConn now p).1.linkedPeerIds) :
    q ∈ t.linkedPeerIds := by
  unfold acquireConn at h
  split at h
  · exact h
  · obtain ⟨t', n, heq, hconn, hsec⟩ := extraEntry_spec t now p
    rw [heq] at h
    rcases mem_linkedPeerIds.mp h with ⟨hlive, hq⟩ | hlive
    · rw [live_primary_eq, hconn] at hlive
      exact mem_linkedPeerIds.mpr (.inl ⟨hlive, hconn ▸ hq⟩)
    · exact mem_linkedPeerIds.mpr (.inr ((hsec q).mp hlive))

theorem acquireConn_slot (t : Transport S) (now : UInt64) (p : PeerId) :
    ∃ n, (t.acquireConn now p).2 = .primary ∨ (t.acquireConn now p).2 = .secondary p n := by
  unfold acquireConn
  split
  · exact ⟨0, .inl rfl⟩
  · obtain ⟨t', n, heq, -, -⟩ := extraEntry_spec t now p
    exact ⟨n, .inr (by rw [heq])⟩

theorem connFor_slot (hs : t.connFor p = some s) : ∃ n, s = .primary ∨ s = .secondary p n := by
  rcases connFor_eq_some hs with ⟨rfl, -⟩ | ⟨n, rfl, -, -⟩
  · exact ⟨0, .inl rfl⟩
  · exact ⟨n, .inr rfl⟩

theorem linked_acquired (hf : ∀ c, (f c).lastPeerId = some p)
    (h : q ∈ ((t.acquireConn now p).1.modify (t.acquireConn now p).2 f).linkedPeerIds) :
    q ∈ t.linkedPeerIds ∨ q = p := by
  obtain ⟨n, hs⟩ := acquireConn_slot t now p
  exact (linked_write hs hf h).imp_left linked_acquireConn

theorem linked_tryInstallSession {session : S}
    (h : q ∈ (t.tryInstallSession now p session).1.linkedPeerIds) :
    q ∈ t.linkedPeerIds ∨ q = p ∧ (t.acquireConn now p).1.live (t.acquireConn now p).2 = false := by
  by_cases hfull : (t.acquireConn now p).1.live (t.acquireConn now p).2
  · simp only [tryInstallSession, hfull, if_true] at h
    exact .inl (linked_acquireConn h)
  · rw [Bool.not_eq_true] at hfull
    simp only [tryInstallSession, hfull, Bool.false_eq_true, if_false, storeSession,
      storeLastPeerId, bumpGeneration, storeEstablished, modify_modify] at h
    exact (linked_acquired (fun _ ↦ rfl) h).imp_right fun hq ↦ ⟨hq, hfull⟩

theorem linked_installSessionIfGenerationFor {session : S} {g : UInt64}
    (h : q ∈ (t.installSessionIfGenerationFor now p session g).1.linkedPeerIds) :
    q ∈ t.linkedPeerIds ∨
      q = p ∧ (t.connFor p).map (fun s ↦ (t.conns s).sessionGeneration) = some g := by
  unfold installSessionIfGenerationFor at h
  split at h
  · exact .inl h
  · rename_i s hs
    split at h
    · exact .inl h
    · rename_i hg
      simp only [storeSession, bumpGeneration, storeLastPeerId, storeEstablished,
        modify_modify] at h
      obtain ⟨n, hslot⟩ := connFor_slot hs
      refine (linked_write hslot (fun _ ↦ rfl) h).imp_right fun hq ↦ ⟨hq, ?_⟩
      rw [hs, Option.map_some, not_not.mp hg]

theorem linked_setPeerInfo {addr : SocketAddr} (ht : t.Identified)
    (h : q ∈ (t.setPeerInfo now p addr).linkedPeerIds) : q ∈ t.linkedPeerIds := by
  simp only [setPeerInfo, storePeerAddr, storeLastPeerAddr, storeLastPeerId, pushHistory,
    modify_modify] at h
  unfold acquireConn at h
  split at h
  · rename_i hreuse
    rcases mem_linkedPeerIds.mp h with ⟨hlive, hq⟩ | hlive
    · rw [live_modify_self] at hlive
      have hprimary : t.live .primary := hlive
      obtain rfl : p = q := by simpa [conn_modify_primary] using hq
      have hknown : t.conn.lastPeerId ≠ none := ht hprimary
      have hp : t.conn.lastPeerId = some p := by simpa [reusesPrimary, hknown, hprimary] using hreuse
      exact mem_linkedPeerIds.mpr (.inl ⟨hprimary, hp⟩)
    · exact mem_linkedPeerIds.mpr (.inr (liveSecondary_modify_primary.mp hlive))
  · obtain ⟨t', n, heq, hconn, hsec⟩ := extraEntry_spec t now p
    rw [heq] at h
    rcases mem_linkedPeerIds.mp h with ⟨hlive, hq⟩ | ⟨k, hk, hlive⟩
    · rw [live_modify_ne (by simp), live_primary_eq, hconn] at hlive
      rw [conn_modify_secondary, hconn] at hq
      exact mem_linkedPeerIds.mpr (.inl ⟨hlive, hq⟩)
    · rw [extra_modify] at hk
      have hbefore : t'.live (.secondary q k) := by
        by_cases hslot : Slot.secondary q k = .secondary p n
        · rw [hslot, live_modify_self] at hlive
          rw [hslot]
          exact hlive
        · rwa [live_modify_ne hslot] at hlive
      exact mem_linkedPeerIds.mpr (.inr ((hsec q).mp ⟨k, hk, hbefore⟩))

theorem linked_dropSession (h : q ∈ t.dropSession.linkedPeerIds) : q ∈ t.linkedPeerIds := by
  simp only [dropSession, storeSession, bumpGeneration, modify_modify] at h
  exact linked_dead (fun _ ↦ rfl) h

theorem linked_dropSessionFor (h : q ∈ (t.dropSessionFor p).linkedPeerIds) :
    q ∈ t.linkedPeerIds := by
  unfold dropSessionFor at h
  split at h
  · exact h
  · simp only [storeSession, bumpGeneration, modify_modify] at h
    exact linked_dead (fun _ ↦ rfl) h

/-- `drop_session_for` resolves one slot: the other one stays linked. -/
theorem shadowed_of_linked (h : p ∈ (t.dropSessionFor p).linkedPeerIds) : t.Shadowed p := by
  unfold dropSessionFor at h
  split at h
  · rename_i hnone
    unfold connFor at hnone
    split at hnone
    · cases hnone
    · rename_i hlast
      rcases mem_linkedPeerIds.mp h with ⟨-, hq⟩ | ⟨n, hn, -⟩
      · exact absurd hq hlast
      · simp [hn] at hnone
  · rename_i s hs
    simp only [storeSession, bumpGeneration, modify_modify] at h
    rcases connFor_eq_some hs with ⟨rfl, hlast⟩ | ⟨n, rfl, hn, hlast⟩
    · rcases mem_linkedPeerIds.mp h with ⟨hlive, -⟩ | hlive
      · simp [live_modify_self] at hlive
      · exact ⟨hlast, liveSecondary_modify_primary.mp hlive⟩
    · rcases mem_linkedPeerIds.mp h with ⟨-, hq⟩ | ⟨k, hk, hlive⟩
      · rw [conn_modify_secondary] at hq
        exact absurd hq hlast
      · obtain rfl : k = n := Option.some.inj (hk.symm.trans hn)
        simp [live_modify_self] at hlive

theorem linked_removeExtra (h : q ∈ (t.removeExtra p).linkedPeerIds) : q ∈ t.linkedPeerIds := by
  rcases mem_linkedPeerIds.mp h with hprimary | hlive
  · exact mem_linkedPeerIds.mpr (.inl hprimary)
  · exact mem_linkedPeerIds.mpr (.inr (liveSecondary_removeExtra.mp hlive).2)

theorem not_linked_purgePeer : p ∉ (t.purgePeer p).linkedPeerIds := by
  intro h
  rcases mem_linkedPeerIds.mp h with hprimary | hlive
  · have hdropped : p ∈ (t.dropSessionFor p).linkedPeerIds := mem_linkedPeerIds.mpr (.inl hprimary)
    have hlast := (shadowed_of_linked hdropped).1
    have hdead : (t.dropSessionFor p).live .primary = false := by
      simp [dropSessionFor, connFor, hlast, storeSession, bumpGeneration, modify_modify,
        live_modify_self]
    rw [purgePeer] at hprimary
    exact absurd hprimary.1 (Bool.eq_false_iff.mp hdead)
  · exact (liveSecondary_removeExtra.mp hlive).1 rfl

theorem linked_promoteSecondary (h : q ∈ (t.promoteSecondary now).1.linkedPeerIds) :
    q ∈ t.linkedPeerIds := by
  unfold promoteSecondary at h
  split at h
  · exact h
  · rename_i t' p n heq
    obtain ⟨e, he, heq⟩ := Option.map_eq_some_iff.mp heq
    obtain ⟨rfl, rfl, rfl⟩ : t.removeExtra e.1 = t' ∧ e.1 = p ∧ e.2 = n := by
      simpa only [Prod.mk.injEq] using heq
    split at h
    · exact linked_removeExtra h
    · simp only [storeSession, storeLastPeerId, adoptAddr, bumpGeneration, storeEstablished] at h
      have hp : e.1 ∈ t.linkedPeerIds := mem_linkedPeerIds.mpr
        (.inr (mem_liveSecondaries.mp (List.mem_map_of_mem (List.mem_of_mem_head? he))))
      simp only [modify_modify] at h
      rcases linked_write (p := e.1) (n := 0) (.inl rfl) (fun _ ↦ rfl) h with h | rfl
      · exact linked_removeExtra (linked_dead (fun _ ↦ rfl) h)
      · exact hp

/-- Only an install links a peer, its own and where it finds the slot it asks for. -/
theorem linked_call (ht : t.Identified) (c : Call S) (h : q ∈ (t.call now c).linkedPeerIds) :
    q ∈ t.linkedPeerIds ∨ c.installs = some q ∧ t.Fills now c := by
  cases c with
  | installSession id session =>
    simp only [call, installSession, storeSession, storeLastPeerId, bumpGeneration,
      storeEstablished, modify_modify] at h
    refine (linked_acquired (fun _ ↦ rfl) h).imp_right fun hq ↦ ?_
    exact ⟨congrArg some hq.symm, rfl⟩
  | tryInstallSession id session =>
    rcases linked_tryInstallSession h with h | h
    · exact .inl h
    · exact .inr ⟨congrArg some h.1.symm, by simp [Fills, h.2]⟩
  | installSessionIfGenerationFor id session g =>
    rcases linked_installSessionIfGenerationFor h with h | h
    · exact .inl h
    · exact .inr ⟨congrArg some h.1.symm, by simp [Fills, h.2]⟩
  | setPeerInfo id addr => exact .inl (linked_setPeerInfo ht h)
  | dropSession => exact .inl (linked_dropSession h)
  | dropSessionFor id => exact .inl (linked_dropSessionFor h)
  | purgePeer id => exact .inl (linked_dropSessionFor (linked_removeExtra h))
  | promoteSecondary => exact .inl (linked_promoteSecondary h)

end FluxSync.Transport
