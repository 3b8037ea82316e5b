import FluxSync.Transport.Slots

namespace FluxSync.Transport

open Std Function Runs

variable {S : Type} {t u : Transport S} {id a : PeerId} {n : ℕ} {now : UInt64}

/-- What a failover leaves: the session of `id` has moved from its entry of
`extra` to the primary slot, and no other slot or entry is touched. -/
structure FailedOver (t u : Transport S) (id : PeerId) (n : ℕ) : Prop where
  entry : t.extra[id]? = some n
  live : t.live (.secondary id n)
  session : u.conn.session = (t.conns (.secondary id n)).session
  lastPeerId : u.conn.lastPeerId = some id
  peerAddr : u.conn.peerAddr = (t.conns (.secondary id n)).peerAddr
  lastRxMs : u.conn.lastRxMs = (t.conns (.secondary id n)).lastRxMs
  taken : u.live (.secondary id n) = false
  extra : u.extra = t.extra.erase id
  others : ∀ s, s ≠ .primary → s ≠ .secondary id n → u.conns s = t.conns s

theorem detachSecondary_eq_none : t.detachSecondary = none ↔ ∀ id, ¬ t.LiveSecondary id := by
  simp only [detachSecondary, Option.map_eq_none_iff, List.head?_eq_none_iff]
  constructor
  · intro h id hlive
    have hmem : id ∈ t.liveSecondaries.map Prod.fst := mem_liveSecondaries.mpr hlive
    simp [h] at hmem
  · intro h
    apply List.eq_nil_iff_forall_not_mem.mpr
    intro e he
    exact h e.1 (mem_liveSecondaries.mp (List.mem_map_of_mem he))

theorem detachSecondary_eq_some (h : t.detachSecondary = some (u, id, n)) :
    u = t.removeExtra id ∧ t.extra[id]? = some n ∧ t.live (.secondary id n) := by
  obtain ⟨e, he, heq⟩ := Option.map_eq_some_iff.mp h
  obtain ⟨rfl, rfl, rfl⟩ : t.removeExtra e.1 = u ∧ e.1 = id ∧ e.2 = n := by
    simpa only [Prod.mk.injEq] using heq
  have hmem : e ∈ t.liveSecondaries := List.mem_of_head? he
  simp only [liveSecondaries, List.mem_filter] at hmem
  exact ⟨rfl, OrderedMap.mem_entries.mp hmem.1, hmem.2⟩

theorem promoteSecondary_eq_none :
    (t.promoteSecondary now).2 = none ↔ ∀ id, ¬ t.LiveSecondary id := by
  rw [← detachSecondary_eq_none, promoteSecondary]
  split
  · rename_i hd
    exact iff_of_true rfl hd
  · rename_i u id n hd
    obtain ⟨-, -, hlive⟩ := detachSecondary_eq_some hd
    obtain ⟨rfl, -, -⟩ := detachSecondary_eq_some hd
    obtain ⟨session, hs⟩ := Option.isSome_iff_exists.mp hlive
    have hs' : ((t.removeExtra id).conns (.secondary id n)).session = some session := hs
    simp [hs', hd]

theorem promoteSecondary_spec (h : (t.promoteSecondary now).2 = some id) :
    ∃ n, FailedOver t (t.promoteSecondary now).1 id n := by
  rw [promoteSecondary] at h ⊢
  split at h
  · cases h
  · rename_i u a n hd
    obtain ⟨rfl, hentry, hlive⟩ := detachSecondary_eq_some hd
    split at h
    · cases h
    · rename_i session hs
      obtain rfl : a = id := Option.some.inj h
      have hs' : (t.conns (.secondary a n)).session = some session := hs
      refine ⟨n, hentry, hlive, ?_, ?_, ?_, ?_, ?_, ?_, ?_⟩
      all_goals simp [storeSession, storeLastPeerId, adoptAddr, bumpGeneration, storeEstablished,
        modify, conn, live, removeExtra, hs']
      intro s hp hsec
      simp [update_of_ne hp, update_of_ne hsec]

namespace FailedOver

theorem liveSecondary (h : FailedOver t u id n) : u.LiveSecondary a ↔ a ≠ id ∧ t.LiveSecondary a := by
  by_cases ha : a = id
  · subst ha
    simp [LiveSecondary, h.extra]
  · have hslot (k : ℕ) : u.live (.secondary a k) = t.live (.secondary a k) := by
      rw [Transport.live, h.others _ (by simp) (by simp [ha]), Transport.live]
    simp [LiveSecondary, h.extra, OrderedMap.lookup_erase, ha, Ne.symm ha, hslot]

theorem live_primary (h : FailedOver t u id n) : u.live .primary := by
  rw [live_primary_eq, h.session]
  exact h.live

/-- After a failover the linked peers are those whose live session sat in `extra`. -/
theorem linked (h : FailedOver t u id n) : a ∈ u.linkedPeerIds ↔ t.LiveSecondary a := by
  rw [mem_linkedPeerIds, h.liveSecondary, h.lastPeerId]
  by_cases ha : a = id
  · subst ha
    simp only [h.live_primary, ne_eq, not_true_eq_false, false_and, or_false, true_and, true_iff]
    exact ⟨n, h.entry, h.live⟩
  · simp [ha, Ne.symm ha]

theorem linked_nodup (h : FailedOver t u id n) : u.linkedPeerIds.Nodup := by
  have hmoved : id ∉ u.liveSecondaries.map Prod.fst := by
    intro hmem
    exact (h.liveSecondary.mp (mem_liveSecondaries.mp hmem)).1 rfl
  rw [linkedPeerIds, if_pos h.live_primary, h.lastPeerId]
  exact List.nodup_cons.mpr ⟨hmoved, OrderedMap.filtered_keys_nodup _⟩

end FailedOver

theorem promoteSecondary_unchanged (h : (t.promoteSecondary now).2 = none) :
    (t.promoteSecondary now).1 = t := by
  have hd : t.detachSecondary = none := detachSecondary_eq_none.mpr (promoteSecondary_eq_none.mp h)
  simp [promoteSecondary, hd]

/-- A failover finds a peer exactly when a live session sits in `extra`. It
moves that one session, and the peers linked before stay linked but for the
old primary peer, which stays only where it has a session in `extra` too. -/
theorem failover_bookkeeping (t : Transport S) (now : UInt64) :
    ((t.promoteSecondary now).2 = none ↔ ∀ id, ¬ t.LiveSecondary id) ∧
    ((t.promoteSecondary now).2 = none → (t.promoteSecondary now).1 = t) ∧
    ∀ id, (t.promoteSecondary now).2 = some id →
      (∃ n, FailedOver t (t.promoteSecondary now).1 id n) ∧
      (t.promoteSecondary now).1.linkedPeerIds.Nodup ∧
      ∀ a, a ∈ (t.promoteSecondary now).1.linkedPeerIds ↔
        a ∈ t.linkedPeerIds ∧ (t.conn.lastPeerId = some a → t.LiveSecondary a) := by
  refine ⟨promoteSecondary_eq_none, promoteSecondary_unchanged, ?_⟩
  intro id h
  obtain ⟨n, hover⟩ := promoteSecondary_spec h
  refine ⟨⟨n, hover⟩, hover.linked_nodup, ?_⟩
  intro a
  rw [hover.linked, mem_linkedPeerIds]
  constructor
  · intro hlive
    exact ⟨.inr hlive, fun _ ↦ hlive⟩
  · rintro ⟨⟨-, hlast⟩ | hlive, hown⟩
    · exact hown hlast
    · exact hlive

def twoPeers : Transport Unit :=
  ((new 0).call 0 (.tryInstallSession 1 ())).call 0 (.tryInstallSession 2 ())

theorem failover_bookkeeping_two_peers :
    (twoPeers.promoteSecondary 0).2 = some 2 ∧
    (twoPeers.promoteSecondary 0).1.linkedPeerIds.Nodup ∧
    1 ∉ (twoPeers.promoteSecondary 0).1.linkedPeerIds := by
  have h : (twoPeers.promoteSecondary 0).2 = some 2 := by decide
  obtain ⟨-, hnodup, hlinked⟩ := (failover_bookkeeping twoPeers 0).2.2 2 h
  refine ⟨h, hnodup, fun hmem ↦ ?_⟩
  obtain ⟨n, hentry, -⟩ := ((hlinked 1).mp hmem).2 (by decide)
  rw [show twoPeers.extra[(1 : PeerId)]? = none by decide] at hentry
  cases hentry

/-- The primary link of `1` goes down beside a live secondary of `2`, and
setting the address of `2` stamps its id on the dead primary slot. -/
def shadowedDead : List (UInt64 × Call Unit) :=
  [(0, .tryInstallSession 1 ()), (0, .tryInstallSession 2 ()), (0, .dropSession),
    (0, .setPeerInfo 2 (.v4 0xc0a80102 48000))]

/-- `2` is the dead slot's peer and the promoted one: it is linked afterwards. -/
theorem old_primary_stays_linked :
    ∃ t, Run step Always (new 0) shadowedDead t ∧ t.live .primary = false ∧
      t.conn.lastPeerId = some 2 ∧ (t.promoteSecondary 0).2 = some 2 ∧
      ¬ ∀ a, a ∈ (t.promoteSecondary 0).1.linkedPeerIds ↔
        a ∈ t.linkedPeerIds ∧ t.conn.lastPeerId ≠ some a := by
  refine ⟨_, run_of_foldlM rfl, by decide, by decide, by decide, ?_⟩
  intro h
  exact absurd (h 2) (by decide)

end FluxSync.Transport
