import FluxSync.Daemon.Orphans

/-! ## How long an unconfirmed pair lasts -/

namespace FluxSync.Daemon

open Std Function Runs OrderedMap

variable {κ : Crypto} {d u : System} {a : Act} {i j : ℕ} {ch : Choice} {s s' : Shared} {pc : Pc}
  {n : Next} {p : PeerId} {c : Contact} {e : PendingPair} {t : ℕ}

def PENDING_REAPER_INTERVAL : ℕ := 30000

/-- `p` is trusted and has lost the pending entry it was parked with, unconfirmed. -/
structure Gap (s : Shared) (p : PeerId) : Prop where
  trusted : s.trusted[p]?.isSome
  lost : s.pendingPairs[p]? = none
  parked : s.parked p

/-- The operation has taken the entry of `p` and takes `p` out of the trusted set next. -/
def Pc.revokes (p : PeerId) : Pc → Bool
  | .teardown (.rejectRemove q _) | .teardown (.remoteRejectRemove q) => q = p
  | .teardown (.reaperRemove expired) => expired.any fun e ↦ e.1 = p
  | _ => false

/-- The operation puts back what a failed write of `peers.json` did not record. -/
def Pc.rollsBack : Pc → Bool
  | .teardown (.retrust _) | .teardown (.repend _) | .teardown (.unpairRestore _) => true
  | _ => false

/-- The section gives a peer a new pending entry. -/
def Pc.parks : Pc → Option PeerId
  | .handshake (.tofuPark c _) | .handshake (.gatedPark c) | .pending (.verifyPark c) => some c.peer
  | _ => none

/-! ### What a section does to a pair -/

/-- What a section says about a gap after it. -/
def GapAfter (s : Shared) (ch : Choice) (p : PeerId) (pc : Pc) (n : Next) : Prop :=
  Gap n.sh p → (Gap s p ∧ pc.revokes p = false) ∨
    (n.pc.revokes p ∧ s.pendingPairs[p]?.isSome) ∨ (s.parked p ∧ pc.Orphans s ch p)

theorem GapAfter.of_eq (ht : n.sh.trusted[p]?.isSome → s.trusted[p]?.isSome)
    (hp : n.sh.pendingPairs[p]? = s.pendingPairs[p]?) (hk : n.sh.parked p = s.parked p)
    (hr : pc.revokes p = false) : GapAfter s ch p pc n :=
  fun hg ↦ .inl ⟨⟨ht hg.trusted, hp ▸ hg.lost, hk ▸ hg.parked⟩, hr⟩

theorem isSome_distrust {q : PeerId} (h : (s.distrust q).trusted[p]?.isSome) :
    q ≠ p ∧ s.trusted[p]?.isSome := by
  simp only [Shared.distrust, lookup_erase] at h
  split at h
  · cases h
  · exact ⟨‹_›, h⟩

/-- A fresh admission forgets that the peer was parked. -/
theorem GapAfter.of_enroll {peer : TrustedPeer} (ht : n.sh.trusted = (s.enroll c peer).trusted)
    (hp : n.sh.pendingPairs = s.pendingPairs) (hk : n.sh.parked = (s.enroll c peer).parked)
    (hr : pc.revokes p = false) : GapAfter s ch p pc n := by
  intro hg
  have hlost : s.pendingPairs[p]? = none := hp ▸ hg.lost
  have hparked := hg.parked
  have htrusted := hg.trusted
  rw [hk] at hparked
  rw [ht] at htrusted
  by_cases hc : c.peer = p
  · subst hc
    have hpend : s.pendingPairs.contains c.peer = false := by
      rw [ExtTreeMap.contains_eq_isSome_getElem?, hlost]
      rfl
    cases hs : s.trusted.contains c.peer with
    | false => simp [Shared.enroll, hs, hpend] at hparked
    | true =>
      refine .inl ⟨⟨by rwa [← ExtTreeMap.contains_eq_isSome_getElem?], hlost, ?_⟩, hr⟩
      simpa [Shared.enroll, hs] using hparked
  · refine .inl ⟨⟨?_, hlost, ?_⟩, hr⟩
    · simpa [Shared.enroll, lookup_insert, hc] using htrusted
    · simp only [Shared.enroll] at hparked
      split at hparked
      · rwa [update_of_ne (Ne.symm hc)] at hparked
      · exact hparked

theorem GapAfter.of_park {victim : PeerId} (h : s.park c victim = some s') (hn : n.sh = s')
    (hr : pc.revokes p = false)
    (hdrop : c.peer ≠ p → s.trusted[p]?.isSome → s.Drops victim p → pc.Orphans s ch p) :
    GapAfter s ch p pc n := by
  intro hg
  rw [hn] at hg
  obtain ⟨hne, hlost⟩ := (Shared.park_pending_none h).mp hg.lost
  obtain ⟨pending, -, rfl⟩ := Shared.park_eq h
  have hparked : s.parked p := by simpa [update_of_ne hne.symm] using hg.parked
  rcases hlost with hlost | hd
  · exact .inl ⟨⟨hg.trusted, hlost, hparked⟩, hr⟩
  · exact .inr (.inr ⟨hparked, hdrop hne hg.trusted hd⟩)

theorem gapAfter_handshake {pc : HandshakePc} (h : HandshakeStep i ch s pc n) :
    GapAfter s ch p (.handshake pc) n := by
  cases h with
  | tofu => exact .of_enroll rfl rfl rfl rfl
  | tofuPark hs => exact .of_park hs rfl rfl fun hne ht hd ↦ ⟨hne, ht, hd⟩
  | gatedPark hs => exact .of_park hs rfl rfl fun hne ht hd ↦ ⟨hne, ht, hd⟩
  | @install c role _ =>
    obtain ⟨ps, hps⟩ := s.link_eq c.peer
    exact .of_eq (by simp [hps]) (by simp [hps]) (by simp [hps]) rfl
  | _ => exact .of_eq id rfl rfl rfl

theorem isSome_settle {k : Caller} {ok : Bool} (h : (s.settle k ok).trusted[p]?.isSome) :
    s.trusted[p]?.isSome := by
  cases k with
  | tofu c known =>
    cases ok with
    | true => exact h
    | false => exact (isSome_distrust h).2
  | _ => exact h

theorem gapAfter_peers {pc : PeersPc} (h : PeersStep i ch s pc n) :
    GapAfter s ch p (.peers pc) n := by
  have hsettle {s : Shared} {k : Caller} {ok : Bool} : (s.settle k ok).pendingPairs = s.pendingPairs ∧
      (s.settle k ok).parked = s.parked := by
    cases k with
    | tofu => cases ok <;> exact ⟨rfl, rfl⟩
    | _ => exact ⟨rfl, rfl⟩
  cases h with
  | unreadable | upserted | upsertFail =>
    exact .of_eq isSome_settle (by rw [hsettle.1]) (by rw [hsettle.2]) rfl
  | _ => exact .of_eq id rfl rfl rfl

theorem gapAfter_pair {pc : PairPc} (h : PairStep s pc n) : GapAfter s ch p (.pair pc) n := by
  cases h with
  | insert => exact .of_enroll rfl rfl rfl rfl
  | rollback => exact .of_eq (fun h ↦ (isSome_distrust h).2) rfl rfl rfl
  | _ => exact .of_eq id rfl rfl rfl

theorem gapAfter_pending {pc : PendingPc} (h : PendingStep ch s pc n) :
    GapAfter s ch p (.pending pc) n := by
  cases h with
  | pairPending =>
    intro hg
    have hexpired := sweep_eq_none.mp hg.lost
    cases hp : s.pendingPairs[p]? with
    | none => exact .inl ⟨⟨hg.trusted, hp, hg.parked⟩, rfl⟩
    | some e => exact .inr (.inr ⟨hg.parked, hg.trusted, e, hp, hexpired e hp⟩)
  | @accept q _ =>
    intro hg
    have hparked := hg.parked
    by_cases hq : q = p
    · simp [hq] at hparked
    · refine .inl ⟨⟨hg.trusted, (Shared.unpend_of_ne hq).symm.trans hg.lost, ?_⟩, rfl⟩
      simpa [update_of_ne (Ne.symm hq)] using hparked
  | @remoteAccept q e hq =>
    intro hg
    have hlost := hg.lost
    rw [lookup_insert] at hlost
    split at hlost
    · cases hlost
    · exact .inl ⟨⟨hg.trusted, hlost, hg.parked⟩, rfl⟩
  | verifyPark hs => exact .of_park hs rfl rfl fun hne ht hd ↦ ⟨hne, ht, hd⟩
  | _ => exact .of_eq id rfl rfl rfl

theorem GapAfter.of_distrust {q : PeerId} (hn : n.sh = s.distrust q)
    (hr : q ≠ p → pc.revokes p = false) : GapAfter s ch p pc n := by
  intro hg
  rw [hn] at hg
  obtain ⟨hne, ht⟩ := isSome_distrust hg.trusted
  exact .inl ⟨⟨ht, hg.lost, hg.parked⟩, hr hne⟩

/-- Taking the entry of `q` leaves an operation that revokes it. -/
theorem GapAfter.of_unpend {q : PeerId} (hn : n.sh = s.unpend q) (hr : pc.revokes p = false)
    (hq : q = p → s.pendingPairs[p]?.isSome → s.trusted[p]?.isSome → s.parked p →
      n.pc.revokes p ∨ pc.Orphans s ch p) : GapAfter s ch p pc n := by
  intro hg
  rw [hn] at hg
  by_cases hqp : q = p
  · cases hp : s.pendingPairs[p]? with
    | none => exact .inl ⟨⟨hg.trusted, hp, hg.parked⟩, hr⟩
    | some e =>
      rcases hq hqp (by rw [hp]; rfl) hg.trusted hg.parked with h | h
      · exact .inr (.inl ⟨h, rfl⟩)
      · exact .inr (.inr ⟨hg.parked, h⟩)
  · exact .inl ⟨⟨hg.trusted, (Shared.unpend_of_ne hqp).symm.trans hg.lost, hg.parked⟩, hr⟩

theorem gapAfter_teardown {pc : TeardownPc} (h : TeardownStep s pc n)
    (hroll : (Pc.teardown pc).rollsBack = false) : GapAfter s ch p (.teardown pc) n := by
  cases h with
  | rejectTake => exact .of_unpend rfl rfl fun hq _ _ _ ↦ .inl (by simpa [Pc.revokes] using hq)
  | remoteRejectPending => exact .of_unpend rfl rfl fun hq _ _ _ ↦ .inl (by simpa [Pc.revokes] using hq)
  | remoteRevokePending => exact .of_unpend rfl rfl fun hq hp ht _ ↦ .inr ⟨hq, ht, hp⟩
  | rejectRemove => exact .of_distrust rfl fun hq ↦ by simpa [Pc.revokes] using hq
  | remoteReject | remoteRejectAgain => exact .of_distrust rfl fun hq ↦ by simpa [Pc.revokes] using hq
  | revokeRemove | remoteRevoke | remoteRevokeAgain => exact .of_distrust rfl fun _ ↦ rfl
  | unpairClear =>
    intro hg
    have ht := hg.trusted
    simp at ht
  | reaperIdle hnone =>
    intro hg
    cases hp : s.pendingPairs[p]? with
    | none => exact .inl ⟨⟨hg.trusted, hp, hg.parked⟩, rfl⟩
    | some e =>
      have hmem := mem_expired hp (sweep_eq_none.mp hg.lost e hp)
      rw [hnone] at hmem
      cases hmem
  | reaperSweep =>
    intro hg
    cases hp : s.pendingPairs[p]? with
    | none => exact .inl ⟨⟨hg.trusted, hp, hg.parked⟩, rfl⟩
    | some e =>
      have hmem := mem_expired hp (sweep_eq_none.mp hg.lost e hp)
      exact .inr (.inl ⟨List.any_eq_true.mpr ⟨_, hmem, by simp⟩, rfl⟩)
  | @reaperRemove expired _ =>
    intro hg
    have ht := hg.trusted
    rw [Shared.distrustAll, lookup_erase_all] at ht
    split at ht
    · cases ht
    · rename_i hnot
      refine .inl ⟨⟨ht, hg.lost, hg.parked⟩, List.any_eq_false.mpr fun e he ↦ ?_⟩
      simp only [decide_eq_true_eq]
      exact fun hep ↦ hnot (List.mem_map.mpr ⟨e, he, hep⟩)
  | retrust | repend | unpairRestore => cases hroll
  | _ => exact .of_eq id rfl rfl rfl

theorem advance_gap (h : advance i ch s pc = some n) (hroll : pc.rollsBack = false) :
    GapAfter s ch p pc n := by
  cases pc with
  | idle => cases h
  | handshake pc => exact gapAfter_handshake (handshakeStep h)
  | peers pc => exact gapAfter_peers (peersStep h)
  | pair pc => exact gapAfter_pair (pairStep h)
  | pending pc => exact gapAfter_pending (pendingStep h)
  | teardown pc => exact gapAfter_teardown (teardownStep h) hroll
  | data pc => cases dataStep h <;> exact .of_eq id rfl rfl rfl

/-- What a section says about a pending entry after it: new, refreshed or kept. -/
def EntryAfter (s : Shared) (p : PeerId) (pc : Pc) (n : Next) : Prop :=
  ∀ e, n.sh.pendingPairs[p]? = some e →
    (pc.parks = some p ∧ e.expiresAt = s.now + PAIRING_WINDOW) ∨
    (pc = .pending (.remoteAccept p) ∧ s.pendingPairs[p]?.isSome ∧
      e.expiresAt = s.now + PAIRING_WINDOW) ∨
    (pc.parks ≠ some p ∧ s.pendingPairs[p]? = some e ∧
      (pc = .teardown .reaperSweep → s.now < e.expiresAt))

theorem EntryAfter.of_le (hp : ∀ e, n.sh.pendingPairs[p]? = some e → s.pendingPairs[p]? = some e)
    (hpark : pc.parks = none) (hsweep : pc ≠ .teardown .reaperSweep) : EntryAfter s p pc n :=
  fun e he ↦ .inr (.inr ⟨by simp [hpark], hp e he, fun h ↦ absurd h hsweep⟩)

theorem lookup_park {victim : PeerId} (h : s.park c victim = some s')
    (he : s'.pendingPairs[p]? = some e) :
    (c.peer = p ∧ e.expiresAt = s.now + PAIRING_WINDOW) ∨
      (c.peer ≠ p ∧ s.pendingPairs[p]? = some e) := by
  obtain ⟨pending, hp, rfl⟩ := Shared.park_eq h
  have hinsert {m : ExtTreeMap PeerId PendingPair} {v : PendingPair}
      (hv : v.expiresAt = s.now + PAIRING_WINDOW) (he : (m.insert c.peer v)[p]? = some e) :
      (c.peer = p ∧ e.expiresAt = s.now + PAIRING_WINDOW) ∨ (c.peer ≠ p ∧ m[p]? = some e) := by
    rw [lookup_insert] at he
    split at he
    · obtain rfl := Option.some.inj he
      exact .inl ⟨‹_›, hv⟩
    · exact .inr ⟨‹_›, he⟩
  simp only [parkPending] at hp
  split at hp
  · obtain rfl := Option.some.inj hp
    exact (hinsert rfl he).imp_right fun h ↦ ⟨h.1, (lookup_filter.mp h.2).1⟩
  · split at hp
    · obtain rfl := Option.some.inj hp
      refine (hinsert rfl he).imp_right fun h ↦ ⟨h.1, ?_⟩
      have he := h.2
      rw [lookup_erase] at he
      split at he
      · cases he
      · exact (lookup_filter.mp he).1
    · cases hp

theorem EntryAfter.of_park {victim : PeerId} (h : s.park c victim = some s') (hn : n.sh = s')
    (hpark : pc.parks = some c.peer) (hsweep : pc ≠ .teardown .reaperSweep) :
    EntryAfter s p pc n := by
  intro e he
  rw [hn] at he
  rcases lookup_park h he with ⟨rfl, hexp⟩ | ⟨hne, he⟩
  · exact .inl ⟨hpark, hexp⟩
  · exact .inr (.inr ⟨by simpa [hpark] using hne, he, fun h ↦ absurd h hsweep⟩)

theorem advance_entry (h : advance i ch s pc = some n) (hroll : pc.rollsBack = false) :
    EntryAfter s p pc n := by
  have hunpend {q : PeerId} (e : PendingPair) (he : (s.unpend q).pendingPairs[p]? = some e) :
      s.pendingPairs[p]? = some e := by
    rw [Shared.unpend, lookup_erase] at he
    split at he
    · cases he
    · exact he
  cases pc with
  | idle => cases h
  | handshake pc =>
    cases handshakeStep h with
    | tofuPark hs => exact .of_park hs rfl rfl (by simp)
    | gatedPark hs => exact .of_park hs rfl rfl (by simp)
    | @install c role _ =>
      obtain ⟨ps, hps⟩ := s.link_eq c.peer
      exact .of_le (fun e he ↦ by simpa [hps] using he) rfl (by simp)
    | _ => exact .of_le (fun _ he ↦ he) rfl (by simp)
  | peers pc =>
    have hsettle {s : Shared} {k : Caller} {ok : Bool} :
        (s.settle k ok).pendingPairs = s.pendingPairs := by
      cases k with
      | tofu => cases ok <;> rfl
      | _ => rfl
    cases peersStep h with
    | unreadable | upserted | upsertFail =>
      exact .of_le (fun e he ↦ by rwa [hsettle] at he) rfl (by simp)
    | _ => exact .of_le (fun _ he ↦ he) rfl (by simp)
  | pair pc => cases pairStep h <;> exact .of_le (fun _ he ↦ he) rfl (by simp)
  | pending pc =>
    cases pendingStep h with
    | pairPending => exact .of_le (fun e he ↦ (lookup_filter.mp he).1) rfl (by simp)
    | accept => exact .of_le hunpend rfl (by simp)
    | @remoteAccept q e' hq =>
      intro e he
      rw [lookup_insert] at he
      split at he
      case isTrue hqp =>
        subst hqp
        obtain rfl := Option.some.inj he
        exact .inr (.inl ⟨rfl, by rw [hq]; rfl, rfl⟩)
      case isFalse => exact .inr (.inr ⟨by simp [Pc.parks], he, by simp⟩)
    | verifyPark hs => exact .of_park hs rfl rfl (by simp)
    | _ => exact .of_le (fun _ he ↦ he) rfl (by simp)
  | teardown pc =>
    cases teardownStep h with
    | rejectTake | remoteRevokePending | remoteRejectPending =>
      exact .of_le hunpend rfl (by simp)
    | reaperIdle | reaperSweep =>
      intro e he
      obtain ⟨he, halive⟩ := lookup_filter.mp he
      exact .inr (.inr ⟨by simp [Pc.parks], he, fun _ ↦ of_decide_eq_true halive⟩)
    | repend => cases hroll
    | _ => exact .of_le (fun _ he ↦ he) rfl (by simp)
  | data pc => cases dataStep h <;> exact .of_le (fun _ he ↦ he) rfl (by simp)

theorem advance_parks (h : advance i ch s pc = some n) (hp : pc.parks = some p) :
    n.sh.pendingPairs[p]? ≠ none := by
  have hpark {c : Contact} {victim : PeerId} {s' : Shared} (h : s.park c victim = some s')
      (hc : c.peer = p) : s'.pendingPairs[p]? ≠ none :=
    fun hnone ↦ ((Shared.park_pending_none h).mp hnone).1 hc
  cases pc with
  | handshake pc =>
    cases handshakeStep h with
    | tofuPark hs => exact hpark hs (Option.some.inj hp)
    | gatedPark hs => exact hpark hs (Option.some.inj hp)
    | _ => cases hp
  | pending pc =>
    cases pendingStep h with
    | verifyPark hs => exact hpark hs (Option.some.inj hp)
    | _ => cases hp
  | _ => cases hp

/-- A section takes no time. -/
theorem advance_now (h : advance i ch s pc = some n) : n.sh.now = s.now := by
  have hpark {c : Contact} {victim : PeerId} {s' : Shared} (h : s.park c victim = some s') :
      s'.now = s.now := by
    obtain ⟨pending, -, rfl⟩ := Shared.park_eq h
    rfl
  cases pc with
  | idle => cases h
  | handshake pc =>
    cases handshakeStep h with
    | tofuPark hs => exact hpark hs
    | gatedPark hs => exact hpark hs
    | @install c role _ =>
      obtain ⟨ps, hps⟩ := s.link_eq c.peer
      rw [hps]
    | _ => rfl
  | peers pc =>
    have hsettle {s : Shared} {k : Caller} {ok : Bool} : (s.settle k ok).now = s.now := by
      cases k with
      | tofu => cases ok <;> rfl
      | _ => rfl
    cases peersStep h with
    | unreadable | upserted | upsertFail => exact hsettle
    | _ => rfl
  | pair pc => cases pairStep h <;> rfl
  | pending pc =>
    cases pendingStep h with
    | verifyPark hs => exact hpark hs
    | _ => rfl
  | teardown pc =>
    cases teardownStep h with
    | @purge q rest next => rfl
    | _ => rfl
  | data pc => cases dataStep h <;> rfl

/-! ### Runs -/

/-- What is noted of a run: when each peer was given its pending entry last, and when the
reaper last looked. -/
structure Watch where
  created : PeerId → Option ℕ
  lastTick : ℕ

def watch (d : System) (a : Act) (m : Watch) : Watch :=
  match a with
  | .lockSection i _ =>
    { created := match (d.tasks i).parks with
        | some p => update m.created p (some d.sh.now)
        | none => m.created
      lastTick := match d.tasks i with
        | .teardown .reaperSweep => d.sh.now
        | _ => m.lastTick }
  | _ => m

/-- The reaper ticks on time, no time goes by between the sections of a revocation, no write of
`peers.json` is rolled back, and the process lives. -/
def OnTime (x : System × Watch) : Act → Prop
  | .elapse t => x.1.sh.now + t ≤ x.2.lastTick + PENDING_REAPER_INTERVAL ∧
      ∀ i p, (x.1.tasks i).revokes p = false
  | .lockSection i _ => (x.1.tasks i).rollsBack = false
  | .crash _ => False
  | _ => True

/-- Nothing but a revocation drops the entry of a trusted peer, and a peer's confirmation
refreshes its entry within a window of the creation only. -/
def Tended (x : System × Watch) : Act → Prop
  | .lockSection i ch => (∀ p, x.1.sh.parked p → ¬ (x.1.tasks i).Orphans x.1.sh ch p) ∧
      ∀ p, x.1.tasks i = .pending (.remoteAccept p) → x.1.sh.pendingPairs[p]?.isSome →
        ∃ t, x.2.created p = some t ∧ x.1.sh.now ≤ t + PAIRING_WINDOW
  | _ => True

/-- The pairs are on their way out. -/
structure Bounded (x : System × Watch) : Prop where
  entry : ∀ p e, x.1.sh.pendingPairs[p]? = some e → ∃ t, x.2.created p = some t ∧
    e.expiresAt ≤ t + 2 * PAIRING_WINDOW ∧ x.2.lastTick < e.expiresAt
  onTime : x.1.sh.now ≤ x.2.lastTick + PENDING_REAPER_INTERVAL
  past : x.2.lastTick ≤ x.1.sh.now
  gap : ∀ p, Gap x.1.sh p → (∃ i, (x.1.tasks i).revokes p) ∧ ∃ t, x.2.created p = some t ∧
    x.1.sh.now < t + 2 * PAIRING_WINDOW + PENDING_REAPER_INTERVAL

variable {m m' : Watch}

theorem Bounded.section {ch : Choice} (hx : Bounded (d, m))
    (ho : OnTime (d, m) (.lockSection i ch)) (ht : Tended (d, m) (.lockSection i ch))
    (h : System.Move κ d (.lockSection i ch) u) :
    Bounded (u, watch d (.lockSection i ch) m) := by
  obtain ⟨n, hn, hsh, htasks⟩ := h.exists_task_iff
  have hroll : (d.tasks i).rollsBack = false := ho
  have hnow : u.sh.now = d.sh.now := hsh ▸ advance_now hn
  have htick : (watch d (.lockSection i ch) m).lastTick = d.sh.now ∧
        d.tasks i = .teardown .reaperSweep ∨
      (watch d (.lockSection i ch) m).lastTick = m.lastTick ∧
        d.tasks i ≠ .teardown .reaperSweep := by
    simp only [watch]
    split
    case h_1 heq => exact .inl ⟨rfl, heq⟩
    case h_2 hne => exact .inr ⟨rfl, hne⟩
  have hcreated {p : PeerId} (hp : (d.tasks i).parks ≠ some p) :
      (watch d (.lockSection i ch) m).created p = m.created p := by
    cases hq : (d.tasks i).parks with
    | none => simp only [watch, hq]
    | some q =>
      simp only [watch, hq]
      exact update_of_ne (fun h ↦ hp (hq.trans (congrArg some h.symm))) _ _
  constructor
  · intro p e he
    have hpast : m.lastTick ≤ d.sh.now := hx.past
    have hnew : (watch d (.lockSection i ch) m).lastTick < d.sh.now + PAIRING_WINDOW := by
      have : 0 < PAIRING_WINDOW := by decide
      rcases htick with ⟨h, -⟩ | ⟨h, -⟩ <;> omega
    rcases advance_entry hn hroll e (hsh ▸ he) with ⟨hpark, hexp⟩ | ⟨hpc, hp, hexp⟩ | ⟨hpark, hp, hsweep⟩
    · refine ⟨d.sh.now, ?_, by omega, hexp ▸ hnew⟩
      simp only [watch, hpark]
      exact update_self p _ _
    · obtain ⟨t, hc, hle⟩ := ht.2 p hpc hp
      have hle' : d.sh.now ≤ t + PAIRING_WINDOW := hle
      have hnone : (d.tasks i).parks ≠ some p := by
        rw [hpc]
        exact (Option.some_ne_none p).symm
      exact ⟨t, (hcreated hnone).trans hc, by omega, hexp ▸ hnew⟩
    · obtain ⟨t, hc, hle, hlt⟩ := hx.entry p e hp
      refine ⟨t, (hcreated hpark).trans hc, hle, ?_⟩
      rcases htick with ⟨h, hpc⟩ | ⟨h, -⟩
      · exact h ▸ hsweep hpc
      · exact h ▸ hlt
  · have honTime : d.sh.now ≤ m.lastTick + PENDING_REAPER_INTERVAL := hx.onTime
    show u.sh.now ≤ (watch d (.lockSection i ch) m).lastTick + PENDING_REAPER_INTERVAL
    rcases htick with ⟨h, -⟩ | ⟨h, -⟩ <;> omega
  · have hpast : m.lastTick ≤ d.sh.now := hx.past
    show (watch d (.lockSection i ch) m).lastTick ≤ u.sh.now
    rcases htick with ⟨h, -⟩ | ⟨h, -⟩ <;> omega
  · intro p hg
    have hnotpark : (d.tasks i).parks ≠ some p :=
      fun hpark ↦ advance_parks hn hpark (hsh ▸ hg.lost)
    show (∃ j, (u.tasks j).revokes p) ∧ ∃ t, (watch d (.lockSection i ch) m).created p = some t ∧
      u.sh.now < t + 2 * PAIRING_WINDOW + PENDING_REAPER_INTERVAL
    rw [hcreated hnotpark, hnow, htasks (Pc.revokes p) rfl]
    rcases advance_gap hn hroll (hsh ▸ hg) with ⟨hg, hpc⟩ | ⟨hrev, hp⟩ | ⟨hparked, horph⟩
    · obtain ⟨⟨j, hj⟩, hlate⟩ := hx.gap p hg
      refine ⟨.inr ⟨j, ?_, hj⟩, hlate⟩
      rintro rfl
      exact Bool.false_ne_true (hpc.symm.trans hj)
    · obtain ⟨e, he⟩ := Option.isSome_iff_exists.mp hp
      obtain ⟨t, hc, hle, hlt⟩ := hx.entry p e he
      have honTime : d.sh.now ≤ m.lastTick + PENDING_REAPER_INTERVAL := hx.onTime
      exact ⟨.inl (.inl hrev), t, hc, by dsimp only at hlt; omega⟩
    · exact absurd horph (ht.1 p hparked)

theorem Bounded.step (hx : Bounded (d, m)) (ho : OnTime (d, m) a) (ht : Tended (d, m) a)
    (h : System.step κ d a = some u) : Bounded (u, watch d a m) := by
  have hm := System.move_of_step h
  cases a with
  | lockSection i ch => exact hx.section ho ht hm
  | crash readable => exact ho.elim
  | start i op =>
    cases hm with
    | ambient hs => cases hs
    | start hi _ _ =>
      refine ⟨hx.entry, hx.onTime, hx.past, fun p hg ↦ ?_⟩
      obtain ⟨⟨j, hj⟩, hlate⟩ := hx.gap p hg
      refine ⟨⟨j, ?_⟩, hlate⟩
      have hji : j ≠ i := by
        rintro rfl
        dsimp only at hj
        rw [hi] at hj
        cases hj
      show (update d.tasks i op.entry j).revokes p
      rwa [update_of_ne hji]
  | elapse t =>
    obtain rfl := Option.some.inj h
    refine ⟨hx.entry, ho.1, hx.past.trans (Nat.le_add_right _ _), fun p hg ↦ ?_⟩
    obtain ⟨⟨j, hj⟩, -⟩ := hx.gap p ⟨hg.trusted, hg.lost, hg.parked⟩
    exact absurd (ho.2 j p) (by rw [hj]; decide)
  | drop q =>
    obtain rfl := Option.some.inj h
    exact ⟨hx.entry, hx.onTime, hx.past, fun p hg ↦ hx.gap p ⟨hg.trusted, hg.lost, hg.parked⟩⟩
  | ack hash q =>
    obtain rfl := Option.some.inj h
    exact ⟨hx.entry, hx.onTime, hx.past, fun p hg ↦ hx.gap p ⟨hg.trusted, hg.lost, hg.parked⟩⟩
  | wipe =>
    obtain rfl := Option.some.inj h
    exact ⟨hx.entry, hx.onTime, hx.past, fun p hg ↦ hx.gap p ⟨hg.trusted, hg.lost, hg.parked⟩⟩

theorem bounded_init : Bounded (System.init, ⟨fun _ ↦ none, 0⟩) where
  entry p e he := by simp [System.init] at he
  onTime := Nat.zero_le _
  past := Nat.le_refl 0
  gap p hg := by simpa [System.init] using hg.trusted

theorem Bounded.removed {x : System × Watch} (hx : Bounded x) (hparked : x.1.sh.parked p)
    (hcreated : x.2.created p = some t)
    (hlate : t + 2 * PAIRING_WINDOW + PENDING_REAPER_INTERVAL ≤ x.1.sh.now) :
    x.1.sh.pendingPairs[p]? = none ∧ x.1.sh.trusted[p]? = none := by
  have hnone : x.1.sh.pendingPairs[p]? = none := by
    cases hp : x.1.sh.pendingPairs[p]? with
    | none => rfl
    | some e =>
      obtain ⟨t', hc, hle, hlt⟩ := hx.entry p e hp
      obtain rfl := Option.some.inj (hcreated.symm.trans hc)
      have := hx.onTime
      omega
  refine ⟨hnone, ?_⟩
  cases ht : x.1.sh.trusted[p]? with
  | none => rfl
  | some r =>
    obtain ⟨-, t', hc, hlt⟩ := hx.gap p ⟨by rw [ht]; rfl, hnone, hparked⟩
    obtain rfl := Option.some.inj (hcreated.symm.trans hc)
    omega

/-- A pair that is not confirmed is gone two windows and one tick of the reaper after it was
created, where nothing but a revocation drops its entry and every refresh comes within the
first window. -/
theorem removed_in_time {l : List Act}
    (h : Run (monitored (System.step κ) watch) (fun x a ↦ OnTime x a ∧ Tended x a)
      (System.init, ⟨fun _ ↦ none, 0⟩) l (d, m))
    (hparked : d.sh.parked p) (hcreated : m.created p = some t)
    (hlate : t + 2 * PAIRING_WINDOW + PENDING_REAPER_INTERVAL ≤ d.sh.now) :
    d.sh.pendingPairs[p]? = none ∧ d.sh.trusted[p]? = none := by
  have hx : Bounded (d, m) := h.invariant (I := Bounded) bounded_init fun x a y hx hok hs ↦ by
    obtain ⟨hstep, hm⟩ := monitored_eq_some.mp hs
    obtain ⟨y, m⟩ := y
    obtain rfl := hm
    exact hx.step hok.1 hok.2 hstep
  exact hx.removed hparked hcreated hlate

def Pc.takes : Pc → Bool
  | .teardown (.rejectRemove _ _) | .teardown (.remoteRejectRemove _) | .teardown (.reaperRemove _) =>
    true
  | _ => false

/-- A section that can orphan nobody, whatever it drops. -/
def Pc.spares (s : Shared) : Pc → Bool
  | .handshake (.tofuPark c _) | .handshake (.gatedPark c) | .pending (.verifyPark c) =>
    s.pendingPairs.toList.all fun e ↦ e.1 = c.peer
  | .pending .pairPending | .teardown (.remoteRevokePending _) | .teardown (.retrust _)
  | .teardown (.unpairRestore _) | .pair (.insert _ true) | .pair (.dial _ false)
  | .handshake (.install _ (.initiator true)) => false
  | _ => true

theorem Pc.not_revokes (h : pc.takes = false) (p : PeerId) : pc.revokes p = false := by
  cases pc with
  | teardown pc => cases pc <;> first | rfl | cases h
  | _ => rfl

theorem Pc.not_orphans (h : pc.spares s) (p : PeerId) : ¬ pc.Orphans s ch p := by
  have hpark {c : Contact} {victim : PeerId} (h : s.pendingPairs.toList.all fun e ↦ e.1 = c.peer) :
      ¬ (c.peer ≠ p ∧ s.trusted[p]?.isSome ∧ s.Drops victim p) := by
    rintro ⟨hne, -, e, he, -⟩
    exact hne (of_decide_eq_true (List.all_eq_true.mp h _ (mem_entries.mpr he))).symm
  cases pc with
  | handshake pc =>
    cases pc with
    | tofuPark | gatedPark => exact hpark h
    | install c role =>
      cases role with
      | initiator gate => cases gate <;> first | exact id | cases h
      | _ => exact id
    | _ => exact id
  | pair pc =>
    cases pc with
    | insert c already | dial c already => cases already <;> first | exact id | cases h
    | _ => exact id
  | pending pc =>
    cases pc with
    | verifyPark => exact hpark h
    | pairPending => cases h
    | _ => exact id
  | teardown pc => cases pc <;> first | exact id | cases h
  | _ => exact id

/-- `OnTime` for the first `k` tasks, as a test. -/
def onTime (k : ℕ) (x : System × Watch) (a : Act) : Bool :=
  a.within k && match a with
  | .elapse t => decide (x.1.sh.now + t ≤ x.2.lastTick + PENDING_REAPER_INTERVAL) &&
      (List.range k).all fun i ↦ !(x.1.tasks i).takes
  | .lockSection i _ => !(x.1.tasks i).rollsBack
  | .crash _ => false
  | _ => true

/-- `Tended`, as a test. -/
def tended (x : System × Watch) : Act → Bool
  | .lockSection i _ => (x.1.tasks i).spares x.1.sh && match x.1.tasks i with
    | .pending (.remoteAccept p) => (x.2.created p).any fun t ↦ x.1.sh.now ≤ t + PAIRING_WINDOW
    | _ => true
  | _ => true

theorem onTime_sound {k : ℕ} {x : System × Watch} (hd : x.1.Within k) (h : onTime k x a) :
    OnTime x a := by
  obtain ⟨-, h⟩ := Bool.and_eq_true_iff.mp h
  cases a with
  | elapse t =>
    obtain ⟨hle, hall⟩ := Bool.and_eq_true_iff.mp h
    refine ⟨of_decide_eq_true hle, fun i p ↦ Pc.not_revokes ?_ p⟩
    by_cases hi : i < k
    · simpa using List.all_eq_true.mp hall i (List.mem_range.mpr hi)
    · rw [hd i (Nat.le_of_not_lt hi)]
      rfl
  | lockSection i ch => simpa [OnTime] using h
  | crash => cases h
  | _ => trivial

theorem tended_sound {x : System × Watch} (h : tended x a) : Tended x a := by
  cases a with
  | lockSection i ch =>
    obtain ⟨hspares, hrefresh⟩ := Bool.and_eq_true_iff.mp h
    refine ⟨fun p _ ↦ Pc.not_orphans hspares p, fun p hpc _ ↦ ?_⟩
    rw [hpc] at hrefresh
    cases hc : x.2.created p with
    | none => simp [hc] at hrefresh
    | some t => exact ⟨t, rfl, by simpa [hc] using hrefresh⟩
  | _ => trivial

theorem onTime_run {k : ℕ} {l : List Act} {x : System × Watch} {more : System × Watch → Act → Bool}
    (h : Run (monitored (System.step κ) watch) (fun x a ↦ onTime k x a && more x a)
      (System.init, ⟨fun _ ↦ none, 0⟩) l x) :
    Run (monitored (System.step κ) watch) (fun x a ↦ OnTime x a ∧ more x a)
      (System.init, ⟨fun _ ↦ none, 0⟩) l x := by
  refine h.guarantee (I := fun x ↦ x.1.Within k) (fun _ _ ↦ rfl) (fun x a y hx ha hs ↦ ?_)
    fun x a hx ha ↦ ?_
  · have hwithin := (Bool.and_eq_true_iff.mp (Bool.and_eq_true_iff.mp ha).1).1
    exact hx.step (monitored_eq_some.mp hs).1 hwithin
  · obtain ⟨hon, hmore⟩ := Bool.and_eq_true_iff.mp ha
    exact ⟨onTime_sound hx hon, hmore⟩

/-- The reaper looks once more, and finds nothing that has expired. -/
def idleTick : List Act := .elapse PENDING_REAPER_INTERVAL :: .start 2 .reaperTick :: sections 2 1

def joins : List Act :=
  .start 0 .pairShow :: sections 0 1 ++ .start 3 (.responder (plainContact 1) false) :: sections 3 8

def refresh : List Act := .start 1 (.remoteAccept 1) :: sections 1 1

/-- The peer confirms after a minute, the user never does. -/
def refreshedOnce : List Act :=
  joins ++ idleTick ++ idleTick ++ refresh ++ idleTick ++ idleTick ++
    .elapse PENDING_REAPER_INTERVAL :: .start 2 .reaperTick :: sections 2 7 ++ idleTick ++ idleTick

theorem refreshedOnce_checked : (refreshedOnce.foldlM (fun x a ↦
    if onTime 4 x a && tended x a then monitored (System.step plainCrypto) watch x a else none)
      (System.init, ⟨fun _ ↦ none, 0⟩)).isSome := by
  decide +kernel

theorem removed_in_time_refreshedOnce :
    ∃ d m, Run (monitored (System.step plainCrypto) watch) (fun x a ↦ OnTime x a ∧ Tended x a)
        (System.init, ⟨fun _ ↦ none, 0⟩) refreshedOnce (d, m) ∧ m.created 1 = some 0 ∧
      d.sh.pendingPairs[(1 : PeerId)]? = none ∧ d.sh.trusted[(1 : PeerId)]? = none := by
  have hrun := (onTime_run (run_of_checked refreshedOnce_checked)).mono fun x a h ↦
    And.intro h.1 (tended_sound h.2)
  exact ⟨_, _, hrun, by decide +kernel,
    removed_in_time (t := 0) hrun (by decide +kernel) (by decide +kernel) (by decide +kernel)⟩

/-- The peer confirms again and again. -/
def refreshedThrice : List Act :=
  joins ++ idleTick ++ idleTick ++ refresh ++ idleTick ++ idleTick ++ refresh ++ idleTick ++
    idleTick ++ refresh ++ idleTick

theorem refreshedThrice_checked : (refreshedThrice.foldlM (fun x a ↦
    if onTime 4 x a && true then monitored (System.step plainCrypto) watch x a else none)
      (System.init, ⟨fun _ ↦ none, 0⟩)).isSome := by
  decide +kernel

/-- Two windows and a tick after its creation the pair is pending and trusted. -/
theorem refreshedThrice_lasts :
    ∃ d m, Run (monitored (System.step plainCrypto) watch) OnTime (System.init, ⟨fun _ ↦ none, 0⟩)
        refreshedThrice (d, m) ∧ m.created 1 = some 0 ∧ d.sh.parked 1 ∧
      0 + 2 * PAIRING_WINDOW + PENDING_REAPER_INTERVAL ≤ d.sh.now ∧
      d.sh.pendingPairs[(1 : PeerId)]?.isSome ∧ d.sh.trusted[(1 : PeerId)]?.isSome := by
  have hrun := (@onTime_run _ _ _ _ (fun _ _ ↦ true) (run_of_checked refreshedThrice_checked)).mono
    fun x a h ↦ h.1
  exact ⟨_, _, hrun, by decide +kernel⟩

end FluxSync.Daemon
