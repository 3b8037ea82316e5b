import Mathlib.Logic.Relation
import FluxSync.Pipeline.Flood

/-! ## Whom a copy reaches -/

namespace FluxSync.Pipeline.Flood

open Std Mesh Runs Acks

variable {env : Env} {g : LinkGraph} {s s' : Flood} {n p : PeerId} {x y : Packet} {item : Item}
  {m : Moment} {a : Act} {l : List Act} {targets : List PeerId} {id : EventId}

/-- An item with the event is on the wire to `p`, or was. -/
def Offered (id : EventId) (s : Flood) (p : PeerId) : Prop := ∃ x ∈ s.sent, Packet.sight x = (p, id)

/-- The App of `n` was handed the event. -/
def Reached (id : EventId) (s : Flood) (n : PeerId) : Prop := ∃ x ∈ s.handed, Packet.sight x = (n, id)

/-- Where the event is copied and where it first comes in, all links are up for it: every linked
peer is confirmed and accepts the kind, and the firewall lets it on. -/
def Open (g : LinkGraph) (id : EventId) (s : Flood) : Act → Prop
  | .copy n item reach => eventId item = id → g.peers n ⊆ reach
  | .arrive i m => ∀ x ∈ s.sent[i]?, eventId x.item = id → id ∉ (s.nodes x.dst).observed →
      m.blocked = false ∧ g.peers x.dst ⊆ m.reach
  | _ => True

theorem Offered.mono (h : Offered id s p) (hsent : s.sent ⊆ s'.sent) : Offered id s' p := by
  obtain ⟨x, hx, hsight⟩ := h
  exact ⟨x, hsent hx, hsight⟩

theorem Reached.mono (h : Reached id s n) (hhanded : s.handed ⊆ s'.handed) : Reached id s' n := by
  obtain ⟨x, hx, hsight⟩ := h
  exact ⟨x, hhanded hx, hsight⟩

/-- Whoever sends the event has copied it or was handed it. -/
structure Traced (id : EventId) (s : Flood) : Prop where
  seen : ∀ n, (s.nodes n).meshSeen.inner ⊆ (s.nodes n).observed
  observed : ∀ n, id ∈ (s.nodes n).observed → Reached id s n
  tracked : ∀ n (hash : ContentHash) (u : Unacked), (s.nodes n).inflight[hash]? = some u → eventId u.item = id →
    n = id.origin ∨ Reached id s n
  sources : ∀ x ∈ s.sent, eventId x.item = id → x.src = id.origin ∨ Reached id s x.src
  handed : ∀ x ∈ s.handed, x ∈ s.sent

theorem Traced.setNode {k : Station} (h : Traced id s) (hseen : k.meshSeen.inner ⊆ k.observed)
    (hobs : id ∈ k.observed → Reached id s n)
    (htracked : ∀ (hash : ContentHash) (u : Unacked), k.inflight[hash]? = some u → eventId u.item = id →
      n = id.origin ∨ Reached id s n) : Traced id (s.setNode n k) := by
  have hself : (s.setNode n k).nodes n = k := Function.update_self ..
  have hother {q : PeerId} (hq : q ≠ n) : (s.setNode n k).nodes q = s.nodes q :=
    Function.update_of_ne hq _ _
  refine ⟨fun q ↦ ?_, fun q ↦ ?_, fun q ↦ ?_, h.sources, h.handed⟩
  · by_cases hq : q = n
    · subst hq
      rw [hself]
      exact hseen
    · rw [hother hq]
      exact h.seen q
  · by_cases hq : q = n
    · subst hq
      rw [hself]
      exact hobs
    · rw [hother hq]
      exact h.observed q
  · by_cases hq : q = n
    · subst hq
      rw [hself]
      exact htracked
    · rw [hother hq]
      exact h.tracked q

theorem mem_sent_send (hp : p ∈ targets) : (⟨n, p, item⟩ : Packet) ∈ (s.send n item targets).sent := by
  rw [Flood.send, if_neg (List.ne_nil_of_mem hp)]
  exact List.mem_append_right _ (List.mem_map_of_mem hp)

theorem send_mono : s.sent ⊆ (s.send n item targets).sent ∧
    (s.send n item targets).handed = s.handed := by
  rw [Flood.send]
  split
  · exact ⟨List.Subset.refl _, rfl⟩
  · exact ⟨List.subset_append_left _ _, rfl⟩

theorem Traced.emit (h : Traced id s) (hn : eventId item = id → n = id.origin ∨ Reached id s n)
    (targets : List PeerId) :
    Traced id { s with sent := s.sent ++ targets.map fun p ↦ ⟨n, p, item⟩ } where
  seen := h.seen
  observed := h.observed
  tracked := h.tracked
  sources x hx hid := by
    rcases List.mem_append.mp hx with hx | hx
    · exact h.sources x hx hid
    · obtain ⟨p, -, rfl⟩ := List.mem_map.mp hx
      exact hn hid
  handed x hx := List.mem_append_left _ (h.handed x hx)

theorem Traced.send (h : Traced id s) (hn : eventId item = id → n = id.origin ∨ Reached id s n) :
    Traced id (s.send n item targets) := by
  rw [Flood.send]
  split
  · exact h
  · apply (h.emit hn targets).setNode
    · exact h.seen n
    · exact h.observed n
    · intro hash u hu hid
      simp only [Station.track, OrderedMap.lookup_insert] at hu
      split at hu
      · obtain rfl := Option.some.inj hu
        exact hn hid
      · exact h.tracked n hash u hu hid

theorem inner_observe {seen : SeenSet} {log : List EventId} {id : EventId} (h : seen.inner ⊆ log) :
    (seen.observe id).1.inner ⊆ id :: log := by
  rw [SeenSet.observe]
  split
  · exact List.subset_cons_of_subset _ h
  · have hkept : (if seen.inner.length = seen.capacity then seen.inner.tail else seen.inner) ⊆ log := by
      split
      · exact fun e he ↦ h (List.mem_of_mem_tail he)
      · exact h
    intro e he
    rcases List.mem_append.mp he with he | he
    · exact List.mem_cons_of_mem _ (hkept he)
    · exact List.mem_singleton.mp he ▸ List.mem_cons_self

theorem mem_inner_of_known {seen : SeenSet} {id : EventId} (h : (seen.observe id).2 = false) :
    id ∈ seen.inner := by
  by_contra hnot
  rw [SeenSet.observe, if_neg hnot] at h
  cases h

/-- The station has looked the packet's event up, and goes on to hand it over. -/
theorem Traced.sight (h : Traced id s) (hx : x ∈ s.sent) :
    Traced id { s with
      handed := x :: s.handed
      nodes := Function.update s.nodes x.dst
        { s.nodes x.dst with
          meshSeen := ((s.nodes x.dst).meshSeen.observe (eventId x.item)).1
          observed := eventId x.item :: (s.nodes x.dst).observed } } := by
  have hmore : Traced id { s with handed := x :: s.handed } := by
    refine ⟨h.seen, fun n hn ↦ ?_, fun n hash u hu hid ↦ ?_, fun y hy hid ↦ ?_, fun y hy ↦ ?_⟩
    · exact (h.observed n hn).mono (List.subset_cons_self _ _)
    · exact (h.tracked n hash u hu hid).imp_right (·.mono (List.subset_cons_self _ _))
    · exact (h.sources y hy hid).imp_right (·.mono (List.subset_cons_self _ _))
    · rcases List.mem_cons.mp hy with rfl | hy
      · exact hx
      · exact h.handed y hy
  refine hmore.setNode (inner_observe (h.seen _)) ?_ (hmore.tracked x.dst)
  intro hid
  rcases List.mem_cons.mp hid with rfl | hid
  · exact ⟨x, List.mem_cons_self, rfl⟩
  · exact hmore.observed _ hid

theorem Traced.receive (h : Traced id s) (hx : x ∈ s.sent) : Traced id (s.receive x m) := by
  simp only [Flood.receive]
  split
  case isFalse hknown =>
    have hin := mem_inner_of_known (Bool.eq_false_of_not_eq_true hknown)
    refine h.setNode (inner_observe (h.seen _)) ?_ (h.tracked x.dst)
    intro hid
    rcases List.mem_cons.mp hid with rfl | hid
    · exact h.observed _ (h.seen _ hin)
    · exact h.observed _ hid
  case isTrue =>
    have hsight := h.sight hx
    split
    · exact hsight
    · have hforwarded : Traced id { s with
          handed := x :: s.handed
          forwards := (x.dst, eventId x.item) :: s.forwards
          nodes := Function.update s.nodes x.dst
            { s.nodes x.dst with
              meshSeen := ((s.nodes x.dst).meshSeen.observe (eventId x.item)).1
              observed := eventId x.item :: (s.nodes x.dst).observed } } :=
        ⟨hsight.seen, hsight.observed, hsight.tracked, hsight.sources, hsight.handed⟩
      refine hforwarded.send fun hid ↦ .inr ⟨x, List.mem_cons_self, ?_⟩
      rw [Packet.sight, hid]

theorem lookup_release {inflight : ExtTreeMap ContentHash Unacked} {hash h : ContentHash} {u : Unacked}
    (hu : (release inflight hash p)[h]? = some u) : ∃ u' : Unacked, inflight[h]? = some u' ∧ u'.item = u.item := by
  rw [release] at hu
  split at hu
  · exact ⟨u, hu, rfl⟩
  · split at hu
    · rename_i v hv
      split at hu
      · rw [OrderedMap.lookup_erase] at hu
        split at hu
        · cases hu
        · exact ⟨u, hu, rfl⟩
      · rw [OrderedMap.lookup_insert] at hu
        split at hu
        · rename_i hh
          obtain rfl := Option.some.inj hu
          exact ⟨v, hh ▸ hv, rfl⟩
        · exact ⟨u, hu, rfl⟩
    · exact ⟨u, hu, rfl⟩

theorem arrive_cases {i : ℕ} (hs : s.step env g (.arrive i m) = some s') :
    ∃ x, s.sent[i]? = some x ∧ (s' = s ∨ s' = s.receive x m) := by
  simp only [Flood.step] at hs
  split at hs
  case h_2 => cases hs
  case h_1 x hx =>
    obtain ⟨-, hs⟩ := Option.ite_none_right_eq_some.mp hs
    refine ⟨x, hx, ?_⟩
    split at hs
    · exact .inr (Option.some.inj hs).symm
    · exact .inl (Option.some.inj hs).symm

theorem resend_cases {hash : ContentHash} (hs : s.step env g (.resend n p hash) = some s') :
    ∃ u, (s.nodes n).inflight[hash]? = some u ∧
      s' = { s with sent := s.sent ++ [⟨n, p, u.item⟩] } := by
  simp only [Flood.step] at hs
  split at hs
  case h_2 => cases hs
  case h_1 u hu =>
    obtain ⟨-, hs⟩ := Option.ite_none_right_eq_some.mp hs
    exact ⟨u, hu, (Option.some.inj hs).symm⟩

theorem Traced.step (h : Traced id s) (hs : s.step env g a = some s') : Traced id s' := by
  cases a with
  | copy n item reach =>
    obtain ⟨⟨-, -, horigin, -⟩, hs⟩ := Option.ite_none_right_eq_some.mp hs
    obtain rfl := Option.some.inj hs
    have hcopied : Traced id (s.setNode n { s.nodes n with localSeq := item.eventSeq + 1 }) :=
      h.setNode (h.seen n) (h.observed n) (h.tracked n)
    refine hcopied.send ?_
    rintro rfl
    exact .inl horigin.symm
  | arrive i m =>
    obtain ⟨x, hx, rfl | rfl⟩ := arrive_cases hs
    · exact h
    · exact h.receive (List.mem_of_getElem? hx)
  | resend n p hash =>
    obtain ⟨u, hu, rfl⟩ := resend_cases hs
    exact h.emit (h.tracked n hash u hu) [p]
  | serve n p item =>
    obtain ⟨⟨-, hheld⟩, hs⟩ := Option.ite_none_right_eq_some.mp hs
    obtain rfl := Option.some.inj hs
    have hserved : Traced id { s with served := ⟨n, p, item⟩ :: s.served } :=
      ⟨h.seen, h.observed, h.tracked, h.sources, h.handed⟩
    refine hserved.send ?_
    rintro rfl
    rcases hheld with hheld | hheld
    · exact .inr (h.observed n hheld)
    · exact .inl hheld.symm
  | ack n p hash =>
    obtain rfl := Option.some.inj hs
    refine h.setNode (h.seen n) (h.observed n) fun k u hu hid ↦ ?_
    obtain ⟨u', hu', hitem⟩ := lookup_release hu
    exact h.tracked n k u' hu' (hitem ▸ hid)
  | abandon n hash =>
    obtain rfl := Option.some.inj hs
    refine h.setNode (h.seen n) (h.observed n) fun k u hu hid ↦ ?_
    rw [OrderedMap.lookup_erase] at hu
    split at hu
    · cases hu
    · exact h.tracked n k u hu hid

theorem receive_mono : s.sent ⊆ (s.receive x m).sent ∧ s.handed ⊆ (s.receive x m).handed := by
  simp only [Flood.receive]
  split
  · split
    · exact ⟨List.Subset.refl _, List.subset_cons_self _ _⟩
    · refine ⟨?_, ?_⟩
      · exact fun y hy ↦ send_mono.1 hy
      · rw [send_mono.2]
        exact List.subset_cons_self _ _
  · exact ⟨List.Subset.refl _, List.Subset.refl _⟩

/-- A packet that is handed over goes on to its targets, unless the firewall stops it. -/
theorem handed_receive (hx : x ∈ (s.receive y m).handed) : x ∈ s.handed ∨ x = y ∧
    (m.blocked = false → ∀ p ∈ relayTargets m y, (⟨y.dst, p, y.item⟩ : Packet) ∈ (s.receive y m).sent) := by
  simp only [Flood.receive] at hx ⊢
  split at hx
  case isFalse => exact .inl hx
  case isTrue hsight =>
    rw [if_pos hsight]
    by_cases hoff : m.blocked = true ∨ relayTargets m y = []
    · rw [if_pos hoff] at hx
      refine (List.mem_cons.mp hx).symm.imp_right fun hxy ↦ ⟨hxy, fun hm p hp ↦ ?_⟩
      have hnone : relayTargets m y = [] := hoff.resolve_left (by simp [hm])
      rw [hnone] at hp
      cases hp
    · rw [if_neg hoff, send_mono.2] at hx
      rw [if_neg hoff]
      exact (List.mem_cons.mp hx).symm.imp_right fun hxy ↦ ⟨hxy, fun _ p hp ↦ mem_sent_send hp⟩

theorem step_mono (hs : s.step env g a = some s') : s.sent ⊆ s'.sent ∧ s.handed ⊆ s'.handed := by
  cases a with
  | copy n item reach =>
    obtain ⟨-, hs⟩ := Option.ite_none_right_eq_some.mp hs
    obtain rfl := Option.some.inj hs
    exact ⟨fun y hy ↦ send_mono.1 hy, by rw [send_mono.2]; exact List.Subset.refl _⟩
  | arrive i m =>
    obtain ⟨x, -, rfl | rfl⟩ := arrive_cases hs
    · exact ⟨List.Subset.refl _, List.Subset.refl _⟩
    · exact receive_mono
  | resend n p hash =>
    obtain ⟨u, -, rfl⟩ := resend_cases hs
    exact ⟨List.subset_append_left _ _, List.Subset.refl _⟩
  | serve n p item =>
    obtain ⟨-, hs⟩ := Option.ite_none_right_eq_some.mp hs
    obtain rfl := Option.some.inj hs
    exact ⟨fun y hy ↦ send_mono.1 hy, by rw [send_mono.2]; exact List.Subset.refl _⟩
  | ack | abandon =>
    obtain rfl := Option.some.inj hs
    exact ⟨List.Subset.refl _, List.Subset.refl _⟩

/-- Who is handed the event in this step passes it on to all its links but those that have it. -/
theorem passed_on (h : Traced id s) (ha : Open g id s a) (hs : s.step env g a = some s')
    (hn : Reached id s' n) (hp : p ∈ g.peers n) :
    Reached id s n ∨ p = id.origin ∨ Reached id s p ∨ Offered id s' p := by
  cases a with
  | copy k item reach =>
    obtain ⟨-, hs⟩ := Option.ite_none_right_eq_some.mp hs
    obtain rfl := Option.some.inj hs
    rw [Reached, send_mono.2] at hn
    exact .inl hn
  | arrive i m =>
    obtain ⟨y, hy, rfl | rfl⟩ := arrive_cases hs
    · exact .inl hn
    · obtain ⟨x, hx, hsight⟩ := hn
      obtain ⟨rfl, hid⟩ := Prod.mk.inj hsight
      by_cases hold : Reached id s x.dst
      · exact .inl hold
      · obtain hx | ⟨rfl, hon⟩ := handed_receive hx
        · exact .inl ⟨x, hx, hsight⟩
        · obtain ⟨hm, hreach⟩ := ha x hy hid (mt (h.observed _) hold)
          by_cases hback : p = x.src
          · have hsource := h.sources x (List.mem_of_getElem? hy) hid
            exact .inr ((hback ▸ hsource).imp_right .inl)
          · by_cases hown : p = x.item.origin
            · exact .inr (.inl (hown.trans (congrArg EventId.origin hid)))
            · have htarget : p ∈ relayTargets m x :=
                List.mem_filter.mpr ⟨hreach hp, by simp [hback, hown]⟩
              refine .inr (.inr (.inr ⟨_, hon hm p htarget, ?_⟩))
              rw [Packet.sight, hid]
  | resend k p hash =>
    obtain ⟨u, -, rfl⟩ := resend_cases hs
    exact .inl hn
  | serve k p item =>
    obtain ⟨-, hs⟩ := Option.ite_none_right_eq_some.mp hs
    obtain rfl := Option.some.inj hs
    rw [Reached, send_mono.2] at hn
    exact .inl hn
  | ack | abandon =>
    obtain rfl := Option.some.inj hs
    exact .inl hn

/-- The event has gone, or is on its way, wherever those who have it have links to. -/
structure Spread (g : LinkGraph) (id : EventId) (l : List Act) (s : Flood) : Prop where
  traced : Traced id s
  copied : ∀ n item reach, .copy n item reach ∈ l → eventId item = id →
    item.origin = n ∧ ∀ p ∈ g.peers n, Offered id s p
  passed : ∀ n, Reached id s n → ∀ p ∈ g.peers n, p = id.origin ∨ Reached id s p ∨ Offered id s p

theorem Spread.step (h : Spread g id l s) (ha : Open g id s a) (hs : s.step env g a = some s') :
    Spread g id (l ++ [a]) s' := by
  obtain ⟨hsent, hhanded⟩ := step_mono hs
  refine ⟨h.traced.step hs, ?_, ?_⟩
  · intro n item reach hcopy hid
    rcases List.mem_append.mp hcopy with hcopy | hcopy
    · obtain ⟨horigin, hoffered⟩ := h.copied n item reach hcopy hid
      exact ⟨horigin, fun p hp ↦ (hoffered p hp).mono hsent⟩
    · obtain rfl := List.mem_singleton.mp hcopy
      obtain ⟨⟨-, -, horigin, -⟩, hs⟩ := Option.ite_none_right_eq_some.mp hs
      obtain rfl := Option.some.inj hs
      refine ⟨horigin, fun p hp ↦ ⟨⟨n, p, item⟩, mem_sent_send (ha hid hp), ?_⟩⟩
      rw [Packet.sight, hid]
  · intro n hn p hp
    have hmore : p = id.origin ∨ Reached id s p ∨ Offered id s' p := by
      obtain hn | hon := passed_on h.traced ha hs hn hp
      · exact (h.passed n hn p hp).imp_right (·.imp_right (·.mono hsent))
      · exact hon
    exact hmore.imp_right (·.imp_left (·.mono hhanded))

/-- Three daemons in a row. -/
def row : LinkGraph where
  nodes := {1, 2, 3}
  peers n := if n = 2 then [1, 3] else if n = 1 ∨ n = 3 then [2] else []
  not_self n := by
    split
    · simp_all
    · split
      · simp_all
      · exact List.not_mem_nil

/-- A test of `Open`. -/
def opened (g : LinkGraph) (id : EventId) (s : Flood) : Act → Bool
  | .copy n item reach => eventId item ≠ id || (g.peers n).all (· ∈ reach)
  | .arrive i m => s.sent[i]?.all fun x ↦ eventId x.item ≠ id || id ∈ (s.nodes x.dst).observed ||
      !m.blocked && (g.peers x.dst).all (· ∈ m.reach)
  | _ => true

end FluxSync.Pipeline.Flood
