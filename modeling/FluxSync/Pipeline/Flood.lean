import Mathlib.Data.List.Dedup
import FluxSync.Pipeline.Acks

/-! ## An item's way through the mesh -/

namespace FluxSync.Pipeline

open Std Mesh Runs

/-- The links of the mesh, over which each peer may send. -/
structure LinkGraph where
  nodes : Finset PeerId
  /-- `linked_peer_ids`. -/
  peers : PeerId → List PeerId
  not_self : ∀ n, n ∉ peers n

structure Packet where
  src : PeerId
  dst : PeerId
  item : Item
  deriving DecidableEq

/-- A daemon of the mesh. -/
structure Station where
  meshSeen : SeenSet := {}
  inflight : ExtTreeMap ContentHash Unacked := ∅
  localSeq : UInt64 := 0
  /-- Everything the seen-set was asked about, the last first. No task reads it. -/
  observed : List EventId := []

/-- The stations and the wire, on which nothing is used up. -/
structure Flood where
  nodes : PeerId → Station := fun _ ↦ {}
  sent : List Packet := []
  /-- The packets that answer a `ResyncPull` of the peer they go to. -/
  served : List Packet := []
  /-- What the stations have handed to their Apps. -/
  handed : List Packet := []
  forwards : List (PeerId × EventId) := []

/-- `track_inflight`. -/
def Station.track (x : Station) (item : Item) (targets : List PeerId) : Station :=
  let waiting := x.inflight[item.hash]?.elim [] (·.pendingPeers)
  { x with
    inflight := x.inflight.insert item.hash ⟨item, waiting ++ targets.filter (· ∉ waiting)⟩ }

namespace Flood

open Acks (eventId release)

/-- What a delivery leaves to its moment. `reach` are the linked peers that are confirmed and
accept the kind. -/
structure Moment where
  blocked : Bool := false
  reach : List PeerId := []

inductive Act
  | copy (n : PeerId) (item : Item) (reach : List PeerId)
  /-- All the frames of the packet with this index have come in, for the first time or again. -/
  | arrive (i : ℕ) (m : Moment)
  /-- The retransmit tick, or an answer to a `Nak`. -/
  | resend (n p : PeerId) (hash : ContentHash)
  /-- The answer to a `ResyncPull` of `p`. -/
  | serve (n p : PeerId) (item : Item)
  | ack (n p : PeerId) (hash : ContentHash)
  | abandon (n : PeerId) (hash : ContentHash)

variable (env : Env) (g : LinkGraph)

def setNode (s : Flood) (n : PeerId) (x : Station) : Flood :=
  { s with nodes := Function.update s.nodes n x }

def send (s : Flood) (n : PeerId) (item : Item) (targets : List PeerId) : Flood :=
  if targets = [] then s
  else
    let sent := s.sent ++ targets.map fun p ↦ ⟨n, p, item⟩
    { s with sent }.setNode n ((s.nodes n).track item targets)

/-- The targets of `forward_frames`. -/
def relayTargets (m : Moment) (x : Packet) : List PeerId :=
  m.reach.filter fun p ↦ p ≠ x.src ∧ p ≠ x.item.origin

/-- A verified item is looked up in the seen-set; the first time it goes on and to the App. -/
def receive (s : Flood) (x : Packet) (m : Moment) : Flood :=
  let n := s.nodes x.dst
  let (meshSeen, firstSight) := n.meshSeen.observe (eventId x.item)
  let s := s.setNode x.dst { n with meshSeen, observed := eventId x.item :: n.observed }
  if firstSight then
    let targets := relayTargets m x
    let s := { s with handed := x :: s.handed }
    if m.blocked ∨ targets = [] then s
    else { s with forwards := (x.dst, eventId x.item) :: s.forwards }.send x.dst x.item targets
  else s

def step (s : Flood) : Act → Option Flood
  | .copy n item reach =>
    if n ∈ g.nodes ∧ (reach.all fun p ↦ p ∈ g.peers n) ∧ item.origin = n ∧
        item.eventSeq = (s.nodes n).localSeq then
      some ((s.setNode n { s.nodes n with localSeq := item.eventSeq + 1 }).send n item reach)
    else none
  | .arrive i m =>
    match s.sent[i]? with
    | some x =>
      if x.dst ∈ g.nodes ∧ m.reach.all fun p ↦ p ∈ g.peers x.dst then
        if verifyContentHash env x.item.kind x.item.payload x.item.hash then some (s.receive x m)
        else some s
      else none
    | none => none
  | .resend n p hash =>
    match (s.nodes n).inflight[hash]? with
    | some u =>
      if p ∈ u.pendingPeers then some { s with sent := s.sent ++ [⟨n, p, u.item⟩] } else none
    | none => none
  | .serve n p item =>
    if p ∈ g.peers n ∧ (eventId item ∈ (s.nodes n).observed ∨ item.origin = n) then
      some ({ s with served := ⟨n, p, item⟩ :: s.served }.send n item [p])
    else none
  | .ack n p hash =>
    some (s.setNode n { s.nodes n with inflight := release (s.nodes n).inflight hash p })
  | .abandon n hash =>
    some (s.setNode n { s.nodes n with inflight := (s.nodes n).inflight.erase hash })

/-- The ids that the station saw for the first time after it saw this one. -/
def seenSince (x : Station) (id : EventId) : List EventId := x.observed.dedup.takeWhile (· ≠ id)

def Packet.Verified (x : Packet) : Prop :=
  verifyContentHash env x.item.kind x.item.payload x.item.hash = true

/-- Between two sightings of an id at a station it sees fewer than 256 others. -/
def InWindow (s : Flood) : Act → Prop
  | .arrive i _ => ∀ x ∈ s.sent[i]?, Packet.Verified env x → ∀ since before,
      (s.nodes x.dst).observed = since ++ eventId x.item :: before →
        (since.filter (· ≠ eventId x.item)).dedup.length < 256
  | _ => True

/-- Nothing is sent again to the daemon it comes from, unless that had pulled it. -/
def NoReturn (s : Flood) : Act → Prop
  | .resend n p hash => ∀ u ∈ (s.nodes n).inflight[hash]?, u.item.origin = p →
      ⟨n, p, u.item⟩ ∈ s.served
  | _ => True

variable {env : Env} {g : LinkGraph} {s s' : Flood} {n p : PeerId} {x y : Packet} {item : Item}
  {m : Moment} {a : Act} {l : List Act} {targets : List PeerId} {id : EventId} {log : List EventId}

theorem exists_first {log : List EventId} (h : id ∈ log) :
    ∃ since before, log = since ++ id :: before ∧ id ∉ before := by
  obtain ⟨since, before, hlog, hnot⟩ := List.eq_append_cons_of_mem (List.mem_reverse.mpr h)
  refine ⟨before.reverse, since.reverse, ?_, by simpa using hnot⟩
  rw [← List.reverse_reverse log, hlog]
  simp

theorem takeWhile_to {ids rest : List EventId} (hid : id ∉ ids) :
    (ids ++ id :: rest).takeWhile (· ≠ id) = ids := by
  rw [List.takeWhile_append_of_pos, List.takeWhile_cons_of_neg (by simp), List.append_nil]
  intro a ha
  have hne : a ≠ id := fun h ↦ hid (h ▸ ha)
  simpa using hne

/-- What was first seen since the first sighting was seen since then. -/
theorem length_seenSince {x : Station} (hid : id ∈ x.observed)
    (hw : ∀ since before, x.observed = since ++ id :: before →
      (since.filter (· ≠ id)).dedup.length < 256) :
    (seenSince x id).length < 256 := by
  obtain ⟨since, before, hlog, hbefore⟩ := exists_first hid
  obtain ⟨ids, hids, hunion⟩ := List.sublist_suffix_of_union since (id :: before).dedup
  have hdedup : x.observed.dedup = ids ++ id :: before.dedup := by
    rw [hlog, List.dedup_append, ← hunion, List.dedup_cons_of_notMem hbefore]
  have hnodup : (ids ++ id :: before.dedup).Nodup := hdedup ▸ List.nodup_dedup _
  have hout : id ∉ ids := fun hmem ↦ (List.nodup_append.mp hnodup).2.2 id hmem id (by simp) rfl
  rw [seenSince, hdedup, takeWhile_to hout]
  have hsub : ids ⊆ (since.filter (· ≠ id)).dedup := by
    intro a ha
    refine List.mem_dedup.mpr (List.mem_filter.mpr ⟨hids.subset ha, ?_⟩)
    have hne : a ≠ id := fun h ↦ hout (h ▸ ha)
    simpa using hne
  calc ids.length
      ≤ (since.filter (· ≠ id)).dedup.length :=
        ((List.nodup_append.mp hnodup).1.subperm hsub).length_le
    _ < 256 := hw since before hlog

/-- A seen-set after a log of sightings none of which came too late. -/
def Follows (seen : SeenSet) (log : List EventId) : Prop :=
  seen.capacity = 256 ∧ seen.inner = (log.dedup.take 256).reverse

theorem Follows.known {seen : SeenSet} (h : Follows seen log) (hid : id ∈ log)
    (hw : (log.dedup.takeWhile (· ≠ id)).length < 256) : id ∈ seen.inner := by
  rw [h.2, List.mem_reverse]
  have hmem : id ∈ log.dedup := List.mem_dedup.mpr hid
  have hpre : log.dedup.takeWhile (· ≠ id) ++ [id] <+: log.dedup := by
    have hdrop : log.dedup.dropWhile (· ≠ id) ≠ [] := by
      intro hnil
      have := List.dropWhile_eq_nil_iff.mp hnil id hmem
      simp at this
    obtain ⟨a, rest, hrest⟩ := List.exists_cons_of_ne_nil hdrop
    have ha : a = id := by
      have := List.head?_dropWhile_not (fun b ↦ decide (b ≠ id)) log.dedup
      rw [hrest] at this
      simpa using this
    refine ⟨rest, ?_⟩
    rw [← ha, List.append_assoc, List.singleton_append, ← hrest, ha,
      List.takeWhile_append_dropWhile]
  have hlen : (log.dedup.takeWhile (· ≠ id) ++ [id]).length ≤ 256 := by
    rw [List.length_append, List.length_singleton]
    omega
  exact (List.prefix_take_iff.mpr ⟨hpre, hlen⟩).subset (by simp)

theorem Follows.observe {seen : SeenSet} (h : Follows seen log)
    (hw : id ∈ log → (log.dedup.takeWhile (· ≠ id)).length < 256) :
    Follows (seen.observe id).1 (id :: log) ∧ ((seen.observe id).2 = true ↔ id ∉ log) := by
  by_cases hid : id ∈ log
  · have hknown := h.known hid (hw hid)
    rw [SeenSet.observe, if_pos hknown]
    refine ⟨?_, by simp [hid]⟩
    rw [Follows, List.dedup_cons_of_mem hid]
    exact h
  · have hfresh : id ∉ seen.inner := by
      rw [h.2, List.mem_reverse]
      exact fun hmem ↦ hid (List.mem_dedup.mp (List.mem_of_mem_take hmem))
    rw [SeenSet.observe, if_neg hfresh]
    refine ⟨⟨h.1, ?_⟩, by simp [hid]⟩
    rw [List.dedup_cons_of_notMem hid, List.take_succ_cons, List.reverse_cons, h.1, h.2]
    have hsize : (log.dedup.take 256).reverse.length = min 256 log.dedup.length := by
      rw [List.length_reverse, List.length_take]
    split
    case isTrue hfull =>
      rw [hsize] at hfull
      have hlast : min (min 256 log.dedup.length - 1) 256 = 255 := by omega
      rw [List.tail_reverse, List.dropLast_eq_take, List.take_take, List.length_take, hlast]
    case isFalse hroom =>
      rw [hsize] at hroom
      have hlt : log.dedup.length ≤ 255 := by omega
      show (log.dedup.take 256).reverse ++ [id] = _
      rw [List.take_of_length_le (Nat.le_succ_of_le hlt), List.take_of_length_le hlt]

/-- The event a packet brings to its station. -/
def Packet.sight (x : Packet) : PeerId × EventId := (x.dst, eventId x.item)

structure Once (g : LinkGraph) (s : Flood) : Prop where
  follows : ∀ n, Follows (s.nodes n).meshSeen (s.nodes n).observed
  handed : (s.handed.map Packet.sight).Nodup
  handedSeen : ∀ x ∈ s.handed, eventId x.item ∈ (s.nodes x.dst).observed
  forwards : s.forwards.Nodup
  forwardsSeen : ∀ f ∈ s.forwards, f.1 ∈ g.nodes ∧ f.2 ∈ (s.nodes f.1).observed

theorem Once.of_eq (h : Once g s) (hseen : ∀ n, (s'.nodes n).meshSeen = (s.nodes n).meshSeen)
    (hobs : ∀ n, (s'.nodes n).observed = (s.nodes n).observed) (hhanded : s'.handed = s.handed)
    (hforwards : s'.forwards = s.forwards) : Once g s' where
  follows n := by
    rw [hseen, hobs]
    exact h.follows n
  handed := by
    rw [hhanded]
    exact h.handed
  handedSeen x hx := by
    rw [hobs]
    exact h.handedSeen x (hhanded ▸ hx)
  forwards := by
    rw [hforwards]
    exact h.forwards
  forwardsSeen f hf := by
    rw [hobs]
    exact h.forwardsSeen f (hforwards ▸ hf)

theorem Once.setNode {x : Station} (h : Once g s) (hseen : x.meshSeen = (s.nodes n).meshSeen)
    (hobs : x.observed = (s.nodes n).observed) : Once g (s.setNode n x) := by
  have hnode {f : Station → SeenSet × List EventId} (hf : f x = f (s.nodes n)) (k : PeerId) :
      f ((s.setNode n x).nodes k) = f (s.nodes k) := by
    by_cases hk : k = n
    · subst hk
      simpa [Flood.setNode] using hf
    · simp [Flood.setNode, Function.update_of_ne hk]
  have hboth (k : PeerId) := hnode (f := fun x ↦ (x.meshSeen, x.observed)) (by rw [hseen, hobs]) k
  exact h.of_eq (fun k ↦ congrArg Prod.fst (hboth k)) (fun k ↦ congrArg Prod.snd (hboth k)) rfl rfl

theorem Once.send (h : Once g s) : Once g (s.send n item targets) := by
  rw [Flood.send]
  split
  · exact h
  · have hsent : Once g { s with sent := s.sent ++ targets.map fun p ↦ ⟨n, p, item⟩ } :=
      h.of_eq (fun _ ↦ rfl) (fun _ ↦ rfl) rfl rfl
    exact hsent.setNode rfl rfl

theorem Once.receive (h : Once g s) (hn : x.dst ∈ g.nodes)
    (hw : eventId x.item ∈ (s.nodes x.dst).observed →
      (seenSince (s.nodes x.dst) (eventId x.item)).length < 256) : Once g (s.receive x m) := by
  obtain ⟨hfollows, hfirst⟩ := (h.follows x.dst).observe hw
  let x' : Station :=
    { s.nodes x.dst with
      meshSeen := ((s.nodes x.dst).meshSeen.observe (eventId x.item)).1
      observed := eventId x.item :: (s.nodes x.dst).observed }
  have hother {k : PeerId} (hk : k ≠ x.dst) : (s.setNode x.dst x').nodes k = s.nodes k :=
    Function.update_of_ne hk _ _
  have hself : (s.setNode x.dst x').nodes x.dst = x' := Function.update_self ..
  have hsub (k : PeerId) : (s.nodes k).observed ⊆ ((s.setNode x.dst x').nodes k).observed := by
    by_cases hk : k = x.dst
    · subst hk
      rw [hself]
      exact List.subset_cons_self _ _
    · rw [hother hk]
      exact List.Subset.refl _
  have hset : Once g (s.setNode x.dst x') := by
    refine ⟨fun k ↦ ?_, h.handed, fun y hy ↦ hsub _ (h.handedSeen y hy), h.forwards,
      fun f hf ↦ ⟨(h.forwardsSeen f hf).1, hsub _ (h.forwardsSeen f hf).2⟩⟩
    by_cases hk : k = x.dst
    · subst hk
      rw [hself]
      exact hfollows
    · rw [hother hk]
      exact h.follows k
  have hnew : eventId x.item ∈ ((s.setNode x.dst x').nodes x.dst).observed := by
    rw [hself]
    exact List.mem_cons_self
  simp only [Flood.receive]
  split
  case isFalse => exact hset
  case isTrue hsight =>
    have hunseen := hfirst.mp hsight
    have hhanded : Once g { s.setNode x.dst x' with handed := x :: s.handed } := by
      refine ⟨hset.follows, ?_, ?_, hset.forwards, hset.forwardsSeen⟩
      · refine List.nodup_cons.mpr ⟨fun hmem ↦ ?_, h.handed⟩
        obtain ⟨y, hy, heq⟩ := List.mem_map.mp hmem
        obtain ⟨hdst, hid⟩ := Prod.mk.inj heq
        have := h.handedSeen y hy
        rw [hdst, hid] at this
        exact hunseen this
      · rintro y (_ | ⟨_, hy⟩)
        · exact hnew
        · exact hset.handedSeen y hy
    split
    · exact hhanded
    · apply Once.send
      refine ⟨hhanded.follows, hhanded.handed, hhanded.handedSeen, ?_, ?_⟩
      · exact List.nodup_cons.mpr ⟨fun hmem ↦ hunseen (h.forwardsSeen _ hmem).2, h.forwards⟩
      · rintro f (_ | ⟨_, hf⟩)
        · exact ⟨hn, hnew⟩
        · exact hset.forwardsSeen f hf

theorem Once.step (h : Once g s) (ha : s.InWindow env a) (hs : s.step env g a = some s') : Once g s' := by
  cases a with
  | copy n item reach =>
    obtain ⟨-, hs⟩ := Option.ite_none_right_eq_some.mp hs
    obtain rfl := Option.some.inj hs
    have hcopied : Once g (s.setNode n { s.nodes n with localSeq := item.eventSeq + 1 }) :=
      h.setNode rfl rfl
    exact hcopied.send
  | arrive i m =>
    simp only [Flood.step] at hs
    split at hs
    case h_2 => cases hs
    case h_1 x hx =>
      obtain ⟨⟨hn, -⟩, hs⟩ := Option.ite_none_right_eq_some.mp hs
      split at hs
      case isTrue hv =>
        exact Option.some.inj hs ▸ h.receive hn fun hseen ↦ length_seenSince hseen (ha x hx hv)
      case isFalse => exact Option.some.inj hs ▸ h
  | resend n p hash =>
    simp only [Flood.step] at hs
    split at hs
    case h_2 => cases hs
    case h_1 u hu =>
      obtain ⟨-, hs⟩ := Option.ite_none_right_eq_some.mp hs
      obtain rfl := Option.some.inj hs
      exact h.of_eq (fun _ ↦ rfl) (fun _ ↦ rfl) rfl rfl
  | serve n p item =>
    obtain ⟨-, hs⟩ := Option.ite_none_right_eq_some.mp hs
    obtain rfl := Option.some.inj hs
    have hserved : Once g { s with served := ⟨n, p, item⟩ :: s.served } :=
      h.of_eq (fun _ ↦ rfl) (fun _ ↦ rfl) rfl rfl
    exact hserved.send
  | ack | abandon => exact Option.some.inj hs ▸ h.setNode rfl rfl

theorem once_start : Once g {} where
  follows n := ⟨rfl, rfl⟩
  handed := by simp
  handedSeen := by simp
  forwards := by simp
  forwardsSeen := by simp

theorem once_run (h : Run (step env g) (InWindow env) {} l s) : Once g s :=
  h.invariant once_start fun _ _ _ ho ha hs ↦ ho.step ha hs

/-- Every station hands an event to its App and forwards it at most once, so that an item is
forwarded at most as often as there are stations. -/
theorem flooded_once (h : Run (step env g) (InWindow env) {} l s) :
    (s.handed.map Packet.sight).Nodup ∧ s.forwards.Nodup ∧
      ∀ id, (s.forwards.filter (·.2 = id)).length ≤ g.nodes.card := by
  have ho := once_run h
  refine ⟨ho.handed, ho.forwards, fun id ↦ ?_⟩
  have hnodup : ((s.forwards.filter (·.2 = id)).map Prod.fst).Nodup := by
    refine List.Nodup.map_on ?_ (ho.forwards.filter _)
    intro f hf f' hf' heq
    have hid : f.2 = id := by simpa using (List.mem_filter.mp hf).2
    have hid' : f'.2 = id := by simpa using (List.mem_filter.mp hf').2
    exact Prod.ext heq (hid.trans hid'.symm)
  calc (s.forwards.filter (·.2 = id)).length
      = ((s.forwards.filter (·.2 = id)).map Prod.fst).toFinset.card := by
        rw [List.toFinset_card_of_nodup hnodup, List.length_map]
    _ ≤ g.nodes.card := by
        apply Finset.card_le_card
        intro n hn
        obtain ⟨f, hf, rfl⟩ := List.mem_map.mp (List.mem_toFinset.mp hn)
        exact (ho.forwardsSeen f (List.mem_of_mem_filter hf)).1

/-- Three daemons, each linked with the others. -/
def triangle : LinkGraph where
  nodes := {1, 2, 3}
  peers n := [1, 2, 3].filter (· ≠ n)
  not_self n := by simp

/-- The text as `n` has copied it. -/
def textOf (n : PeerId) : Item := { Acks.text 0 with origin := n }

/-- A text goes round the triangle, and the ack of a copy is lost. -/
def roundTrip : List Act :=
  [.copy 1 (textOf 1) [2, 3], .arrive 0 { reach := [1, 3] }, .arrive 1 { reach := [1, 2] },
    .arrive 2 { reach := [1, 2] }, .arrive 3 { reach := [1, 3] }, .resend 1 2 1, .arrive 4 {}]

/-- Where a station has not seen 256 ids yet, none can have come too late. -/
def young (s : Flood) : Act → Bool
  | .arrive i _ => s.sent[i]?.all fun x ↦ (s.nodes x.dst).observed.length < 256
  | _ => true

theorem inWindow_of_young (h : s.young a) : s.InWindow env a := by
  cases a with
  | arrive i m =>
    intro x hx _ since before hlog
    simp only [young, Option.mem_def.mp hx, Option.all_some, decide_eq_true_eq, hlog] at h
    calc (since.filter (· ≠ eventId x.item)).dedup.length
        ≤ (since.filter (· ≠ eventId x.item)).length := (List.dedup_sublist _).length_le
      _ ≤ since.length := List.length_filter_le _ _
      _ < 256 := by
        rw [List.length_append] at h
        omega
  | _ => trivial

theorem roundTrip_young : (roundTrip.foldlM (fun (s : Flood) a ↦
    if s.young a then s.step Acks.hashed triangle a else none) {}).isSome := by
  decide +kernel

theorem flooded_once_roundTrip :
    ∃ s, Run (step Acks.hashed triangle) (InWindow Acks.hashed) {} roundTrip s ∧
      s.handed.map Packet.sight = [(3, ⟨1, 0⟩), (2, ⟨1, 0⟩)] ∧ (s.handed.map Packet.sight).Nodup ∧
      s.forwards.Nodup ∧ ∀ id, (s.forwards.filter (·.2 = id)).length ≤ triangle.nodes.card := by
  have hrun : Run (step Acks.hashed triangle) (InWindow Acks.hashed) {} roundTrip _ :=
    (run_of_checked roundTrip_young).mono fun _ _ h ↦ inWindow_of_young h
  exact ⟨_, hrun, by decide +kernel, flooded_once hrun⟩

/-- Only answers to its own pulls are on the way to the daemon an item comes from. -/
structure Outward (s : Flood) : Prop where
  sent : ∀ x ∈ s.sent, x.item.origin = x.dst → x ∈ s.served
  handed : ∀ x ∈ s.handed, x ∈ s.sent

theorem sent_setNode {x : Station} : (s.setNode n x).sent = s.sent := rfl

theorem mem_send (hx : x ∈ (s.send n item targets).sent) :
    x ∈ s.sent ∨ ∃ p ∈ targets, x = ⟨n, p, item⟩ := by
  rw [Flood.send] at hx
  split at hx
  · exact .inl hx
  · rcases List.mem_append.mp hx with hx | hx
    · exact .inl hx
    · obtain ⟨p, hp, rfl⟩ := List.mem_map.mp hx
      exact .inr ⟨p, hp, rfl⟩

theorem Outward.send (h : s.Outward) (ht : ∀ p ∈ targets, item.origin = p → ⟨n, p, item⟩ ∈ s.served) :
    (s.send n item targets).Outward := by
  have hsame : (s.send n item targets).served = s.served ∧
      (s.send n item targets).handed = s.handed ∧ s.sent ⊆ (s.send n item targets).sent := by
    rw [Flood.send]
    split
    · exact ⟨rfl, rfl, List.Subset.refl _⟩
    · exact ⟨rfl, rfl, List.subset_append_left _ _⟩
  obtain ⟨hserved, hhanded, hsub⟩ := hsame
  constructor
  · intro x hx horigin
    rw [hserved]
    rcases mem_send hx with hx | ⟨p, hp, rfl⟩
    · exact h.sent x hx horigin
    · exact ht p hp horigin
  · intro x hx
    rw [hhanded] at hx
    exact hsub (h.handed x hx)

theorem Outward.receive (h : s.Outward) (hx : x ∈ s.sent) : (s.receive x m).Outward := by
  simp only [Flood.receive]
  split
  case isFalse => exact ⟨h.sent, h.handed⟩
  case isTrue =>
    have hhanded {s' : Flood} (hsent : s'.sent = s.sent) (hserved : s'.served = s.served)
        (hh : s'.handed = x :: s.handed) : s'.Outward := by
      refine ⟨by rw [hsent, hserved]; exact h.sent, fun y hy ↦ ?_⟩
      rw [hh] at hy
      rw [hsent]
      rcases List.mem_cons.mp hy with rfl | hy
      · exact hx
      · exact h.handed y hy
    split
    · exact hhanded rfl rfl rfl
    · apply Outward.send
      · exact hhanded rfl rfl rfl
      · rintro p hp rfl
        have := (List.mem_filter.mp hp).2
        simp at this

theorem Outward.step (h : s.Outward) (ha : s.NoReturn a) (hs : s.step env g a = some s') :
    s'.Outward := by
  cases a with
  | copy n item reach =>
    obtain ⟨⟨-, hreach, rfl, -⟩, hs⟩ := Option.ite_none_right_eq_some.mp hs
    obtain rfl := Option.some.inj hs
    apply Outward.send
    · exact ⟨h.sent, h.handed⟩
    · rintro p hp rfl
      exact absurd (of_decide_eq_true (List.all_eq_true.mp hreach _ hp)) (g.not_self _)
  | arrive i m =>
    simp only [Flood.step] at hs
    split at hs
    case h_2 => cases hs
    case h_1 x hx =>
      obtain ⟨-, hs⟩ := Option.ite_none_right_eq_some.mp hs
      split at hs
      · exact Option.some.inj hs ▸ h.receive (List.mem_of_getElem? hx)
      · exact Option.some.inj hs ▸ h
  | resend n p hash =>
    simp only [Flood.step] at hs
    split at hs
    case h_2 => cases hs
    case h_1 u hu =>
      obtain ⟨-, hs⟩ := Option.ite_none_right_eq_some.mp hs
      obtain rfl := Option.some.inj hs
      constructor
      · intro x hx horigin
        rcases List.mem_append.mp hx with hx | hx
        · exact h.sent x hx horigin
        · obtain rfl := List.mem_singleton.mp hx
          exact ha u hu horigin
      · exact fun x hx ↦ List.mem_append_left _ (h.handed x hx)
  | serve n p item =>
    obtain ⟨-, hs⟩ := Option.ite_none_right_eq_some.mp hs
    obtain rfl := Option.some.inj hs
    apply Outward.send
    · exact ⟨fun x hx ho ↦ List.mem_cons_of_mem _ (h.sent x hx ho), h.handed⟩
    · rintro q hq -
      rw [List.mem_singleton.mp hq]
      exact List.mem_cons_self
  | ack | abandon => exact Option.some.inj hs ▸ ⟨h.sent, h.handed⟩

/-- What a station hands to its App and has copied itself it had pulled. -/
theorem own_copies_pulled (h : Run (step env g) NoReturn {} l s) :
    ∀ x ∈ s.handed, x.item.origin = x.dst → x ∈ s.served := by
  have ho : s.Outward := h.invariant ⟨by simp, by simp⟩ fun _ _ _ ho ha hs ↦ ho.step ha hs
  exact fun x hx ↦ ho.sent x (ho.handed x hx)

/-- A daemon pulls its own text back, and the answer is sent again. -/
def pulledBack : List Act :=
  [.copy 2 (textOf 2) [1], .arrive 0 { reach := [3] }, .serve 1 2 (textOf 2), .resend 1 2 1,
    .arrive 3 {}]

/-- A test of `NoReturn`. -/
def returnsServed (s : Flood) : Act → Bool
  | .resend n p hash => (s.nodes n).inflight[hash]?.all fun u ↦
    u.item.origin ≠ p ∨ ⟨n, p, u.item⟩ ∈ s.served
  | _ => true

theorem noReturn_of_returnsServed (h : s.returnsServed a) : s.NoReturn a := by
  cases a with
  | resend n p hash =>
    intro u hu horigin
    simp only [returnsServed, Option.mem_def.mp hu, Option.all_some, decide_eq_true_eq] at h
    exact h.resolve_left (not_not.mpr horigin)
  | _ => trivial

theorem pulledBack_returnsServed : (pulledBack.foldlM (fun (s : Flood) a ↦
    if s.returnsServed a then s.step Acks.hashed triangle a else none) {}).isSome := by
  decide +kernel

theorem own_copies_pulled_pulledBack :
    ∃ s, Run (step Acks.hashed triangle) NoReturn {} pulledBack s ∧
      s.handed.map Packet.sight = [(2, ⟨2, 0⟩), (1, ⟨2, 0⟩)] ∧
      ∀ x ∈ s.handed, x.item.origin = x.dst → x ∈ s.served := by
  have hrun : Run (step Acks.hashed triangle) NoReturn {} pulledBack _ :=
    (run_of_checked pulledBack_returnsServed).mono fun _ _ h ↦ noReturn_of_returnsServed h
  exact ⟨_, hrun, by decide +kernel, own_copies_pulled hrun⟩

/-- Two daemons copy one text. The first goes on with the second's item under the same hash while
the second has not acked the first's, and sends it again. -/
def copiedTwice : List Act :=
  [.copy 1 (textOf 1) [2], .copy 2 (textOf 2) [1], .arrive 1 { reach := [2, 3] }, .resend 1 2 1,
    .arrive 3 {}]

/-- The second is handed what it has copied itself. -/
theorem own_copy_returns : ∃ s, Run (step Acks.hashed triangle) Always {} copiedTwice s ∧
    ∃ x ∈ s.handed, x.item.origin = x.dst ∧ x ∉ s.served := by
  have hrun : Run (step Acks.hashed triangle) Always {} copiedTwice _ :=
    run_of_isSome (by decide +kernel)
  exact ⟨_, hrun, ⟨1, 2, textOf 2⟩, by decide +kernel, rfl, by decide +kernel⟩

end Flood

end FluxSync.Pipeline
