import FluxSync.Pipeline.Resync

/-! ## What an ack says -/

namespace FluxSync.Pipeline

open Std Mesh Runs

/-- An inflight entry: the item whose frames are sent again, and who has still to ack. -/
structure Unacked where
  item : Item
  pendingPeers : List PeerId

/-- A peer's receive loop. -/
structure Receiver where
  /-- Verified and acked, and not yet looked up in the seen-set. -/
  hand : Option Item := none
  meshSeen : SeenSet := {}
  /-- Everything the seen-set was asked about. -/
  observed : List EventId := []

/-- A sender, its peers, and the wire between them, on which nothing is used up. -/
structure Acks where
  inflight : ExtTreeMap ContentHash Unacked := ∅
  sent : List (PeerId × Item) := []
  acks : List (PeerId × ContentHash) := []
  peers : PeerId → Receiver := fun _ ↦ {}
  /-- What was tracked for whom, the last first. No task reads it. -/
  tracked : List (PeerId × Item) := []

namespace Acks

def eventId (item : Item) : EventId := ⟨item.origin, item.eventSeq⟩

inductive Act
  /-- The frames of a copy, a relayed item or an answer to a pull go out for the first time. -/
  | transmit (p : PeerId) (item : Item)
  /-- `track_inflight`, behind the sends. -/
  | track (item : Item) (targets : List PeerId)
  /-- The retransmit tick, or an answer to a `Nak`. -/
  | resend (p : PeerId) (hash : ContentHash)
  /-- The entry is too old, was sent too often, or is wiped. -/
  | abandon (hash : ContentHash)
  /-- `purge_peer_from_inflight`. -/
  | purge (p : PeerId)
  /-- All the frames of an item are at the peer, for the first time or again. -/
  | arrive (p : PeerId) (item : Item)
  | observe (p : PeerId)
  /-- The sender handles an `Ack`. -/
  | ack (p : PeerId) (hash : ContentHash)

variable (env : Env)

def setPeer (s : Acks) (p : PeerId) (r : Receiver) : Acks :=
  { s with peers := Function.update s.peers p r }

def trackInflight (s : Acks) (item : Item) (targets : List PeerId) : Acks :=
  let waiting := s.inflight[item.hash]?.elim [] (·.pendingPeers)
  { s with
    inflight := s.inflight.insert item.hash ⟨item, waiting ++ targets.filter (· ∉ waiting)⟩
    tracked := targets.map (·, item) ++ s.tracked }

/-- The entry goes when nobody is left in it. The zero hash answers a heartbeat. -/
def release (inflight : ExtTreeMap ContentHash Unacked) (hash : ContentHash) (p : PeerId) :
    ExtTreeMap ContentHash Unacked :=
  if hash = 0 then inflight
  else
    match inflight[hash]? with
    | some u =>
      match u.pendingPeers.filter (· ≠ p) with
      | [] => inflight.erase hash
      | waiting => inflight.insert hash { u with pendingPeers := waiting }
    | none => inflight

def step (s : Acks) : Act → Option Acks
  | .transmit p item => some { s with sent := (p, item) :: s.sent }
  | .track item targets =>
    if targets.all fun p ↦ (p, item) ∈ s.sent then some (s.trackInflight item targets) else none
  | .resend p hash =>
    match s.inflight[hash]? with
    | some u => if p ∈ u.pendingPeers then some { s with sent := (p, u.item) :: s.sent } else none
    | none => none
  | .abandon hash => some { s with inflight := s.inflight.erase hash }
  | .purge p =>
    let inflight := s.inflight.map fun _ u ↦ { u with pendingPeers := u.pendingPeers.filter (· ≠ p) }
    some { s with inflight := inflight.filter fun _ u ↦ u.pendingPeers ≠ [] }
  | .arrive p item =>
    if (p, item) ∈ s.sent ∧ (s.peers p).hand = none then
      if verifyContentHash env item.kind item.payload item.hash then
        some (({ s with acks := (p, item.hash) :: s.acks } : Acks).setPeer p
          { s.peers p with hand := some item })
      else some s
    else none
  | .observe p =>
    (s.peers p).hand.map fun item ↦ s.setPeer p
      { hand := none
        meshSeen := ((s.peers p).meshSeen.observe (eventId item)).1
        observed := eventId item :: (s.peers p).observed }
  | .ack p hash => if (p, hash) ∈ s.acks then some { s with inflight := release s.inflight hash p } else none

/-- The peer has looked the item up in its seen-set, or does so before it handles another frame. -/
def TakenIn (s : Acks) (p : PeerId) (item : Item) : Prop :=
  eventId item ∈ (s.peers p).observed ∨ (s.peers p).hand = some item

instance (s : Acks) (p : PeerId) (item : Item) : Decidable (s.TakenIn p item) :=
  inferInstanceAs (Decidable (_ ∨ _))

/-- The most recent item tracked for the peer under the hash. -/
def lastTracked (s : Acks) (p : PeerId) (hash : ContentHash) : Option Item :=
  (s.tracked.find? fun x ↦ x.1 = p ∧ x.2.hash = hash).map Prod.snd

/-- The sender still waits for the peer's ack of the hash. -/
def Awaits (s : Acks) (p : PeerId) (hash : ContentHash) : Prop :=
  ∃ u, s.inflight[hash]? = some u ∧ p ∈ u.pendingPeers

variable {env : Env} {s s' : Acks} {p q : PeerId} {item : Item} {hash : ContentHash} {a : Act}
  {l : List Act}

/-- Every ack on the wire is about something that was sent and taken in. -/
structure Kept (s : Acks) : Prop where
  acked : ∀ p hash, (p, hash) ∈ s.acks → ∃ item, (p, item) ∈ s.sent ∧ item.hash = hash ∧ s.TakenIn p item
  tracked : ∀ x ∈ s.tracked, x ∈ s.sent

theorem Kept.of_sent (hk : s.Kept) (hacks : s'.acks = s.acks) (hpeers : s'.peers = s.peers)
    (htracked : s'.tracked = s.tracked) (hsent : s.sent ⊆ s'.sent) : s'.Kept where
  acked p hash hmem := by
    rw [hacks] at hmem
    obtain ⟨item, hs, hh, ht⟩ := hk.acked p hash hmem
    refine ⟨item, hsent hs, hh, ?_⟩
    rw [TakenIn, hpeers]
    exact ht
  tracked x hx := hsent (hk.tracked x (htracked ▸ hx))

theorem TakenIn.setPeer {r : Receiver} (h : s.TakenIn p item)
    (hr : s.TakenIn q item → p = q → eventId item ∈ r.observed ∨ r.hand = some item) :
    (s.setPeer q r).TakenIn p item := by
  by_cases hp : p = q
  · subst hp
    simpa [TakenIn, Acks.setPeer] using hr h rfl
  · simpa [TakenIn, Acks.setPeer, Function.update_of_ne hp] using h

theorem Kept.arrive (hk : s.Kept) (hsent : (p, item) ∈ s.sent) (hhand : (s.peers p).hand = none) :
    (({ s with acks := (p, item.hash) :: s.acks } : Acks).setPeer p
      { s.peers p with hand := some item }).Kept where
  acked q hash hmem := by
    rcases List.mem_cons.mp hmem with hmem | hmem
    · obtain ⟨rfl, rfl⟩ := Prod.mk.inj hmem
      refine ⟨item, hsent, rfl, ?_⟩
      simp [TakenIn, setPeer]
    · obtain ⟨item', hs, hh, ht⟩ := hk.acked q hash hmem
      refine ⟨item', hs, hh, ?_⟩
      apply TakenIn.setPeer (s := { s with acks := (p, item.hash) :: s.acks }) ht
      rintro (hobs | hold) -
      · exact .inl hobs
      · exact absurd hold (by simp [hhand])
  tracked := hk.tracked

theorem Kept.observe (hk : s.Kept) (hhand : (s.peers p).hand = some item) :
    (s.setPeer p
      { hand := none
        meshSeen := ((s.peers p).meshSeen.observe (eventId item)).1
        observed := eventId item :: (s.peers p).observed }).Kept where
  acked q hash hmem := by
    obtain ⟨item', hs, hh, ht⟩ := hk.acked q hash hmem
    refine ⟨item', hs, hh, ht.setPeer ?_⟩
    rintro (hobs | hold) -
    · exact .inl (List.mem_cons_of_mem _ hobs)
    · obtain rfl := Option.some.inj (hhand.symm.trans hold)
      exact .inl List.mem_cons_self
  tracked := hk.tracked

theorem Kept.step (hk : s.Kept) (hs : s.step env a = some s') : s'.Kept := by
  cases a with
  | transmit p item =>
    obtain rfl := Option.some.inj hs
    exact hk.of_sent rfl rfl rfl (List.subset_cons_self _ _)
  | track item targets =>
    obtain ⟨hall, hs⟩ := Option.ite_none_right_eq_some.mp hs
    obtain rfl := Option.some.inj hs
    refine ⟨hk.acked, fun x hx ↦ ?_⟩
    rcases List.mem_append.mp hx with hx | hx
    · obtain ⟨p, hp, rfl⟩ := List.mem_map.mp hx
      exact of_decide_eq_true (List.all_eq_true.mp hall p hp)
    · exact hk.tracked x hx
  | resend p hash =>
    simp only [Acks.step] at hs
    split at hs
    case h_2 => cases hs
    case h_1 u hu =>
      obtain ⟨-, hs⟩ := Option.ite_none_right_eq_some.mp hs
      obtain rfl := Option.some.inj hs
      exact hk.of_sent rfl rfl rfl (List.subset_cons_self _ _)
  | abandon | purge =>
    obtain rfl := Option.some.inj hs
    exact hk.of_sent rfl rfl rfl (List.Subset.refl _)
  | arrive p item =>
    obtain ⟨⟨hsent, hhand⟩, hs⟩ := Option.ite_none_right_eq_some.mp hs
    split at hs
    · exact Option.some.inj hs ▸ hk.arrive hsent hhand
    · exact Option.some.inj hs ▸ hk
  | observe p =>
    obtain ⟨item, hhand, rfl⟩ := Option.map_eq_some_iff.mp hs
    exact hk.observe hhand
  | ack p hash =>
    obtain ⟨-, hs⟩ := Option.ite_none_right_eq_some.mp hs
    obtain rfl := Option.some.inj hs
    exact hk.of_sent rfl rfl rfl (List.Subset.refl _)

theorem kept_run (h : Run (step env) Always {} l s) : s.Kept := by
  apply h.invariant
  · exact ⟨by simp, by simp⟩
  · intro _ _ _ hk _ hs
    exact hk.step hs

/-- When an ack is handled, the peer has taken in an item with the hash that was sent to it: the
most recent one, where it was sent no other. -/
theorem ack_sound (h : Run (step env) Always {} l s) (hs : s.step env (.ack p hash) = some s') :
    (∃ item, (p, item) ∈ s.sent ∧ item.hash = hash ∧ s.TakenIn p item) ∧
    ∀ item, s.lastTracked p hash = some item →
      (∀ other, (p, other) ∈ s.sent → other.hash = hash → other = item) → s.TakenIn p item := by
  obtain ⟨hack, -⟩ := Option.ite_none_right_eq_some.mp hs
  obtain ⟨item, hsent, hhash, htaken⟩ := (kept_run h).acked p hash hack
  refine ⟨⟨item, hsent, hhash, htaken⟩, fun last _ honly ↦ ?_⟩
  exact honly item hsent hhash ▸ htaken

def hashed : Env := { Puller.flat with blake3 := fun _ ↦ 1 }

/-- The user's copies of one text, by their number. -/
def text (seq : UInt64) : Item := { (Puller.note seq).toItem with hash := 1 }

def sendToOne (seq : UInt64) : List Act := [.transmit 1 (text seq), .track (text seq) [1]]

theorem ack_sound_once : ∃ s s', Run (step hashed) Always {}
      (sendToOne 1 ++ [.arrive 1 (text 1), .observe 1]) s ∧
    s.step hashed (.ack 1 1) = some s' ∧
    (∃ item, (1, item) ∈ s.sent ∧ item.hash = 1 ∧ s.TakenIn 1 item) ∧
    ∀ item, s.lastTracked 1 1 = some item →
      (∀ other, (1, other) ∈ s.sent → other.hash = 1 → other = item) → s.TakenIn 1 item := by
  have hrun : Run (step hashed) Always {}
      (sendToOne 1 ++ [.arrive 1 (text 1), .observe 1]) _ := run_of_isSome (by decide +kernel)
  exact ⟨_, _, hrun, rfl, ack_sound hrun rfl⟩

/-- The ack of the first copy is on its way while the second goes out. -/
def copyTwice : List Act :=
  sendToOne 1 ++ [.arrive 1 (text 1), .observe 1] ++ sendToOne 2

/-- It ends the wait for the second, which the peer has not got. -/
theorem late_ack_ends_wait : ∃ s s', Run (step hashed) Always {} copyTwice s ∧
    s.step hashed (.ack 1 1) = some s' ∧ s.Awaits 1 1 ∧ ¬ s'.Awaits 1 1 ∧
    s.lastTracked 1 1 = some (text 2) ∧ ¬ s.TakenIn 1 (text 2) := by
  have hrun : Run (step hashed) Always {} copyTwice _ := run_of_isSome (by decide +kernel)
  refine ⟨_, _, hrun, rfl, ⟨⟨text 2, [1]⟩, rfl, by decide⟩, ?_, by decide +kernel, by decide +kernel⟩
  rintro ⟨u, hu, -⟩
  cases (show none = some u from hu)

end Acks

end FluxSync.Pipeline
