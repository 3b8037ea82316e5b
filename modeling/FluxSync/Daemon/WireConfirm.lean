import FluxSync.Daemon.Guards
import FluxSync.Transport.Links

namespace FluxSync.WireConfirm

open Std Function Runs Transport Guards

variable {S : Type}

/-- The daemon of the two guards, with the accepts that wait for a `Hello`. -/
structure Node (S : Type) where
  base : Guards.Node S
  /-- `hello_seen` of the peer's `PeerMeta`. -/
  helloSeen : PeerId → Bool := fun _ ↦ false
  deferredSasConfirm : List PeerId := []

inductive Act (S : Type)
  | guarded (a : Guards.Act S)
  /-- A fresh pairing with words of its own. -/
  | park (p : PeerId)
  | trust (p : PeerId) (trusted : Bool)
  /-- Entries past their window or over the cap leave `pending_pairs`. Their peers stay trusted. -/
  | expire (ps : List PeerId)
  /-- The user accepts. -/
  | confirm (p : PeerId)
  /-- The trust store is cleared and saved, `tear_down_links` is to come. -/
  | unpair (saved : Bool)

namespace Node

variable {n : Node S} {p : PeerId}

def boot (t : Transport S) : Node S where
  base := .boot t

/-- Whose `Hello` the step handles. -/
def hears (n : Node S) : Guards.Act S → Option PeerId
  | .message (.hello _) _ => n.base.hand
  | _ => none

/-- Whose deferred accept the step takes out. -/
def undefers (n : Node S) : Guards.Act S → Option PeerId
  | .message (.hello _) _ | .message .revoke _ | .message (.pairConfirm false _) _ => n.base.hand
  | .reject p _ _ _ => some p
  | _ => none

/-- An entry of `peer_meta` takes its `hello_seen` with it. -/
def follow (n : Node S) (a : Guards.Act S) (u : Guards.Node S) : Node S where
  base := u
  helloSeen p := u.peerMeta.contains p && (n.helloSeen p || n.hears a == some p)
  deferredSasConfirm := n.deferredSasConfirm.filter fun p ↦ n.undefers a ≠ some p

/-- `CmdOp::PairConfirm` with `accept`. -/
def confirm (n : Node S) (p : PeerId) : Node S where
  base := n.base.unpend p
  helloSeen := n.helloSeen
  deferredSasConfirm :=
    if n.helloSeen p then n.deferredSasConfirm else p :: n.deferredSasConfirm

def withTrusted (n : Node S) (trusted : PeerId → Bool) : Node S :=
  { n with base := { n.base with trusted := trusted } }

def withPending (n : Node S) (pendingPairs : PeerId → Bool) : Node S :=
  { n with base := { n.base with pendingPairs := pendingPairs } }

/-- A deferred accept that a `Hello` from its peer would send. -/
def flushable (n : Node S) (p : PeerId) : Bool :=
  n.deferredSasConfirm.contains p && !n.base.pendingPairs p

end Node

def step (n : Node S) : Act S → Option (Node S)
  | .guarded (.pairing _ _) => none
  | .guarded a => (Guards.step n.base a).map (n.follow a)
  | .park p => some (n.withPending (update n.base.pendingPairs p true))
  | .trust p trusted => some (n.withTrusted (update n.base.trusted p trusted))
  | .expire ps => some (n.withPending fun p ↦ n.base.pendingPairs p && !ps.contains p)
  | .confirm p => if n.base.pendingPairs p then some (n.confirm p) else none
  | .unpair saved => some (if saved then n.withTrusted fun _ ↦ false else n)

namespace Act

/-- The peer that the step sends `PairConfirm { accept: true }`: at once, to a `Hello` that finds a
deferred accept, or as an echo. -/
def confirms (n : Node S) : Act S → Option PeerId
  | .confirm p =>
    if n.base.pendingPairs p && n.helloSeen p && (n.base.metaFor p).caps.contains "sas-confirm" then
      some p
    else none
  | .guarded (.message (.hello caps) _) =>
    n.base.hand.filter fun p ↦ n.flushable p && (negotiateCaps caps).contains "sas-confirm"
  | .guarded a =>
    match a.sent n.base with
    | some (p, .pairConfirm) => some p
    | _ => none
  | _ => none

/-- The user accepts the pending pair of `p`. -/
def accepts (p : PeerId) : Act S → Bool
  | .confirm q => q == p
  | _ => false

/-- `p` is revoked, rejected or unpaired, or a new pending pair of `p` is created. -/
def voids (n : Node S) (p : PeerId) : Act S → Bool
  | .park q => q == p
  | .unpair saved => saved
  | .guarded (.revoke q saved _ _) => saved && q == p
  | .guarded (.reject q _ _ _) => q == p
  | .guarded (.message .revoke _) | .guarded (.message (.pairConfirm false _) _) =>
    n.base.hand == some p
  | _ => false

/-- The daemon echoes an accept of `p`. -/
def echoes (n : Node S) (p : PeerId) : Act S → Bool
  | .guarded a => a.sent n.base == some (p, .pairConfirm)
  | _ => false

/-- `p` has a session after the step, and it is the one `p` had before. -/
def keeps (n : Node S) (p : PeerId) : Act S → Bool
  | .guarded a => a.opens n.base != some p && (Guards.step n.base a).any fun u ↦ u.linked p
  | _ => n.base.linked p

end Act

/-- What has happened to each peer. -/
structure Record where
  /-- The user has accepted a pending pair of the peer, and nothing has voided it since. -/
  accepted : PeerId → Bool := fun _ ↦ false
  /-- An accept has been echoed in the session that is up. -/
  echoed : PeerId → Bool := fun _ ↦ false

def note (n : Node S) (a : Act S) (w : Record) : Record where
  accepted p := a.accepts p || w.accepted p && !a.voids n p
  echoed p := (w.echoed p || a.echoes n p) && a.keeps n p

abbrev notedStep : Node S × Record → Act S → Option (Node S × Record) := monitored step note

/-- What goes out confirms a pair that the user has accepted, or is the first echo of the session to
a trusted peer that is not pending. -/
def Sound (x : Node S × Record) (a : Act S) : Prop :=
  ∀ p, a.confirms x.1 = some p → (note x.1 a x.2).accepted p ∨
    a.echoes x.1 p ∧ x.1.base.trusted p ∧ x.1.base.pendingPairs p = false ∧ x.2.echoed p = false

/-- A deferred accept is not left behind by a revoke, an unpair or the end of a later pairing, and a
`Bye` ends the session of its peer. -/
def Act.kempt (n : Node S) : Act S → Bool
  | .guarded (.revoke p saved _ _) => !(saved && n.flushable p)
  | .unpair saved => !(saved && n.deferredSasConfirm.any n.flushable)
  | .expire ps => ps.all fun p ↦ !(n.base.pendingPairs p && n.deferredSasConfirm.contains p)
  | .guarded (.reap expired saved) => !(saved && expired.any n.deferredSasConfirm.contains)
  | .guarded (.message .bye _) => n.base.hand.all fun p ↦ !decide (n.base.transport.Shadowed p)
  | _ => true

/-! ### Pending pairs -/

section

variable {n u : Guards.Node S} {a : Guards.Act S} {p q : PeerId} {m : Message} {now : UInt64}

@[simp] theorem pending_failover {dead : Bool} :
    (n.failover dead now).pendingPairs = n.pendingPairs := by
  cases dead <;> rfl

@[simp] theorem pending_reply : (n.reply q m).pendingPairs = n.pendingPairs := by
  rw [Guards.Node.reply]
  split
  · rename_i k _
    cases k <;> rfl
  · rfl

theorem pending_unpend : (n.unpend q).pendingPairs p = (n.pendingPairs p && q != p) := by
  by_cases h : p = q
  · subst h
    simp [Guards.Node.unpend]
  · simp [Guards.Node.unpend, h, Ne.symm h]

theorem pending_reap {expired : List PeerId} :
    (n.reap expired true).pendingPairs p = (n.pendingPairs p && !expired.contains p) := by
  simp only [Guards.Node.reap, if_true]
  induction expired generalizing n with
  | nil => simp
  | cons q expired ih =>
    rw [List.foldl_cons, ih]
    change ((n.unpend q).pendingPairs p && _) = _
    rw [pending_unpend, Bool.and_assoc]
    congr 1
    by_cases h : p = q
    · simp [h]
    · simp [h, Ne.symm h]

theorem pending_tearDown {wasPrimary : Bool} :
    (n.tearDown q wasPrimary now).pendingPairs = n.pendingPairs := by
  rw [Guards.Node.tearDown, pending_failover]
  rfl

/-- Only a revoke, a reject or a `Hello` of the peer can take its entry with its accept. -/
theorem pending_message (hp : n.pendingPairs p) (hne : q ≠ p) :
    (n.message q now m).pendingPairs p := by
  have hunpend : (n.unpend q).pendingPairs p := by simp [pending_unpend, hp, hne]
  cases m with
  | hello caps =>
    rw [Guards.Node.message, pending_reply]
    exact hp
  | batteryStatus | other => exact hp
  | bye =>
    rw [Guards.Node.message, pending_failover]
    exact hp
  | revoke =>
    rw [Guards.Node.message, pending_failover]
    exact hunpend
  | pairConfirm accept flow =>
    cases accept with
    | true =>
      rw [Guards.Node.message, pending_reply]
      exact hp
    | false =>
      rw [Guards.Node.message, pending_failover]
      exact hunpend

theorem pending_message_self (hp : n.pendingPairs p) :
    (n.message p now m).pendingPairs p ∨ (∃ caps, m = .hello caps) ∨ m = .revoke ∨
      ∃ flow, m = .pairConfirm false flow := by
  cases m with
  | hello caps => exact .inr (.inl ⟨caps, rfl⟩)
  | revoke => exact .inr (.inr (.inl rfl))
  | batteryStatus | other => exact .inl hp
  | bye =>
    refine .inl ?_
    rw [Guards.Node.message, pending_failover]
    exact hp
  | pairConfirm accept flow =>
    cases accept with
    | true =>
      refine .inl ?_
      rw [Guards.Node.message, pending_reply]
      exact hp
    | false => exact .inr (.inr (.inr ⟨flow, rfl⟩))

/-- A peer stays pending unless its deferred accept goes with the entry, or the reaper takes the
entry. -/
theorem pending_step {n : Node S} (hp : n.base.pendingPairs p)
    (h : Guards.step n.base a = some u) (hpairing : ∀ f g, a ≠ .pairing f g) :
    u.pendingPairs p ∨ n.undefers a = some p ∨ ∃ expired, a = .reap expired true ∧ p ∈ expired := by
  cases a with
  | receive q | replace q | rekey q | secondaryTimeout q =>
    obtain ⟨-, h⟩ := Option.ite_none_right_eq_some.mp h
    obtain rfl := Option.some.inj h
    exact .inl hp
  | closeSession tracked =>
    refine .inl ?_
    rw [← Option.some.inj h, Guards.Node.closeSession]
    split <;> exact hp
  | dropSession | tryInstall | setPeerInfo =>
    obtain rfl := Option.some.inj h
    exact .inl hp
  | pairing f g => exact absurd rfl (hpairing f g)
  | heartbeatTimeout now =>
    obtain ⟨-, h⟩ := Option.ite_none_right_eq_some.mp h
    obtain rfl := Option.some.inj h
    exact .inl (by rwa [pending_failover])
  | reap expired saved =>
    obtain ⟨-, h⟩ := Option.ite_none_right_eq_some.mp h
    obtain rfl := Option.some.inj h
    cases saved with
    | false => exact .inl hp
    | true =>
      by_cases hmem : p ∈ expired
      · exact .inr (.inr ⟨expired, rfl, hmem⟩)
      · exact .inl (by simp [pending_reap, hp, hmem])
  | revoke q saved wasPrimary now =>
    obtain rfl := Option.some.inj h
    cases saved with
    | false => exact .inl hp
    | true => exact .inl (by rwa [if_pos rfl, pending_tearDown])
  | reject q saved wasPrimary now =>
    obtain ⟨-, h⟩ := Option.ite_none_right_eq_some.mp h
    obtain rfl := Option.some.inj h
    by_cases hq : q = p
    · exact .inr (.inl (congrArg some hq))
    · cases saved with
      | false => exact .inl hp
      | true =>
        refine .inl ?_
        rw [if_pos rfl, pending_tearDown, pending_unpend]
        simp [hp, hq]
  | tearDownLinks permanent =>
    obtain rfl := Option.some.inj h
    exact .inl hp
  | message m now =>
    obtain ⟨q, hq, rfl⟩ := Option.map_eq_some_iff.mp h
    change (n.base.message q now m).pendingPairs p ∨ _
    by_cases hqp : q = p
    · subst hqp
      rcases pending_message_self (m := m) hp with hp | ⟨caps, rfl⟩ | rfl | ⟨flow, rfl⟩
      · exact .inl hp
      · exact .inr (.inl hq)
      · exact .inr (.inl hq)
      · exact .inr (.inl hq)
    · exact .inl (pending_message hp hqp)

/-! ### Echoes -/

theorem told_kept_reply (hp : n.told p .pairConfirm) : (n.reply q m).told p .pairConfirm := by
  rw [Guards.Node.reply]
  split
  · rename_i k _
    cases k with
    | pairConfirm => simp_all [Guards.Node.told, Guards.Node.tell]
    | pairVerifyStarted => exact hp
  · exact hp

theorem told_kept_message (hp : n.told p .pairConfirm) (hne : ¬ (m.parts ∧ q = p)) :
    (n.message q now m).told p .pairConfirm := by
  have hunecho (hm : m.parts) : (n.unecho q).told p .pairConfirm :=
    Guards.Node.told_unecho.mpr ⟨fun hpq ↦ hne ⟨hm, hpq.symm⟩, hp⟩
  cases m with
  | hello caps => exact told_kept_reply hp
  | batteryStatus | other => exact hp
  | bye | revoke =>
    rw [Guards.Node.message, Guards.Node.told_failover]
    exact hunecho rfl
  | pairConfirm accept flow =>
    cases accept with
    | true => exact told_kept_reply hp
    | false =>
      rw [Guards.Node.message, Guards.Node.told_failover]
      exact hunecho rfl

/-- A guard stays set until the peer ends its session. -/
theorem told_kept (hp : n.told p .pairConfirm) (h : Guards.step n a = some u) :
    u.told p .pairConfirm ∨ ∃ m now, a = .message m now ∧ m.parts ∧ n.hand = some p := by
  cases a with
  | receive q | replace q | rekey q | secondaryTimeout q =>
    obtain ⟨-, h⟩ := Option.ite_none_right_eq_some.mp h
    obtain rfl := Option.some.inj h
    exact .inl hp
  | closeSession tracked =>
    refine .inl ?_
    rw [← Option.some.inj h, Guards.Node.closeSession]
    split <;> exact hp
  | dropSession | tryInstall | setPeerInfo | pairing | tearDownLinks =>
    obtain rfl := Option.some.inj h
    exact .inl hp
  | heartbeatTimeout now =>
    obtain ⟨-, h⟩ := Option.ite_none_right_eq_some.mp h
    obtain rfl := Option.some.inj h
    exact .inl (Guards.Node.told_failover.trans hp)
  | reap expired saved =>
    obtain ⟨-, h⟩ := Option.ite_none_right_eq_some.mp h
    obtain rfl := Option.some.inj h
    exact .inl (Guards.Node.told_reap.trans hp)
  | revoke q saved wasPrimary now =>
    obtain rfl := Option.some.inj h
    cases saved with
    | false => exact .inl hp
    | true => exact .inl (Guards.Node.told_failover.trans hp)
  | reject q saved wasPrimary now =>
    obtain ⟨-, h⟩ := Option.ite_none_right_eq_some.mp h
    obtain rfl := Option.some.inj h
    cases saved with
    | false => exact .inl hp
    | true => exact .inl (Guards.Node.told_failover.trans hp)
  | message m now =>
    obtain ⟨q, hq, rfl⟩ := Option.map_eq_some_iff.mp h
    by_cases hparts : m.parts ∧ q = p
    · exact .inr ⟨m, now, rfl, hparts.1, hq.trans (congrArg some hparts.2)⟩
    · exact .inl (told_kept_message hp hparts)

theorem sent_eq_some (h : a.sent n = some (p, .pairConfirm)) :
    ∃ flow now, a = .message (.pairConfirm true flow) now ∧ n.hand = some p ∧ n.trusted p ∧
      n.pendingPairs p = false ∧ n.told p .pairConfirm = false := by
  cases a with
  | message m now =>
    obtain ⟨q, hq, h⟩ := Option.bind_eq_some_iff.mp h
    obtain ⟨k, hk, heq⟩ := Option.map_eq_some_iff.mp h
    obtain ⟨rfl, rfl⟩ := Prod.mk.inj heq
    obtain ⟨hcalls, htold⟩ := Option.filter_eq_some_iff.mp hk
    cases m with
    | pairConfirm accept flow =>
      cases accept with
      | true =>
        have hall := hcalls
        simp only [Guards.Node.calls, Option.ite_none_right_eq_some, Bool.and_eq_true,
          Bool.not_eq_true'] at hall
        exact ⟨flow, now, rfl, hq, hall.1.1.2, hall.1.1.1.1, by simpa using htold⟩
      | false => cases hcalls
    | hello caps => simp [Guards.Node.calls] at hcalls
    | _ => cases hcalls
  | _ => cases h

theorem told_sent (hs : a.sent n = some (p, .pairConfirm)) (h : Guards.step n a = some u) :
    u.told p .pairConfirm := by
  obtain ⟨flow, now, rfl, hq, -⟩ := sent_eq_some hs
  simp only [Act.sent, hq, Option.bind_some, Option.map_eq_some_iff, Prod.mk.injEq, true_and,
    exists_eq_right] at hs
  obtain rfl : { n.message p now (.pairConfirm true flow) with hand := none } = u := by
    simpa [Guards.step, hq] using h
  change (n.reply p (.pairConfirm true flow)).told p .pairConfirm
  rw [Guards.Node.reply, hs]
  simp [Guards.Node.told, Guards.Node.tell]

theorem linked_failover {dead : Bool} (h : (n.failover dead now).linked p) : n.linked p := by
  cases dead with
  | false => exact h
  | true =>
    simp only [Guards.Node.linked, Guards.Node.failover, if_true, List.contains_iff_mem] at h ⊢
    exact linked_promoteSecondary h

/-- A peer that ends its session has none afterwards. -/
theorem linked_parted (hm : m.parts) (hbye : m = .bye → ¬ n.transport.Shadowed p) :
    (n.message p now m).linked p = false := by
  by_contra h
  rw [Bool.not_eq_false] at h
  cases m with
  | bye =>
    have hmem := List.contains_iff_mem.mp (linked_failover h)
    exact hbye rfl (shadowed_of_linked hmem)
  | revoke =>
    have hmem := List.contains_iff_mem.mp (linked_failover h)
    exact not_linked_purgePeer hmem
  | pairConfirm accept flow =>
    cases accept with
    | true => cases hm
    | false =>
      have hmem := List.contains_iff_mem.mp (linked_failover h)
      exact not_linked_purgePeer hmem
  | _ => cases hm

end

/-! ### Records -/

section

variable {n m : Node S} {a : Act S} {b : Guards.Act S} {u : Guards.Node S} {p : PeerId}
  {w : Record} {x y : Node S × Record}

/-- The deferred accepts are of pairs that still stand, or that a later pairing hides, and an echo
has its guard. -/
structure Backed (x : Node S × Record) : Prop where
  deferred : ∀ p ∈ x.1.deferredSasConfirm, x.2.accepted p ∨ x.1.base.pendingPairs p
  echoed : ∀ p, x.2.echoed p → x.1.base.told p .pairConfirm

theorem step_guarded (h : step n (.guarded b) = some m) : (∀ f g, b ≠ .pairing f g) ∧
    ∃ u, Guards.step n.base b = some u ∧ m = n.follow b u := by
  cases b with
  | pairing f g => cases h
  | _ =>
    refine ⟨by simp, ?_⟩
    rw [step] at h
    · obtain ⟨u, hu, rfl⟩ := Option.map_eq_some_iff.mp h
      exact ⟨u, hu, rfl⟩
    · simp

theorem note_accepted (hacc : w.accepted p) (hv : a.voids n p = false) :
    (note n a w).accepted p := by
  simp [note, hacc, hv]

theorem note_echoed (h : (note n a w).echoed p) : w.echoed p ∨ a.echoes n p := by
  simp only [note, Bool.and_eq_true, Bool.or_eq_true] at h
  exact h.1

/-- What voids a deferred accept and leaves it deferred is a revoke. -/
theorem pending_of_voids (hp : p ∈ n.deferredSasConfirm) (hv : (Act.guarded b).voids n p)
    (hu : n.undefers b ≠ some p) (hk : (Act.guarded b).kempt n) : n.base.pendingPairs p := by
  cases b with
  | revoke q saved wasPrimary now =>
    obtain ⟨rfl, rfl⟩ : saved = true ∧ q = p := by simpa [Act.voids] using hv
    simpa [Act.kempt, Node.flushable, hp] using hk
  | reject q saved wasPrimary now =>
    exact absurd (congrArg some (beq_iff_eq.mp hv)) hu
  | message m now =>
    cases m with
    | revoke => exact absurd (beq_iff_eq.mp hv) hu
    | pairConfirm accept flow =>
      cases accept with
      | false => exact absurd (beq_iff_eq.mp hv) hu
      | true => cases hv
    | _ => cases hv
  | _ => cases hv

theorem Backed.deferred_guarded (hx : Backed x) (hk : (Act.guarded b).kempt x.1)
    (hb : ∀ f g, b ≠ .pairing f g) (hu : Guards.step x.1.base b = some u)
    (hp : p ∈ (x.1.follow b u).deferredSasConfirm) :
    (note x.1 (.guarded b) x.2).accepted p ∨ u.pendingPairs p := by
  obtain ⟨hdeferred, hstays⟩ := List.mem_filter.mp hp
  have hstays : x.1.undefers b ≠ some p := of_decide_eq_true hstays
  have hstill : (note x.1 (.guarded b) x.2).accepted p ∨ x.1.base.pendingPairs p := by
    rcases hx.deferred p hdeferred with hacc | hpend
    · by_cases hv : (Act.guarded b).voids x.1 p
      · exact .inr (pending_of_voids hdeferred hv hstays hk)
      · exact .inl (note_accepted hacc (Bool.eq_false_iff.mpr hv))
    · exact .inr hpend
  refine hstill.imp_right fun hpend ↦ ?_
  rcases pending_step hpend hu hb with hpend | hgone | ⟨expired, rfl, hmem⟩
  · exact hpend
  · exact absurd hgone hstays
  · simp only [Act.kempt, Bool.true_and, Bool.not_eq_true', List.any_eq_false] at hk
    exact absurd (List.contains_iff_mem.mpr hdeferred) (hk p hmem)

theorem Backed.echoed_guarded (hx : Backed x) (hk : (Act.guarded b).kempt x.1)
    (hu : Guards.step x.1.base b = some u) (hp : (note x.1 (.guarded b) x.2).echoed p) :
    u.told p .pairConfirm := by
  simp only [note, Bool.and_eq_true, Bool.or_eq_true] at hp
  obtain ⟨hechoed, hkeeps⟩ := hp
  rcases hechoed with hechoed | hsent
  · rcases told_kept (hx.echoed p hechoed) hu with htold | ⟨m, now, rfl, hm, hhand⟩
    · exact htold
    · have hbye : m = .bye → ¬ x.1.base.transport.Shadowed p := by
        rintro rfl
        simpa [Act.kempt, hhand] using hk
      have hgone : (x.1.base.message p now m).linked p = false := linked_parted hm hbye
      simp only [Act.keeps, Guards.step, hhand, Option.map_some, Option.any_some, Bool.and_eq_true] at hkeeps
      exact absurd hkeeps.2 (Bool.eq_false_iff.mp hgone)
  · exact told_sent (beq_iff_eq.mp hsent) hu

/-- Outside the guarded steps nothing is echoed. -/
theorem Backed.echoed_kept (hx : Backed x) (ha : a.echoes x.1 p = false)
    (hp : (note x.1 a x.2).echoed p) : x.1.base.told p .pairConfirm := by
  rcases note_echoed hp with hp | hp
  · exact hx.echoed p hp
  · rw [ha] at hp
    cases hp

theorem Backed.step (hx : Backed x) (hk : a.kempt x.1) (h : notedStep x a = some y) : Backed y := by
  obtain ⟨hs, hw⟩ := monitored_eq_some.mp h
  obtain ⟨n, w⟩ := y
  obtain rfl : w = note x.1 a x.2 := hw
  cases a with
  | guarded b =>
    obtain ⟨hb, u, hu, rfl⟩ := step_guarded hs
    exact ⟨fun p hp ↦ hx.deferred_guarded hk hb hu hp, fun p hp ↦ hx.echoed_guarded hk hu hp⟩
  | park q =>
    obtain rfl := Option.some.inj hs
    refine ⟨fun p hp ↦ ?_, fun p hp ↦ hx.echoed_kept rfl hp⟩
    by_cases hq : p = q
    · exact .inr (by simp [Node.withPending, hq])
    · refine (hx.deferred p hp).imp (fun hacc ↦ note_accepted hacc ?_) fun hpend ↦ ?_
      · simp [Act.voids, Ne.symm hq]
      · simpa [Node.withPending, hq] using hpend
  | trust q trusted =>
    obtain rfl := Option.some.inj hs
    refine ⟨fun p hp ↦ ?_, fun p hp ↦ hx.echoed_kept rfl hp⟩
    exact (hx.deferred p hp).imp_left fun hacc ↦ note_accepted hacc rfl
  | expire ps =>
    obtain rfl := Option.some.inj hs
    refine ⟨fun p hp ↦ ?_, fun p hp ↦ hx.echoed_kept rfl hp⟩
    refine (hx.deferred p hp).imp (fun hacc ↦ note_accepted hacc rfl) fun hpend ↦ ?_
    have hdeferred : p ∈ x.1.deferredSasConfirm := hp
    have hout : p ∉ ps := fun hmem ↦ by
      have hkept := List.all_eq_true.mp hk p hmem
      simp [hpend, hdeferred] at hkept
    simp [Node.withPending, hpend, hout]
  | confirm q =>
    obtain ⟨-, hs⟩ := Option.ite_none_right_eq_some.mp hs
    obtain rfl := Option.some.inj hs
    refine ⟨fun p hp ↦ ?_, fun p hp ↦ hx.echoed_kept rfl hp⟩
    by_cases hq : p = q
    · exact .inl (by simp [note, Act.accepts, hq])
    · have hdeferred : p ∈ x.1.deferredSasConfirm := by
        simp only [Node.confirm] at hp
        split at hp
        · exact hp
        · exact List.mem_of_ne_of_mem hq hp
      refine (hx.deferred p hdeferred).imp (fun hacc ↦ note_accepted hacc rfl) fun hpend ↦ ?_
      simp [Node.confirm, pending_unpend, hpend, Ne.symm hq]
  | unpair saved =>
    obtain rfl := Option.some.inj hs
    cases saved with
    | false =>
      refine ⟨fun p hp ↦ ?_, fun p hp ↦ hx.echoed_kept rfl hp⟩
      exact (hx.deferred p hp).imp_left fun hacc ↦ note_accepted hacc rfl
    | true =>
      refine ⟨fun p hp ↦ .inr ?_, fun p hp ↦ hx.echoed_kept rfl hp⟩
      simp only [Act.kempt, Bool.true_and, Bool.not_eq_true', List.any_eq_false] at hk
      have hdeferred : p ∈ x.1.deferredSasConfirm := hp
      have hpend : x.1.base.pendingPairs p := by
        simpa [Node.flushable, hdeferred] using hk p hdeferred
      exact hpend

/-- A guarded step confirms by a flush or by an echo. -/
theorem confirms_guarded (h : (Act.guarded b).confirms n = some p) :
    (∃ caps now, b = .message (.hello caps) now ∧ n.flushable p) ∨
      b.sent n.base = some (p, .pairConfirm) := by
  unfold Act.confirms at h
  split at h
  · cases ‹Act.guarded b = .confirm _›
  · rename_i caps now heq
    obtain rfl := Act.guarded.inj heq
    obtain ⟨-, hall⟩ := Option.filter_eq_some_iff.mp h
    exact .inl ⟨caps, now, rfl, (Bool.and_eq_true_iff.mp hall).1⟩
  · rename_i heq
    obtain rfl := Act.guarded.inj heq
    split at h
    · rename_i hs
      obtain rfl := Option.some.inj h
      exact .inr hs
    · cases h
  · cases h

theorem Backed.sound (hx : Backed x) : Sound x a := by
  intro p hp
  cases a with
  | guarded b =>
    rcases confirms_guarded hp with ⟨caps, now, rfl, hflush⟩ | hs
    · obtain ⟨hdeferred, hpend⟩ := Bool.and_eq_true_iff.mp hflush
      rcases hx.deferred p (List.contains_iff_mem.mp hdeferred) with hacc | hpend'
      · exact .inl (note_accepted hacc rfl)
      · simp [hpend'] at hpend
    · obtain ⟨flow, now, rfl, -, htrusted, hpend, htold⟩ := sent_eq_some hs
      refine .inr ⟨beq_iff_eq.mpr hs, htrusted, hpend, ?_⟩
      by_contra hechoed
      rw [hx.echoed p (by simpa using hechoed)] at htold
      cases htold
  | confirm q =>
    obtain ⟨-, heq⟩ := Option.ite_none_right_eq_some.mp hp
    exact .inl (by simp [note, Act.accepts, Option.some.inj heq])
  | _ => cases hp

theorem backed_boot (t : Transport S) : Backed (.boot t, {}) where
  deferred := by simp [Node.boot]
  echoed := by simp

/-- Whatever the daemon confirms to a peer stands, in every run that leaves no deferred accept
behind. -/
theorem confirms_sound {t : Transport S} {l : List (Act S)}
    (h : Run notedStep (fun x a ↦ a.kempt x.1) (.boot t, {}) l x) :
    Run notedStep Sound (.boot t, {}) l x :=
  h.guarantee (backed_boot t) (fun _ _ _ hx hk hs ↦ hx.step hk hs) fun _ _ hx _ ↦ hx.sound

end

/-- The user accepts before the peer's `Hello`, which the accept answers, and the peer's own accept is
echoed. -/
def acceptThenHello : List (Act Unit) :=
  [.trust 1 true, .park 1, .guarded (.tryInstall 1 () 0), .confirm 1, .guarded (.receive 1),
    .guarded (.message (.hello ["sas-confirm"]) 0), .guarded (.receive 1),
    .guarded (.message (.pairConfirm true false) 0)]

theorem acceptThenHello_kempt :
    (acceptThenHello.foldlM (fun x a ↦ if Act.kempt x.1 a then notedStep x a else none)
      (.boot (.new 0), {})).isSome := by
  decide +kernel

theorem confirms_sound_acceptThenHello :
    ∃ x, Run notedStep Sound (.boot (.new 0), {}) acceptThenHello x ∧ x.2.echoed 1 :=
  ⟨_, confirms_sound (run_of_checked acceptThenHello_kempt), by decide +kernel⟩

/-- The user accepts a peer that keeps its `Hello` back, and revokes it. It pairs again, and the user
looks at the pending pairs when its window has passed. -/
def withheldHello : List (Act Unit) :=
  [.trust 1 true, .park 1, .guarded (.tryInstall 1 () 0), .confirm 1,
    .guarded (.revoke 1 true true 0), .trust 1 true, .park 1, .guarded (.tryInstall 1 () 0),
    .expire [1], .guarded (.receive 1)]

/-- The `Hello` then gets the accept of the first pairing. -/
theorem stale_accept_confirms :
    ∃ x, Run notedStep Always (.boot (.new 0), {}) withheldHello x ∧
      (Act.guarded (.message (.hello ["sas-confirm"]) 0)).confirms x.1 = some 1 ∧
      ¬ Sound x (.guarded (.message (.hello ["sas-confirm"]) 0)) :=
  ⟨_, run_of_isSome (by decide +kernel), by decide +kernel,
    fun h ↦ absurd (h 1 (by decide +kernel)) (by decide +kernel)⟩

end FluxSync.WireConfirm
