import FluxSync.Pipeline.Node

namespace FluxSync.Pipeline.Node

open Runs

variable {env : Env} {s s' : Node} {a : Arrival} {o : Oracle} {resync : Bool} {h : Hand}
  {act : Act} {q : Queued} {queue : List Queued}

/-- What an item goes through up to the App. -/
def intake (s : Node) : Option Hand × List Queued × ℕ × List Arrival × List Verdict :=
  (s.hand, s.queue, s.log.arrivals, s.log.sighted, s.log.handled)

@[simp] theorem intake_trackInflight {hash : ContentHash} {capture : Capture}
    {peers : List PeerId} : (s.trackInflight hash capture peers).intake = s.intake := rfl

theorem intake_acked {hash : ContentHash} {p : PeerId} : (s.acked hash p).intake = s.intake := by
  rw [acked]
  split
  · dsimp only
    split <;> rfl
  · rfl

theorem intake_dispatch {a : Action} : (s.dispatch o a).intake = s.intake := by
  cases a with
  | sendItem hash kind payload sensitive =>
    simp only [dispatch]
    (repeat' split) <;> rfl
  | _ => rfl

theorem intake_perform {c : Chore} : (s.perform env o c).intake = s.intake := by
  cases c with
  | handle e wall => simp [perform, intake]
  | promote hash admittedInbound =>
    simp only [perform]
    (repeat' split) <;> rfl
  | act a => exact intake_dispatch
  | _ => rfl

theorem intake_command {c : Cmd} : (s.command env c).intake = s.intake := by
  cases c <;> rfl

/-- The steps that leave alone what an item goes through. -/
theorem intake_step (hstep : s.step env act = some s') (ha : ∀ item wipes, act ≠ .arrive item wipes)
    (hi : ∀ o resync, act ≠ .inbound o resync) (hp : ∀ hash now, act ≠ .pull hash now)
    (hr : ∀ e, act ≠ .raise e) (hq : ∀ wall others, act ≠ .pop wall others) :
    s'.intake = s.intake := by
  cases act with
  | arrive item wipes => exact absurd rfl (ha item wipes)
  | inbound o resync => exact absurd rfl (hi o resync)
  | pull hash now => exact absurd rfl (hp hash now)
  | raise e => exact absurd rfl (hr e)
  | pop wall others => exact absurd rfl (hq wall others)
  | release hash p =>
    obtain rfl := Option.some.inj hstep
    exact intake_acked
  | leave p | join p =>
    obtain rfl := Option.some.inj hstep
    rfl
  | command c =>
    obtain ⟨-, -, rfl⟩ := step_command hstep
    exact intake_command
  | chore o =>
    obtain ⟨c, todo, -, rfl⟩ := step_chore hstep
    exact intake_perform

/-- The arrival's event waits for the App. -/
def Enqueued (env : Env) (s : Node) (a : Arrival) : Prop :=
  ∃ q ∈ s.queue, ∃ resync decision, q = { event := a.event env resync, arrival := some (a, decision) }

def HandledByApp (s : Node) (a : Arrival) : Prop := ∃ v ∈ s.log.handled, v.arrival = a

def InHand (s : Node) (a : Arrival) : Prop := s.hand.bind Hand.arrival = some a

/-- In hand and seen for the first time. -/
def Ingesting (s : Node) (a : Arrival) : Prop := s.hand.bind Hand.pastSight = some a

/-- Every item that was acked at its first sight is on its way to the App or has reached it. -/
def Delivered (env : Env) (s : Node) : Prop :=
  ∀ a ∈ s.log.sighted, s.Ingesting a ∨ s.Enqueued env a ∨ s.HandledByApp a

/-- The receive loop hands an item's event over only while the channel has room for it. -/
def Room (s : Node) : Act → Prop
  | .inbound _ _ => ∀ a decision, s.hand = some (.relayed a decision) →
      s.queue.length < EVENT_CHANNEL_CAP
  | _ => True

/-- Arrivals are numbered in the order in which they come, and one is in hand at a time. -/
structure Numbered (s : Node) : Prop where
  hand : ∀ a, s.InHand a → a.no + 1 = s.log.arrivals
  sighted : ∀ a, s.hand.bind Hand.pastSight = some a → a ∈ s.log.sighted
  queue : ∀ q ∈ s.queue, ∀ a d, q.arrival = some (a, d) → a.no < s.log.arrivals ∧ ¬ s.InHand a
  handled : ∀ v ∈ s.log.handled, v.arrival.no < s.log.arrivals ∧ ¬ s.InHand v.arrival

theorem Numbered.of_sub (h : s.Numbered) (harr : s'.log.arrivals = s.log.arrivals)
    (hqueue : ∀ q ∈ s'.queue, q.arrival.isSome → q ∈ s.queue)
    (hhandled : s'.log.handled = s.log.handled) (hhand : ∀ a, s'.InHand a → s.InHand a)
    (hsighted : ∀ a, s'.hand.bind Hand.pastSight = some a → a ∈ s'.log.sighted) :
    s'.Numbered := by
  refine ⟨fun a ha ↦ ?_, hsighted, fun q hq a d ha ↦ ?_, fun v hv ↦ ?_⟩
  · rw [harr]
    exact h.hand a (hhand a ha)
  · obtain ⟨hlt, hin⟩ := h.queue q (hqueue q hq (by rw [ha]; rfl)) a d ha
    rw [harr]
    exact ⟨hlt, fun h' ↦ hin (hhand a h')⟩
  · rw [hhandled] at hv
    obtain ⟨hlt, hin⟩ := h.handled v hv
    rw [harr]
    exact ⟨hlt, fun h' ↦ hin (hhand _ h')⟩

theorem Numbered.of_intake (h : s.Numbered) (hs : s'.intake = s.intake) : s'.Numbered := by
  obtain ⟨hhand, hqueue, harr, hsighted, hhandled⟩ : _ ∧ _ ∧ _ ∧ _ ∧ _ := by
    simpa only [intake, Prod.mk.injEq] using hs
  refine h.of_sub harr (fun q hq _ ↦ hqueue ▸ hq) hhandled (fun a ha ↦ ?_) (fun a ha ↦ ?_)
  · rwa [InHand, ← hhand]
  · rw [hsighted]
    exact h.sighted a (hhand ▸ ha)

/-- No arrival of this number has gone on before. -/
theorem Numbered.arrive {item : Mesh.CompleteItem} {wipes : ℕ} (h : s.Numbered) : Numbered
      { s with
        hand := some (.gated { item with no := s.log.arrivals, wipes })
        log := { s.log with arrivals := s.log.arrivals + 1 } } := by
  refine ⟨fun a ha ↦ ?_, fun a ha ↦ (by cases ha), fun q hq a d ha ↦ ?_, fun v hv ↦ ?_⟩
  · cases ha
    rfl
  · have hlt := (h.queue q hq a d ha).1
    refine ⟨Nat.lt_succ_of_lt hlt, fun hin ↦ ?_⟩
    cases hin
    exact Nat.lt_irrefl _ hlt
  · have hlt := (h.handled v hv).1
    refine ⟨Nat.lt_succ_of_lt hlt, fun hin ↦ ?_⟩
    have hno : s.log.arrivals = v.arrival.no := congrArg Arrival.no (Option.some.inj hin)
    omega

/-- The event of the arrival in hand goes into the channel, or is dropped. -/
theorem Numbered.enqueue {d : Option Decision} (h : s.Numbered)
    (hhand : s.hand = some (.relayed a d)) : Numbered
      (({ s with hand := none } : Node).send
        { event := a.event env resync, arrival := some (a, d) }) := by
  have hin : s.InHand a := by rw [InHand, hhand]; rfl
  have hempty : Numbered ({ s with hand := none } : Node) :=
    h.of_sub rfl (fun q hq _ ↦ hq) rfl (fun a ha ↦ by cases ha) (fun a ha ↦ by cases ha)
  rw [send]
  split
  · refine ⟨hempty.hand, hempty.sighted, fun q hq b d' hb ↦ ?_, hempty.handled⟩
    obtain hq | hq := List.mem_append.mp hq
    · exact hempty.queue q hq b d' hb
    · rw [List.mem_singleton.mp hq] at hb
      cases hb
      have := h.hand a hin
      exact ⟨by dsimp only; omega, by rintro ⟨⟩⟩
  · exact hempty

theorem Numbered.pop {wall : WallClock} {others : List PeerId} (h : s.Numbered)
    (hqueue : s.queue = q :: queue) :
    Numbered ({ s with queue }.eventArm env q wall others) := by
  have hlog : ({ s with queue }.eventArm env q wall others).log.arrivals = s.log.arrivals ∧
      ({ s with queue }.eventArm env q wall others).log.sighted = s.log.sighted ∧
      ∀ v ∈ ({ s with queue }.eventArm env q wall others).log.handled,
        v ∈ s.log.handled ∨ ∃ d, q.arrival = some (v.arrival, d) := by
    simp only [eventArm, after_arrivals, after_sighted, after_handled, true_and]
    intro v hv
    obtain hv | hv := List.mem_append.mp hv
    · exact .inl hv
    · split at hv
      case h_1 b d hb =>
        rw [List.mem_singleton.mp hv]
        exact .inr ⟨d, hb⟩
      case h_2 => cases hv
  obtain ⟨harr, hsighted, hhandled⟩ := hlog
  refine ⟨fun a ha ↦ ?_, fun a ha ↦ ?_, fun q' hq a d ha ↦ ?_, fun v hv ↦ ?_⟩
  · rw [harr]
    exact h.hand a ha
  · rw [hsighted]
    exact h.sighted a ha
  · rw [harr]
    exact h.queue q' (hqueue ▸ .tail q hq) a d ha
  · rw [harr]
    obtain hv | ⟨d, hd⟩ := hhandled v hv
    · exact h.handled v hv
    · exact h.queue q (hqueue ▸ .head _) v.arrival d hd

/-- The stages between the gate and the channel. -/
theorem Numbered.resume {hand : Hand} (h : s.Numbered) (hhand : s.hand = some hand) :
    Numbered (s.resume env o resync hand) := by
  have hin : ∀ a, s.InHand a ↔ hand.arrival = some a := by simp [InHand, hhand]
  have hpast : ∀ a, hand.pastSight = some a → a ∈ s.log.sighted :=
    fun a ha ↦ h.sighted a (by rw [hhand]; exact ha)
  cases hand with
  | gated a =>
    simp only [Node.resume]
    split
    · exact h.of_sub rfl (fun _ hq _ ↦ hq) rfl (fun b hb ↦ (hin b).mpr hb) (fun b hb ↦ by cases hb)
    · exact h.of_sub rfl (fun _ hq _ ↦ hq) rfl (fun b hb ↦ by cases hb) (fun b hb ↦ by cases hb)
  | acked a =>
    simp only [Node.resume]
    split
    · refine h.of_sub rfl (fun _ hq _ ↦ hq) rfl (fun b hb ↦ (hin b).mpr hb) (fun b hb ↦ ?_)
      cases hb
      exact List.mem_append_right _ (.head _)
    · exact h.of_sub rfl (fun _ hq _ ↦ hq) rfl (fun b hb ↦ by cases hb) (fun b hb ↦ by cases hb)
  | sighted a =>
    simp only [Node.resume]
    split <;> exact h.of_sub rfl (fun _ hq _ ↦ hq) rfl (fun b hb ↦ (hin b).mpr hb)
      (fun b hb ↦ hpast b hb)
  | judged a d =>
    cases d <;> exact h.of_sub rfl (fun _ hq _ ↦ hq) rfl (fun b hb ↦ (hin b).mpr hb)
      (fun b hb ↦ hpast b hb)
  | cached a d =>
    simp only [Node.resume]
    split <;> exact h.of_sub rfl (fun _ hq _ ↦ hq) rfl (fun b hb ↦ (hin b).mpr hb)
      (fun b hb ↦ hpast b hb)
  | relayed a d => exact h.enqueue hhand
  | serving hash entry =>
    simp only [Node.resume]
    split <;> exact h.of_sub rfl (fun _ hq _ ↦ hq) rfl (fun b hb ↦ by cases hb)
      (fun b hb ↦ by cases hb)

theorem Numbered.step (h : s.Numbered) (hstep : s.step env act = some s') : s'.Numbered := by
  cases act with
  | arrive item wipes =>
    obtain ⟨-, -, -, rfl⟩ := step_arrive hstep
    exact h.arrive
  | inbound o resync =>
    obtain ⟨hand, hhand, rfl⟩ := step_inbound hstep
    exact h.resume hhand
  | pull hash now =>
    obtain ⟨hhand, rfl | ⟨entry, -, rfl⟩⟩ := step_pull hstep
    · exact h
    · exact h.of_sub rfl (fun _ hq _ ↦ hq) rfl (fun b hb ↦ by cases hb) (fun b hb ↦ by cases hb)
  | raise e =>
    obtain ⟨-, rfl⟩ := step_raise hstep
    rw [send]
    split
    · refine h.of_sub rfl (fun q hq hsome ↦ ?_) rfl (fun _ hb ↦ hb) h.sighted
      obtain hq | hq := List.mem_append.mp hq
      · exact hq
      · rw [List.mem_singleton.mp hq] at hsome
        cases hsome
    · exact h
  | pop wall others =>
    obtain ⟨-, q, queue, hqueue, rfl⟩ := step_pop hstep
    exact h.pop hqueue
  | _ =>
    exact h.of_intake (intake_step hstep nofun nofun nofun nofun nofun)

theorem Delivered.of_keeps (h : s.Delivered env) (hsighted : s'.log.sighted = s.log.sighted)
    (hhand : ∀ a, s.Ingesting a → s'.Ingesting a) (hqueue : ∀ q ∈ s.queue, q ∈ s'.queue)
    (hhandled : s'.log.handled = s.log.handled) : s'.Delivered env := by
  intro a ha
  rw [hsighted] at ha
  obtain h | ⟨q, hq, h⟩ | ⟨v, hv, h⟩ := h a ha
  · exact .inl (hhand a h)
  · exact .inr (.inl ⟨q, hqueue q hq, h⟩)
  · exact .inr (.inr ⟨v, hhandled ▸ hv, h⟩)

theorem Delivered.of_intake (h : s.Delivered env) (hs : s'.intake = s.intake) :
    s'.Delivered env := by
  obtain ⟨hhand, hqueue, -, hsighted, hhandled⟩ : _ ∧ _ ∧ _ ∧ _ ∧ _ := by
    simpa only [intake, Prod.mk.injEq] using hs
  refine h.of_keeps hsighted (fun a ha ↦ ?_) (fun q hq ↦ hqueue ▸ hq) hhandled
  rwa [Ingesting, hhand]

/-- With room in the channel every stage keeps the arrival on its way. -/
theorem Delivered.resume {hand : Hand} (h : s.Delivered env) (hhand : s.hand = some hand)
    (hroom : ∀ a d, hand = .relayed a d → s.queue.length < EVENT_CHANNEL_CAP) :
    (s.resume env o resync hand).Delivered env := by
  have hin : ∀ a, s.Ingesting a ↔ hand.pastSight = some a := by simp [Ingesting, hhand]
  cases hand with
  | gated a =>
    simp only [Node.resume]
    split <;> exact h.of_keeps rfl (fun b hb ↦ by cases (hin b).mp hb) (fun _ hq ↦ hq) rfl
  | acked a =>
    simp only [Node.resume]
    split
    · intro b hb
      obtain hb | hb := List.mem_append.mp hb
      · obtain h | h | h := h b hb
        · cases (hin b).mp h
        · exact .inr (.inl h)
        · exact .inr (.inr h)
      · exact .inl (by rw [List.mem_singleton.mp hb]; rfl)
    · exact h.of_keeps rfl (fun b hb ↦ by cases (hin b).mp hb) (fun _ hq ↦ hq) rfl
  | sighted a =>
    simp only [Node.resume]
    split <;> exact h.of_keeps rfl (fun b hb ↦ (hin b).mp hb) (fun _ hq ↦ hq) rfl
  | judged a d =>
    cases d <;> exact h.of_keeps rfl (fun b hb ↦ (hin b).mp hb) (fun _ hq ↦ hq) rfl
  | cached a d =>
    simp only [Node.resume]
    split <;> exact h.of_keeps rfl (fun b hb ↦ (hin b).mp hb) (fun _ hq ↦ hq) rfl
  | relayed a d =>
    simp only [Node.resume, send, if_pos (hroom a d rfl)]
    intro b hb
    obtain h | ⟨q, hq, h⟩ | h := h b hb
    · obtain rfl : a = b := Option.some.inj ((hin b).mp h)
      exact .inr (.inl ⟨_, List.mem_append_right _ (.head _), resync, d, rfl⟩)
    · exact .inr (.inl ⟨q, List.mem_append_left _ hq, h⟩)
    · exact .inr (.inr h)
  | serving hash entry =>
    simp only [Node.resume]
    split <;> exact h.of_keeps rfl (fun b hb ↦ by cases (hin b).mp hb) (fun _ hq ↦ hq) rfl

theorem Delivered.pop {wall : WallClock} {others : List PeerId} (h : s.Delivered env)
    (hqueue : s.queue = q :: queue) :
    ({ s with queue }.eventArm env q wall others).Delivered env := by
  intro a ha
  simp only [eventArm, after_sighted] at ha
  obtain h | ⟨q', hq', resync, d, hq⟩ | ⟨v, hv, h⟩ := h a ha
  · exact .inl h
  · rw [hqueue] at hq'
    obtain rfl | hq' := List.mem_cons.mp hq'
    · refine .inr (.inr ⟨{ arrival := a, judged := d, live := a.decide (refreshed s.app others
        q'.event).firewall }, List.mem_append_right _ ?_, rfl⟩)
      rw [hq]
      exact .head _
    · exact .inr (.inl ⟨q', hq', resync, d, hq⟩)
  · refine .inr (.inr ⟨v, List.mem_append_left _ ?_, h⟩)
    rwa [after_handled]

theorem Delivered.step (h : s.Delivered env) (hroom : s.Room act)
    (hstep : s.step env act = some s') : s'.Delivered env := by
  cases act with
  | arrive item wipes =>
    obtain ⟨hhand, -, -, rfl⟩ := step_arrive hstep
    refine h.of_keeps rfl (fun b hb ↦ ?_) (fun _ hq ↦ hq) rfl
    rw [Ingesting, hhand] at hb
    cases hb
  | inbound o resync =>
    obtain ⟨hand, hhand, rfl⟩ := step_inbound hstep
    exact h.resume hhand fun a d hrel ↦ hroom a d (hrel ▸ hhand)
  | pull hash now =>
    obtain ⟨hhand, rfl | ⟨entry, -, rfl⟩⟩ := step_pull hstep
    · exact h
    · refine h.of_keeps rfl (fun b hb ↦ ?_) (fun _ hq ↦ hq) rfl
      rw [Ingesting, hhand] at hb
      cases hb
  | raise e =>
    obtain ⟨-, rfl⟩ := step_raise hstep
    rw [send]
    split
    · exact h.of_keeps rfl (fun _ hb ↦ hb) (fun _ hq ↦ List.mem_append_left _ hq) rfl
    · exact h
  | pop wall others =>
    obtain ⟨-, q, queue, hqueue, rfl⟩ := step_pop hstep
    exact h.pop hqueue
  | _ =>
    exact h.of_intake (intake_step hstep nofun nofun nofun nofun nofun)

/-- A full channel loses the arrival for good. -/
theorem Numbered.lost (h : s.Numbered) (hroom : ¬ s.Room act) (hstep : s.step env act = some s') :
    ¬ s'.Delivered env := by
  obtain ⟨o, resync, a, d, rfl, hhand, hfull⟩ : ∃ o resync a d, act = .inbound o resync ∧
      s.hand = some (.relayed a d) ∧ ¬ s.queue.length < EVENT_CHANNEL_CAP := by
    cases act with
    | inbound o resync =>
      simp only [Room, not_forall] at hroom
      obtain ⟨a, d, hhand, hfull⟩ := hroom
      exact ⟨o, resync, a, d, rfl, hhand, hfull⟩
    | _ => exact absurd trivial hroom
  obtain ⟨hand, hhand', rfl⟩ := step_inbound hstep
  obtain rfl : Hand.relayed a d = hand := Option.some.inj (hhand.symm.trans hhand')
  have hin : s.InHand a := by rw [InHand, hhand]; rfl
  intro hdel
  simp only [Node.resume, send, if_neg hfull] at hdel
  obtain h' | ⟨q, hq, resync, d', rfl⟩ | ⟨v, hv, rfl⟩ := hdel a (h.sighted a (by rw [hhand]; rfl))
  · cases h'
  · exact (h.queue _ hq a d' rfl).2 hin
  · exact (h.handled v hv).2 hin

theorem numbered_start {policy : FirewallPolicy} : (start policy).Numbered :=
  ⟨fun a ha ↦ (by cases ha), fun a ha ↦ (by cases ha), by simp [start], by simp [start]⟩

/-- Every item acked at its first sight reaches the App's queue exactly when the channel has room
each time the receive loop hands one over. -/
theorem acked_delivered_iff {policy : FirewallPolicy} {l : List Act}
    (hr : Run (Node.step env) Always (start policy) l s) :
    (∀ l' t, l' <+: l → Run (Node.step env) Always (start policy) l' t → t.Delivered env) ↔
      Run (Node.step env) Room (start policy) l s :=
  run_observed_iff (I := fun t ↦ t.Numbered ∧ t.Delivered env)
    ⟨numbered_start, by simp [Delivered, start]⟩ (fun _ h ↦ h.2)
    (fun _ _ _ h hroom hstep ↦ ⟨h.1.step hstep, h.2.step hroom hstep⟩)
    (fun _ _ _ h hroom hstep ↦ h.1.lost hroom hstep) hr

/-- Stands in for the hash functions. -/
def sizes : Env where
  blake3 b := .ofNat 256 b.size
  imageHash _ := none
  previewLabel _ _ := ""

def hi : Mesh.CompleteItem where
  lamport := 1
  hash := 2
  kind := .text
  payload := [104, 105]
  sensitive := false
  origin := 1
  eventSeq := 0
  source := 1

/-- No peer is linked. -/
def quiet : Oracle := { now := 0, targets := [], sends := [], id := ⟨9, 0⟩ }

def midnight : WallClock := { hhmm := "00:00", unixMillis := 0 }

/-- The item goes through the receive loop. -/
def delivery : List Act := .arrive hi 0 :: List.replicate 6 (.inbound quiet false)

/-- The retransmission is acked again and dropped as seen. -/
def floodThenDeliver : List Act :=
  List.replicate EVENT_CHANNEL_CAP (.raise .meshPeersChanged) ++ delivery ++ delivery.take 3

theorem foldlM_raise {e : Event} {n : ℕ} (he : raised e)
    (hn : s.queue.length + n ≤ EVENT_CHANNEL_CAP) :
    (List.replicate n (Act.raise e)).foldlM (Node.step env) s =
      some { s with queue := s.queue ++ List.replicate n { event := e } } := by
  induction n generalizing s with
  | zero => simp
  | succ n ih =>
    have hstep : s.step env (.raise e) = some { s with queue := s.queue ++ [{ event := e }] } := by
      rw [Node.step, if_pos he, send, if_pos (by omega)]
    rw [List.replicate_succ, List.foldlM_cons, hstep, Option.bind_eq_bind, Option.bind_some,
      ih (by simp only [List.length_append, List.length_singleton]; omega)]
    simp [List.replicate_succ]

/-- The channel is full. -/
def flooded : Node :=
  { start {} with queue := List.replicate EVENT_CHANNEL_CAP { event := .meshPeersChanged } }

theorem flooded_delivers :
    ((delivery ++ delivery.take 3).foldlM (Node.step sizes) flooded).isSome := by
  decide +kernel

def afterFlood : Node :=
  ((delivery ++ delivery.take 3).foldlM (Node.step sizes) flooded).get flooded_delivers

theorem flood_runs : Run (Node.step sizes) Always (start {}) floodThenDeliver afterFlood := by
  have hflood : (List.replicate EVENT_CHANNEL_CAP (Act.raise .meshPeersChanged)).foldlM
      (Node.step sizes) (start {}) = some flooded := foldlM_raise rfl (by decide)
  apply run_of_foldlM
  rw [floodThenDeliver, List.append_assoc, List.foldlM_append, hflood, Option.bind_eq_bind,
    Option.bind_some, afterFlood, Option.some_get]

/-- The first sight of the item was acked, its event is nowhere, and the retransmission was not
let through. -/
theorem full_channel_loses_acked : ∃ s,
    Run (Node.step sizes) Always (start {}) floodThenDeliver s ∧ ¬ s.Delivered sizes ∧
      s.log.arrivals = 2 ∧ s.log.sighted.map (·.no) = [0] := by
  refine ⟨afterFlood, flood_runs, fun hdel ↦ ?_, by decide +kernel⟩
  obtain h | h | h := hdel { hi with no := 0, wipes := 0 } (by decide +kernel)
  · have hnone : afterFlood.hand.isNone := by decide +kernel
    rw [Ingesting, Option.isNone_iff_eq_none.mp hnone] at h
    cases h
  · obtain ⟨q, hq, resync, decision, rfl⟩ := h
    have hnone : afterFlood.queue.all (·.arrival.isNone) := by decide +kernel
    cases List.all_eq_true.mp hnone _ hq
  · obtain ⟨v, hv, -⟩ := h
    have hnone : afterFlood.log.handled.isEmpty := by decide +kernel
    rw [List.isEmpty_iff.mp hnone] at hv
    cases hv

def deliverAlone : List Act := delivery ++ [.pop midnight []]

theorem acked_delivered_iff_deliverAlone : ∃ l s, l ≠ [] ∧
    ((∀ l' t, l' <+: l → Run (Node.step sizes) Always (start {}) l' t → t.Delivered sizes) ↔
      Run (Node.step sizes) Room (start {}) l s) ∧ s.log.handled.length = 1 :=
  ⟨deliverAlone, _, by decide,
    acked_delivered_iff (run_of_isSome (l := deliverAlone) (by decide +kernel)), by decide +kernel⟩

end FluxSync.Pipeline.Node
