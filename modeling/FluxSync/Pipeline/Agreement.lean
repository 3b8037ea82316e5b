import FluxSync.Pipeline.Admission

namespace FluxSync.Pipeline

open Runs

/-- The arrival in hand with its decision, once the receive loop is past judging it. -/
def Hand.decided : Hand → Option (Arrival × Option Decision)
  | .judged a d => some (a, some d)
  | .cached a d | .relayed a d => some (a, d)
  | _ => none

/-- How the receive loop judges an arrival by a policy. -/
def Arrival.due (a : Arrival) (policy : FirewallPolicy) : Option Decision :=
  if a.sensitive then none else some (a.decide policy)

namespace Node

variable {env : Env} {s s' : Node} {a : Arrival} {d : Option Decision} {x : Decision} {o : Oracle}
  {resync : Bool} {hand : Hand} {act : Act} {c : Chore} {cmd : Cmd} {q : Queued}
  {queue : List Queued} {policy : FirewallPolicy}

/-- The arrival was judged so and is on its way to the App. -/
def Judged (s : Node) (a : Arrival) (d : Option Decision) : Prop :=
  s.hand.bind Hand.decided = some (a, d) ∨ ∃ q ∈ s.queue, q.arrival = some (a, d)

/-- The App has passed the item or the user has approved it, or it is on its way and would pass. -/
def PassedOrApproved (s : Node) (no : ℕ) : Prop :=
  no ∈ s.log.approved ∨ (∃ v ∈ s.log.handled, v.arrival.no = no ∧ v.live = .pass) ∨
    ∃ a, a.no = no ∧ s.Judged a (some .pass) ∧ a.decide s.app.firewall = .pass

/-- The receive loop judges by a policy that decides as the App's, a new policy decides as the old
one for what is on its way, and what has passed finds room in the channel. -/
def Steady (s : Node) : Act → Prop
  | .inbound _ _ =>
    match s.hand with
    | some (.sighted a) => a.sensitive = false → a.decide s.published = a.decide s.app.firewall
    | some (.relayed _ d) => d = some .pass → s.queue.length < EVENT_CHANNEL_CAP
    | _ => True
  | .command (.setFirewall policy) => ∀ a d, s.Judged a (some d) → a.decide policy = d
  | _ => True

/-- A relayed arrival was not judged as blocked and is not judged again. -/
structure Unblocked (s : Node) (a : Arrival) : Prop where
  older : a.no < s.log.arrivals
  hand : s.InHand a → ∃ d, s.hand = some (.relayed a d)
  judged : ∀ d, s.Judged a d → d ≠ some .block
  handled : ∀ v ∈ s.log.handled, v.arrival = a → v.judged ≠ some .block

structure Agreeing (s : Node) : Prop where
  numbered : s.Numbered
  judged : ∀ a d, s.Judged a d → d = a.due s.app.firewall
  agree : ∀ v ∈ s.log.handled, v.judged = if v.arrival.sensitive then none else some v.live
  relayed : ∀ a ∈ s.log.relayed, s.Unblocked a
  outbox : ∀ (h : ContentHash) (e : OutboxEntry) (no : ℕ) (p : PeerId),
    s.outbox.entries[h]? = some e → e.capture.arrival = some (no, p) → s.PassedOrApproved no

theorem judged_iff (hhand : s.hand = some hand) : s.Judged a d ↔
    hand.decided = some (a, d) ∨ ∃ q ∈ s.queue, q.arrival = some (a, d) := by
  rw [Judged, hhand]
  rfl

theorem inHand_of_decided (hd : hand.decided = some (a, d)) : hand.arrival = some a := by
  cases hand <;> cases hd <;> rfl

theorem due_congr {policy policy' : FirewallPolicy}
    (h : ∀ d, a.due policy = some d → a.decide policy' = d) : a.due policy = a.due policy' := by
  rw [Arrival.due] at h ⊢
  rw [Arrival.due]
  split
  · rfl
  · rename_i hsens
    rw [if_neg hsens] at h
    rw [h _ rfl]

/-- A step that hands nothing to the App. -/
theorem Agreeing.of_frame (hs : s.Agreeing) (hnum : s'.Numbered)
    (harr : s.log.arrivals ≤ s'.log.arrivals) (hhandled : s'.log.handled = s.log.handled)
    (happroved : s.log.approved ⊆ s'.log.approved)
    (hhand : s'.hand = s.hand ∨ ∀ a, s'.InHand a → s.log.arrivals ≤ a.no ∨
      s.InHand a ∧ ∀ d, s.hand ≠ some (.relayed a d))
    (hkeep : ∀ a, s.Judged a (some .pass) → s'.Judged a (some .pass))
    (hnew : ∀ a d, s'.Judged a d → s.Judged a d ∨
      s.hand = some (.sighted a) ∧ d = a.due s.app.firewall)
    (hfire : ∀ a d, s'.Judged a (some d) → a.due s.app.firewall = some d →
      a.decide s'.app.firewall = d)
    (hrelayed : ∀ a ∈ s'.log.relayed, a ∈ s.log.relayed ∨ s'.Unblocked a)
    (houtbox : ∀ (h : ContentHash) (e : OutboxEntry) (no : ℕ) (p : PeerId),
      s'.outbox.entries[h]? = some e → e.capture.arrival = some (no, p) →
        s.outbox.entries[h]? = some e ∨ s'.PassedOrApproved no) : s'.Agreeing := by
  have hdue : ∀ a d, s'.Judged a d → d = a.due s'.app.firewall := by
    intro a d hd
    have hold : d = a.due s.app.firewall := (hnew a d hd).elim (hs.judged a d) And.right
    rw [hold]
    exact due_congr fun x hx ↦ hfire a x (hx ▸ hold ▸ hd) hx
  refine ⟨hnum, hdue, fun v hv ↦ hs.agree v (hhandled ▸ hv), fun a ha ↦ ?_,
    fun h e no p he hno ↦ ?_⟩
  · obtain ha | ha := hrelayed a ha
    · have hold := hs.relayed a ha
      refine ⟨hold.older.trans_le harr, fun hin ↦ ?_, fun d hd ↦ ?_,
        fun v hv ↦ hold.handled v (hhandled ▸ hv)⟩
      · obtain hsame | hmove := hhand
        · rw [hsame]
          exact hold.hand (by rwa [InHand, ← hsame])
        · obtain hno | ⟨hin, hstage⟩ := hmove a hin
          · exact absurd hold.older (Nat.not_lt_of_le hno)
          · obtain ⟨d, hd⟩ := hold.hand hin
            exact absurd hd (hstage d)
      · obtain hd | ⟨hsighted, -⟩ := hnew a d hd
        · exact hold.judged d hd
        · obtain ⟨d', hd'⟩ := hold.hand (by rw [InHand, hsighted]; rfl)
          rw [hsighted] at hd'
          cases hd'
    · exact ha
  · obtain he | he := houtbox h e no p he hno
    · obtain h | ⟨v, hv, h⟩ | ⟨a, hno, ha, -⟩ := hs.outbox h e no p he hno
      · exact .inl (happroved h)
      · exact .inr (.inl ⟨v, hhandled ▸ hv, h⟩)
      · have ha' := hkeep a ha
        exact .inr (.inr ⟨a, hno, ha', hfire a _ ha' (hs.judged a _ ha).symm⟩)
    · exact he

/-- A step that leaves alone what an item goes through. -/
theorem Agreeing.of_intake (hs : s.Agreeing) (hi : s'.intake = s.intake)
    (hrelayed : s'.log.relayed = s.log.relayed) (happroved : s.log.approved ⊆ s'.log.approved)
    (hfire : ∀ a d, s.Judged a (some d) → a.due s.app.firewall = some d →
      a.decide s'.app.firewall = d)
    (houtbox : ∀ (h : ContentHash) (e : OutboxEntry) (no : ℕ) (p : PeerId),
      s'.outbox.entries[h]? = some e → e.capture.arrival = some (no, p) →
        s.outbox.entries[h]? = some e ∨ no ∈ s'.log.approved) : s'.Agreeing := by
  obtain ⟨hhand, hqueue, harr, -, hhandled⟩ : _ ∧ _ ∧ _ ∧ _ ∧ _ := by
    simpa only [intake, Prod.mk.injEq] using hi
  have hjudged {a d} : s'.Judged a d ↔ s.Judged a d := by rw [Judged, Judged, hhand, hqueue]
  exact hs.of_frame (hs.numbered.of_intake hi) harr.ge hhandled happroved (.inl hhand)
    (fun a ↦ hjudged.mpr) (fun a d hd ↦ .inl (hjudged.mp hd)) (fun a d hd ↦ hfire a d (hjudged.mp hd))
    (fun a ha ↦ .inl (hrelayed ▸ ha)) fun h e no p he hno ↦ (houtbox h e no p he hno).imp_right .inl

/-- The App's policy decides alone while nothing of it changes. -/
theorem due_decide (hd : a.due policy = some x) : a.decide policy = x := by
  rw [Arrival.due] at hd
  split at hd
  · cases hd
  · exact Option.some.inj hd

/-- A move of the receive loop up to the hand-over. -/
theorem Agreeing.of_stage (hs : s.Agreeing) (hhand : s.hand = some hand)
    (hstage : ∀ a d, hand ≠ .relayed a d) (hnum : s'.Numbered)
    (harr : s'.log.arrivals = s.log.arrivals) (hhandled : s'.log.handled = s.log.handled)
    (happroved : s'.log.approved = s.log.approved) (happ : s'.app = s.app)
    (hqueue : s'.queue = s.queue) (hin : ∀ a, s'.InHand a → hand.arrival = some a)
    (hdecided : s'.hand.bind Hand.decided = hand.decided ∨
      ∃ a, hand = .sighted a ∧ s'.hand.bind Hand.decided = some (a, a.due s.app.firewall))
    (hrelayed : ∀ a ∈ s'.log.relayed, a ∈ s.log.relayed ∨ s'.Unblocked a)
    (houtbox : ∀ (h : ContentHash) (e : OutboxEntry) (no : ℕ) (p : PeerId),
      s'.outbox.entries[h]? = some e → e.capture.arrival = some (no, p) →
        s.outbox.entries[h]? = some e ∨ s'.PassedOrApproved no) : s'.Agreeing := by
  refine hs.of_frame hnum harr.ge hhandled (happroved ▸ List.Subset.refl _)
    (.inr fun a ha ↦ .inr ⟨?_, fun d hd ↦ ?_⟩) (fun a ha ↦ ?_) (fun a d hd ↦ ?_)
    (fun a d _ hdue ↦ by rw [happ]; exact due_decide hdue) hrelayed houtbox
  · rw [InHand, hhand]
    exact hin a ha
  · rw [hhand] at hd
    exact hstage a d (Option.some.inj hd)
  · rw [Judged, hqueue]
    refine ((judged_iff hhand).mp ha).imp_left fun ha ↦ ?_
    obtain hsame | ⟨b, rfl, -⟩ := hdecided
    · rwa [hsame]
    · cases ha
  · rw [Judged, hqueue] at hd
    rw [judged_iff hhand, hhand]
    obtain hd | hd := hd
    · obtain hsame | ⟨b, rfl, hnew⟩ := hdecided
      · exact .inl (.inl (hsame ▸ hd))
      · obtain ⟨rfl, rfl⟩ := Prod.mk.inj (Option.some.inj (hnew.symm.trans hd))
        exact .inr ⟨rfl, rfl⟩
    · exact .inl (.inr hd)

/-- A relay of the arrival in hand. -/
theorem unblocked_cached (hs : s.Numbered) (hhand : s.hand = some (.cached a d))
    (hd : d ≠ some .block) (hnext : s'.hand = some (.relayed a d)) (hqueue : s'.queue = s.queue)
    (harr : s'.log.arrivals = s.log.arrivals) (hhandled : s'.log.handled = s.log.handled) :
    s'.Unblocked a := by
  have hin : s.InHand a := by
    rw [InHand, hhand]
    rfl
  refine ⟨?_, fun _ ↦ ⟨d, hnext⟩, fun d' hd' ↦ ?_, fun v hv hva ↦ ?_⟩
  · rw [harr, ← hs.hand a hin]
    exact Nat.lt_succ_self _
  · obtain hd' | ⟨q, hq, hqa⟩ := (judged_iff hnext).mp hd'
    · obtain ⟨-, rfl⟩ := Prod.mk.inj (Option.some.inj hd')
      exact hd
    · exact absurd hin (hs.queue q (hqueue ▸ hq) a d' hqa).2
  · exact absurd (hva ▸ hin) (hs.handled v (hhandled ▸ hv)).2

/-- With room in the channel the arrival that has passed stays on its way. -/
theorem Agreeing.enqueue (hs : s.Agreeing) (hhand : s.hand = some (.relayed a d))
    (hroom : d = some .pass → s.queue.length < EVENT_CHANNEL_CAP) : Agreeing
      (({ s with hand := none } : Node).send
        { event := a.event env resync, arrival := some (a, d) }) := by
  have hnum : Numbered (({ s with hand := none } : Node).send
      { event := a.event env resync, arrival := some (a, d) }) := hs.numbered.enqueue hhand
  rw [send] at hnum ⊢
  split <;> rename_i hlen
  · rw [if_pos hlen] at hnum
    refine hs.of_frame hnum le_rfl rfl (List.Subset.refl _) (.inr fun x hx ↦ by cases hx)
      (fun x hx ↦ ?_) (fun x d' hx ↦ .inl ?_) (fun x d' _ hdue ↦ due_decide hdue)
      (fun x hx ↦ .inl hx) fun h e no p he _ ↦ .inl he
    · obtain hx | ⟨q, hq, hqx⟩ := (judged_iff hhand).mp hx
      · exact .inr ⟨_, List.mem_append_right _ (.head _), hx⟩
      · exact .inr ⟨q, List.mem_append_left _ hq, hqx⟩
    · rw [judged_iff hhand]
      obtain hx | ⟨q, hq, hqx⟩ := hx
      · cases hx
      · obtain hq | hq := List.mem_append.mp hq
        · exact .inr ⟨q, hq, hqx⟩
        · rw [List.mem_singleton.mp hq] at hqx
          exact .inl hqx
  · rw [if_neg hlen] at hnum
    refine hs.of_frame hnum le_rfl rfl (List.Subset.refl _) (.inr fun x hx ↦ by cases hx)
      (fun x hx ↦ ?_) (fun x d' hx ↦ .inl ?_) (fun x d' _ hdue ↦ due_decide hdue)
      (fun x hx ↦ .inl hx) fun h e no p he _ ↦ .inl he
    · obtain hx | hx := (judged_iff hhand).mp hx
      · exact absurd (hroom (Prod.mk.inj (Option.some.inj hx)).2) hlen
      · exact .inr hx
    · rw [judged_iff hhand]
      obtain hx | hx := hx
      · cases hx
      · exact .inr hx

/-- What the receive loop judges, it judges as the App will. -/
theorem Agreeing.resume (hs : s.Agreeing) (hhand : s.hand = some hand)
    (hok : s.Steady (.inbound o resync)) : (s.resume env o resync hand).Agreeing := by
  have hnum : (s.resume env o resync hand).Numbered := hs.numbered.resume hhand
  simp only [Steady, hhand] at hok
  cases hand with
  | gated a =>
    simp only [Node.resume] at hnum ⊢
    split at hnum <;> rename_i hv
    · rw [if_pos hv]
      exact hs.of_stage hhand (by simp) hnum rfl rfl rfl rfl rfl (fun _ hx ↦ hx) (.inl rfl)
        (fun _ hx ↦ .inl hx) fun _ _ _ _ he _ ↦ .inl he
    · rw [if_neg hv]
      exact hs.of_stage hhand (by simp) hnum rfl rfl rfl rfl rfl (fun _ hx ↦ by cases hx) (.inl rfl)
        (fun _ hx ↦ .inl hx) fun _ _ _ _ he _ ↦ .inl he
  | acked a =>
    simp only [Node.resume] at hnum ⊢
    split at hnum <;> rename_i hv
    · rw [if_pos hv]
      exact hs.of_stage hhand (by simp) hnum rfl rfl rfl rfl rfl (fun _ hx ↦ hx) (.inl rfl)
        (fun _ hx ↦ .inl hx) fun _ _ _ _ he _ ↦ .inl he
    · rw [if_neg hv]
      exact hs.of_stage hhand (by simp) hnum rfl rfl rfl rfl rfl (fun _ hx ↦ by cases hx) (.inl rfl)
        (fun _ hx ↦ .inl hx) fun _ _ _ _ he _ ↦ .inl he
  | sighted a =>
    simp only [Node.resume] at hnum ⊢
    split at hnum <;> rename_i hsens
    · rw [if_pos hsens]
      refine hs.of_stage hhand (by simp) hnum rfl rfl rfl rfl rfl (fun _ hx ↦ hx) (.inr ⟨a, rfl, ?_⟩)
        (fun _ hx ↦ .inl hx) fun _ _ _ _ he _ ↦ .inl he
      rw [Arrival.due, if_pos hsens]
      rfl
    · rw [if_neg hsens]
      refine hs.of_stage hhand (by simp) hnum rfl rfl rfl rfl rfl (fun _ hx ↦ hx) (.inr ⟨a, rfl, ?_⟩)
        (fun _ hx ↦ .inl hx) fun _ _ _ _ he _ ↦ .inl he
      rw [Arrival.due, if_neg hsens, ← hok (Bool.eq_false_of_not_eq_true hsens)]
      rfl
  | judged a d =>
    have hdue : some d = a.due s.app.firewall := hs.judged a _ ((judged_iff hhand).mpr (.inl rfl))
    cases d with
    | pass =>
      refine hs.of_stage hhand (by simp) hnum rfl rfl rfl rfl rfl (fun _ hx ↦ hx) (.inl rfl)
        (fun _ hx ↦ .inl hx) fun h e no p he hno ↦ ?_
      obtain ⟨-, rfl⟩ | he := Outbox.lookup_insert he
      · obtain ⟨rfl, -⟩ := Prod.mk.inj (Option.some.inj hno)
        exact .inr (.inr (.inr ⟨a, rfl, .inl rfl, due_decide hdue.symm⟩))
      · exact .inl he
    | defer | block =>
      exact hs.of_stage hhand (by simp) hnum rfl rfl rfl rfl rfl (fun _ hx ↦ hx) (.inl rfl)
        (fun _ hx ↦ .inl hx) fun _ _ _ _ he _ ↦ .inl he
  | cached a d =>
    simp only [Node.resume] at hnum ⊢
    split at hnum <;> rename_i hrelay
    · rw [if_pos hrelay]
      exact hs.of_stage hhand (by simp) hnum rfl rfl rfl rfl rfl (fun _ hx ↦ hx) (.inl rfl)
        (fun _ hx ↦ .inl hx) fun _ _ _ _ he _ ↦ .inl he
    · rw [if_neg hrelay]
      refine hs.of_stage hhand (by simp) hnum rfl rfl rfl rfl rfl (fun _ hx ↦ hx) (.inl rfl)
        (fun x hx ↦ ?_) fun _ _ _ _ he _ ↦ .inl he
      obtain hx | hx := List.mem_append.mp hx
      · exact .inl hx
      · rw [List.mem_singleton.mp hx]
        rw [not_or] at hrelay
        exact .inr (unblocked_cached hs.numbered hhand hrelay.1 rfl rfl rfl rfl)
  | relayed a d => exact hs.enqueue hhand hok
  | serving hash entry =>
    simp only [Node.resume] at hnum ⊢
    split at hnum <;> rename_i hsends
    · rw [if_pos hsends]
      exact hs.of_stage hhand (by simp) hnum rfl rfl rfl rfl rfl (fun _ hx ↦ by cases hx) (.inl rfl)
        (fun _ hx ↦ .inl hx) fun _ _ _ _ he _ ↦ .inl he
    · rw [if_neg hsends]
      exact hs.of_stage hhand (by simp) hnum rfl rfl rfl rfl rfl (fun _ hx ↦ by cases hx) (.inl rfl)
        (fun _ hx ↦ .inl hx) fun _ _ _ _ he _ ↦ .inl he

/-- The App decides as the arrival was judged. -/
theorem Agreeing.pop {wall : WallClock} {others : List PeerId} (hs : s.Agreeing)
    (hqueue : s.queue = q :: queue) : Agreeing ({ s with queue }.eventArm env q wall others) := by
  have hfire : ({ s with queue }.eventArm env q wall others).app.firewall = s.app.firewall := by
    simp only [eventArm, App.firewall_handle, refreshed_firewall]
  have hlog : ({ s with queue }.eventArm env q wall others).log.relayed = s.log.relayed ∧
      ({ s with queue }.eventArm env q wall others).log.approved = s.log.approved ∧
      ({ s with queue }.eventArm env q wall others).log.arrivals = s.log.arrivals := by
    simp only [eventArm, after_relayed, after_approved, after_arrivals, and_self]
  obtain ⟨hrelayed, happroved, harr⟩ := hlog
  have hjudged {a d} (hd : ({ s with queue }.eventArm env q wall others).Judged a d) :
      s.Judged a d := by
    obtain hd | ⟨q', hq', hqa⟩ := hd
    · exact .inl hd
    · exact .inr ⟨q', hqueue ▸ .tail q hq', hqa⟩
  have hhandled (v : Verdict)
      (hv : v ∈ ({ s with queue }.eventArm env q wall others).log.handled) : v ∈ s.log.handled ∨
        s.Judged v.arrival v.judged ∧ v.live = v.arrival.decide s.app.firewall := by
    cases hq : q.arrival with
    | none => exact .inl (eventArm_unhandled (s := { s with queue }) hq ▸ hv)
    | some x =>
      obtain ⟨a, d⟩ := x
      rw [eventArm_handled hq] at hv
      refine (List.mem_append.mp hv).imp_right fun hv ↦ ?_
      rw [List.mem_singleton.mp hv]
      exact ⟨.inr ⟨q, hqueue ▸ .head _, hq⟩, rfl⟩
  refine ⟨hs.numbered.pop hqueue, fun a d hd ↦ ?_, fun v hv ↦ ?_, fun a ha ↦ ?_,
    fun h e no p he hno ↦ ?_⟩
  · rw [hfire]
    exact hs.judged a d (hjudged hd)
  · obtain hv | ⟨hj, hlive⟩ := hhandled v hv
    · exact hs.agree v hv
    · rw [hs.judged _ _ hj, hlive, Arrival.due]
  · have hold := hs.relayed a (hrelayed ▸ ha)
    refine ⟨harr ▸ hold.older, hold.hand, fun d hd ↦ hold.judged d (hjudged hd), fun v hv hva ↦ ?_⟩
    obtain hv | ⟨hj, -⟩ := hhandled v hv
    · exact hold.handled v hv hva
    · exact hold.judged _ (hva ▸ hj)
  · obtain h | ⟨v, hv, h⟩ | ⟨a, hno, ha | ⟨q', hq', hqa⟩, hpass⟩ := hs.outbox h e no p he hno
    · exact .inl (happroved ▸ h)
    · exact .inr (.inl ⟨v, eventArm_keeps hv, h⟩)
    · exact .inr (.inr ⟨a, hno, .inl ha, hfire ▸ hpass⟩)
    · rw [hqueue] at hq'
      obtain rfl | hq' := List.mem_cons.mp hq'
      · refine .inr (.inl ⟨{ arrival := a, judged := some .pass, live := _ }, ?_, hno, hpass⟩)
        rw [eventArm_handled hqa]
        exact List.mem_append_right _ (.head _)
      · exact .inr (.inr ⟨a, hno, .inr ⟨q', hq', hqa⟩, hfire ▸ hpass⟩)

theorem perform_log (env : Env) (s : Node) (o : Oracle) (c : Chore) :
    (s.perform env o c).log.relayed = s.log.relayed ∧
      s.log.approved ⊆ (s.perform env o c).log.approved := by
  cases c with
  | handle e wall => simp only [perform, after_relayed, after_approved, List.Subset.refl, and_self]
  | promote hash admittedInbound =>
    simp only [perform]
    split
    · split
      · exact ⟨rfl, List.subset_append_left _ _⟩
      · exact ⟨rfl, List.Subset.refl _⟩
    · exact ⟨rfl, List.Subset.refl _⟩
  | act a =>
    cases a with
    | sendItem hash kind payload sensitive =>
      simp only [perform, dispatch]
      (repeat' split) <;> exact ⟨rfl, List.Subset.refl _⟩
    | _ => exact ⟨rfl, List.Subset.refl _⟩
  | _ => exact ⟨rfl, List.Subset.refl _⟩

theorem Agreeing.chore {todo : List Chore} (hs : s.Agreeing) (hsealed : s.Sealed env)
    (htodo : s.todo = c :: todo) : Agreeing (({ s with todo } : Node).perform env o c) := by
  have hunheld : ∀ e wall, c = .handle e wall → App.Unheld e :=
    fun e wall hc ↦ hsealed.chores e wall (by rw [htodo, hc]; exact .head _)
  obtain ⟨hrelayed, happroved⟩ := perform_log env { s with todo } o c
  refine hs.of_intake intake_perform hrelayed happroved (fun a d _ hdue ↦ ?_)
    fun h e no p he hno ↦ ?_
  · rw [(perform_kept env { s with todo } o hunheld).1]
    exact due_decide hdue
  · obtain he | ⟨hnone, -⟩ | ⟨-, happ⟩ := perform_outbox env { s with todo } o he
    · exact .inl he
    · rw [hnone] at hno
      cases hno
    · exact .inr (happ no p hno)

theorem Agreeing.command (hs : s.Agreeing) (hok : s.Steady (.command cmd)) :
    Agreeing (s.command env cmd) := by
  obtain ⟨houtbox, -, hlog, -⟩ := command_kept env s cmd
  refine hs.of_intake intake_command (by rw [hlog]) (hlog ▸ List.Subset.refl _)
    (fun a d hd hdue ↦ ?_) fun h e no p he _ ↦ .inl (houtbox ▸ he)
  by_cases hset : ∃ policy, cmd = .setFirewall policy
  · obtain ⟨policy, rfl⟩ := hset
    exact hok a d hd
  · rw [command_firewall fun policy h ↦ hset ⟨policy, h⟩]
    exact due_decide hdue

theorem Agreeing.step (hs : s.Agreeing) (hsealed : s.Sealed env) (hok : s.Steady act)
    (hstep : s.step env act = some s') : s'.Agreeing := by
  have hnum := hs.numbered.step hstep
  cases act with
  | arrive item wipes =>
    obtain ⟨hhand, -, -, rfl⟩ := step_arrive hstep
    refine hs.of_frame hnum (Nat.le_succ _) rfl (List.Subset.refl _) (.inr fun a ha ↦ .inl ?_)
      (fun a ha ↦ ?_) (fun a d hd ↦ .inl ?_) (fun a d _ hdue ↦ due_decide hdue)
      (fun a ha ↦ .inl ha) fun h e no p he _ ↦ .inl he
    · cases ha
      exact le_rfl
    · rw [Judged, hhand] at ha
      exact .inr (ha.resolve_left (by simp))
    · exact .inr (hd.resolve_left (by simp [Hand.decided]))
  | inbound o resync =>
    obtain ⟨hand, hhand, rfl⟩ := step_inbound hstep
    exact hs.resume hhand hok
  | pull hash now =>
    obtain ⟨hhand, rfl | ⟨entry, -, rfl⟩⟩ := step_pull hstep
    · exact hs
    · refine hs.of_frame hnum le_rfl rfl (List.Subset.refl _) (.inr fun a ha ↦ by cases ha)
        (fun a ha ↦ ?_) (fun a d hd ↦ .inl ?_) (fun a d _ hdue ↦ due_decide hdue)
        (fun a ha ↦ .inl ha) fun h e no p he _ ↦ .inl he
      · rw [Judged, hhand] at ha
        exact .inr (ha.resolve_left (by simp))
      · exact .inr (hd.resolve_left (by simp [Hand.decided]))
  | raise e =>
    obtain ⟨-, rfl⟩ := step_raise hstep
    rw [send] at hnum ⊢
    split at hnum <;> rename_i hlen
    · rw [if_pos hlen]
      refine hs.of_frame hnum le_rfl rfl (List.Subset.refl _) (.inl rfl) (fun a ha ↦ ?_)
        (fun a d hd ↦ .inl ?_) (fun a d _ hdue ↦ due_decide hdue) (fun a ha ↦ .inl ha)
        fun h e no p he _ ↦ .inl he
      · obtain ha | ⟨q, hq, hqa⟩ := ha
        · exact .inl ha
        · exact .inr ⟨q, List.mem_append_left _ hq, hqa⟩
      · obtain hd | ⟨q, hq, hqa⟩ := hd
        · exact .inl hd
        · obtain hq | hq := List.mem_append.mp hq
          · exact .inr ⟨q, hq, hqa⟩
          · rw [List.mem_singleton.mp hq] at hqa
            cases hqa
    · rw [if_neg hlen]
      exact hs
  | release hash p =>
    obtain rfl := Option.some.inj hstep
    rw [acked]
    split
    · dsimp only
      split <;> exact hs.of_intake rfl rfl (List.Subset.refl _) (fun a d _ hdue ↦ due_decide hdue)
        fun h e no p he _ ↦ .inl he
    · exact hs
  | leave p | join p =>
    obtain rfl := Option.some.inj hstep
    exact hs.of_intake rfl rfl (List.Subset.refl _) (fun a d _ hdue ↦ due_decide hdue)
      fun h e no p he _ ↦ .inl he
  | pop wall others =>
    obtain ⟨-, q, queue, hqueue, rfl⟩ := step_pop hstep
    exact hs.pop hqueue
  | command cmd =>
    obtain ⟨-, -, rfl⟩ := step_command hstep
    exact hs.command hok
  | chore o =>
    obtain ⟨c, todo, htodo, rfl⟩ := step_chore hstep
    exact hs.chore hsealed htodo

/-- A test of `Steady` for a run in which a new policy is set while nothing is on its way. -/
def steady (s : Node) : Act → Bool
  | .inbound .. => s.published = s.app.firewall && s.queue.length < EVENT_CHANNEL_CAP
  | .command (.setFirewall _) => s.hand.isNone && s.queue.isEmpty
  | _ => true

end Node

end FluxSync.Pipeline
