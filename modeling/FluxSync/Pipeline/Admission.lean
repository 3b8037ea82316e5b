import FluxSync.Core.Gate
import FluxSync.Pipeline.WipeSync

namespace FluxSync.Pipeline

namespace Node

variable {env : Env} {s s' : Node} {a : Arrival} {d : Option Decision} {o : Oracle} {resync : Bool}
  {hand : Hand} {act : Act} {c : Chore} {cmd : Cmd} {q : Queued} {queue : List Queued} {no : ℕ}
  {row : HistoryItem} {h : ContentHash} {e : OutboxEntry}

/-- The event of an arrival, or of another producer. -/
def Tagged (env : Env) (q : Queued) : Prop :=
  (∃ a d resync, q = { event := a.event env resync, arrival := some (a, d) }) ∨
    q.arrival = none ∧ raised q.event

/-- The App has passed an item that is not sensitive under the hash of a remote row. -/
def RowAdmitted (s : Node) (row : HistoryItem) : Prop :=
  row.sensitive = false ∧ (row.source = .remote →
    ∃ v ∈ s.log.handled, v.live = .pass ∧ v.arrival.sensitive = false ∧
      row.hash = hex32 v.arrival.hash)

/-- What holds whatever becomes of the policy. -/
structure Sealed (env : Env) (s : Node) : Prop where
  queue : ∀ q ∈ s.queue, Tagged env q
  chores : ∀ e wall, .handle e wall ∈ s.todo → App.Unheld e
  hand : ∀ a d, s.hand = some (.judged a d) → a.sensitive = false
  outbox : ∀ (h : ContentHash) (e : OutboxEntry), s.outbox.entries[h]? = some e →
    e.capture.sensitive = false
  stage : ∀ (h : ContentHash) (e : OutboxEntry), s.outboxStage[h]? = some e →
    e.capture.sensitive = false
  rows : ∀ row ∈ s.app.state.history, s.RowAdmitted row

theorem RowAdmitted.of_rooted (hs : ∀ x ∈ s.app.state.history, s.RowAdmitted x)
    (hhandled : s.log.handled ⊆ s'.log.handled) (hrow : s.app.Rooted row) : s'.RowAdmitted row := by
  obtain ⟨hsens, hlocal⟩ | ⟨x, hx, favorite, rfl⟩ := hrow
  · exact ⟨hsens, fun hremote ↦ absurd hremote hlocal⟩
  · obtain ⟨hsens, hremote⟩ := hs x hx
    refine ⟨hsens, fun h ↦ ?_⟩
    obtain ⟨v, hv, hpass⟩ := hremote h
    exact ⟨v, hhandled hv, hpass⟩

theorem Sealed.of_frame (hs : s.Sealed env) (hqueue : ∀ q ∈ s'.queue, q ∈ s.queue ∨ Tagged env q)
    (hchores : ∀ e wall, .handle e wall ∈ s'.todo → .handle e wall ∈ s.todo ∨ App.Unheld e)
    (hhand : ∀ a d, s'.hand = some (.judged a d) → s.hand = some (.judged a d) ∨ a.sensitive = false)
    (houtbox : ∀ (h : ContentHash) (e : OutboxEntry), s'.outbox.entries[h]? = some e →
      s.outbox.entries[h]? = some e ∨ e.capture.sensitive = false)
    (hstage : ∀ (h : ContentHash) (e : OutboxEntry), s'.outboxStage[h]? = some e →
      s.outboxStage[h]? = some e ∨ e.capture.sensitive = false)
    (hhandled : s.log.handled ⊆ s'.log.handled)
    (hrows : ∀ row ∈ s'.app.state.history, s.app.Rooted row) : s'.Sealed env where
  queue q hq := (hqueue q hq).elim (hs.queue q) id
  chores e wall he := (hchores e wall he).elim (hs.chores e wall) id
  hand a d hd := (hhand a d hd).elim (hs.hand a d) id
  outbox h e he := (houtbox h e he).elim (hs.outbox h e) id
  stage h e he := (hstage h e he).elim (hs.stage h e) id
  rows row hrow := .of_rooted hs.rows hhandled (hrows row hrow)

/-- A step that touches neither the App nor a cache. -/
theorem Sealed.of_same (hs : s.Sealed env) (hqueue : ∀ q ∈ s'.queue, q ∈ s.queue ∨ Tagged env q)
    (htodo : s'.todo = s.todo)
    (hhand : ∀ a d, s'.hand = some (.judged a d) → s.hand = some (.judged a d) ∨ a.sensitive = false)
    (houtbox : s'.outbox = s.outbox) (hstage : s'.outboxStage = s.outboxStage)
    (hhandled : s'.log.handled = s.log.handled) (happ : s'.app = s.app) : s'.Sealed env := by
  refine hs.of_frame hqueue (fun e wall he ↦ .inl (htodo ▸ he)) hhand (fun h e he ↦ .inl ?_)
    (fun h e he ↦ .inl ?_) (hhandled ▸ List.Subset.refl _) fun row hrow ↦ ?_
  · rwa [houtbox] at he
  · rwa [hstage] at he
  · rw [happ] at hrow
    exact App.rooted_of_mem hrow

/-- Only an item that is not sensitive is judged, and only a judged one is buffered. -/
theorem Sealed.resume (hs : s.Sealed env) (hhand : s.hand = some hand) :
    (s.resume env o resync hand).Sealed env := by
  cases hand with
  | gated a | acked a =>
    simp only [Node.resume]
    split <;> exact hs.of_same (fun _ hq ↦ .inl hq) rfl (fun _ _ h ↦ by cases h) rfl rfl rfl rfl
  | sighted a =>
    simp only [Node.resume]
    split
    · exact hs.of_same (fun _ hq ↦ .inl hq) rfl (fun _ _ h ↦ by cases h) rfl rfl rfl rfl
    · rename_i hsens
      refine hs.of_same (fun _ hq ↦ .inl hq) rfl (fun b d h ↦ .inr ?_) rfl rfl rfl rfl
      cases h
      exact Bool.eq_false_of_not_eq_true hsens
  | judged a d =>
    have hsens := hs.hand a d hhand
    cases d with
    | pass =>
      refine hs.of_frame (fun _ hq ↦ .inl hq) (fun _ _ h ↦ .inl h) (fun _ _ h ↦ by cases h)
        (fun k x hx ↦ ?_) (fun _ _ h ↦ .inl h) (List.Subset.refl _) fun _ h ↦ App.rooted_of_mem h
      obtain ⟨-, rfl⟩ | hx := Outbox.lookup_insert hx
      · exact .inr hsens
      · exact .inl hx
    | defer =>
      refine hs.of_frame (fun _ hq ↦ .inl hq) (fun _ _ h ↦ .inl h) (fun _ _ h ↦ by cases h)
        (fun _ _ h ↦ .inl h) (fun k x hx ↦ ?_) (List.Subset.refl _) fun _ h ↦ App.rooted_of_mem h
      obtain ⟨-, rfl, -⟩ | hx := OrderedMap.lookup_insertIfNew hx
      · exact .inr hsens
      · exact .inl hx
    | block => exact hs.of_same (fun _ hq ↦ .inl hq) rfl (fun _ _ h ↦ by cases h) rfl rfl rfl rfl
  | cached a d =>
    simp only [Node.resume]
    split <;> exact hs.of_same (fun _ hq ↦ .inl hq) rfl (fun _ _ h ↦ by cases h) rfl rfl rfl rfl
  | relayed a d =>
    simp only [Node.resume, send]
    split
    · refine hs.of_same (fun q hq ↦ ?_) rfl (fun _ _ h ↦ by cases h) rfl rfl rfl rfl
      obtain hq | hq := List.mem_append.mp hq
      · exact .inl hq
      · exact .inr (.inl ⟨a, d, resync, List.mem_singleton.mp hq⟩)
    · exact hs.of_same (fun _ hq ↦ .inl hq) rfl (fun _ _ h ↦ by cases h) rfl rfl rfl rfl
  | serving hash entry =>
    simp only [Node.resume]
    split <;> exact hs.of_same (fun _ hq ↦ .inl hq) rfl (fun _ _ h ↦ by cases h) rfl rfl rfl rfl

@[simp] theorem refreshed_firewall {app : App} {others : List PeerId} {e : Event} :
    (refreshed app others e).firewall = app.firewall := by
  cases e <;> rfl

@[simp] theorem refreshed_history {app : App} {others : List PeerId} {e : Event} :
    (refreshed app others e).state.history = app.state.history := by
  cases e <;> rfl

theorem eventArm_handled {wall : WallClock} {others : List PeerId} (hq : q.arrival = some (a, d)) :
    (s.eventArm env q wall others).log.handled =
      s.log.handled ++ [{ arrival := a, judged := d, live := a.decide s.app.firewall }] := by
  simp only [eventArm, after_handled, hq, refreshed_firewall]

theorem eventArm_unhandled {wall : WallClock} {others : List PeerId} (hq : q.arrival = none) :
    (s.eventArm env q wall others).log.handled = s.log.handled := by
  simp only [eventArm, after_handled, hq, List.append_nil]

theorem eventArm_keeps {wall : WallClock} {others : List PeerId} :
    s.log.handled ⊆ (s.eventArm env q wall others).log.handled := by
  simp only [eventArm, after_handled]
  exact List.subset_append_left _ _

theorem eventArm_handles {e : Event} {wall wall' : WallClock} {others : List PeerId} :
    .handle e wall ∉ (s.eventArm env q wall' others).todo := by
  intro h
  simp only [eventArm] at h
  revert h
  split <;> cases q.event <;> simp

/-- The row that an event of the channel adds is of an item that has just passed. -/
theorem Sealed.pop {wall : WallClock} {others : List PeerId} (hs : s.Sealed env)
    (hqueue : s.queue = q :: queue) : Sealed env ({ s with queue }.eventArm env q wall others) := by
  have hhandled : s.log.handled ⊆ ({ s with queue }.eventArm env q wall others).log.handled :=
    eventArm_keeps (s := { s with queue })
  refine ⟨fun q' hq ↦ hs.queue q' (hqueue ▸ .tail q hq), fun e wall he ↦ ?_, hs.hand, hs.outbox,
    hs.stage, fun row hrow ↦ ?_⟩
  · exact absurd he eventArm_handles
  · obtain ⟨x, favorite, rfl, hx | hx⟩ := App.row_handle hrow
    · rw [refreshed_history] at hx
      exact .of_rooted hs.rows hhandled (.inr ⟨x, hx, favorite, rfl⟩)
    · obtain ⟨hsens, hremote⟩ := App.admitted_row hx
      refine ⟨hsens, fun h ↦ ?_⟩
      obtain ⟨hash, kind, payload, preview, lamport, resync, p, he, hpass, hhash⟩ := hremote h
      obtain ⟨a, d, resync', rfl⟩ | ⟨-, hraised⟩ := hs.queue q (hqueue ▸ .head _)
      · obtain ⟨rfl, rfl, -, -, hfalse, -⟩ := Event.frameReceivedClipboard.inj he
        refine ⟨{ arrival := a, judged := d, live := a.decide s.app.firewall }, ?_, ?_, hfalse, hhash⟩
        · rw [eventArm_handled rfl]
          exact List.mem_append_right _ (.head _)
        · rw [refreshed_firewall] at hpass
          rwa [Arrival.decide, hfalse]
      · rw [he] at hraised
        cases hraised

theorem perform_handles (env : Env) (s : Node) (o : Oracle) {e : Event} {wall : WallClock}
    (he : .handle e wall ∈ (s.perform env o c).todo) : .handle e wall ∈ s.todo := by
  by_cases hc : Calls c
  · cases c with
    | handle e wall => simpa [perform] using he
    | expel p wall lost next => simpa [perform] using he
    | _ => cases hc
  · rwa [(perform_base env s o hc).2.1] at he

/-- A chore fills the outbox with a local item that is not sensitive or a staged one that the user
has approved. -/
theorem perform_outbox (env : Env) (s : Node) (o : Oracle)
    (he : (s.perform env o c).outbox.entries[h]? = some e) : s.outbox.entries[h]? = some e ∨
      e.capture.arrival = none ∧ e.capture.sensitive = false ∨
      s.outboxStage[h]? = some e ∧ ∀ no p, e.capture.arrival = some (no, p) →
        no ∈ (s.perform env o c).log.approved := by
  cases c with
  | act a =>
    cases a with
    | sendItem hash kind payload sensitive =>
      simp only [perform, dispatch] at he
      split at he
      · exact .inl he
      · have hsame (t : Node) (capture : Capture) :
            (if o.sends = [] then t else t.trackInflight hash capture o.sends).outbox =
              t.outbox := by
          split <;> rfl
        rw [hsame] at he
        cases sensitive with
        | true => exact .inl he
        | false =>
          obtain ⟨-, rfl⟩ | he := Outbox.lookup_insert he
          · exact .inr (.inl ⟨rfl, rfl⟩)
          · exact .inl he
    | _ => exact .inl he
  | promote hash admittedInbound =>
    simp only [perform] at he ⊢
    split at he
    · rename_i entry hentry
      split at he
      · rename_i hadmitted
        obtain ⟨rfl, rfl⟩ | he := Outbox.lookup_insert he
        · refine .inr (.inr ⟨hentry, fun no p hno ↦ ?_⟩)
          rw [if_pos hadmitted]
          simp [hno]
        · exact .inl he
      · exact .inl he
    · exact .inl he
  | removeFromOutbox hashes => exact .inl (Outbox.lookup_removeMany he)
  | clearOutbox => simp [perform] at he
  | _ => exact .inl he

theorem perform_stage (env : Env) (s : Node) (o : Oracle)
    (he : (s.perform env o c).outboxStage[h]? = some e) : s.outboxStage[h]? = some e := by
  cases c with
  | act a =>
    cases a with
    | sendItem hash kind payload sensitive =>
      simp only [perform, dispatch] at he
      (repeat' split at he) <;> exact he
    | _ => exact he
  | promote hash admittedInbound =>
    have herased : (s.outboxStage.erase hash)[h]? = some e → s.outboxStage[h]? = some e := by
      intro hx
      rw [OrderedMap.lookup_erase] at hx
      split at hx
      · cases hx
      · exact hx
    simp only [perform] at he
    split at he
    · split at he <;> exact herased he
    · exact he
  | purgeStage hashes =>
    simp only [perform, OrderedMap.lookup_erase_all] at he
    split at he
    · cases he
    · exact he
  | clearStage => simp [perform] at he
  | _ => exact he

theorem rebind_kept (env : Env) (app : App) (p : PeerId) (wall : WallClock) (next : Option String) :
    (rebind env app p wall next).1.firewall = app.firewall ∧
      (∀ row ∈ (rebind env app p wall next).1.state.history, app.Rooted row) ∧
      ∀ kind payload sensitive,
        .writeClipboard kind payload sensitive ∉ (rebind env app p wall next).2 := by
  have hlost : App.Unheld (.peerLost p) := trivial
  simp only [rebind]
  cases next with
  | none => exact ⟨App.firewall_handle, fun _ ↦ hlost.rooted, fun _ _ _ ↦ hlost.silent⟩
  | some name =>
    have htrust : App.Unheld (.setTrustedPeer name) := trivial
    refine ⟨App.firewall_handle.trans App.firewall_handle, fun row hrow ↦ ?_,
      fun kind payload sensitive h ↦ ?_⟩
    · exact (htrust.rooted hrow).trans fun _ ↦ hlost.rooted
    · obtain h | h := List.mem_append.mp h
      · exact hlost.silent h
      · exact htrust.silent h

/-- A chore leaves the policy, adds no remote row and writes no clipboard. -/
theorem perform_kept (env : Env) (s : Node) (o : Oracle)
    (hc : ∀ e wall, c = .handle e wall → App.Unheld e) :
    (s.perform env o c).app.firewall = s.app.firewall ∧
      (∀ row ∈ (s.perform env o c).app.state.history, s.app.Rooted row) ∧
      ∀ kind payload sensitive, .act (.writeClipboard kind payload sensitive) ∈
        (s.perform env o c).todo → .act (.writeClipboard kind payload sensitive) ∈ s.todo := by
  by_cases hcalls : Calls c
  · cases c with
    | handle e wall =>
      have he := hc e wall rfl
      refine ⟨App.firewall_handle, fun _ ↦ he.rooted, fun kind payload sensitive h ↦ ?_⟩
      obtain h | h := List.mem_append.mp h
      · obtain ⟨a, ha, hact⟩ := List.mem_map.mp h
        cases hact
        exact absurd ha he.silent
      · exact h
    | expel p wall lost next =>
      have he : App.Unheld (.peerRevoked p) := trivial
      have hrebind := rebind_kept env (s.app.handle env.blake3 (.peerRevoked p) wall).1 p wall next
      simp only [perform]
      split
      · obtain ⟨hfire, hrows, hsilent⟩ := hrebind
        refine ⟨hfire.trans App.firewall_handle, fun row hrow ↦ ?_, fun kind payload sensitive h ↦ ?_⟩
        · exact (hrows row hrow).trans fun _ ↦ he.rooted
        · simp only [List.cons_append, List.mem_cons, reduceCtorEq, false_or, List.mem_append,
            List.mem_map, Chore.act.injEq, exists_eq_right] at h
          obtain (h | h) | h := h
          · exact absurd h he.silent
          · exact absurd h (hsilent kind payload sensitive)
          · exact h
      · refine ⟨App.firewall_handle, fun _ ↦ he.rooted, fun kind payload sensitive h ↦ ?_⟩
        simp only [List.append_nil, List.cons_append, List.mem_cons, reduceCtorEq, false_or,
          List.mem_append, List.mem_map, Chore.act.injEq, exists_eq_right] at h
        obtain h | h := h
        · exact absurd h he.silent
        · exact h
    | _ => cases hcalls
  · obtain ⟨happ, htodo, -⟩ := perform_base env s o hcalls
    rw [happ, htodo]
    exact ⟨rfl, fun _ ↦ App.rooted_of_mem, fun _ _ _ h ↦ h⟩

theorem Sealed.chore {todo : List Chore} (hs : s.Sealed env) (htodo : s.todo = c :: todo) :
    Sealed env (({ s with todo } : Node).perform env o c) := by
  have hunheld : ∀ e wall, c = .handle e wall → App.Unheld e :=
    fun e wall hc ↦ hs.chores e wall (by rw [htodo, hc]; exact .head _)
  have hintake : (({ s with todo } : Node).perform env o c).intake = s.intake := intake_perform
  obtain ⟨hhand, hqueue, -, -, hhandled⟩ : _ ∧ _ ∧ _ ∧ _ ∧ _ := by
    simpa only [intake, Prod.mk.injEq] using hintake
  refine hs.of_frame (fun q hq ↦ .inl (hqueue ▸ hq)) (fun e wall he ↦ .inl ?_)
    (fun a d h ↦ .inl (hhand ▸ h)) (fun h e he ↦ ?_) (fun h e he ↦ ?_)
    (hhandled ▸ List.Subset.refl _) (perform_kept env _ o hunheld).2.1
  · rw [htodo]
    exact .tail _ (perform_handles env _ o he)
  · obtain he | ⟨-, hsens⟩ | ⟨hstage, -⟩ := perform_outbox env _ o he
    · exact .inl he
    · exact .inr hsens
    · exact .inr (hs.stage h e hstage)
  · exact .inl (perform_stage env { s with todo } o he)

theorem command_handles {e : Event} {wall : WallClock}
    (hplain : ∀ e wall, cmd = .plain e wall → commanded e)
    (he : .handle e wall ∈ (s.command env cmd).todo) : App.Unheld e := by
  cases cmd with
  | plain e' wall' =>
    have hcommanded := hplain e' wall' rfl
    simp only [Node.command, List.mem_cons, Chore.handle.injEq, reduceCtorEq, List.not_mem_nil,
      or_false] at he
    obtain ⟨rfl, -⟩ := he
    cases e <;> trivial
  | clearHistory includeFavorites wall' | unpair trusted linked wall' =>
    simp [Node.command] at he
    obtain ⟨rfl, -⟩ := he
    trivial
  | toggleOn wall' live =>
    cases live with
    | none =>
      simp [Node.command] at he
      obtain ⟨rfl, -⟩ := he
      trivial
    | some peer =>
      simp [Node.command] at he
      obtain ⟨rfl, -⟩ | ⟨rfl, -⟩ | ⟨rfl, -⟩ := he <;> trivial
  | _ => simp [Node.command] at he

/-- A command fills no cache and adds no remote row. -/
theorem command_kept (env : Env) (s : Node) (cmd : Cmd) :
    (s.command env cmd).outbox = s.outbox ∧ (s.command env cmd).outboxStage = s.outboxStage ∧
      (s.command env cmd).log = s.log ∧
      ∀ row ∈ (s.command env cmd).app.state.history, s.app.Rooted row := by
  refine ⟨by cases cmd <;> rfl, by cases cmd <;> rfl, by cases cmd <;> rfl, fun row hrow ↦ ?_⟩
  cases cmd with
  | setHistoryRetention secs nowMs => exact App.rooted_setHistoryRetention hrow
  | expireHistory nowMs => exact App.rooted_expireHistory hrow
  | delivered hash device =>
    simp only [Node.command, App.markDelivered_kept.2] at hrow
    exact App.rooted_of_mem hrow
  | resolvePending hash allow wall =>
    have hlocal (x : HistoryItem) (hx : s.app.admitted env.blake3 (.resolvePending hash allow) wall =
        some x) : x.source ≠ .remote := by
      cases hx
    exact App.rooted_handle hlocal hrow
  | _ => exact App.rooted_of_mem hrow

theorem command_firewall (hc : ∀ policy, cmd ≠ .setFirewall policy) :
    (s.command env cmd).app.firewall = s.app.firewall := by
  cases cmd with
  | setFirewall policy => exact absurd rfl (hc policy)
  | setHistoryRetention secs nowMs => exact App.firewall_setHistoryRetention
  | expireHistory nowMs =>
    simp only [Node.command, App.expireHistory]
    split <;> rfl
  | delivered hash device => exact App.markDelivered_kept.1
  | resolvePending hash allow wall =>
    simp only [Node.command]
    exact App.firewall_handle
  | _ => rfl

theorem Sealed.command (hs : s.Sealed env) (hplain : ∀ e wall, cmd = .plain e wall → commanded e) :
    Sealed env (s.command env cmd) := by
  obtain ⟨houtbox, hstage, hlog, hrows⟩ := command_kept env s cmd
  have hintake : (s.command env cmd).intake = s.intake := intake_command
  obtain ⟨hhand, hqueue, -⟩ : _ ∧ _ ∧ _ ∧ _ ∧ _ := by
    simpa only [intake, Prod.mk.injEq] using hintake
  refine hs.of_frame (fun q hq ↦ .inl (hqueue ▸ hq)) (fun e wall he ↦ .inr (command_handles hplain he))
    (fun a d h ↦ .inl (hhand ▸ h)) (fun h e he ↦ .inl ?_) (fun h e he ↦ .inl ?_)
    (hlog ▸ List.Subset.refl _) hrows
  · rwa [houtbox] at he
  · rwa [hstage] at he

theorem Sealed.step (hs : s.Sealed env) (hstep : s.step env act = some s') : s'.Sealed env := by
  cases act with
  | arrive item wipes =>
    obtain ⟨-, -, -, rfl⟩ := step_arrive hstep
    exact hs.of_same (fun _ hq ↦ .inl hq) rfl (fun _ _ h ↦ by cases h) rfl rfl rfl rfl
  | inbound o resync =>
    obtain ⟨hand, hhand, rfl⟩ := step_inbound hstep
    exact hs.resume hhand
  | pull hash now =>
    obtain ⟨-, rfl | ⟨entry, -, rfl⟩⟩ := step_pull hstep
    · exact hs
    · exact hs.of_same (fun _ hq ↦ .inl hq) rfl (fun _ _ h ↦ by cases h) rfl rfl rfl rfl
  | release hash p =>
    obtain rfl := Option.some.inj hstep
    rw [acked]
    split
    · dsimp only
      split <;> exact hs.of_same (fun _ hq ↦ .inl hq) rfl (fun _ _ h ↦ .inl h) rfl rfl rfl rfl
    · exact hs
  | raise e =>
    obtain ⟨he, rfl⟩ := step_raise hstep
    rw [send]
    split
    · refine hs.of_same (fun q hq ↦ ?_) rfl (fun _ _ h ↦ .inl h) rfl rfl rfl rfl
      obtain hq | hq := List.mem_append.mp hq
      · exact .inl hq
      · rw [List.mem_singleton.mp hq]
        exact .inr (.inr ⟨rfl, he⟩)
    · exact hs
  | leave p | join p =>
    obtain rfl := Option.some.inj hstep
    exact hs.of_same (fun _ hq ↦ .inl hq) rfl (fun _ _ h ↦ .inl h) rfl rfl rfl rfl
  | pop wall others =>
    obtain ⟨-, q, queue, hqueue, rfl⟩ := step_pop hstep
    exact hs.pop hqueue
  | command cmd =>
    obtain ⟨-, hplain, rfl⟩ := step_command hstep
    exact hs.command hplain
  | chore o =>
    obtain ⟨c, todo, htodo, rfl⟩ := step_chore hstep
    exact hs.chore htodo

end Node

end FluxSync.Pipeline
