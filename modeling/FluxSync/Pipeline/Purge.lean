import FluxSync.Core.Parking
import FluxSync.Pipeline.Delivery

namespace FluxSync.Pipeline.Node

open Runs

variable {env : Env} {s s' : Node} {o : Oracle} {act : Act} {p : PeerId} {h : ContentHash}
  {c : Chore} {todo : List Chore} {q : Queued} {queue : List Queued}

/-- An item received from the peer is staged for the outbox. -/
def StagedFrom (s : Node) (p : PeerId) (h : ContentHash) : Prop :=
  ∃ e no, s.outboxStage[h]? = some e ∧ e.capture.arrival = some (no, p)

/-- The main loop is still to drop what the App has parked of the peer. -/
def Unparking (s : Node) (p : PeerId) : Prop :=
  (∃ wall lost next, .expel p wall lost next ∈ s.todo) ∨ ∃ wall, .handle .manualUnpair wall ∈ s.todo

/-- The main loop is still to drop what is staged of the peer under the hash. -/
def Unstaging (s : Node) (p : PeerId) (h : ContentHash) : Prop :=
  (∃ wall lost next, .expel p wall lost next ∈ s.todo) ∨
    ∃ hashes, .purgeStage hashes ∈ s.todo ∧ h ∈ hashes

/-- An event that parks no item of any peer. -/
def Parkless (e : Event) : Prop :=
  ∀ (app : App) (blake3 : ByteArray → ContentHash) (wall : WallClock) (p : PeerId),
    ¬ app.ParksFrom blake3 wall p e

/-- A peer that has left leaves nothing behind that the main loop is not about to drop. -/
structure Purging (s : Node) : Prop where
  backed : s.app.Backed
  parkless : ∀ e wall, .handle e wall ∈ s.todo → Parkless e
  parked : ∀ p ∈ s.gone, s.app.HasParked p → s.Unparking p
  staged : ∀ p ∈ s.gone, ∀ h, s.StagedFrom p h → s.Unstaging p h

/-- Where the exits that purge nothing leave nothing behind, and the others all there is. -/
def ExitsClean (env : Env) (s : Node) : Act → Prop
  | .leave p => ¬ s.app.HasParked p ∧ ∀ h, ¬ s.StagedFrom p h
  | .command (.unpair trusted _ _) => ∀ p ∈ trusted, ∀ h, ¬ s.StagedFrom p h
  | .chore _ => ∀ p wall lost next todo, s.todo = .expel p wall lost next :: todo →
      ∀ h, s.StagedFrom p h →
        ∃ (k : String) (x : PendingPayload),
          s.app.pendingPayloads[k]? = some x ∧ x.peerId = some p ∧ x.hash = h
  | .inbound _ _ => ∀ a, s.hand = some (.judged a .defer) → a.source ∈ s.gone →
      s.outboxStage.contains a.hash
  | .pop wall others => ∀ q queue, s.queue = q :: queue → ∀ p ∈ s.gone,
      ¬ (refreshed s.app others q.event).ParksFrom env.blake3 wall p q.event
  | _ => True

theorem parkless_of_commanded {e : Event} (he : commanded e) : Parkless e := by
  cases e <;> first | exact fun _ _ _ _ h ↦ h | cases he

theorem Purging.of_sub (hs : s.Purging) (hback : s'.app.Backed)
    (hless : ∀ e wall, .handle e wall ∈ s'.todo → Parkless e)
    (hpark : ∀ p, s'.app.HasParked p → s.app.HasParked p)
    (hstage : ∀ p h, s'.StagedFrom p h → s.StagedFrom p h) (hgone : s'.gone ⊆ s.gone)
    (htodo : s.todo ⊆ s'.todo) : s'.Purging := by
  refine ⟨hback, hless, fun p hp hparked ↦ ?_, fun p hp h hstaged ↦ ?_⟩
  · obtain ⟨wall, lost, next, hmem⟩ | ⟨wall, hmem⟩ := hs.parked p (hgone hp) (hpark p hparked)
    · exact .inl ⟨wall, lost, next, htodo hmem⟩
    · exact .inr ⟨wall, htodo hmem⟩
  · obtain ⟨wall, lost, next, hmem⟩ | ⟨hashes, hmem, hh⟩ :=
      hs.staged p (hgone hp) h (hstage p h hstaged)
    · exact .inl ⟨wall, lost, next, htodo hmem⟩
    · exact .inr ⟨hashes, htodo hmem, hh⟩

/-- A step that leaves the App and the two lists alone, and stages nothing. -/
theorem Purging.of_frame (hs : s.Purging) (happ : s'.app = s.app) (hgone : s'.gone = s.gone)
    (htodo : s'.todo = s.todo) (hstage : ∀ p h, s'.StagedFrom p h → s.StagedFrom p h) :
    s'.Purging :=
  hs.of_sub (happ ▸ hs.backed) (htodo ▸ hs.parkless) (fun _ hp ↦ happ ▸ hp) hstage hgone.subset
    (fun _ hc ↦ htodo ▸ hc)

theorem mem_dropped {actions : List Action} {hashes : List ContentHash}
    (ha : .pendingDropped hashes ∈ actions) (hh : h ∈ hashes) : h ∈ dropped actions :=
  List.mem_flatMap.mpr ⟨_, ha, hh⟩

theorem hasParked_rebind {app : App} {wall : WallClock} {next : Option String} {r : PeerId}
    (hp : (rebind env app p wall next).1.HasParked r) : app.HasParked r := by
  have hlost : ∀ r, (app.handle env.blake3 (.peerLost p) wall).1.HasParked r → app.HasParked r :=
    fun r hp ↦ hp.before.elim id False.elim
  rw [rebind] at hp
  cases next with
  | none => exact hlost r hp
  | some name => exact hlost r (hp.before.elim id False.elim)

theorem backed_rebind {app : App} {wall : WallClock} {next : Option String} (hb : app.Backed) :
    (rebind env app p wall next).1.Backed := by
  rw [rebind]
  cases next with
  | none => exact hb.handle
  | some name => exact hb.handle.handle

/-- A revocation drops what is parked of the peer and reports its hashes to the stage. -/
theorem Purging.expel {wall : WallClock} {lost : Bool} {next : Option String} (hs : s.Purging)
    (htodo : s.todo = .expel p wall lost next :: todo)
    (hclean : ∀ h, s.StagedFrom p h → ∃ (k : String) (x : PendingPayload),
      s.app.pendingPayloads[k]? = some x ∧ x.peerId = some p ∧ x.hash = h) :
    Purging (({ s with todo } : Node).perform env o (.expel p wall lost next)) := by
  have hrest (r : PeerId) (hr : r ≠ p) {wall lost next}
      (hmem : Chore.expel r wall lost next ∈ s.todo) : Chore.expel r wall lost next ∈ todo := by
    rw [htodo] at hmem
    obtain heq | hmem := List.mem_cons.mp hmem
    · exact absurd (Chore.expel.inj heq).1 hr
    · exact hmem
  have happ : ∀ r, (({ s with todo } : Node).perform env o (.expel p wall lost next)).app.HasParked
      r → (s.app.handle env.blake3 (.peerRevoked p) wall).1.HasParked r := by
    intro r hr
    simp only [perform] at hr
    split at hr
    · exact hasParked_rebind hr
    · exact hr
  refine ⟨?_, fun e wall' hmem ↦ ?_, fun r hr hparked ↦ ?_, fun r hr h hstaged ↦ ?_⟩
  · simp only [perform]
    split
    · exact backed_rebind hs.backed.handle
    · exact hs.backed.handle
  · have hmem : Chore.handle e wall' ∈ todo := by simpa [perform] using hmem
    exact hs.parkless e wall' (htodo ▸ .tail _ hmem)
  · have hrp : r ≠ p := by
      rintro rfl
      exact App.peerRevoked_drops (happ r hparked)
    obtain hparked | hparks := (happ r hparked).before
    · obtain ⟨wall', lost', next', hmem⟩ | ⟨wall', hmem⟩ := hs.parked r hr hparked
      · exact .inl ⟨wall', lost', next', by simp [perform, hrest r hrp hmem]⟩
      · rw [htodo] at hmem
        obtain heq | hmem := List.mem_cons.mp hmem
        · cases heq
        · exact .inr ⟨wall', by simp [perform, hmem]⟩
    · exact hparks.elim
  · by_cases hrp : r = p
    · subst hrp
      obtain ⟨k, x, hx, hpeer, rfl⟩ := hclean h hstaged
      obtain ⟨hashes, hmem, hh⟩ := App.peerRevoked_reports env.blake3 wall hx hpeer
      exact .inr ⟨_, .head _, mem_dropped hmem hh⟩
    · obtain ⟨wall', lost', next', hmem⟩ | ⟨hashes, hmem, hh⟩ := hs.staged r hr h hstaged
      · exact .inl ⟨wall', lost', next', by simp [perform, hrest r hrp hmem]⟩
      · rw [htodo] at hmem
        obtain heq | hmem := List.mem_cons.mp hmem
        · cases heq
        · exact .inr ⟨hashes, by simp [perform, hmem], hh⟩

/-- An event of a command parks nothing. -/
theorem Purging.handle {e : Event} {wall : WallClock} (hs : s.Purging)
    (htodo : s.todo = .handle e wall :: todo) :
    Purging (({ s with todo } : Node).perform env o (.handle e wall)) := by
  have hless := hs.parkless e wall (htodo ▸ .head _)
  refine ⟨hs.backed.handle, fun e' wall' hmem ↦ ?_, fun r hr hparked ↦ ?_,
    fun r hr h hstaged ↦ ?_⟩
  · have hmem : Chore.handle e' wall' ∈ todo := by simpa [perform] using hmem
    exact hs.parkless e' wall' (htodo ▸ .tail _ hmem)
  · have hbefore : s.app.HasParked r := hparked.before.resolve_right (hless s.app _ wall r)
    obtain ⟨wall', lost, next, hmem⟩ | ⟨wall', hmem⟩ := hs.parked r hr hbefore
    · rw [htodo] at hmem
      obtain heq | hmem := List.mem_cons.mp hmem
      · cases heq
      · exact .inl ⟨wall', lost, next, by simp [perform, hmem]⟩
    · rw [htodo] at hmem
      obtain heq | hmem := List.mem_cons.mp hmem
      · obtain ⟨rfl, rfl⟩ := Chore.handle.inj heq
        exact (App.manualUnpair_drops hparked).elim
      · exact .inr ⟨wall', by simp [perform, hmem]⟩
  · obtain ⟨wall', lost, next, hmem⟩ | ⟨hashes, hmem, hh⟩ := hs.staged r hr h hstaged
    · rw [htodo] at hmem
      obtain heq | hmem := List.mem_cons.mp hmem
      · cases heq
      · exact .inl ⟨wall', lost, next, by simp [perform, hmem]⟩
    · rw [htodo] at hmem
      obtain heq | hmem := List.mem_cons.mp hmem
      · cases heq
      · exact .inr ⟨hashes, by simp [perform, hmem], hh⟩

theorem Purging.purgeStage {hashes : List ContentHash} (hs : s.Purging)
    (htodo : s.todo = .purgeStage hashes :: todo) :
    Purging (({ s with todo } : Node).perform env o (.purgeStage hashes)) := by
  have hmem {c : Chore} (hc : c ∈ s.todo) (hne : c ≠ .purgeStage hashes) : c ∈ todo := by
    rw [htodo] at hc
    exact (List.mem_cons.mp hc).resolve_left hne
  refine ⟨hs.backed, fun e wall hc ↦ hs.parkless e wall (htodo ▸ .tail _ hc), fun r hr hparked ↦ ?_,
    fun r hr h hstaged ↦ ?_⟩
  · obtain ⟨wall, lost, next, hc⟩ | ⟨wall, hc⟩ := hs.parked r hr hparked
    · exact .inl ⟨wall, lost, next, hmem hc (by simp)⟩
    · exact .inr ⟨wall, hmem hc (by simp)⟩
  · obtain ⟨e, no, he, hfrom⟩ := hstaged
    simp only [perform, OrderedMap.lookup_erase_all] at he
    split at he
    case isTrue => cases he
    case isFalse hnot =>
      obtain ⟨wall, lost, next, hc⟩ | ⟨hashes', hc, hh⟩ := hs.staged r hr h ⟨e, no, he, hfrom⟩
      · exact .inl ⟨wall, lost, next, hmem hc (by simp)⟩
      · refine .inr ⟨hashes', hmem hc ?_, hh⟩
        rintro ⟨⟩
        exact hnot hh

/-- The chores that have nothing to do with an exit. -/
def Plain : Chore → Prop
  | .handle .. | .expel .. | .purgeStage _ => False
  | _ => True

theorem dispatch_frame {a : Action} :
    (s.dispatch o a).app = s.app ∧ (s.dispatch o a).outboxStage = s.outboxStage ∧
      (s.dispatch o a).gone = s.gone ∧ (s.dispatch o a).todo = s.todo := by
  cases a with
  | sendItem hash kind payload sensitive =>
    simp only [dispatch]
    (repeat' split) <;> exact ⟨rfl, rfl, rfl, rfl⟩
  | _ => exact ⟨rfl, rfl, rfl, rfl⟩

theorem perform_frame (env : Env) (s : Node) (o : Oracle) (hc : Plain c) :
    (s.perform env o c).app = s.app ∧ (s.perform env o c).gone = s.gone ∧
      (s.perform env o c).todo = s.todo ∧
      ∀ p h, (s.perform env o c).StagedFrom p h → s.StagedFrom p h := by
  cases c with
  | handle | expel | purgeStage => cases hc
  | clearStage => exact ⟨rfl, rfl, rfl, fun p h hh ↦ by simp [perform, StagedFrom] at hh⟩
  | promote hash admittedInbound =>
    simp only [perform]
    split
    · have herase : ∀ p h, ({ s with outboxStage := s.outboxStage.erase hash } : Node).StagedFrom
          p h → s.StagedFrom p h := by
        rintro p h ⟨e, no, he, hfrom⟩
        simp only [OrderedMap.lookup_erase] at he
        split at he
        · cases he
        · exact ⟨e, no, he, hfrom⟩
      split <;> exact ⟨rfl, rfl, rfl, herase⟩
    · exact ⟨rfl, rfl, rfl, fun p h hh ↦ hh⟩
  | act a =>
    obtain ⟨happ, hstage, hgone, htodo⟩ := dispatch_frame (s := s) (o := o) (a := a)
    refine ⟨happ, hgone, htodo, fun p h hh ↦ ?_⟩
    rw [StagedFrom, ← hstage]
    exact hh
  | _ => exact ⟨rfl, rfl, rfl, fun p h hh ↦ hh⟩

theorem Purging.plain (hs : s.Purging) (htodo : s.todo = c :: todo) (hc : Plain c) :
    Purging ({ s with todo } : Node) := by
  have hmem {c' : Chore} (hc' : c' ∈ s.todo) (hne : ¬ Plain c') : c' ∈ todo := by
    rw [htodo] at hc'
    obtain rfl | hc' := List.mem_cons.mp hc'
    · exact absurd hc hne
    · exact hc'
  refine ⟨hs.backed, fun e wall hc ↦ hs.parkless e wall (htodo ▸ .tail _ hc), fun p hp hparked ↦ ?_,
    fun p hp h hstaged ↦ ?_⟩
  · obtain ⟨wall, lost, next, hc'⟩ | ⟨wall, hc'⟩ := hs.parked p hp hparked
    · exact .inl ⟨wall, lost, next, hmem hc' id⟩
    · exact .inr ⟨wall, hmem hc' id⟩
  · obtain ⟨wall, lost, next, hc'⟩ | ⟨hashes, hc', hh⟩ := hs.staged p hp h hstaged
    · exact .inl ⟨wall, lost, next, hmem hc' id⟩
    · exact .inr ⟨hashes, hmem hc' id, hh⟩

theorem Purging.chore (hs : s.Purging) (hok : s.ExitsClean env (.chore o))
    (htodo : s.todo = c :: todo) : Purging (({ s with todo } : Node).perform env o c) := by
  by_cases hc : Plain c
  · have hplain := hs.plain htodo hc
    obtain ⟨happ, hgone, hsame, hstage⟩ := perform_frame env { s with todo } o hc
    exact hplain.of_frame happ hgone hsame hstage
  · cases c with
    | handle e wall => exact hs.handle htodo
    | expel p wall lost next => exact hs.expel htodo (hok p wall lost next todo htodo)
    | purgeStage hashes => exact hs.purgeStage htodo
    | _ => exact absurd trivial hc

/-- Nothing of a peer that has left is parked or staged between two commands. -/
theorem Purging.settled (hs : s.Purging) (htodo : s.todo = []) (hp : p ∈ s.gone) :
    ¬ s.app.HasParked p ∧ ∀ h, ¬ s.StagedFrom p h := by
  refine ⟨fun hparked ↦ ?_, fun h hstaged ↦ ?_⟩
  · obtain ⟨wall, lost, next, hc⟩ | ⟨wall, hc⟩ := hs.parked p hp hparked <;>
      (rw [htodo] at hc; cases hc)
  · obtain ⟨wall, lost, next, hc⟩ | ⟨hashes, hc, -⟩ := hs.staged p hp h hstaged <;>
      (rw [htodo] at hc; cases hc)

/-- The receive loop stages an item of a peer that has left only under a hash already staged. -/
theorem Purging.resume {resync : Bool} {hand : Hand} (hs : s.Purging)
    (hclean : ∀ a, hand = .judged a .defer → a.source ∈ s.gone → s.outboxStage.contains a.hash) :
    Purging (s.resume env o resync hand) := by
  cases hand with
  | judged a d =>
    cases d with
    | defer =>
      refine ⟨hs.backed, hs.parkless, hs.parked, fun p hp h hstaged ↦ hs.staged p hp h ?_⟩
      obtain ⟨e, no, he, hfrom⟩ := hstaged
      obtain ⟨-, rfl, hnew⟩ | he := OrderedMap.lookup_insertIfNew he
      · obtain ⟨-, rfl⟩ := Prod.mk.inj (Option.some.inj hfrom)
        rw [hclean a rfl hp] at hnew
        cases hnew
      · exact ⟨e, no, he, hfrom⟩
    | _ => exact hs.of_frame rfl rfl rfl fun _ _ hh ↦ hh
  | relayed a d =>
    simp only [Node.resume, send]
    split <;> exact hs.of_frame rfl rfl rfl fun _ _ hh ↦ hh
  | _ =>
    simp only [Node.resume]
    try split
    all_goals exact hs.of_frame rfl rfl rfl fun _ _ hh ↦ hh

theorem refreshed_parked {app : App} {others : List PeerId} {e : Event} :
    (refreshed app others e).parked = app.parked := by
  cases e <;> rfl

theorem Purging.pop {wall : WallClock} {others : List PeerId} (hs : s.Purging) (htodo : s.todo = [])
    (hclean : ∀ p ∈ s.gone, ¬ (refreshed s.app others q.event).ParksFrom env.blake3 wall p q.event) :
    Purging (({ s with queue } : Node).eventArm env q wall others) := by
  refine ⟨(hs.backed.of_parked refreshed_parked).handle, fun e wall' hmem ↦ ?_,
    fun p hp hparked ↦ ?_, fun p hp h hstaged ↦ ?_⟩
  · simp only [eventArm] at hmem
    exfalso
    revert hmem
    split <;> cases q.event <;> simp
  · obtain hparked | hparks := hparked.before
    · exact absurd (hparked.of_parked refreshed_parked) (hs.settled htodo hp).1
    · exact absurd hparks (hclean p hp)
  · exact absurd hstaged ((hs.settled htodo hp).2 h)

theorem Purging.command {cmd : Cmd} (hs : s.Purging) (htodo : s.todo = [])
    (hplain : ∀ e wall, cmd = .plain e wall → commanded e)
    (hok : s.ExitsClean env (.command cmd)) : Purging (s.command env cmd) := by
  have hsub {l : List Chore} : s.todo ⊆ l := htodo ▸ List.nil_subset l
  have hkeep {app : App} (hparked : app.parked = s.app.parked) {l : List Chore}
      (hless : ∀ e wall, .handle e wall ∈ l → Parkless e) :
      Purging { s with app, todo := l } :=
    hs.of_sub (hs.backed.of_parked hparked) hless (fun _ hp ↦ hp.of_parked hparked)
      (fun _ _ hh ↦ hh) (Finset.Subset.refl _) hsub
  cases cmd with
  | plain e wall =>
    refine hkeep rfl fun e' wall' hmem ↦ ?_
    obtain ⟨rfl, -⟩ : e' = e ∧ wall' = wall := by simpa using hmem
    exact parkless_of_commanded (hplain e' wall rfl)
  | setHistoryRetention secs nowMs =>
    refine hkeep ?_ (by simp)
    simp only [App.setHistoryRetention]
    split
    · simp only [Option.getD_some, App.expireHistory]
      split <;> rfl
    · rfl
  | expireHistory nowMs =>
    refine hkeep ?_ (by simp)
    simp only [App.expireHistory]
    split <;> rfl
  | delivered hash device =>
    refine hkeep ?_ (by simp)
    simp only [App.markDelivered]
    (repeat' split) <;> rfl
  | setFirewall policy =>
    have hparked : (s.app.setFirewall policy).parked = s.app.parked := rfl
    exact hkeep hparked (by simp)
  | resolvePending hash allow wall =>
    have happ : (s.command env (.resolvePending hash allow wall)).app =
        (s.app.handle env.blake3 (.resolvePending hash allow) wall).1 := rfl
    refine hs.of_sub (happ ▸ hs.backed.handle) (fun e wall' hmem ↦ ?_) (fun p hp ↦ ?_)
      (fun _ _ hh ↦ hh) (Finset.Subset.refl _) hsub
    · simp [Node.command] at hmem
    · rw [happ] at hp
      exact hp.before.elim id False.elim
  | clearHistory includeFavorites wall =>
    refine hkeep rfl fun e wall' hmem ↦ ?_
    obtain ⟨rfl, -⟩ : e = .clearHistory includeFavorites ∧ wall' = wall := by simpa using hmem
    exact fun _ _ _ _ h ↦ h
  | toggleOn wall live =>
    refine hkeep rfl fun e wall' hmem ↦ ?_
    have he : e = .toggleOn ∨ (∃ p name, e = .peerSeen p name) ∨ e = .handshakeOk := by
      cases live <;> simp at hmem <;> grind
    obtain rfl | ⟨p, name, rfl⟩ | rfl := he <;> exact fun _ _ _ _ h ↦ h
  | expel p wall lost next =>
    refine ⟨hs.backed, by simp [Node.command], fun r hr hparked ↦ ?_, fun r hr h hstaged ↦ ?_⟩
    · obtain rfl | hr := Finset.mem_insert.mp hr
      · exact .inl ⟨wall, lost, next, .head _⟩
      · exact absurd hparked (hs.settled htodo hr).1
    · obtain rfl | hr := Finset.mem_insert.mp hr
      · exact .inl ⟨wall, lost, next, .head _⟩
      · exact absurd hstaged ((hs.settled htodo hr).2 h)
  | unpair trusted linked wall =>
    refine ⟨hs.backed, fun e wall' hmem ↦ ?_, fun r hr hparked ↦ ?_, fun r hr h hstaged ↦ ?_⟩
    · obtain ⟨rfl, -⟩ : e = .manualUnpair ∧ wall' = wall := by simpa [Node.command] using hmem
      exact fun _ _ _ _ h ↦ h
    · exact .inr ⟨wall, by simp [Node.command]⟩
    · obtain hr | hr := Finset.mem_union.mp hr
      · exact absurd hstaged ((hs.settled htodo hr).2 h)
      · exact absurd hstaged (hok r hr h)

theorem Purging.step (hs : s.Purging) (hok : s.ExitsClean env act)
    (hstep : s.step env act = some s') : s'.Purging := by
  cases act with
  | arrive item wipes =>
    obtain ⟨-, -, -, rfl⟩ := step_arrive hstep
    exact hs.of_frame rfl rfl rfl fun _ _ hh ↦ hh
  | inbound o resync =>
    obtain ⟨hand, hhand, rfl⟩ := step_inbound hstep
    exact hs.resume fun a ha ↦ hok a (ha ▸ hhand)
  | pull hash now =>
    obtain ⟨-, rfl | ⟨entry, -, rfl⟩⟩ := step_pull hstep
    · exact hs
    · exact hs.of_frame rfl rfl rfl fun _ _ hh ↦ hh
  | release hash p =>
    obtain rfl := Option.some.inj hstep
    rw [acked]
    split
    · dsimp only
      split <;> exact hs.of_frame rfl rfl rfl fun _ _ hh ↦ hh
    · exact hs
  | raise e =>
    obtain ⟨-, rfl⟩ := step_raise hstep
    rw [send]
    split
    · exact hs.of_frame rfl rfl rfl fun _ _ hh ↦ hh
    · exact hs
  | leave p =>
    obtain rfl := Option.some.inj hstep
    refine ⟨hs.backed, hs.parkless, fun r hr hparked ↦ ?_, fun r hr h hstaged ↦ ?_⟩
    · obtain rfl | hr := Finset.mem_insert.mp hr
      · exact absurd hparked hok.1
      · exact hs.parked r hr hparked
    · obtain rfl | hr := Finset.mem_insert.mp hr
      · exact absurd hstaged (hok.2 h)
      · exact hs.staged r hr h hstaged
  | join p =>
    obtain rfl := Option.some.inj hstep
    exact hs.of_sub hs.backed hs.parkless (fun _ hp ↦ hp) (fun _ _ hh ↦ hh)
      (Finset.erase_subset _ _) (List.Subset.refl _)
  | pop wall others =>
    obtain ⟨htodo, q, queue, hqueue, rfl⟩ := step_pop hstep
    exact hs.pop htodo (hok q queue hqueue)
  | command cmd =>
    obtain ⟨htodo, hplain, rfl⟩ := step_command hstep
    exact hs.command htodo hplain hok
  | chore o =>
    obtain ⟨c, todo, htodo, rfl⟩ := step_chore hstep
    exact hs.chore hok htodo

theorem purging_start {policy : FirewallPolicy} : (start policy).Purging := by
  refine ⟨fun row hrow ↦ (by cases hrow), by simp [start], fun p hp ↦ ?_, fun p hp ↦ ?_⟩ <;>
    simp [start] at hp

/-- Whatever way a peer has left, nothing it sent stays parked or staged, as long as the exits that
purge nothing leave nothing behind. -/
theorem departed_purged {policy : FirewallPolicy} {l : List Act}
    (hr : Run (Node.step env) (ExitsClean env) (start policy) l s) (htodo : s.todo = [])
    (hp : p ∈ s.gone) :
    (∀ row ∈ s.app.state.pending, row.peerId ≠ some (hex32 p)) ∧ ¬ s.app.HasParked p ∧
      ∀ h, ¬ s.StagedFrom p h := by
  have hs : s.Purging := hr.invariant purging_start fun _ _ _ hs hok hstep ↦ hs.step hok hstep
  obtain ⟨hparked, hstaged⟩ := hs.settled htodo hp
  exact ⟨hs.backed.no_row hparked, hparked, hstaged⟩

/-- Under the Ask rule an item of peer 1 is staged and parked. -/
def parkOne : List Act :=
  [.command (.setFirewall { enabled := true, text := .ask }), .chore quiet, .chore quiet] ++
    delivery ++ .pop midnight [] :: List.replicate 4 (.chore quiet)

/-- Peer 1 revokes us, later the user approves its item. -/
def parkThenLeave : List Act := parkOne ++ [.leave 1]

def approve : List Act := [.command (.resolvePending (hex32 2) true midnight), .chore quiet]

theorem departed_item_approved : ∃ s t,
    Run (Node.step sizes) Always (start {}) parkThenLeave s ∧ s.todo = [] ∧ 1 ∈ s.gone ∧
      s.app.HasParked 1 ∧ s.StagedFrom 1 2 ∧
      Run (Node.step sizes) Always (start {}) (parkThenLeave ++ approve) t ∧
      t.outbox.order = [2] ∧ t.todo.any fun
        | .act (.writeClipboard ..) => true
        | _ => false :=
  ⟨_, _, run_of_isSome (l := parkThenLeave) (by decide +kernel), List.isEmpty_iff.mp (by decide +kernel),
    by decide +kernel,
    ⟨hex32 2, { direction := .inbound, kind := .text, payload := ⟨#[104, 105]⟩, sensitive := false
                hash := 2, peerId := some 1 }, by decide +kernel, rfl⟩,
    ⟨{ payload := [104, 105], kind := .text, origin := 1, seq := 0, created := 0
       capture := { arrival := some (0, 1), sensitive := false, wipes := 0 } }, 0, by decide +kernel,
      rfl⟩,
    run_of_isSome (l := parkThenLeave ++ approve) (by decide +kernel), by decide +kernel⟩

/-- A local revocation purges what is parked. -/
def parkThenExpel : List Act :=
  parkOne ++ .command (.expel 1 midnight false none) :: List.replicate 6 (.chore quiet)

/-- A test of `ExitsClean` for a run in which only a local revocation takes a peer out. -/
def tidy (s : Node) : Act → Bool
  | .leave _ | .command (.unpair ..) => false
  | .inbound .. | .pop .. => decide (s.gone = ∅)
  | .chore _ =>
    match s.todo with
    | .expel p .. :: _ => s.outboxStage.toList.all fun he ↦ s.app.pendingPayloads.toList.any fun kx ↦
        kx.2.peerId == some p && kx.2.hash == he.1
    | _ => true
  | _ => true

theorem exitsClean_of_tidy (ht : s.tidy act) : s.ExitsClean env act := by
  cases act with
  | leave => cases ht
  | command cmd =>
    cases cmd with
    | unpair => cases ht
    | _ => trivial
  | inbound o resync =>
    intro a _ hgone
    rw [of_decide_eq_true ht] at hgone
    cases hgone
  | pop wall others =>
    intro q queue _ p hgone
    rw [of_decide_eq_true ht] at hgone
    cases hgone
  | chore o =>
    rintro p wall lost next todo htodo h ⟨e, no, he, -⟩
    simp only [tidy, htodo] at ht
    obtain ⟨⟨k, x⟩, hx, hmatch⟩ :=
      List.any_eq_true.mp (List.all_eq_true.mp ht _ (OrderedMap.mem_entries.mpr he))
    obtain ⟨hpeer, hhash⟩ := Bool.and_eq_true_iff.mp hmatch
    exact ⟨k, x, OrderedMap.mem_entries.mp hx, eq_of_beq hpeer, eq_of_beq hhash⟩
  | _ => trivial

theorem parkThenExpel_tidy : (parkThenExpel.foldlM (fun s act ↦
    if tidy s act then s.step sizes act else none) (start {})).isSome := by
  decide +kernel

theorem departed_purged_parkThenExpel : ∃ s,
    Run (Node.step sizes) (ExitsClean sizes) (start {}) parkThenExpel s ∧ s.todo = [] ∧ 1 ∈ s.gone ∧
      (∀ row ∈ s.app.state.pending, row.peerId ≠ some (hex32 1)) ∧ ¬ s.app.HasParked 1 ∧
      ∀ h, ¬ s.StagedFrom 1 h := by
  have hrun : Run (Node.step sizes) (ExitsClean sizes) (start {}) parkThenExpel _ :=
    (run_of_checked parkThenExpel_tidy).mono fun _ _ ht ↦ exitsClean_of_tidy ht
  refine ⟨_, hrun, List.isEmpty_iff.mp (by decide +kernel), by decide +kernel,
    departed_purged hrun (List.isEmpty_iff.mp (by decide +kernel)) (by decide +kernel)⟩

end FluxSync.Pipeline.Node
