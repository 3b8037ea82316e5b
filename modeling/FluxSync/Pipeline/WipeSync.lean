import FluxSync.Core.Identity
import FluxSync.Pipeline.Delivery

namespace FluxSync

open Std

namespace App

variable {blake3 : ByteArray → ContentHash} {app : App} {e : Event} {wall : WallClock}

theorem wipes_cases (hw : app.wipes e) :
    (∃ q name, e = .peerSeen q name ∧ app.isPeerMismatch q = false ∧ q ≠ 0 ∧
        app.lastPairedPeerId ≠ 0 ∧ q ≠ app.lastPairedPeerId ∧ app.otherPeersLinked = false) ∨
      ∃ name, e = .untrustedPeerSeen name := by
  cases e with
  | peerSeen q name =>
    simp only [wipes, Bool.and_eq_true, Bool.not_eq_true', bne_iff_ne] at hw
    obtain ⟨⟨⟨⟨hm, hq⟩, hlast⟩, hne⟩, hlinked⟩ := hw
    exact .inl ⟨q, name, rfl, hm, hq, hlast, hne, hlinked⟩
  | untrustedPeerSeen name => exact .inr ⟨name, rfl⟩
  | _ => cases hw

theorem wipes_handle (blake3 : ByteArray → ContentHash) (wall : WallClock) (hw : app.wipes e) :
    app.handle blake3 e wall = postTransition (app.preTransition blake3 e wall) e ∧
      (app.handle blake3 e wall).1.state.vaultWipeGen = app.state.vaultWipeGen + 1 ∧
      .emitState ∈ (app.handle blake3 e wall).2 := by
  obtain ⟨q, name, rfl, hm, hq, hlast, hne, hlinked⟩ | ⟨name, rfl⟩ := wipes_cases hw
  · have hpre : app.preTransition blake3 (.peerSeen q name) wall =
        { app := { app with
            lastPairedPeerId := q, pendingPayloads := ∅
            state := { app.state with
              peerName := name, history := [], pending := [], peerId := q
              vaultWipeGen := app.state.vaultWipeGen + 1 } } } := by
      have hlinked' : ({ app with state := { app.state with peerName := name } } :
        App).otherPeersLinked = false := hlinked
      simp only [preTransition, hq, if_false, hlast, hne, ne_eq, not_false_eq_true, and_self,
        if_true, hlinked', Bool.false_eq_true]
      rfl
    have hhandle : app.handle blake3 (.peerSeen q name) wall =
        postTransition (app.preTransition blake3 (.peerSeen q name) wall) (.peerSeen q name) := by
      simp only [handle, hm, hpre, Bool.false_eq_true, if_false]
    refine ⟨hhandle, ?_, handle_peerSeen_emits blake3 name wall hm⟩
    rw [hhandle, hpre]
    rfl
  · refine ⟨rfl, rfl, ?_⟩
    simp only [handle, preTransition, Bool.false_eq_true, if_false, postTransition, alwaysEmits,
      if_true]
    exact emitState_mem_ensureEmit

/-- A wipe sends no item. -/
theorem wipes_silent (hw : app.wipes e) :
    ∀ a ∈ (app.handle blake3 e wall).2, a.transfers = false := by
  intro a ha
  by_contra ht
  replace ht := Bool.eq_true_of_not_eq_false ht
  rw [(wipes_handle blake3 wall hw).1] at ha
  have htrans := postTransition_transfers ha ht
  have hlinked := transition_transfers htrans ht
  rw [hlinked] at htrans
  obtain ⟨q, name, rfl, -⟩ | ⟨name, rfl⟩ := wipes_cases hw
  · simp only [transition, List.mem_cons, List.not_mem_nil, or_false] at htrans
    obtain rfl | rfl := htrans <;> cases ht
  · simp only [transition, List.mem_cons, List.not_mem_nil, or_false] at htrans
    obtain rfl | rfl | rfl | rfl := htrans <;> cases ht

end App

namespace Pipeline.Node

open Runs

variable {env : Env} {s s' : Node} {o : Oracle} {act : Act} {c : Chore} {pre post todo : List Chore}
  {q : Queued} {queue : List Queued} {resync : Bool}

/-- Every payload of the outbox was captured after the last wipe. -/
def OutboxClean (s : Node) : Prop :=
  ∀ (h : ContentHash) (e : OutboxEntry), s.outbox.entries[h]? = some e →
    s.log.wipes ≤ e.capture.wipes

def StageClean (s : Node) : Prop :=
  ∀ (h : ContentHash) (e : OutboxEntry), s.outboxStage[h]? = some e →
    s.log.wipes ≤ e.capture.wipes

def InflightClean (s : Node) : Prop :=
  ∀ (h : ContentHash) (i : Inflight), s.inflight[h]? = some i → s.log.wipes ≤ i.capture.wipes

/-- A chore that fills no cache, calls no App and publishes nothing. -/
def Still : Chore → Prop
  | .act .emitState | .act (.sendItem ..) | .handle .. | .expel .. | .promote .. => False
  | _ => True

def Clears : Chore → Prop
  | .clearOutbox | .clearStage | .clearInflight => True
  | _ => False

def Calls : Chore → Prop
  | .handle .. | .expel .. => True
  | _ => False

/-- A wipe that is not published yet: each cache is clean or cleared before. -/
structure Unpublished (s : Node) (pre post : List Chore) : Prop where
  todo : s.todo = pre ++ .act .emitState :: post
  still : ∀ c ∈ pre, Still c
  late : ∀ c ∈ post, ¬ Clears c
  outbox : s.OutboxClean ∨ .clearOutbox ∈ pre
  stage : s.StageClean ∨ .clearStage ∈ pre
  inflight : s.InflightClean ∨ .clearInflight ∈ pre

/-- The baseline is that of the App, or a command is about to set it. -/
structure Sweeping (s : Node) : Prop where
  base : (∃ pre, s.todo = pre ++ [.rebase] ∧ ∀ c ∈ pre, ¬ Clears c) ∨
    s.lastWipeGenSync = s.app.state.vaultWipeGen ∧ ∀ c ∈ s.todo, ¬ Calls c
  unpublished : s.log.unpublished → ∃ pre post, s.Unpublished pre post

/-- What the receive loop caches next was captured after the last wipe, or its cache is still to be
cleared. -/
def CachesNew (s : Node) (o : Oracle) : Prop :=
  match s.hand with
  | some (.judged a .pass) => s.log.wipes ≤ a.wipes ∨ .clearOutbox ∈ s.todo
  | some (.judged a .defer) => s.log.wipes ≤ a.wipes ∨ .clearStage ∈ s.todo
  | some (.cached a d) =>
    d = some .block ∨ o.sends = [] ∨ s.log.wipes ≤ a.wipes ∨ .clearInflight ∈ s.todo
  | some (.serving _ entry) =>
    o.sends = [] ∨ s.log.wipes ≤ entry.capture.wipes ∨ .clearInflight ∈ s.todo
  | _ => True

/-- A command that makes the App wipe finds the caches empty, and the receive loop brings nothing
old back before the wipe is published. -/
def WipesSwept (s : Node) : Act → Prop
  | .chore _ => ∀ e wall todo, s.todo = .handle e wall :: todo → s.app.wipes e →
      s.outbox.entries = ∅ ∧ s.outboxStage = ∅ ∧ s.inflight = ∅
  | .inbound o _ => s.log.unpublished → s.CachesNew o
  | _ => True

/-- A step that fills no cache. -/
theorem Unpublished.of_sub (hu : s.Unpublished pre post) (htodo : s'.todo = s.todo)
    (hout : s.OutboxClean → s'.OutboxClean)
    (hstage : s.StageClean → s'.StageClean) (hin : s.InflightClean → s'.InflightClean) :
    s'.Unpublished pre post :=
  ⟨htodo.trans hu.todo, hu.still, hu.late, hu.outbox.imp_left hout, hu.stage.imp_left hstage,
    hu.inflight.imp_left hin⟩

theorem Unpublished.mem_pre (hu : s.Unpublished pre post) (hc : c ∈ s.todo) (hclears : Clears c) :
    c ∈ pre := by
  rw [hu.todo] at hc
  obtain hc | hc := List.mem_append.mp hc
  · exact hc
  · obtain rfl | hc := List.mem_cons.mp hc
    · cases hclears
    · exact absurd hclears (hu.late c hc)

theorem Unpublished.nonempty (hu : s.Unpublished pre post) : s.todo ≠ [] := by
  rw [hu.todo]
  exact List.append_ne_nil_of_right_ne_nil _ (List.cons_ne_nil _ _)

/-- A step of another party. -/
theorem Sweeping.of_same (hs : s.Sweeping) (htodo : s'.todo = s.todo)
    (hlast : s'.lastWipeGenSync = s.lastWipeGenSync) (happ : s'.app = s.app)
    (hpub : s'.log.unpublished = s.log.unpublished)
    (hu : s.log.unpublished → ∀ pre post, s.Unpublished pre post → s'.Unpublished pre post) :
    s'.Sweeping := by
  refine ⟨?_, fun h ↦ ?_⟩
  · rw [htodo, hlast, happ]
    exact hs.base
  · rw [hpub] at h
    obtain ⟨pre, post, hun⟩ := hs.unpublished h
    exact ⟨pre, post, hu h pre post hun⟩

theorem outboxClean_insert {s : Node} {h : ContentHash} {e : OutboxEntry} {now : ℕ}
    (hs : s.OutboxClean) (he : s.log.wipes ≤ e.capture.wipes) :
    ({ s with outbox := s.outbox.insert now h e } : Node).OutboxClean := by
  intro k x hx
  obtain ⟨-, rfl⟩ | hx := Outbox.lookup_insert hx
  · exact he
  · exact hs k x hx

theorem stageClean_insertIfNew {s : Node} {h : ContentHash} {e : OutboxEntry}
    (hs : s.StageClean) (he : s.log.wipes ≤ e.capture.wipes) :
    ({ s with outboxStage := s.outboxStage.insertIfNew h e } : Node).StageClean := by
  intro k x hx
  obtain ⟨-, rfl, -⟩ | hx := OrderedMap.lookup_insertIfNew hx
  · exact he
  · exact hs k x hx

theorem inflightClean_track {s : Node} {h : ContentHash} {capture : Capture} {peers : List PeerId}
    (hs : s.InflightClean) (he : s.log.wipes ≤ capture.wipes) :
    (s.trackInflight h capture peers).InflightClean := by
  intro k x hx
  simp only [trackInflight, OrderedMap.lookup_insert] at hx
  split at hx
  · rw [← Option.some.inj hx]
    exact he
  · exact hs k x hx

/-- What the receive loop caches is new, or the cache is still to be cleared. -/
theorem Unpublished.resume {hand : Hand} (hu : s.Unpublished pre post)
    (hhand : s.hand = some hand) (hnew : s.CachesNew o) :
    (s.resume env o resync hand).Unpublished pre post := by
  rw [CachesNew, hhand] at hnew
  cases hand with
  | judged a d =>
    cases d with
    | pass =>
      refine ⟨hu.todo, hu.still, hu.late, ?_, hu.stage, hu.inflight⟩
      obtain hnew | hc := hnew
      · exact hu.outbox.imp_left fun h ↦ outboxClean_insert h hnew
      · exact .inr (hu.mem_pre hc trivial)
    | defer =>
      refine ⟨hu.todo, hu.still, hu.late, hu.outbox, ?_, hu.inflight⟩
      obtain hnew | hc := hnew
      · exact hu.stage.imp_left fun h ↦ stageClean_insertIfNew h hnew
      · exact .inr (hu.mem_pre hc trivial)
    | block => exact hu.of_sub rfl id id id
  | cached a d =>
    simp only [Node.resume]
    split
    case isTrue => exact hu.of_sub rfl id id id
    case isFalse hsends =>
      rw [not_or] at hsends
      refine ⟨hu.todo, hu.still, hu.late, hu.outbox, hu.stage, ?_⟩
      obtain hd | hnone | hnew | hc := hnew
      · exact absurd hd hsends.1
      · exact absurd hnone hsends.2
      · exact hu.inflight.imp_left fun h ↦ inflightClean_track h hnew
      · exact .inr (hu.mem_pre hc trivial)
  | serving hash entry =>
    simp only [Node.resume]
    split
    case isTrue => exact hu.of_sub rfl id id id
    case isFalse hsends =>
      refine ⟨hu.todo, hu.still, hu.late, hu.outbox, hu.stage, ?_⟩
      obtain hnone | hnew | hc := hnew
      · exact absurd hnone hsends
      · exact hu.inflight.imp_left fun h ↦ inflightClean_track h hnew
      · exact .inr (hu.mem_pre hc trivial)
  | relayed a d =>
    simp only [Node.resume, send]
    split <;> exact hu.of_sub rfl id id id
  | gated a | acked a | sighted a =>
    simp only [Node.resume]
    split <;> exact hu.of_sub rfl id id id

theorem Sweeping.resume {hand : Hand} (hs : s.Sweeping) (hhand : s.hand = some hand)
    (hnew : s.log.unpublished → s.CachesNew o) : (s.resume env o resync hand).Sweeping := by
  have hframe : (s.resume env o resync hand).todo = s.todo ∧
      (s.resume env o resync hand).lastWipeGenSync = s.lastWipeGenSync ∧
      (s.resume env o resync hand).app = s.app ∧
      (s.resume env o resync hand).log.unpublished = s.log.unpublished := by
    cases hand with
    | judged a d => cases d <;> exact ⟨rfl, rfl, rfl, rfl⟩
    | relayed a d =>
      simp only [Node.resume, send]
      split <;> exact ⟨rfl, rfl, rfl, rfl⟩
    | _ =>
      simp only [Node.resume]
      split <;> exact ⟨rfl, rfl, rfl, rfl⟩
  obtain ⟨htodo, hlast, happ, hpub⟩ := hframe
  exact hs.of_same htodo hlast happ hpub fun h _ _ hu ↦ hu.resume hhand (hnew h)

/-- The part of a list before the first publication of the state. -/
theorem unpublished_of_wipe {actions : List Action} (pre rest : List Chore) (hemit : .emitState ∈ actions)
    (hsilent : ∀ a ∈ actions, a.transfers = false) (hpre : ∀ c ∈ pre, Still c)
    (hrest : ∀ c ∈ rest, ¬ Clears c) (htodo : s.todo = pre ++ actions.map .act ++ rest)
    (hout : s.OutboxClean ∨ .clearOutbox ∈ pre) (hstage : s.StageClean ∨ .clearStage ∈ pre)
    (hin : s.InflightClean ∨ .clearInflight ∈ pre) : ∃ pre post, s.Unpublished pre post := by
  obtain ⟨l, r, rfl, hfirst⟩ := List.eq_append_cons_of_mem hemit
  refine ⟨pre ++ l.map .act, r.map .act ++ rest, by simp [htodo], fun c hc ↦ ?_, fun c hc ↦ ?_,
    hout.imp_right fun h ↦ List.mem_append_left _ h,
    hstage.imp_right fun h ↦ List.mem_append_left _ h,
    hin.imp_right fun h ↦ List.mem_append_left _ h⟩
  · obtain hc | hc := List.mem_append.mp hc
    · exact hpre c hc
    · obtain ⟨a, ha, rfl⟩ := List.mem_map.mp hc
      cases a with
      | emitState => exact absurd ha hfirst
      | sendItem hash kind payload sensitive => cases hsilent _ (List.mem_append_left _ ha)
      | _ => trivial
  · obtain hc | hc := List.mem_append.mp hc
    · obtain ⟨a, -, rfl⟩ := List.mem_map.mp hc
      exact id
    · exact hrest c hc

theorem Sweeping.published (hs : s.Sweeping) (htodo : s.todo = []) :
    s.lastWipeGenSync = s.app.state.vaultWipeGen ∧ s.log.unpublished = false := by
  refine ⟨?_, Bool.eq_false_of_not_eq_true fun h ↦ ?_⟩
  · obtain ⟨pre, hpre, -⟩ | ⟨hbase, -⟩ := hs.base
    · rw [htodo] at hpre
      exact absurd hpre.symm (List.append_ne_nil_of_right_ne_nil _ (List.cons_ne_nil _ _))
    · exact hbase
  · obtain ⟨pre, post, hu⟩ := hs.unpublished h
    exact hu.nonempty htodo

theorem refreshed_vaultWipeGen {app : App} {others : List PeerId} {e : Event} :
    (refreshed app others e).state.vaultWipeGen = app.state.vaultWipeGen := by
  cases e <;> rfl

/-- The event arm sees every wipe of its own event, and clears the caches first. -/
theorem Sweeping.pop {wall : WallClock} {others : List PeerId} (hs : s.Sweeping)
    (htodo : s.todo = []) : Sweeping (({ s with queue } : Node).eventArm env q wall others) := by
  obtain ⟨hbase, hpub⟩ := hs.published htodo
  refine ⟨.inr ⟨rfl, fun c hc ↦ ?_⟩, fun hun ↦ ?_⟩
  · simp only [eventArm] at hc
    revert hc
    split <;> cases q.event <;> simp <;> grind [Calls]
  · have hw : (refreshed s.app others q.event).wipes q.event := by
      by_contra hw
      simp only [eventArm, Log.after, hw, Bool.false_eq_true, if_false, hpub] at hun
    obtain ⟨-, hgen, hemit⟩ := App.wipes_handle env.blake3 wall hw
    have hwiped : ((refreshed s.app others q.event).handle env.blake3 q.event wall).1.state.vaultWipeGen ≠
        s.lastWipeGenSync := by
      rw [hgen, hbase, refreshed_vaultWipeGen]
      simp
    refine unpublished_of_wipe (.purgeStage (dropped ((refreshed s.app others
      q.event).handle env.blake3 q.event wall).2) :: [.clearOutbox, .clearStage, .clearInflight])
      [] hemit (App.wipes_silent hw) (by simp [Still]) (by simp) ?_ (.inr (by simp))
      (.inr (by simp)) (.inr (by simp))
    simp only [eventArm, hwiped, ne_eq, not_false_eq_true, if_true, List.append_nil]
    obtain ⟨r, name, he, -⟩ | ⟨name, he⟩ := App.wipes_cases hw <;> simp only [he, List.append_nil]

/-- A command ends with setting the baseline, and clears no cache of its own. -/
theorem Sweeping.command {cmd : Cmd} (hs : s.Sweeping) (htodo : s.todo = []) :
    Sweeping (s.command env cmd) := by
  have hpub := (hs.published htodo).2
  have hcmd : (∃ pre, (s.command env cmd).todo = pre ++ [.rebase] ∧ ∀ c ∈ pre, ¬ Clears c) ∧
      (s.command env cmd).log = s.log := by
    refine ⟨⟨(s.command env cmd).todo.dropLast, ?_, ?_⟩, by cases cmd <;> rfl⟩
    · cases cmd with
      | toggleOn wall live => cases live <;> rfl
      | _ => simp [Node.command]
    · intro c hc
      have hc := List.dropLast_subset _ hc
      cases cmd with
      | toggleOn wall live =>
        cases live <;> (simp [Node.command] at hc; grind [Clears])
      | _ =>
        simp [Node.command] at hc
        grind [Clears]
  refine ⟨.inl hcmd.1, fun h ↦ ?_⟩
  rw [hcmd.2, hpub] at h
  cases h

theorem dispatch_base {a : Action} :
    (s.dispatch o a).app = s.app ∧ (s.dispatch o a).todo = s.todo ∧
      (s.dispatch o a).lastWipeGenSync = s.lastWipeGenSync ∧
      ((s.dispatch o a).log.unpublished → s.log.unpublished) := by
  cases a with
  | sendItem hash kind payload sensitive =>
    simp only [dispatch]
    (repeat' split) <;> exact ⟨rfl, rfl, rfl, id⟩
  | emitState => exact ⟨rfl, rfl, rfl, fun h ↦ by cases h⟩
  | _ => exact ⟨rfl, rfl, rfl, id⟩

/-- A chore that is no call of the App. -/
theorem perform_base (env : Env) (s : Node) (o : Oracle) (hc : ¬ Calls c) :
    (s.perform env o c).app = s.app ∧ (s.perform env o c).todo = s.todo ∧
      ((s.perform env o c).lastWipeGenSync = s.lastWipeGenSync ∨
        (s.perform env o c).lastWipeGenSync = s.app.state.vaultWipeGen) ∧
      ((s.perform env o c).log.unpublished → s.log.unpublished) := by
  cases c with
  | handle | expel => exact absurd trivial hc
  | act a =>
    obtain ⟨happ, htodo, hlast, hpub⟩ := dispatch_base (s := s) (o := o) (a := a)
    exact ⟨happ, htodo, .inl hlast, hpub⟩
  | promote h b =>
    simp only [perform]
    (repeat' split) <;> exact ⟨rfl, rfl, .inl rfl, id⟩
  | rebase => exact ⟨rfl, rfl, .inr rfl, id⟩
  | _ => exact ⟨rfl, rfl, .inl rfl, id⟩

/-- A call of the App puts its actions in front. -/
theorem perform_calls (env : Env) (s : Node) (o : Oracle) (hc : Calls c) :
    ∃ l, (s.perform env o c).todo = l ++ s.todo ∧ ∀ c' ∈ l, ¬ Clears c' := by
  cases c with
  | handle e wall =>
    refine ⟨_, rfl, fun c' hc' ↦ ?_⟩
    obtain ⟨a, -, rfl⟩ := List.mem_map.mp hc'
    exact id
  | expel p wall lost next =>
    refine ⟨_, rfl, fun c' hc' ↦ ?_⟩
    obtain rfl | hc' := List.mem_cons.mp hc'
    · exact id
    · obtain rfl | hc' := List.mem_cons.mp hc'
      · exact id
      · obtain ⟨a, -, rfl⟩ := List.mem_map.mp hc'
        exact id
  | _ => cases hc

/-- What a chore leaves of the caches. -/
theorem still_clean (env : Env) (s : Node) (o : Oracle) (hc : Still c) :
    (s.OutboxClean ∨ c = .clearOutbox → (s.perform env o c).OutboxClean) ∧
      (s.StageClean ∨ c = .clearStage → (s.perform env o c).StageClean) ∧
      (s.InflightClean ∨ c = .clearInflight → (s.perform env o c).InflightClean) := by
  cases c with
  | handle | expel | promote => cases hc
  | act a =>
    have hs : s.perform env o (.act a) = s := by
      cases a with
      | emitState | sendItem => cases hc
      | _ => rfl
    rw [hs]
    simp
  | clearOutbox =>
    refine ⟨fun _ h e he ↦ ?_, fun h ↦ h.resolve_right (by simp), fun h ↦ h.resolve_right (by simp)⟩
    simp [perform] at he
  | clearStage =>
    refine ⟨fun h ↦ h.resolve_right (by simp), fun _ h e he ↦ ?_, fun h ↦ h.resolve_right (by simp)⟩
    simp [perform] at he
  | clearInflight =>
    refine ⟨fun h ↦ h.resolve_right (by simp), fun h ↦ h.resolve_right (by simp), fun _ h i hi ↦ ?_⟩
    simp [perform] at hi
  | purgeStage hashes =>
    refine ⟨fun h ↦ h.resolve_right (by simp), fun h k e he ↦ ?_, fun h ↦ h.resolve_right (by simp)⟩
    simp only [perform, OrderedMap.lookup_erase_all] at he
    split at he
    · cases he
    · exact h.resolve_right (by simp) k e he
  | purgeInflight p =>
    refine ⟨fun h ↦ h.resolve_right (by simp), fun h ↦ h.resolve_right (by simp), fun h k i hi ↦ ?_⟩
    obtain ⟨hi, -⟩ := OrderedMap.lookup_filter.mp hi
    rw [ExtTreeMap.getElem?_map, Option.map_eq_some_iff] at hi
    obtain ⟨j, hj, rfl⟩ := hi
    exact h.resolve_right (by simp) k j hj
  | removeFromOutbox hashes =>
    exact ⟨fun h k e he ↦ h.resolve_right (by simp) k e (Outbox.lookup_removeMany he), fun h ↦ h.resolve_right (by simp),
      fun h ↦ h.resolve_right (by simp)⟩
  | rebase => exact ⟨fun h ↦ h.resolve_right (by simp), fun h ↦ h.resolve_right (by simp), fun h ↦ h.resolve_right (by simp)⟩

theorem Unpublished.chore (hu : s.Unpublished pre post) (htodo : s.todo = c :: todo)
    (hc : c ≠ .act .emitState) :
    ∃ pre', (({ s with todo } : Node).perform env o c).Unpublished pre' post := by
  cases pre with
  | nil => exact absurd (List.cons.inj (htodo.symm.trans hu.todo)).1 hc
  | cons c' pre =>
    obtain ⟨rfl, rfl⟩ := List.cons.inj (htodo.symm.trans hu.todo)
    have hstill : Still c := hu.still c (.head _)
    obtain ⟨hout, hstage, hin⟩ :=
      still_clean env { s with todo := pre ++ .act .emitState :: post } o hstill
    have hcalls : ¬ Calls c := by
      intro h
      cases c with
      | handle | expel => cases hstill
      | _ => cases h
    refine ⟨pre, (perform_base env _ o hcalls).2.1, fun c' hc' ↦ hu.still c' (.tail _ hc'), hu.late, ?_, ?_, ?_⟩
    · obtain h | h := hu.outbox
      · exact .inl (hout (.inl h))
      · obtain h | h := List.mem_cons.mp h
        · exact .inl (hout (.inr h.symm))
        · exact .inr h
    · obtain h | h := hu.stage
      · exact .inl (hstage (.inl h))
      · obtain h | h := List.mem_cons.mp h
        · exact .inl (hstage (.inr h.symm))
        · exact .inr h
    · obtain h | h := hu.inflight
      · exact .inl (hin (.inl h))
      · obtain h | h := List.mem_cons.mp h
        · exact .inl (hin (.inr h.symm))
        · exact .inr h

/-- Calls of the App come from commands alone. -/
theorem Sweeping.command_rest (hs : s.Sweeping) (htodo : s.todo = c :: todo) (hc : Calls c) :
    ∃ pre, todo = pre ++ [.rebase] ∧ ∀ c ∈ pre, ¬ Clears c := by
  obtain ⟨pre, hpre, hclears⟩ | ⟨-, hcalls⟩ := hs.base
  · cases pre with
    | nil =>
      obtain ⟨rfl, -⟩ := List.cons.inj (htodo.symm.trans hpre)
      cases hc
    | cons c' pre =>
      obtain ⟨rfl, rfl⟩ := List.cons.inj (htodo.symm.trans hpre)
      exact ⟨pre, rfl, fun c' hc' ↦ hclears c' (.tail _ hc')⟩
  · exact absurd hc (hcalls c (htodo ▸ .head _))

theorem Sweeping.base_chore (hs : s.Sweeping) (htodo : s.todo = c :: todo) :
    (∃ pre, (({ s with todo } : Node).perform env o c).todo = pre ++ [.rebase] ∧
      ∀ c ∈ pre, ¬ Clears c) ∨
    (({ s with todo } : Node).perform env o c).lastWipeGenSync =
        (({ s with todo } : Node).perform env o c).app.state.vaultWipeGen ∧
      ∀ c' ∈ (({ s with todo } : Node).perform env o c).todo, ¬ Calls c' := by
  by_cases hc : Calls c
  · obtain ⟨pre, rfl, hclears⟩ := hs.command_rest htodo hc
    obtain ⟨l, hl, hnew⟩ := perform_calls env { s with todo := pre ++ [.rebase] } o hc
    refine .inl ⟨l ++ pre, by rw [hl, List.append_assoc], fun c' hc' ↦ ?_⟩
    exact (List.mem_append.mp hc').elim (hnew c') (hclears c')
  · obtain ⟨happ, hsame, hlast, -⟩ :=
      perform_base env { s with todo } o hc
    rw [happ, hsame]
    obtain ⟨pre, hpre, hclears⟩ | ⟨hbase, hcalls⟩ := hs.base
    · cases pre with
      | nil =>
        obtain ⟨rfl, rfl⟩ := List.cons.inj (htodo.symm.trans hpre)
        exact .inr ⟨rfl, fun c' hc' ↦ by cases hc'⟩
      | cons c' pre =>
        obtain ⟨rfl, rfl⟩ := List.cons.inj (htodo.symm.trans hpre)
        exact .inl ⟨pre, rfl, fun c' hc' ↦ hclears c' (.tail _ hc')⟩
    · refine .inr ⟨?_, fun c' hc' ↦ hcalls c' (htodo ▸ .tail _ hc')⟩
      exact hlast.elim (fun h ↦ h.trans hbase) id

theorem Sweeping.chore (hs : s.Sweeping) (hok : s.WipesSwept (.chore o))
    (htodo : s.todo = c :: todo) : Sweeping (({ s with todo } : Node).perform env o c) := by
  refine ⟨hs.base_chore htodo, fun hun ↦ ?_⟩
  by_cases hbefore : s.log.unpublished
  · obtain ⟨pre, post, hu⟩ := hs.unpublished hbefore
    by_cases hc : c = .act .emitState
    · rw [hc] at hun
      cases hun
    · obtain ⟨pre', hu'⟩ := hu.chore htodo hc
      exact ⟨pre', post, hu'⟩
  · cases c with
    | handle e wall =>
      have hw : s.app.wipes e := by
        by_contra hw
        simp only [perform, Log.after, hw, if_false] at hun
        exact hbefore hun
      obtain ⟨hout, hstage, hin⟩ := hok e wall todo htodo hw
      obtain ⟨pre, rfl, hclears⟩ := hs.command_rest htodo trivial
      obtain ⟨-, -, hemit⟩ := App.wipes_handle env.blake3 wall hw
      refine unpublished_of_wipe [] (pre ++ [.rebase]) hemit (App.wipes_silent hw) (by simp)
        (fun c hc ↦ ?_) rfl (.inl fun h e he ↦ ?_) (.inl fun h e he ↦ ?_) (.inl fun h i hi ↦ ?_)
      · obtain hc | hc := List.mem_append.mp hc
        · exact hclears c hc
        · rw [List.mem_singleton.mp hc]
          exact id
      · simp [perform, hout] at he
      · simp [perform, hstage] at he
      · simp [perform, hin] at hi
    | expel p wall lost next => exact absurd hun hbefore
    | _ => exact absurd ((perform_base env _ o id).2.2.2 hun) hbefore

/-- An ack takes peers off an entry, or the entry. -/
theorem Sweeping.acked {hash : ContentHash} {p : PeerId} (hs : s.Sweeping) :
    (s.acked hash p).Sweeping := by
  rw [Node.acked]
  split
  case h_1 i hi =>
    dsimp only
    split
    · refine hs.of_same rfl rfl rfl rfl fun _ _ _ hu ↦ hu.of_sub rfl id id fun h k j hj ↦ ?_
      simp only [OrderedMap.lookup_erase] at hj
      split at hj
      · cases hj
      · exact h k j hj
    · refine hs.of_same rfl rfl rfl rfl fun _ _ _ hu ↦ hu.of_sub rfl id id fun h k j hj ↦ ?_
      simp only [OrderedMap.lookup_insert] at hj
      split at hj
      · rw [← Option.some.inj hj]
        exact h hash i hi
      · exact h k j hj
  case h_2 => exact hs

theorem Sweeping.step (hs : s.Sweeping) (hok : s.WipesSwept act)
    (hstep : s.step env act = some s') : s'.Sweeping := by
  cases act with
  | arrive item wipes =>
    obtain ⟨-, -, -, rfl⟩ := step_arrive hstep
    exact hs.of_same rfl rfl rfl rfl fun _ _ _ hu ↦ hu.of_sub rfl id id id
  | inbound o resync =>
    obtain ⟨hand, hhand, rfl⟩ := step_inbound hstep
    exact hs.resume hhand hok
  | pull hash now =>
    obtain ⟨-, rfl | ⟨entry, -, rfl⟩⟩ := step_pull hstep
    · exact hs
    · exact hs.of_same rfl rfl rfl rfl fun _ _ _ hu ↦ hu.of_sub rfl id id id
  | release hash p =>
    obtain rfl := Option.some.inj hstep
    exact hs.acked
  | raise e =>
    obtain ⟨-, rfl⟩ := step_raise hstep
    rw [send]
    split
    · exact hs.of_same rfl rfl rfl rfl fun _ _ _ hu ↦ hu.of_sub rfl id id id
    · exact hs
  | leave p | join p =>
    obtain rfl := Option.some.inj hstep
    exact hs.of_same rfl rfl rfl rfl fun _ _ _ hu ↦ hu.of_sub rfl id id id
  | pop wall others =>
    obtain ⟨htodo, q, queue, -, rfl⟩ := step_pop hstep
    exact hs.pop htodo
  | command cmd =>
    obtain ⟨htodo, -, rfl⟩ := step_command hstep
    exact hs.command htodo
  | chore o =>
    obtain ⟨c, todo, htodo, rfl⟩ := step_chore hstep
    exact hs.chore hok htodo

theorem sweeping_start {policy : FirewallPolicy} : (start policy).Sweeping :=
  ⟨.inr ⟨rfl, by simp [start]⟩, fun h ↦ by cases h⟩

/-- When the state is published after a wipe, no cache holds a payload captured before it, as long
as no command makes the App wipe over full caches. -/
theorem wipe_reaches_caches {policy : FirewallPolicy} {l : List Act}
    (hr : Run (Node.step env) WipesSwept (start policy) l s)
    (htodo : s.todo = .act .emitState :: todo) (hwiped : s.log.unpublished) :
    s.OutboxClean ∧ s.StageClean ∧ s.InflightClean := by
  have hs : s.Sweeping := hr.invariant sweeping_start fun _ _ _ hs hok hstep ↦ hs.step hok hstep
  obtain ⟨pre, post, hu⟩ := hs.unpublished hwiped
  have hpre : pre = [] := by
    cases pre with
    | nil => rfl
    | cons c pre =>
      obtain ⟨rfl, -⟩ := List.cons.inj (htodo.symm.trans hu.todo)
      exact (hu.still _ (.head _)).elim
  subst hpre
  exact ⟨hu.outbox.resolve_right List.not_mem_nil, hu.stage.resolve_right List.not_mem_nil,
    hu.inflight.resolve_right List.not_mem_nil⟩

/-- Peer 1 is bound and its item is in the outbox. -/
def bindAndDeliver : List Act :=
  .raise (.peerSeen 1 "desk") :: .pop midnight [] :: List.replicate 2 (.chore quiet) ++ delivery ++
    .pop midnight [] :: List.replicate 4 (.chore quiet)

/-- Sync goes on again beside a session with peer 2. -/
def swapOnToggle : List Act :=
  bindAndDeliver ++ .command (.toggleOn midnight (some (2, "van"))) :: List.replicate 7 (.chore quiet)

theorem swap_on_toggle_keeps_outbox : ∃ s todo,
    Run (Node.step sizes) Always (start {}) swapOnToggle s ∧ s.todo = .act .emitState :: todo ∧
      s.log.unpublished ∧ ¬ s.OutboxClean := by
  have hrun : Run (Node.step sizes) Always (start {}) swapOnToggle _ :=
    run_of_isSome (by decide +kernel)
  refine ⟨_, _, hrun, rfl, by decide +kernel, fun hclean ↦ ?_⟩
  have h := hclean 2 (Arrival.entry { hi with no := 0, wipes := 0 } 0) (by decide +kernel)
  revert h
  decide +kernel

/-- Peer 2 is seen in its turn. -/
def swapOnSight : List Act :=
  bindAndDeliver ++ .raise (.peerSeen 2 "van") :: .pop midnight [] :: List.replicate 4 (.chore quiet)

/-- A test of `WipesSwept` for a run in which no command makes the App wipe. -/
def swept (s : Node) : Act → Bool
  | .chore _ =>
    match s.todo with
    | .handle e _ :: _ => !s.app.wipes e
    | _ => true
  | .inbound .. => !s.log.unpublished
  | _ => true

theorem wipesSwept_of_swept (h : s.swept act) : s.WipesSwept act := by
  cases act with
  | chore o =>
    intro e wall todo htodo hw
    simp [swept, htodo, hw] at h
  | inbound o resync =>
    intro hun
    simp [swept, hun] at h
  | _ => trivial

theorem swapOnSight_swept : (swapOnSight.foldlM (fun s act ↦
    if swept s act then s.step sizes act else none) (start {})).isSome := by
  decide +kernel

theorem wipe_reaches_caches_swapOnSight : ∃ s todo,
    Run (Node.step sizes) WipesSwept (start {}) swapOnSight s ∧ s.todo = .act .emitState :: todo ∧
      s.log.wipes = 1 ∧ s.OutboxClean ∧ s.StageClean ∧ s.InflightClean := by
  have hrun : Run (Node.step sizes) WipesSwept (start {}) swapOnSight _ :=
    (run_of_checked swapOnSight_swept).mono fun _ _ h ↦ wipesSwept_of_swept h
  exact ⟨_, _, hrun, rfl, by decide +kernel, wipe_reaches_caches hrun rfl (by decide +kernel)⟩

end Pipeline.Node

end FluxSync
