import FluxSync.Core.History
import FluxSync.Core.Parking

namespace FluxSync.App

open Std

variable {blake3 : ByteArray → ContentHash} {app : App} {wall : WallClock} {hash : ContentHash}
  {kind : Kind} {payload : ByteArray} {preview : String} {sensitive : Bool} {lamport : UInt64}
  {resync : Bool} {p : PeerId} {policy : FirewallPolicy}

def isWrite : Action → Bool
  | .writeClipboard .. => true
  | _ => false

/-- What an inbound item leaves behind: the clipboard writes, the history and the ring. -/
structure Effect where
  writes : List Action
  history : List HistoryItem
  dedup : DedupRing

/-- The item is handled and the user approves it at once. -/
def asked (blake3 : ByteArray → ContentHash) (app : App) (e : Event) (hash : ContentHash)
    (wall wall' : WallClock) : Effect :=
  let (app, actions) := app.handle blake3 e wall
  let (app, actions') := app.handle blake3 (.resolvePending (hex32 hash) true) wall'
  { writes := (actions ++ actions').filter isWrite, history := app.state.history
    dedup := app.dedup }

/-- The same item under another policy. -/
def passed (blake3 : ByteArray → ContentHash) (app : App) (policy : FirewallPolicy) (e : Event)
    (wall : WallClock) : Effect :=
  let (app, actions) := (app.setFirewall policy).handle blake3 e wall
  { writes := actions.filter isWrite, history := app.state.history, dedup := app.dedup }

/-- The row that `FrameReceivedClipboard` gives an item that passes. -/
def arrival (hash : ContentHash) (kind : Kind) (preview : String) (sensitive : Bool)
    (lamport : UInt64) (resync : Bool) (p : PeerId) (wall : WallClock) : HistoryItem where
  kind := kind
  preview := trim preview
  time := wall.hhmm
  source := .remote
  sensitive := sensitive
  lamport := lamport
  hash := hex32 hash
  favorite := false
  resync := resync
  sourcePeerId := some (hex32 p)
  createdMs := wall.unixMillis

/-- A first sighting, before the firewall is asked. -/
def sighted (blake3 : ByteArray → ContentHash) (app : App) (kind : Kind) (payload : ByteArray)
    (lamport : UInt64) (wall : WallClock) : App :=
  { app with
    clock := observeLamport app.clock lamport
    dedup := (app.dedup.observeClipboard (contentDigest blake3 kind payload) wall.unixMillis).1 }

theorem preTransition_arrival
    (hfresh : (app.preTransition blake3 (.frameReceivedClipboard hash kind payload preview sensitive
      lamport resync p) wall).suppressAction = false) :
    app.preTransition blake3 (.frameReceivedClipboard hash kind payload preview sensitive lamport
        resync p) wall =
      { app :=
          if !sensitive && app.firewall.decide kind sensitive .inbound == .pass then
            (app.sighted blake3 kind payload lamport wall).pushHistory
              (arrival hash kind preview sensitive lamport resync p wall)
          else app.sighted blake3 kind payload lamport wall
        suppressResyncApply := resync } := by
  revert hfresh
  simp only [preTransition]
  split
  · intro h
    cases h
  · split
    · intro h
      cases h
    · intro _
      split <;> rfl

theorem writes_ensureEmit {actions : List Action} :
    (ensureEmit actions).filter isWrite = actions.filter isWrite := by
  rw [ensureEmit]
  split
  · rfl
  · rw [List.filter_append]
    exact List.append_nil _

variable (app hash payload preview lamport resync p) in
/-- On a live link an item that passes is written unless it is an answer to a pull. -/
theorem postTransition_pass (hlinked : app.phase = .linked)
    (hpass : app.firewall.decide kind sensitive .inbound = .pass) :
    (postTransition { app, suppressResyncApply := resync } (.frameReceivedClipboard hash kind
        payload preview sensitive lamport resync p)).2.filter isWrite =
      (if resync then [] else [.writeClipboard kind payload sensitive]) ∧
    (postTransition { app, suppressResyncApply := resync } (.frameReceivedClipboard hash kind
        payload preview sensitive lamport resync p)).1.state.history = app.state.history ∧
    (postTransition { app, suppressResyncApply := resync } (.frameReceivedClipboard hash kind
        payload preview sensitive lamport resync p)).1.dedup = app.dedup := by
  simp only [postTransition, hlinked, transition, applyFirewall, gateItem, hpass, if_true,
    alwaysEmits, writes_ensureEmit, and_true]
  cases resync with
  | true => split <;> simp [stripResyncApply, realBattery, writes_ensureEmit, isWrite]
  | false => split <;> simp [realBattery, writes_ensureEmit, List.filter_cons, isWrite]

variable (app hash payload preview lamport resync p) in
/-- An item that the firewall parks is not written, and its payload is kept. -/
theorem postTransition_defer (hlinked : app.phase = .linked)
    (hdefer : app.firewall.decide kind sensitive .inbound = .defer)
    (hnew : app.pendingPayloads.contains (hex32 hash) = false) :
    (postTransition { app, suppressResyncApply := resync } (.frameReceivedClipboard hash kind
        payload preview sensitive lamport resync p)).2.filter isWrite = [] ∧
    (postTransition { app, suppressResyncApply := resync } (.frameReceivedClipboard hash kind
        payload preview sensitive lamport resync p)).1.state.history = app.state.history ∧
    (postTransition { app, suppressResyncApply := resync } (.frameReceivedClipboard hash kind
        payload preview sensitive lamport resync p)).1.dedup = app.dedup ∧
    (postTransition { app, suppressResyncApply := resync } (.frameReceivedClipboard hash kind
        payload preview sensitive lamport resync p)).1.pendingPayloads[hex32 hash]? =
      some { direction := .inbound, kind, payload, sensitive, hash, peerId := some p } := by
  simp only [postTransition, hlinked, transition, applyFirewall, gateItem, hdefer, if_true,
    alwaysEmits, writes_ensureEmit, parkPending, hnew, Bool.false_eq_true, if_false,
    OrderedMap.lookup_insert, and_true]
  cases resync with
  | true => split <;> simp [stripSyncAction, stripResyncApply, realBattery, writes_ensureEmit, isWrite]
  | false => split <;> simp [stripSyncAction, realBattery, writes_ensureEmit, isWrite]

variable (policy) in
/-- Freshness does not depend on the policy. -/
theorem suppressAction_setFirewall :
    ((app.setFirewall policy).preTransition blake3 (.frameReceivedClipboard hash kind payload
      preview sensitive lamport resync p) wall).suppressAction =
    (app.preTransition blake3 (.frameReceivedClipboard hash kind payload preview sensitive lamport
      resync p) wall).suppressAction := by
  have hdedup : (app.setFirewall policy).dedup = app.dedup := rfl
  simp only [preTransition, hdedup]
  split
  · rfl
  · split
    · rfl
    · split <;> split <;> rfl

/-- An approval emits what was held and leaves the history and the ring. -/
theorem approve_held (blake3 : ByteArray → ContentHash) (wall : WallClock) {key : String}
    {x : PendingPayload} (hx : app.pendingPayloads[key]? = some x) :
    (app.handle blake3 (.resolvePending key true) wall).2 = [x.held, .emitState] ∧
      (app.handle blake3 (.resolvePending key true) wall).1.state.history = app.state.history ∧
      (app.handle blake3 (.resolvePending key true) wall).1.dedup = app.dedup := by
  simp only [handle, resolvePending, hx, if_true, and_self]

section Outcome

variable {wall' : WallClock}
  (hlinked : app.phase = .linked)
  (hparks : app.ParksFrom blake3 wall p
    (.frameReceivedClipboard hash kind payload preview sensitive lamport resync p))

include hlinked hparks

theorem asked_eq :
    asked blake3 app (.frameReceivedClipboard hash kind payload preview sensitive lamport resync p)
        hash wall wall' =
      { writes := [.writeClipboard kind payload sensitive], history := app.state.history
        dedup := (app.sighted blake3 kind payload lamport wall).dedup } := by
  obtain ⟨-, hdefer, hfresh, hnew⟩ := hparks
  have hpre := preTransition_arrival hfresh
  rw [hdefer, if_neg (by simp)] at hpre
  have hhandle : app.handle blake3 (.frameReceivedClipboard hash kind payload preview sensitive
      lamport resync p) wall = postTransition
        { app := app.sighted blake3 kind payload lamport wall, suppressResyncApply := resync }
        (.frameReceivedClipboard hash kind payload preview sensitive lamport resync p) := by
    simp only [handle, Bool.false_eq_true, if_false, hpre]
  obtain ⟨hwrites, hhistory, hdedup, hpayload⟩ :=
    postTransition_defer (app.sighted blake3 kind payload lamport wall) hash payload preview
      lamport resync p hlinked hdefer hnew
  obtain ⟨hactions, hhistory', hdedup'⟩ := approve_held blake3 wall' hpayload
  simp only [asked, hhandle, List.filter_append, hwrites, hactions, hhistory', hhistory, hdedup',
    hdedup]
  rfl

theorem passed_eq (hpass : policy.decide kind sensitive .inbound = .pass) :
    passed blake3 app policy (.frameReceivedClipboard hash kind payload preview sensitive lamport
        resync p) wall =
      { writes := if resync then [] else [.writeClipboard kind payload sensitive]
        history :=
          if sensitive then app.state.history
          else
            (app.pushHistory
              (arrival hash kind preview sensitive lamport resync p wall)).state.history
        dedup := (app.sighted blake3 kind payload lamport wall).dedup } := by
  obtain ⟨-, -, hfresh, -⟩ := hparks
  have hpre := preTransition_arrival ((suppressAction_setFirewall policy).trans hfresh)
  have hhandle : (app.setFirewall policy).handle blake3 (.frameReceivedClipboard hash kind payload
      preview sensitive lamport resync p) wall = postTransition
        ((app.setFirewall policy).preTransition blake3 (.frameReceivedClipboard hash kind payload
          preview sensitive lamport resync p) wall)
        (.frameReceivedClipboard hash kind payload preview sensitive lamport resync p) := by
    simp only [handle, Bool.false_eq_true, if_false, suppressAction_setFirewall, hfresh]
  have hadmits : ((app.setFirewall policy).firewall.decide kind sensitive .inbound == .pass) =
      true := by
    rw [show (app.setFirewall policy).firewall = policy from rfl, hpass]
    rfl
  rw [hadmits, Bool.and_true] at hpre
  cases sensitive with
  | true =>
    obtain ⟨hwrites, hhistory, hdedup⟩ := postTransition_pass
      ((app.setFirewall policy).sighted blake3 kind payload lamport wall) hash payload preview
      lamport resync p hlinked hpass
    rw [if_neg (by simp)] at hpre
    simp only [passed, hhandle, hpre, hwrites, hhistory, hdedup, if_true]
    rfl
  | false =>
    obtain ⟨hwrites, hhistory, hdedup⟩ := postTransition_pass
      (((app.setFirewall policy).sighted blake3 kind payload lamport wall).pushHistory
        (arrival hash kind preview false lamport resync p wall))
      hash payload preview lamport resync p hlinked hpass
    rw [if_pos (by simp)] at hpre
    simp only [passed, hhandle, hpre, hwrites, hhistory, hdedup, Bool.false_eq_true, if_false]
    rfl

end Outcome

/-- The newest row already is the very row that the item would get, and none is over the cap. -/
def OnTop (app : App) (x : HistoryItem) : Prop :=
  (∃ favorite, app.state.history.head? = some { x with favorite }) ∧
    app.state.history.countP (!·.favorite) ≤ HISTORY_SOFT_CAP

theorem onTop_of_head {x : HistoryItem} {l : List HistoryItem} {favorite : Bool}
    (hx : x.favorite = false) (hl : l.head? = some { x with favorite }) : onTop l x = l := by
  cases l with
  | nil => cases hl
  | cons h l =>
    cases hl
    have hsame : ({ x with favorite } : HistoryItem).same x := HistoryItem.same_iff.mpr ⟨rfl, rfl, rfl⟩
    simp only [onTop, keepingPin, List.find?_cons, List.eraseP_cons, hsame, hx, cond_true,
      Option.any_some, Bool.false_or]

/-- A pushed row changes nothing exactly when it is there already. -/
theorem pushHistory_unchanged_iff {x : HistoryItem} (hx : x.favorite = false) :
    (app.pushHistory x).state.history = app.state.history ↔ app.OnTop x := by
  constructor
  · intro h
    rw [pushHistory_history] at h
    constructor
    · refine ⟨(keepingPin app.state.history x).favorite, (congrArg List.head? h).symm.trans ?_⟩
      split
      · rw [capHistoryKeepingFavorites, HISTORY_SOFT_CAP, onTop]
        by_cases hf : (keepingPin app.state.history x).favorite
        · rw [keepNonFavorites_favorite hf]
          rfl
        · rw [keepNonFavorites_succ hf]
          rfl
      · rfl
    · rw [← h]
      split
      case isTrue => exact countP_keepNonFavorites
      case isFalse hcap => exact List.countP_le_length.trans (Nat.le_of_not_lt hcap)
  · rintro ⟨⟨favorite, hhead⟩, hcount⟩
    rw [pushHistory_history, onTop_of_head hx hhead]
    split
    · exact keepNonFavorites_eq_self hcount
    · rfl

/-- An approval does what the passing policy would have done exactly when there is no row to
add and no answer to a pull to keep off the clipboard. -/
theorem asked_eq_passed_iff {wall' : WallClock} (hlinked : app.phase = .linked)
    (hparks : app.ParksFrom blake3 wall p
      (.frameReceivedClipboard hash kind payload preview sensitive lamport resync p))
    (hpass : policy.decide kind sensitive .inbound = .pass) :
    asked blake3 app (.frameReceivedClipboard hash kind payload preview sensitive lamport resync p)
        hash wall wall' =
      passed blake3 app policy (.frameReceivedClipboard hash kind payload preview sensitive lamport
        resync p) wall ↔
    resync = false ∧ (sensitive = true ∨
      app.OnTop (arrival hash kind preview sensitive lamport resync p wall)) := by
  rw [asked_eq hlinked hparks, passed_eq hlinked hparks hpass, Effect.mk.injEq]
  have hwrites : [.writeClipboard kind payload sensitive] =
      (if resync then [] else [.writeClipboard kind payload sensitive] : List Action) ↔
        resync = false := by
    cases resync <;> simp
  have hhistory : app.state.history = (if sensitive then app.state.history else
      (app.pushHistory (arrival hash kind preview sensitive lamport resync p wall)).state.history) ↔
      (sensitive = true ∨ app.OnTop (arrival hash kind preview sensitive lamport resync p wall)) := by
    cases sensitive with
    | true => simp
    | false =>
      rw [← pushHistory_unchanged_iff rfl]
      simp [eq_comm]
  rw [hwrites, hhistory]
  simp

def askPolicy : FirewallPolicy := { enabled := true, text := .ask, sensitive := .ask }

def askLinked : List Call := .setFirewall askPolicy :: link

def secret : Event := .frameReceivedClipboard 8 .text ⟨#[105]⟩ "i" true 0 false 1

def note : Event := .frameReceivedClipboard 8 .text ⟨#[105]⟩ "i" false 0 false 1

theorem asked_eq_passed_secret :
    ∃ app, Runs.Run (step fun _ ↦ 0) Runs.Always (.new {}) askLinked app ∧
      (asked (fun _ ↦ 0) app secret 8 noon noon = passed (fun _ ↦ 0) app {} secret noon ↔
        false = false ∧ (true = true ∨
          app.OnTop (arrival 8 .text "i" true 0 false 1 noon))) := by
  have hrun : Runs.Run (step fun _ ↦ 0) Runs.Always (.new {}) askLinked _ :=
    Runs.run_of_isSome (by decide +kernel)
  refine ⟨_, hrun, asked_eq_passed_iff (by decide +kernel) ?_ (by decide +kernel)⟩
  exact ⟨rfl, by decide +kernel, by decide +kernel, by decide +kernel⟩

/-- The approved note is on the clipboard and nowhere in the history. -/
theorem approved_note_has_no_row :
    ∃ app, Runs.Run (step fun _ ↦ 0) Runs.Always (.new {}) askLinked app ∧
      app.phase = .linked ∧ app.ParksFrom (fun _ ↦ 0) noon 1 note ∧
      (asked (fun _ ↦ 0) app note 8 noon noon).history = [] ∧
      (passed (fun _ ↦ 0) app {} note noon).history.length = 1 ∧
      asked (fun _ ↦ 0) app note 8 noon noon ≠ passed (fun _ ↦ 0) app {} note noon := by
  have hrun : Runs.Run (step fun _ ↦ 0) Runs.Always (.new {}) askLinked _ :=
    Runs.run_of_isSome (by decide +kernel)
  refine ⟨_, hrun, by decide +kernel, ⟨rfl, by decide +kernel, by decide +kernel, by decide +kernel⟩,
    by decide +kernel, by decide +kernel, fun h ↦ ?_⟩
  have hlength := congrArg (·.history.length) h
  revert hlength
  decide +kernel

end FluxSync.App
