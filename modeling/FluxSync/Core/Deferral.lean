import FluxSync.Core.Approval
import FluxSync.Core.Mirror

/-! ## A deferred item and the approval of its row -/

namespace FluxSync

/-- The item an event asks the firewall about. -/
def Event.item : Event → Option PendingPayload
  | .localClipboardChange hash kind payload _ sensitive _ =>
    some { direction := .outbound, kind, payload, sensitive, hash, peerId := none }
  | .frameReceivedClipboard hash kind payload _ sensitive _ _ peerId =>
    some { direction := .inbound, kind, payload, sensitive, hash, peerId := some peerId }
  | _ => none

namespace App

open Std Runs

variable {blake3 : ByteArray → ContentHash} {app app' : App} {e : Event} {wall wall' : WallClock}
  {l : List Call} {c : Call} {k : String} {x y : PendingPayload} {dir : Direction} {kind : Kind}
  {sensitive : Bool} {hash : ContentHash} {payload : ByteArray} {preview : String}
  {peerId : Option PeerId} {actions : List Action}

/-- The event is no duplicate, and the firewall defers its item. -/
structure Deferred (blake3 : ByteArray → ContentHash) (app : App) (e : Event) (wall : WallClock)
    (x : PendingPayload) : Prop where
  item : e.item = some x
  fresh : (app.preTransition blake3 e wall).suppressAction = false
  asks : app.firewall.decide x.kind x.sensitive x.direction = .defer

/-- The call neither resolves the row of `k` nor drops it. -/
structure Keeps (blake3 : ByteArray → ContentHash) (k : String) (app : App) (c : Call) : Prop where
  unresolved : ∀ allow wall, c ≠ .handle (.resolvePending k allow) wall
  stays : k ∈ (app.call blake3 c).1.pendingPayloads

/-- Parking leaves a row that is there. -/
theorem lookup_parkPending :
    (app.parkPending dir kind sensitive hash payload preview peerId).pendingPayloads[hex32 hash]? =
      some ((app.pendingPayloads[hex32 hash]?).getD
        { direction := dir, kind, payload, sensitive, hash, peerId }) := by
  rw [parkPending]
  split
  case isTrue h =>
    rw [ExtTreeMap.contains_eq_isSome_getElem?] at h
    rw [← Option.some_get h, Option.getD_some]
  case isFalse h =>
    rw [ExtTreeMap.contains_eq_isSome_getElem?, Bool.not_eq_true, Option.isSome_eq_false_iff,
      Option.isNone_iff_eq_none] at h
    rw [OrderedMap.lookup_insert, if_pos rfl, h, Option.getD_none]

theorem lookup_parkPending_ne (hk : k ≠ hex32 hash) :
    (app.parkPending dir kind sensitive hash payload preview peerId).pendingPayloads[k]? =
      app.pendingPayloads[k]? := by
  rw [parkPending]
  split
  · rfl
  · rw [OrderedMap.lookup_insert, if_neg hk.symm]

theorem parked_gateItem_defer (hasks : app.firewall.decide kind sensitive dir = .defer) :
    (app.gateItem dir kind sensitive hash payload preview peerId actions).1.parked =
      (app.parkPending dir kind sensitive hash payload preview peerId).parked := by
  rw [gateItem, hasks]

/-- What a deferral leaves under the hash: what was there, else the item. -/
theorem Deferred.lookup (h : Deferred blake3 app e wall x) :
    (app.handle blake3 e wall).1.pendingPayloads[hex32 x.hash]? =
      some ((app.pendingPayloads[hex32 x.hash]?).getD x) := by
  obtain ⟨hitem, hfresh, hasks⟩ := h
  have hfirewall : (app.preTransition blake3 e wall).app.firewall = app.firewall :=
    preTransition_firewall
  rw [← hfirewall] at hasks
  cases e with
  | localClipboardChange hash kind payload preview sensitive lamport =>
    obtain rfl := Option.some.inj hitem
    have hsame : (app.preTransition blake3
        (.localClipboardChange hash kind payload preview sensitive lamport) wall).app.parked =
          app.parked := by
      simp only [preTransition]
      (repeat' split) <;> rfl
    have hparked : (app.handle blake3
        (.localClipboardChange hash kind payload preview sensitive lamport) wall).1.parked =
          (app.parkPending .outbound kind sensitive hash payload preview none).parked := by
      simp only [handle, Bool.false_eq_true, if_false, hfresh]
      exact (parked_gateItem_defer hasks).trans (parked_congr hsame)
    rw [(Prod.mk.inj hparked).2]
    exact lookup_parkPending
  | frameReceivedClipboard hash kind payload preview sensitive lamport resync p =>
    obtain rfl := Option.some.inj hitem
    have hsame : (app.preTransition blake3 (.frameReceivedClipboard hash kind payload preview
        sensitive lamport resync p) wall).app.parked = app.parked := by
      simp only [preTransition]
      (repeat' split) <;> rfl
    have hparked : (app.handle blake3 (.frameReceivedClipboard hash kind payload preview
        sensitive lamport resync p) wall).1.parked =
          (app.parkPending .inbound kind sensitive hash payload preview (some p)).parked := by
      simp only [handle, Bool.false_eq_true, if_false, hfresh]
      exact (parked_gateItem_defer hasks).trans (parked_congr hsame)
    rw [(Prod.mk.inj hparked).2]
    exact lookup_parkPending
  | _ => cases hitem

/-- What is parked under a key does not change while it stays. -/
theorem Parks.lookup (hp : app.Parks blake3 wall e app')
    (hopen : ∀ allow, e ≠ .resolvePending k allow) (hx : app.pendingPayloads[k]? = some x)
    (hk : k ∈ app'.pendingPayloads) : app'.pendingPayloads[k]? = some x := by
  have hpark {dir kind sensitive hash payload preview peerId} :
      (app.parkPending dir kind sensitive hash payload preview peerId).pendingPayloads[k]? =
        some x := by
    by_cases hk : k = hex32 hash
    · subst hk
      rw [lookup_parkPending, hx, Option.getD_some]
    · rw [lookup_parkPending_ne hk, hx]
  cases hp with
  | same => exact hx
  | resolve =>
    rename_i key allow
    have hne : key ≠ k := fun heq ↦ hopen allow (heq ▸ rfl)
    rw [resolvePending]
    split
    · exact hx
    · split <;> exact (OrderedMap.lookup_erase.trans (if_neg hne)).trans hx
  | dropAll => exact absurd hk ExtTreeMap.not_mem_empty
  | dropFor =>
    obtain ⟨y, hy⟩ := Option.isSome_iff_exists.mp (ExtTreeMap.mem_iff_isSome_getElem?.mp hk)
    have := (OrderedMap.lookup_filter.mp hy).1
    rw [hx] at this
    rw [hy, this]
  | outbound => exact hpark
  | inbound => exact hpark

theorem Keeps.lookup (h : Keeps blake3 k app c) (hx : app.pendingPayloads[k]? = some x) :
    (app.call blake3 c).1.pendingPayloads[k]? = some x := by
  by_cases hc : ∃ e wall, c = .handle e wall
  · obtain ⟨e, wall, rfl⟩ := hc
    obtain ⟨app', hp, heq⟩ := parks_handle blake3 app e wall
    have hpay : (app.handle blake3 e wall).1.pendingPayloads = app'.pendingPayloads :=
      (Prod.mk.inj heq).2
    show (app.handle blake3 e wall).1.pendingPayloads[k]? = some x
    have hk : k ∈ (app.handle blake3 e wall).1.pendingPayloads := h.stays
    rw [hpay] at hk ⊢
    exact hp.lookup (fun allow he ↦ h.unresolved allow wall (he ▸ rfl)) hx hk
  · have hparked : (app.call blake3 c).1.parked = app.parked :=
      parked_call fun e wall h ↦ hc ⟨e, wall, h⟩
    rw [(Prod.mk.inj hparked).2, hx]

theorem lookup_of_keeps (h : Run (step blake3) (Keeps blake3 k) app l app')
    (hx : app.pendingPayloads[k]? = some x) : app'.pendingPayloads[k]? = some x := by
  refine h.invariant (I := fun app ↦ app.pendingPayloads[k]? = some x) hx ?_
  intro app c app' hx hc hstep
  obtain rfl := Option.some.inj hstep
  exact hc.lookup hx

/-- The approval of the row emits the held action of a deferred item exactly when nothing was
parked under its hash before, or something with the same action. -/
theorem approval_emits_iff (h : Deferred blake3 app e wall x)
    (hr : Run (step blake3) (Keeps blake3 (hex32 x.hash)) (app.handle blake3 e wall).1 l app') :
    x.held ∈ (app'.handle blake3 (.resolvePending (hex32 x.hash) true) wall').2 ↔
      ∀ y, app.pendingPayloads[hex32 x.hash]? = some y → y.held = x.held := by
  rw [(approve_held blake3 wall' (lookup_of_keeps hr h.lookup)).1]
  have hne : x.held ≠ .emitState := by
    rw [PendingPayload.held]
    split <;> exact Action.noConfusion
  cases app.pendingPayloads[hex32 x.hash]? with
  | none => simp
  | some y => simp [hne, eq_comm]

def anHourLater : WallClock := ⟨"13:00", 4600000⟩

/-- The user copies what the peer sent an hour ago. -/
def recopy : Event := .localClipboardChange 8 .text ⟨#[105]⟩ "i" false 1

def asking : App := askLinked.foldl (fun app c ↦ (app.call (fun _ ↦ 8) c).1) (.new {})

theorem approval_emits_iff_note :
    Run (step fun _ ↦ 8) Always (.new {}) askLinked asking ∧
      ∃ app', Run (step fun _ ↦ 8) (Keeps (fun _ ↦ 8) (hex32 8))
          (asking.handle (fun _ ↦ 8) note noon).1 [copy] app' ∧
        (.writeClipboard .text ⟨#[105]⟩ false ∈
            (app'.handle (fun _ ↦ 8) (.resolvePending (hex32 8) true) noon).2 ↔
          ∀ y, asking.pendingPayloads[hex32 8]? = some y →
            y.held = .writeClipboard .text ⟨#[105]⟩ false) := by
  have hcopy : Keeps (fun _ ↦ 8) (hex32 8) (asking.handle (fun _ ↦ 8) note noon).1 copy :=
    ⟨fun _ _ h ↦ (by cases h), by decide +kernel⟩
  have hkeeps : Run (step fun _ ↦ 8) (Keeps (fun _ ↦ 8) (hex32 8)) _ [copy] _ :=
    .snoc .nil hcopy rfl
  exact ⟨run_of_foldlM rfl, _, hkeeps,
    approval_emits_iff (x := ⟨.inbound, .text, ⟨#[105]⟩, false, 8, some 1⟩)
      ⟨rfl, by decide +kernel, by decide +kernel⟩ hkeeps⟩

/-- The second deferral is of the other direction, and the approval sends nothing. -/
theorem recopy_not_sent :
    ∃ app, Run (step fun _ ↦ 8) Always (.new {}) (askLinked ++ [.handle note noon, copy]) app ∧
      Deferred (fun _ ↦ 8) app recopy anHourLater ⟨.outbound, .text, ⟨#[105]⟩, false, 8, none⟩ ∧
      .sendItem 8 .text ⟨#[105]⟩ false ∉
        ((app.handle (fun _ ↦ 8) recopy anHourLater).1.handle (fun _ ↦ 8)
          (.resolvePending (hex32 8) true) anHourLater).2 := by
  have hrun : Run (step fun _ ↦ 8) Always (.new {}) (askLinked ++ [.handle note noon, copy]) _ :=
    run_of_isSome (by decide +kernel)
  exact ⟨_, hrun, ⟨rfl, by decide +kernel, by decide +kernel⟩, by decide +kernel⟩

end App

end FluxSync
