import FluxSync.Core.App

namespace FluxSync

open Std

variable {blake3 : ByteArray → ContentHash} {app : App} {state : State} {e : Event}
  {wall : WallClock} {actions : List Action} {a : Action} {p : Prelude}

@[simp] theorem State.forgetPeer_on : state.forgetPeer.on = state.on := rfl

@[simp] theorem State.resetSas_on : state.resetSas.on = state.on := rfl

@[simp] theorem State.forgetPeer_firewall : state.forgetPeer.firewall = state.firewall := rfl

@[simp] theorem State.resetSas_firewall : state.resetSas.firewall = state.firewall := rfl

@[simp] theorem PendingPayload.held_transfers {p : PendingPayload} : p.held.transfers := by
  rw [held]
  split <;> rfl

namespace App

@[simp] theorem pushHistory_phase {item : HistoryItem} :
    (app.pushHistory item).phase = app.phase := rfl

@[simp] theorem pushHistory_on {item : HistoryItem} :
    (app.pushHistory item).state.on = app.state.on := rfl

@[simp] theorem dropPendingAll_phase : app.dropPendingAll.phase = app.phase := rfl

@[simp] theorem dropPendingAll_on : app.dropPendingAll.state.on = app.state.on := rfl

@[simp] theorem dropPendingFor_phase {id : PeerId} :
    (app.dropPendingFor id).1.phase = app.phase := rfl

@[simp] theorem dropPendingFor_on {id : PeerId} :
    (app.dropPendingFor id).1.state.on = app.state.on := rfl

@[simp] theorem parkPending_phase {dir kind sensitive hash payload preview peerId} :
    (app.parkPending dir kind sensitive hash payload preview peerId).phase = app.phase := by
  rw [parkPending]
  split <;> rfl

@[simp] theorem parkPending_on {dir kind sensitive hash payload preview peerId} :
    (app.parkPending dir kind sensitive hash payload preview peerId).state.on = app.state.on := by
  rw [parkPending]
  split <;> rfl

/-- What an event leaves of the switch, before the transition. -/
def switched (on : Bool) : Event → Bool
  | .toggleOn => true
  | .toggleOff | .manualUnpair => false
  | _ => on

theorem preTransition_on :
    (app.preTransition blake3 e wall).app.state.on = switched app.state.on e := by
  cases e <;> simp only [preTransition, switched] <;> (repeat' split) <;> rfl

theorem preTransition_phase : (app.preTransition blake3 e wall).app.phase = app.phase := by
  cases e <;> simp only [preTransition] <;> (repeat' split) <;> rfl

theorem gateItem_phase {dir kind sensitive hash payload preview peerId} :
    (app.gateItem dir kind sensitive hash payload preview peerId actions).1.phase = app.phase := by
  rw [gateItem]
  split
  · rfl
  · rfl
  · exact parkPending_phase

theorem gateItem_on {dir kind sensitive hash payload preview peerId} :
    (app.gateItem dir kind sensitive hash payload preview peerId actions).1.state.on =
      app.state.on := by
  rw [gateItem]
  split
  · rfl
  · rfl
  · exact parkPending_on

theorem gateItem_subset {dir kind sensitive hash payload preview peerId} :
    (app.gateItem dir kind sensitive hash payload preview peerId actions).2 ⊆ actions := by
  rw [gateItem]
  split
  · exact List.Subset.refl _
  · exact List.filter_subset_self _
  · exact List.filter_subset_self _

theorem applyFirewall_subset : (app.applyFirewall e actions).2 ⊆ actions := by
  cases e with
  | localClipboardChange => exact gateItem_subset
  | frameReceivedClipboard => exact gateItem_subset
  | _ => exact List.Subset.refl _

theorem applyFirewall_phase : (app.applyFirewall e actions).1.phase = app.phase := by
  cases e with
  | localClipboardChange | frameReceivedClipboard => exact gateItem_phase
  | _ => rfl

theorem applyFirewall_on : (app.applyFirewall e actions).1.state.on = app.state.on := by
  cases e with
  | localClipboardChange | frameReceivedClipboard => exact gateItem_on
  | _ => rfl

theorem mem_ensureEmit : a ∈ ensureEmit actions ↔ a ∈ actions ∨ a = .emitState := by
  rw [ensureEmit]
  split
  · grind
  · simp

theorem mem_stripResyncApply (h : a ∈ stripResyncApply actions) :
    a ∈ actions ∨ a = .resyncApplySuppressed := by
  rw [stripResyncApply] at h
  grind

theorem mem_realBattery (h : a ∈ realBattery state actions) :
    a ∈ actions ∨ a = .sendBattery state.batteryLevel state.charging := by
  rw [realBattery, List.mem_filterMap] at h
  obtain ⟨b, hb, h⟩ := h
  grind

theorem postTransition_phase :
    (postTransition p e).1.phase = (transition p.app.phase e).1 := rfl

theorem postTransition_on : (postTransition p e).1.state.on = p.app.state.on :=
  applyFirewall_on

/-- What follows the firewall adds no transfer to what it leaves. -/
theorem postTransition_gated (ha : a ∈ (postTransition p e).2) (ht : a.transfers) :
    a ∈ (p.app.applyFirewall e (transition p.app.phase e).2).2 := by
  have emitted {l : List Action} (h : a ∈ ensureEmit l) : a ∈ l := by
    obtain h | rfl := mem_ensureEmit.mp h
    · exact h
    · cases ht
  have powered {l : List Action} (h : a ∈ realBattery (p.app.applyFirewall e
      (transition p.app.phase e).2).1.state l) : a ∈ l := by
    obtain h | rfl := mem_realBattery h
    · exact h
    · cases ht
  have applied {l : List Action} (h : a ∈ stripResyncApply l) : a ∈ l := by
    obtain h | rfl := mem_stripResyncApply h
    · exact h
    · cases ht
  have dropped {l : List Action} (h : a ∈ l ++ [.pendingDropped p.pendingDropped]) : a ∈ l := by
    obtain h | h := List.mem_append.mp h
    · exact h
    · rw [List.mem_singleton.mp h] at ht
      cases ht
  simp only [postTransition] at ha
  have hbattery := powered (by
    split at ha
    · replace ha := emitted ha
      split at ha
      · exact emitted ha
      · exact ha
    · split at ha
      · exact emitted ha
      · exact ha)
  have hdrop : a ∈ if p.pendingDropped = [] then
      (p.app.applyFirewall e (transition p.app.phase e).2).2
      else (p.app.applyFirewall e (transition p.app.phase e).2).2 ++
        [.pendingDropped p.pendingDropped] := by
    split at hbattery
    · exact applied hbattery
    · exact hbattery
  split at hdrop
  · exact hdrop
  · exact dropped hdrop

theorem postTransition_transfers (ha : a ∈ (postTransition p e).2) (ht : a.transfers) :
    a ∈ (transition p.app.phase e).2 :=
  applyFirewall_subset (postTransition_gated ha ht)

end App

end FluxSync
