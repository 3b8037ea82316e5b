import FluxSync.Core.Delivered
import FluxSync.Core.Parking

namespace FluxSync

open Std

namespace App

variable {blake3 : ByteArray → ContentHash} {app app' : App} {e : Event} {wall : WallClock}
  {row x : HistoryItem} {actions : List Action} {kind : Kind} {payload : ByteArray}
  {sensitive : Bool} {phase : Phase}

theorem applyFirewall_firewall : (app.applyFirewall e actions).1.firewall = app.firewall := by
  have hgate {dir kind sensitive hash payload preview peerId} :
      (app.gateItem dir kind sensitive hash payload preview peerId actions).1.firewall =
        app.firewall := by
    rw [gateItem]
    split
    · rfl
    · rfl
    · rw [parkPending]
      split <;> rfl
  cases e with
  | localClipboardChange | frameReceivedClipboard => exact hgate
  | _ => rfl

/-- Only the user's command sets the policy. -/
theorem firewall_handle : (app.handle blake3 e wall).1.firewall = app.firewall := by
  by_cases he : ∃ hash allow, e = .resolvePending hash allow
  · obtain ⟨hash, allow, rfl⟩ := he
    rw [handle, resolvePending]
    (repeat' split) <;> rfl
  · obtain h | ⟨h, -⟩ | h := handle_cases blake3 app wall fun hash allow h ↦ he ⟨hash, allow, h⟩
    · rw [h]
    · rw [h, preTransition_firewall]
    · rw [h]
      exact applyFirewall_firewall.trans preTransition_firewall

/-- A row after an event was there before, up to its pin, or is the one that the event adds. -/
theorem row_handle (h : row ∈ (app.handle blake3 e wall).1.state.history) :
    ∃ x favorite, row = { x with favorite } ∧
      (x ∈ app.state.history ∨ app.admitted blake3 e wall = some x) := by
  rw [history_handle] at h
  by_cases hf : ∃ hash favorite, e = .setFavorite hash favorite
  · obtain ⟨hash, favorite, rfl⟩ := hf
    obtain ⟨x, hx, rfl⟩ := List.mem_map.mp h
    split
    · exact ⟨x, favorite, rfl, .inl hx⟩
    · exact ⟨x, x.favorite, rfl, .inl hx⟩
  by_cases hc : ∃ includeFavorites, e = .clearHistory includeFavorites
  · obtain ⟨includeFavorites, rfl⟩ := hc
    rw [historyAfter] at h
    split at h
    · cases h
    · exact ⟨row, row.favorite, rfl, .inl (List.mem_of_mem_filter h)⟩
  rw [historyAfter_other (fun hash favorite h ↦ hf ⟨hash, favorite, h⟩) fun i h ↦ hc ⟨i, h⟩] at h
  split at h
  · cases h
  · cases hx : app.admitted blake3 e wall with
    | none =>
      rw [hx] at h
      exact ⟨row, row.favorite, rfl, .inl h⟩
    | some x =>
      rw [hx] at h
      obtain rfl | h := mem_pushHistory h
      · exact ⟨x, _, rfl, .inr rfl⟩
      · exact ⟨row, row.favorite, rfl, .inl h⟩

/-- The row of an event is of an item that is not sensitive, and a remote one has passed. -/
theorem admitted_row (h : app.admitted blake3 e wall = some x) : x.sensitive = false ∧
    (x.source = .remote → ∃ hash kind payload preview lamport resync p,
      e = .frameReceivedClipboard hash kind payload preview false lamport resync p ∧
        app.firewall.decide kind false .inbound = .pass ∧ x.hash = hex32 hash) := by
  cases e with
  | localClipboardChange hash kind payload preview sensitive lamport =>
    obtain ⟨⟨-, hs⟩, h⟩ := Option.ite_none_right_eq_some.mp h
    obtain rfl := Option.some.inj h
    exact ⟨by simpa using hs, fun h ↦ by cases h⟩
  | frameReceivedClipboard hash kind payload preview sensitive lamport resync p =>
    obtain ⟨⟨-, -, hs⟩, h⟩ := Option.ite_none_right_eq_some.mp h
    obtain rfl := Option.some.inj h
    obtain ⟨hs, hpass⟩ := Bool.and_eq_true_iff.mp hs
    obtain rfl : sensitive = false := by simpa using hs
    exact ⟨rfl, fun _ ↦ ⟨hash, kind, payload, preview, lamport, resync, p, rfl,
      beq_iff_eq.mp hpass, rfl⟩⟩
  | _ => cases h

theorem transition_write (h : .writeClipboard kind payload sensitive ∈ (transition phase e).2) :
    ∃ hash preview lamport resync p,
      e = .frameReceivedClipboard hash kind payload preview sensitive lamport resync p := by
  cases phase <;> cases e <;> simp_all [transition]

/-- A write is of an item that passes, or of a parked one that the user approves. -/
theorem write_handle (h : .writeClipboard kind payload sensitive ∈ (app.handle blake3 e wall).2) :
    (∃ hash preview lamport resync p,
      e = .frameReceivedClipboard hash kind payload preview sensitive lamport resync p ∧
        app.firewall.decide kind sensitive .inbound = .pass) ∨
    ∃ hash parked, e = .resolvePending hash true ∧ app.pendingPayloads[hash]? = some parked ∧
      parked.held = .writeClipboard kind payload sensitive := by
  by_cases he : ∃ hash allow, e = .resolvePending hash allow
  · obtain ⟨hash, allow, rfl⟩ := he
    simp only [handle] at h
    obtain ⟨rfl, p, hp, hheld⟩ := resolvePending_transfers h rfl
    exact .inr ⟨hash, p, rfl, hp, hheld.symm⟩
  · obtain hall | ⟨-, -, hall⟩ | hall :=
      handle_cases blake3 app wall fun hash allow h ↦ he ⟨hash, allow, h⟩
    · rw [hall] at h
      cases h
    · exact absurd rfl (hall _ h)
    · rw [hall] at h
      have hgated := postTransition_gated h rfl
      obtain ⟨hash, preview, lamport, resync, p, rfl⟩ :=
        transition_write (applyFirewall_subset hgated)
      refine .inl ⟨hash, preview, lamport, resync, p, rfl, ?_⟩
      simp only [applyFirewall, gateItem, preTransition_firewall] at hgated
      split at hgated
      · assumption
      · simp [stripSyncAction] at hgated
      · simp [stripSyncAction] at hgated

/-- Neither an item of a peer nor an answer of the user. -/
def Unheld : Event → Prop
  | .frameReceivedClipboard .. | .resolvePending .. => False
  | _ => True

/-- The row is of a local item, or was there before, up to its pin. -/
def Rooted (app : App) (row : HistoryItem) : Prop :=
  row.sensitive = false ∧ row.source ≠ .remote ∨
    ∃ x ∈ app.state.history, ∃ favorite, row = { x with favorite }

theorem rooted_of_mem (h : row ∈ app.state.history) : app.Rooted row :=
  .inr ⟨row, h, row.favorite, rfl⟩

theorem Rooted.trans (hrow : app'.Rooted row) (h : ∀ x ∈ app'.state.history, app.Rooted x) :
    app.Rooted row := by
  obtain hrow | ⟨x, hx, favorite, rfl⟩ := hrow
  · exact .inl hrow
  · obtain hlocal | ⟨y, hy, pin, rfl⟩ := h x hx
    · exact .inl hlocal
    · exact .inr ⟨y, hy, favorite, rfl⟩

/-- An event that is no item of a peer adds no remote row. -/
theorem rooted_handle (he : ∀ x, app.admitted blake3 e wall = some x → x.source ≠ .remote)
    (h : row ∈ (app.handle blake3 e wall).1.state.history) : app.Rooted row := by
  obtain ⟨x, favorite, rfl, hx | hx⟩ := row_handle h
  · exact .inr ⟨x, hx, favorite, rfl⟩
  · exact .inl ⟨(admitted_row hx).1, he x hx⟩

theorem Unheld.rooted (he : Unheld e) (h : row ∈ (app.handle blake3 e wall).1.state.history) :
    app.Rooted row := by
  refine rooted_handle (fun x hx hremote ↦ ?_) h
  obtain ⟨hash, kind, payload, preview, lamport, resync, p, rfl, -⟩ := (admitted_row hx).2 hremote
  cases he

theorem Unheld.silent (he : Unheld e) :
    .writeClipboard kind payload sensitive ∉ (app.handle blake3 e wall).2 := by
  intro h
  obtain ⟨hash, preview, lamport, resync, p, rfl, -⟩ | ⟨hash, parked, rfl, -⟩ := write_handle h <;>
    cases he

theorem rooted_expireHistory {nowMs : UInt64}
    (h : row ∈ (app.expireHistory nowMs).1.state.history) : app.Rooted row := by
  rw [expireHistory_history] at h
  exact rooted_of_mem (List.mem_of_mem_filter h)

theorem rooted_setHistoryRetention {secs nowMs : UInt64}
    (h : row ∈ ((app.setHistoryRetention secs nowMs).getD app).state.history) : app.Rooted row := by
  rw [setHistoryRetention] at h
  split at h
  · exact (rooted_expireHistory h).trans fun x hx ↦ rooted_of_mem hx
  · exact rooted_of_mem h

theorem firewall_setHistoryRetention {secs nowMs : UInt64} :
    ((app.setHistoryRetention secs nowMs).getD app).firewall = app.firewall := by
  rw [setHistoryRetention]
  split
  · rw [Option.getD_some, expireHistory]
    split <;> rfl
  · rfl

theorem markDelivered_kept {hash : ContentHash} {device : String} :
    (app.markDelivered hash device).1.firewall = app.firewall ∧
      (app.markDelivered hash device).1.state.history = app.state.history := by
  simp only [markDelivered]
  (repeat' split) <;> exact ⟨rfl, rfl⟩

end App

end FluxSync
