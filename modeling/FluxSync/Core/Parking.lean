import FluxSync.Core.Transfer

namespace FluxSync

open Std

theorem nibble_eq {n i : ℕ} (hi : i < 64) :
    ((List.range 64).map fun i ↦ Nat.digitChar (n >>> (4 * (63 - i)) % 16))[i]? =
      some (Nat.digitChar (n >>> (4 * (63 - i)) % 16)) := by
  rw [List.getElem?_map, List.getElem?_range hi, Option.map_some]

theorem digitChar_injective : ∀ a < 16, ∀ b < 16, Nat.digitChar a = Nat.digitChar b → a = b := by
  decide

/-- Two values with the same 64 hex digits are equal. -/
theorem hex32_injective {a b : BitVec 256} (h : hex32 a = hex32 b) : a = b := by
  refine BitVec.eq_of_toNat_eq (Nat.eq_of_testBit_eq fun j ↦ ?_)
  by_cases hj : j < 256
  · have hi : 63 - j / 4 < 64 := by omega
    have hdigit := nibble_eq (n := a.toNat) hi
    rw [String.ofList_inj.mp h, nibble_eq hi] at hdigit
    have hnibble := digitChar_injective _ (Nat.mod_lt _ (by omega)) _ (Nat.mod_lt _ (by omega))
      (Option.some.inj hdigit)
    have hbit := congrArg (Nat.testBit · (j % 4)) hnibble
    have hlt : j % 4 < 4 := Nat.mod_lt _ (by omega)
    have hsum : 4 * (63 - (63 - j / 4)) + j % 4 = j := by omega
    simp only [show 16 = 2 ^ 4 from rfl, Nat.testBit_mod_two_pow, hlt, decide_true,
      Bool.true_and, Nat.testBit_shiftRight, hsum] at hbit
    exact hbit.symm
  · have hbound (c : BitVec 256) : c.toNat.testBit j = false :=
      Nat.testBit_lt_two_pow (c.isLt.trans_le (Nat.pow_le_pow_right (by omega) (by omega)))
    rw [hbound, hbound]

namespace App

variable {blake3 : ByteArray → ContentHash} {app app' : App} {e : Event} {wall : WallClock}
  {actions : List Action} {p : PeerId} {dir : Direction} {kind : Kind} {sensitive : Bool}
  {hash : ContentHash} {payload : ByteArray} {preview : String} {peerId : Option PeerId}
  {k : String} {x : PendingPayload}

/-- The two halves of what the firewall's Ask rule holds back. -/
def parked (app : App) : List PendingItem × ExtTreeMap String PendingPayload :=
  (app.state.pending, app.pendingPayloads)

theorem parked_congr (hp : app.parked = app'.parked) :
    (app.parkPending dir kind sensitive hash payload preview peerId).parked =
      (app'.parkPending dir kind sensitive hash payload preview peerId).parked := by
  obtain ⟨hrows, hpay⟩ := Prod.mk.inj hp
  simp only [parkPending, hpay]
  split
  · exact hp
  · simp only [parked, hrows]

/-- What an event does to the parked items. -/
inductive Parks (app : App) (blake3 : ByteArray → ContentHash) (wall : WallClock) :
    Event → App → Prop
  | same {e : Event} : Parks app blake3 wall e app
  | resolve {hash : String} {allow : Bool} :
      Parks app blake3 wall (.resolvePending hash allow) (app.resolvePending hash allow).1
  | dropAll {e : Event} : Parks app blake3 wall e app.dropPendingAll
  | dropFor {e : Event} {p : PeerId} : Parks app blake3 wall e (app.dropPendingFor p).1
  | outbound {hash kind payload preview sensitive lamport} :
      Parks app blake3 wall (.localClipboardChange hash kind payload preview sensitive lamport)
        (app.parkPending .outbound kind sensitive hash payload preview none)
  | inbound {hash kind payload preview sensitive lamport resync p}
      (hdefer : app.firewall.decide kind sensitive .inbound = .defer)
      (hfresh : (app.preTransition blake3 (.frameReceivedClipboard hash kind payload preview
        sensitive lamport resync p) wall).suppressAction = false) :
      Parks app blake3 wall
        (.frameReceivedClipboard hash kind payload preview sensitive lamport resync p)
        (app.parkPending .inbound kind sensitive hash payload preview (some p))

theorem preTransition_firewall :
    (app.preTransition blake3 e wall).app.firewall = app.firewall := by
  cases e <;> simp only [preTransition] <;> (repeat' split) <;> rfl

theorem parked_gateItem :
    (app.gateItem dir kind sensitive hash payload preview peerId actions).1.parked = app.parked ∨
      app.firewall.decide kind sensitive dir = .defer ∧
        (app.gateItem dir kind sensitive hash payload preview peerId actions).1.parked =
          (app.parkPending dir kind sensitive hash payload preview peerId).parked := by
  rw [gateItem]
  split
  case h_1 | h_2 => exact .inl rfl
  case h_3 hdefer => exact .inr ⟨hdefer, rfl⟩

/-- Before the transition nothing is parked, at most something is dropped. -/
theorem parks_preTransition (blake3 : ByteArray → ContentHash) (app : App) (e : Event)
    (wall : WallClock) : ∃ app', app.Parks blake3 wall e app' ∧
    (app.preTransition blake3 e wall).app.parked = app'.parked := by
  cases e with
  | peerSeen p name =>
    simp only [preTransition]
    split
    · exact ⟨_, .same, rfl⟩
    · split
      · split
        · exact ⟨_, .dropFor (p := app.lastPairedPeerId), rfl⟩
        · exact ⟨_, .dropAll, rfl⟩
      · exact ⟨_, .same, rfl⟩
  | untrustedPeerSeen | manualUnpair => exact ⟨_, .dropAll, rfl⟩
  | ghostTimeout =>
    simp only [preTransition]
    split
    · exact ⟨_, .same, rfl⟩
    · exact ⟨_, .dropFor (p := app.state.peerId), rfl⟩
  | peerRevoked p =>
    simp only [preTransition]
    split <;> exact ⟨_, .dropFor (p := p), rfl⟩
  | localClipboardChange | frameReceivedClipboard | peerLost | primaryFailover | sasLocalConfirmed
  | sasPeerConfirmed | sasPeerRejected =>
    simp only [preTransition]
    (repeat' split) <;> exact ⟨_, .same, rfl⟩
  | _ => exact ⟨_, .same, rfl⟩

theorem parks_handle (blake3 : ByteArray → ContentHash) (app : App) (e : Event)
    (wall : WallClock) : ∃ app', app.Parks blake3 wall e app' ∧
    (app.handle blake3 e wall).1.parked = app'.parked := by
  obtain ⟨app', hparks, hpre⟩ := parks_preTransition blake3 app e wall
  cases e with
  | resolvePending hash allow => exact ⟨_, .resolve, rfl⟩
  | peerSeen q name =>
    simp only [handle]
    split
    · exact ⟨_, .same, rfl⟩
    · split <;> exact ⟨app', hparks, hpre⟩
  | localClipboardChange hash kind payload preview sensitive lamport =>
    have hsame : (app.preTransition blake3
        (.localClipboardChange hash kind payload preview sensitive lamport) wall).app.parked =
          app.parked := by
      simp only [preTransition]
      (repeat' split) <;> rfl
    simp only [handle, Bool.false_eq_true, if_false]
    split
    · exact ⟨_, .same, hsame⟩
    · obtain hgate | ⟨-, hgate⟩ := parked_gateItem
      · exact ⟨_, .same, hgate.trans hsame⟩
      · exact ⟨_, .outbound, hgate.trans (parked_congr hsame)⟩
  | frameReceivedClipboard hash kind payload preview sensitive lamport resync p =>
    have hsame : (app.preTransition blake3 (.frameReceivedClipboard hash kind payload preview
        sensitive lamport resync p) wall).app.parked = app.parked := by
      simp only [preTransition]
      (repeat' split) <;> rfl
    simp only [handle, Bool.false_eq_true, if_false]
    split
    case isTrue => exact ⟨_, .same, hsame⟩
    case isFalse hfresh =>
      obtain hgate | ⟨hdefer, hgate⟩ := parked_gateItem
      · exact ⟨_, .same, hgate.trans hsame⟩
      · rw [preTransition_firewall] at hdefer
        exact ⟨_, .inbound hdefer (Bool.eq_false_of_not_eq_true hfresh),
          hgate.trans (parked_congr hsame)⟩
  | _ =>
    simp only [handle, Bool.false_eq_true, if_false]
    split <;> exact ⟨app', hparks, hpre⟩

/-- Every row that clients see has its payload. -/
def Backed (app : App) : Prop :=
  ∀ row ∈ app.state.pending, ∃ x : PendingPayload, app.pendingPayloads[row.hash]? = some x ∧
    row.direction = x.direction ∧ row.peerId = x.peerId.map hex32

/-- Something received from the peer is parked. -/
def HasParked (app : App) (p : PeerId) : Prop :=
  ∃ (k : String) (x : PendingPayload), app.pendingPayloads[k]? = some x ∧ x.peerId = some p

theorem Backed.of_parked (h : app'.Backed) (hp : app.parked = app'.parked) : app.Backed := by
  obtain ⟨hrows, hpay⟩ := Prod.mk.inj hp
  rw [Backed, hrows, hpay]
  exact h

theorem HasParked.of_parked (h : app.HasParked p) (hp : app.parked = app'.parked) :
    app'.HasParked p := by
  rw [HasParked, ← (Prod.mk.inj hp).2]
  exact h

theorem Backed.parkPending (h : app.Backed) :
    (app.parkPending dir kind sensitive hash payload preview peerId).Backed := by
  rw [App.parkPending]
  split
  case isTrue => exact h
  case isFalse hnew =>
    intro row hrow
    obtain hrow | hrow := List.mem_append.mp hrow
    · obtain ⟨x, hx, hdir, hpeer⟩ := h row hrow
      refine ⟨x, ?_, hdir, hpeer⟩
      rw [OrderedMap.lookup_insert, if_neg ?_]
      · exact hx
      · intro hk
        rw [ExtTreeMap.contains_eq_isSome_getElem?, hk, hx] at hnew
        exact hnew rfl
    · rw [List.mem_singleton.mp hrow]
      exact ⟨_, by rw [OrderedMap.lookup_insert, if_pos rfl], rfl, rfl⟩

theorem Backed.dropPendingFor (h : app.Backed) : (app.dropPendingFor p).1.Backed := by
  intro row hrow
  obtain ⟨hrow, hkept⟩ := List.mem_filter.mp hrow
  obtain ⟨x, hx, hdir, hpeer⟩ := h row hrow
  refine ⟨x, OrderedMap.lookup_filter.mpr ⟨hx, ?_⟩, hdir, hpeer⟩
  have hne : x.peerId ≠ some p := by
    intro heq
    have hdropped : (row.hash, x) ∈ app.pendingPayloads.toList.filter (·.2.peerId == some p) :=
      List.mem_filter.mpr ⟨OrderedMap.mem_entries.mpr hx, by simp [heq]⟩
    have hkey := List.mem_map_of_mem (f := Prod.fst) hdropped
    rw [List.contains_iff_mem.mpr hkey] at hkept
    cases hkept
  simpa using hne

theorem Backed.resolvePending {hash : String} {allow : Bool} (h : app.Backed) :
    (app.resolvePending hash allow).1.Backed := by
  have herase : ({ app with
      state := { app.state with pending := app.state.pending.filter (·.hash != hash) }
      pendingPayloads := app.pendingPayloads.erase hash } : App).Backed := by
    intro row hrow
    obtain ⟨hrow, hne⟩ := List.mem_filter.mp hrow
    obtain ⟨x, hx, hback⟩ := h row hrow
    refine ⟨x, ?_, hback⟩
    rw [OrderedMap.lookup_erase, if_neg ?_]
    · exact hx
    · rintro rfl
      simp at hne
  rw [App.resolvePending]
  split
  · exact fun row hrow ↦ h row (List.mem_filter.mp hrow).1
  · split <;> exact herase

theorem Backed.parks (h : app.Backed) (hp : app.Parks blake3 wall e app') : app'.Backed := by
  cases hp with
  | same => exact h
  | resolve => exact h.resolvePending
  | dropAll => exact fun row hrow ↦ by cases hrow
  | dropFor => exact h.dropPendingFor
  | outbound | inbound => exact h.parkPending

theorem Backed.handle (h : app.Backed) : (app.handle blake3 e wall).1.Backed := by
  obtain ⟨app', hp, heq⟩ := parks_handle blake3 app e wall
  exact (h.parks hp).of_parked heq

/-- Without a parked item of the peer clients see no row of it. -/
theorem Backed.no_row (h : app.Backed) (hp : ¬ app.HasParked p) :
    ∀ row ∈ app.state.pending, row.peerId ≠ some (hex32 p) := by
  intro row hrow heq
  obtain ⟨x, hx, -, hpeer⟩ := h row hrow
  obtain ⟨q, hq, hhex⟩ := Option.map_eq_some_iff.mp (hpeer.symm.trans heq)
  exact hp ⟨row.hash, x, hx, hq.trans (congrArg some (hex32_injective hhex))⟩

/-- What makes an event park an item of the peer. -/
def ParksFrom (app : App) (blake3 : ByteArray → ContentHash) (wall : WallClock) (p : PeerId) :
    Event → Prop
  | .frameReceivedClipboard hash kind payload preview sensitive lamport resync source =>
    source = p ∧ app.firewall.decide kind sensitive .inbound = .defer ∧
      (app.preTransition blake3 (.frameReceivedClipboard hash kind payload preview sensitive
        lamport resync source) wall).suppressAction = false ∧
      app.pendingPayloads.contains (hex32 hash) = false
  | _ => False

theorem HasParked.before (h : (app.handle blake3 e wall).1.HasParked p) :
    app.HasParked p ∨ app.ParksFrom blake3 wall p e := by
  obtain ⟨app', hp, heq⟩ := parks_handle blake3 app e wall
  obtain ⟨k, x, hx, hpeer⟩ := h.of_parked heq
  cases hp with
  | same => exact .inl ⟨k, x, hx, hpeer⟩
  | @resolve hash allow =>
    rw [App.resolvePending] at hx
    split at hx
    · exact .inl ⟨k, x, hx, hpeer⟩
    · have hx : (app.pendingPayloads.erase hash)[k]? = some x := by split at hx <;> exact hx
      rw [OrderedMap.lookup_erase] at hx
      split at hx
      · cases hx
      · exact .inl ⟨k, x, hx, hpeer⟩
  | dropAll => simp [dropPendingAll] at hx
  | dropFor => exact .inl ⟨k, x, (OrderedMap.lookup_filter.mp hx).1, hpeer⟩
  | outbound =>
    rw [App.parkPending] at hx
    split at hx
    · exact .inl ⟨k, x, hx, hpeer⟩
    · rw [OrderedMap.lookup_insert] at hx
      split at hx
      · rw [← Option.some.inj hx] at hpeer
        cases hpeer
      · exact .inl ⟨k, x, hx, hpeer⟩
  | inbound hdefer hfresh =>
    rw [App.parkPending] at hx
    split at hx
    case isTrue => exact .inl ⟨k, x, hx, hpeer⟩
    case isFalse hnew =>
      rw [OrderedMap.lookup_insert] at hx
      split at hx
      · rw [← Option.some.inj hx] at hpeer
        exact .inr ⟨Option.some.inj hpeer, hdefer, hfresh, Bool.eq_false_of_not_eq_true hnew⟩
      · exact .inl ⟨k, x, hx, hpeer⟩

theorem parked_peerRevoked : (app.handle blake3 (.peerRevoked p) wall).1.parked =
    (app.dropPendingFor p).1.parked := by
  simp only [handle, preTransition, Bool.false_eq_true, if_false]
  split <;> rfl

/-- A revoked peer has nothing parked. -/
theorem peerRevoked_drops : ¬ (app.handle blake3 (.peerRevoked p) wall).1.HasParked p := by
  intro h
  obtain ⟨k, x, hx, hpeer⟩ := h.of_parked parked_peerRevoked
  have := (OrderedMap.lookup_filter.mp hx).2
  simp [hpeer] at this

theorem manualUnpair_drops : ¬ (app.handle blake3 .manualUnpair wall).1.HasParked p := by
  rintro ⟨k, x, hx, -⟩
  have hnone : (app.handle blake3 .manualUnpair wall).1.pendingPayloads = ∅ := rfl
  simp [hnone] at hx

/-- The parked items that go with a peer are reported by their content hashes. -/
theorem postTransition_reports {pre : Prelude} (hdrop : pre.pendingDropped ≠ [])
    (hresync : pre.suppressResyncApply = false) :
    .pendingDropped pre.pendingDropped ∈ (postTransition pre e).2 := by
  have emitted {l : List Action} (h : .pendingDropped pre.pendingDropped ∈ l) :
      .pendingDropped pre.pendingDropped ∈ ensureEmit l := mem_ensureEmit.mpr (.inl h)
  simp only [postTransition, hdrop, hresync, if_false, Bool.false_eq_true]
  generalize (pre.app.applyFirewall e (transition pre.app.phase e).2) = gated
  have hbattery : .pendingDropped pre.pendingDropped ∈
      realBattery gated.1.state (gated.2 ++ [.pendingDropped pre.pendingDropped]) :=
    List.mem_filterMap.mpr ⟨.pendingDropped pre.pendingDropped, by simp, rfl⟩
  split
  · split
    · exact emitted (emitted hbattery)
    · exact emitted hbattery
  · split
    · exact emitted hbattery
    · exact hbattery

theorem peerRevoked_reports (blake3 : ByteArray → ContentHash) (wall : WallClock)
    (hx : app.pendingPayloads[k]? = some x) (hp : x.peerId = some p) :
    ∃ hashes, .pendingDropped hashes ∈ (app.handle blake3 (.peerRevoked p) wall).2 ∧
      x.hash ∈ hashes := by
  have hmem : x.hash ∈ (app.dropPendingFor p).2 :=
    List.mem_map.mpr ⟨(k, x), List.mem_filter.mpr ⟨OrderedMap.mem_entries.mpr hx, by simp [hp]⟩, rfl⟩
  have hpre : (app.preTransition blake3 (.peerRevoked p) wall).pendingDropped =
      (app.dropPendingFor p).2 ∧
      (app.preTransition blake3 (.peerRevoked p) wall).suppressResyncApply = false ∧
      (app.preTransition blake3 (.peerRevoked p) wall).suppressAction = false := by
    simp only [preTransition]
    split <;> exact ⟨rfl, rfl, rfl⟩
  obtain ⟨hdrop, hresync, hfresh⟩ := hpre
  refine ⟨_, ?_, hmem⟩
  have hpost := postTransition_reports (e := .peerRevoked p) (hdrop ▸ List.ne_nil_of_mem hmem) hresync
  rw [hdrop] at hpost
  simpa only [handle, hfresh, Bool.false_eq_true, if_false] using hpost

end App

end FluxSync
