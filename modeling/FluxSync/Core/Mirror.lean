import FluxSync.Core.Parking

namespace FluxSync.App

open Std Runs

variable {blake3 : ByteArray → ContentHash} {app app' : App} {e : Event} {wall : WallClock}
  {policy : FirewallPolicy} {l : List Call} {c : Call} {p : PeerId} {dir : Direction} {kind : Kind}
  {sensitive : Bool} {hash : ContentHash} {payload : ByteArray} {preview : String}
  {peerId : Option PeerId} {row : PendingItem} {x : PendingPayload}

/-- The row is the public face of the payload. -/
structure Shows (row : PendingItem) (x : PendingPayload) : Prop where
  hash : row.hash = hex32 x.hash
  kind : row.kind = x.kind
  direction : row.direction = x.direction
  sensitive : row.sensitive = x.sensitive
  peerId : row.peerId = x.peerId.map hex32

/-- The rows that clients see and the payloads kept from them are of the same items. -/
structure Mirrored (app : App) : Prop where
  nodup : (app.state.pending.map (·.hash)).Nodup
  keys : ∀ k, k ∈ app.state.pending.map (·.hash) ↔ k ∈ app.pendingPayloads
  shows : ∀ row ∈ app.state.pending, ∀ x, app.pendingPayloads[row.hash]? = some x → Shows row x

theorem Mirrored.of_parked (h : app'.Mirrored) (hp : app.parked = app'.parked) : app.Mirrored := by
  obtain ⟨hrows, hpay⟩ := Prod.mk.inj hp
  constructor
  · rw [hrows]
    exact h.nodup
  · rw [hrows, hpay]
    exact h.keys
  · rw [hrows, hpay]
    exact h.shows

/-- Whatever drops a row by its hash and the payload with it keeps the rest in step. -/
theorem Mirrored.restrict (h : app.Mirrored) (keep : String → Bool)
    (hrows : app'.state.pending = app.state.pending.filter (keep ·.hash))
    (hpay : ∀ k, app'.pendingPayloads[k]? = if keep k then app.pendingPayloads[k]? else none) :
    app'.Mirrored := by
  constructor
  · rw [hrows]
    exact h.nodup.sublist (List.filter_sublist.map _)
  · intro k
    rw [hrows, ExtTreeMap.mem_iff_isSome_getElem?, hpay]
    have hkept : k ∈ (app.state.pending.filter (keep ·.hash)).map (·.hash) ↔
        k ∈ app.state.pending.map (·.hash) ∧ keep k := by
      simp only [List.mem_map, List.mem_filter]
      constructor
      · rintro ⟨row, ⟨hrow, hk⟩, rfl⟩
        exact ⟨⟨row, hrow, rfl⟩, hk⟩
      · rintro ⟨⟨row, hrow, rfl⟩, hk⟩
        exact ⟨row, ⟨hrow, hk⟩, rfl⟩
    rw [hkept, h.keys, ExtTreeMap.mem_iff_isSome_getElem?]
    by_cases hk : keep k <;> simp [hk]
  · intro row hrow x hx
    rw [hrows] at hrow
    obtain ⟨hrow, hk⟩ := List.mem_filter.mp hrow
    rw [hpay, if_pos hk] at hx
    exact h.shows row hrow x hx

theorem Mirrored.parkPending (h : app.Mirrored) :
    (app.parkPending dir kind sensitive hash payload preview peerId).Mirrored := by
  rw [App.parkPending]
  split
  case isTrue => exact h
  case isFalse hnew =>
    have hfresh : hex32 hash ∉ app.pendingPayloads := mt ExtTreeMap.contains_iff_mem.mpr hnew
    have hrow : hex32 hash ∉ app.state.pending.map (·.hash) := mt (h.keys _).mp hfresh
    constructor
    · rw [List.map_append]
      refine h.nodup.append (List.nodup_singleton _) ?_
      intro k hk hk'
      rw [List.mem_singleton.mp hk'] at hk
      exact hrow hk
    · intro k
      rw [List.map_append, List.mem_append, h.keys, ExtTreeMap.mem_insert,
        LawfulEqCmp.compare_eq_iff_eq, or_comm]
      simp [eq_comm]
    · intro row hmem x hx
      rw [OrderedMap.lookup_insert] at hx
      rcases List.mem_append.mp hmem with hmem | hmem
      · have hne : hex32 hash ≠ row.hash := fun heq ↦ hrow (heq ▸ List.mem_map_of_mem hmem)
        rw [if_neg hne] at hx
        exact h.shows row hmem x hx
      · rw [List.mem_singleton.mp hmem] at hx ⊢
        rw [if_pos rfl] at hx
        cases hx
        exact ⟨rfl, rfl, rfl, rfl, rfl⟩

theorem Mirrored.resolvePending {key : String} {allow : Bool} (h : app.Mirrored) :
    (app.resolvePending key allow).1.Mirrored := by
  have hkeep (k : String) : (if k != key then app.pendingPayloads[k]? else none) =
      if key = k then none else app.pendingPayloads[k]? := by
    by_cases hk : key = k
    · simp [hk]
    · simp [hk, Ne.symm hk]
  rw [App.resolvePending]
  split
  case h_1 hnone =>
    refine h.restrict (· != key) rfl fun k ↦ ?_
    rw [hkeep]
    split
    case isTrue hk => rw [← hk, hnone]
    case isFalse => rfl
  case h_2 =>
    have herase : ({ app with
        state := { app.state with pending := app.state.pending.filter (·.hash != key) }
        pendingPayloads := app.pendingPayloads.erase key } : App).Mirrored :=
      h.restrict (· != key) rfl fun k ↦ by rw [hkeep, OrderedMap.lookup_erase]
    split <;> exact herase

/-- The keys that a drop of the peer's items takes. -/
def dropKeys (app : App) (p : PeerId) : List String :=
  (app.pendingPayloads.toList.filter (·.2.peerId == some p)).map Prod.fst

theorem mem_dropKeys {k : String} :
    k ∈ app.dropKeys p ↔ ∃ x, app.pendingPayloads[k]? = some x ∧ x.peerId = some p := by
  simp only [dropKeys, List.mem_map, List.mem_filter, Prod.exists, OrderedMap.mem_entries,
    beq_iff_eq]
  constructor
  · rintro ⟨_, x, hx, rfl⟩
    exact ⟨x, hx⟩
  · rintro ⟨x, hx⟩
    exact ⟨k, x, hx, rfl⟩

theorem Mirrored.dropPendingFor (h : app.Mirrored) : (app.dropPendingFor p).1.Mirrored := by
  refine h.restrict (fun k ↦ !(app.dropKeys p).contains k) rfl fun k ↦ ?_
  ext x
  rw [App.dropPendingFor, OrderedMap.lookup_filter, List.contains_eq_mem]
  by_cases hk : k ∈ app.dropKeys p
  · obtain ⟨y, hy, hpeer⟩ := mem_dropKeys.mp hk
    simp only [hy, Option.some.injEq, hk, decide_true, Bool.not_true, Bool.false_eq_true, if_false,
      reduceCtorEq, iff_false, not_and]
    rintro rfl
    simp [hpeer]
  · simp only [hk, decide_false, Bool.not_false, if_true, and_iff_left_iff_imp]
    intro hx
    have hpeer : x.peerId ≠ some p := fun hp ↦ hk (mem_dropKeys.mpr ⟨x, hx, hp⟩)
    simpa using hpeer

theorem Mirrored.parks (h : app.Mirrored) (hp : app.Parks blake3 wall e app') : app'.Mirrored := by
  cases hp with
  | same => exact h
  | resolve => exact h.resolvePending
  | dropAll => exact h.restrict (fun _ ↦ false) (by simp [dropPendingAll]) (by simp [dropPendingAll])
  | dropFor => exact h.dropPendingFor
  | outbound | inbound => exact h.parkPending

theorem parked_call (hc : ∀ e wall, c ≠ .handle e wall) :
    (app.call blake3 c).1.parked = app.parked := by
  have hl : (app.call blake3 c).1.lasting.parked = app.lasting.parked := by
    rw [call_lasting blake3 app hc]
  exact hl

theorem mirrored (h : Run (step blake3) Always (.new policy) l app) : app.Mirrored := by
  apply h.invariant
  · constructor <;> simp [App.new]
  · intro app c app' hi _ hs
    cases hs
    by_cases hc : ∃ e wall, c = .handle e wall
    · rcases hc with ⟨e, wall, rfl⟩
      obtain ⟨app', hp, heq⟩ := parks_handle blake3 app e wall
      exact (hi.parks hp).of_parked heq
    · exact hi.of_parked (parked_call fun e wall h ↦ hc ⟨e, wall, h⟩)

/-- A row is of the peer exactly when its payload is. -/
theorem Mirrored.row_of_peer (h : app.Mirrored) (hrow : row ∈ app.state.pending) :
    row.peerId = some (hex32 p) ↔
      ∃ x, app.pendingPayloads[row.hash]? = some x ∧ x.peerId = some p := by
  obtain ⟨x, hx⟩ : ∃ x, app.pendingPayloads[row.hash]? = some x := by
    apply Option.isSome_iff_exists.mp
    rw [← ExtTreeMap.mem_iff_isSome_getElem?, ← h.keys]
    exact List.mem_map_of_mem hrow
  rw [(h.shows row hrow x hx).peerId]
  constructor
  · intro hp
    obtain ⟨q, hq, hhex⟩ := Option.map_eq_some_iff.mp hp
    exact ⟨x, hx, hq.trans (congrArg some (hex32_injective hhex))⟩
  · rintro ⟨y, hy, hp⟩
    cases hx.symm.trans hy
    rw [hp, Option.map_some]

theorem Mirrored.dropPendingFor_rows (h : app.Mirrored) :
    (app.dropPendingFor p).1.state.pending =
      app.state.pending.filter (·.peerId ≠ some (hex32 p)) := by
  apply List.filter_congr
  intro row hrow
  have hpeer := h.row_of_peer (p := p) hrow
  rw [← mem_dropKeys] at hpeer
  simp [show (app.pendingPayloads.toList.filter (·.2.peerId == some p)).map Prod.fst =
    app.dropKeys p from rfl, List.contains_eq_mem, hpeer]

/-- The hashes returned are those of the rows removed, each once. -/
theorem Mirrored.dropPendingFor_hashes (h : app.Mirrored) :
    ((app.dropPendingFor p).2.map hex32).Perm
      ((app.state.pending.filter (·.peerId = some (hex32 p))).map (·.hash)) := by
  have hkeys : (app.dropPendingFor p).2.map hex32 = app.dropKeys p := by
    rw [App.dropPendingFor, dropKeys, List.map_map]
    apply List.map_congr_left
    rintro ⟨k, x⟩ hmem
    have hx := OrderedMap.mem_entries.mp (List.mem_filter.mp hmem).1
    obtain ⟨row, hrow, rfl⟩ : ∃ row ∈ app.state.pending, row.hash = k := by
      apply List.mem_map.mp
      rw [h.keys, ExtTreeMap.mem_iff_isSome_getElem?, hx]
      rfl
    exact (h.shows row hrow x hx).hash.symm
  rw [hkeys]
  have hdrop : (app.dropKeys p).Nodup := OrderedMap.filtered_keys_nodup _
  apply (List.perm_ext_iff_of_nodup hdrop
    (h.nodup.sublist (List.filter_sublist.map _))).mpr
  intro k
  rw [mem_dropKeys]
  simp only [List.mem_map, List.mem_filter, decide_eq_true_eq]
  constructor
  · rintro ⟨x, hx, hp⟩
    obtain ⟨row, hrow, rfl⟩ : ∃ row ∈ app.state.pending, row.hash = k := by
      apply List.mem_map.mp
      rw [h.keys, ExtTreeMap.mem_iff_isSome_getElem?, hx]
      rfl
    exact ⟨row, ⟨hrow, (h.row_of_peer hrow).mpr ⟨x, hx, hp⟩⟩, rfl⟩
  · rintro ⟨row, ⟨hrow, hp⟩, rfl⟩
    exact (h.row_of_peer hrow).mp hp

/-- The parked rows mirror the parked payloads in every state, and a peer's are dropped together. -/
theorem pending_mirrors (hr : Run (step blake3) Always (.new policy) l app) :
    app.Mirrored ∧ ∀ p, (app.dropPendingFor p).1.Mirrored ∧
      (app.dropPendingFor p).1.state.pending =
        app.state.pending.filter (·.peerId ≠ some (hex32 p)) ∧
      ((app.dropPendingFor p).2.map hex32).Perm
        ((app.state.pending.filter (·.peerId = some (hex32 p))).map (·.hash)) :=
  ⟨mirrored hr, fun _ ↦ ⟨(mirrored hr).dropPendingFor, (mirrored hr).dropPendingFor_rows,
    (mirrored hr).dropPendingFor_hashes⟩⟩

/-- One item of the user and one of the peer are held back. -/
def askTwice : List Call :=
  .setFirewall { enabled := true, text := .ask } :: link ++
    [copy, .handle (.frameReceivedClipboard 8 .text ⟨#[105]⟩ "i" false 0 false 1) noon]

theorem pending_mirrors_askTwice :
    ∃ app, Run (step fun _ ↦ 0) Always (.new {}) askTwice app ∧
      app.state.pending.length = 2 ∧ app.Mirrored ∧ ∀ p, (app.dropPendingFor p).1.Mirrored ∧
        (app.dropPendingFor p).1.state.pending =
          app.state.pending.filter (·.peerId ≠ some (hex32 p)) ∧
        ((app.dropPendingFor p).2.map hex32).Perm
          ((app.state.pending.filter (·.peerId = some (hex32 p))).map (·.hash)) := by
  have hrun : Run (step fun _ ↦ 0) Always (.new {}) askTwice _ := run_of_isSome (by decide +kernel)
  exact ⟨_, hrun, by decide +kernel, pending_mirrors hrun⟩

end FluxSync.App
