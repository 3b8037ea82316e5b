import FluxSync.Core.Bounds

namespace FluxSync.App

open Std Runs

variable {blake3 : ByteArray → ContentHash} {app u : App} {e : Event} {wall : WallClock}
  {policy : FirewallPolicy} {c : Call} {x : HistoryItem} {l : List HistoryItem}
  {calls : List Call} {key : String} {n : ℕ}

def Held (l : List HistoryItem) (key : String) : Prop := ∃ h ∈ l, h.hash = key

/-- The delivered markers are of rows on the list, and no row lists a device twice. -/
def MarkersFit (app : App) : Prop :=
  (∀ key ∈ app.state.delivered, Held app.state.history key) ∧
    ∀ (key : String) (devices : List String),
      app.state.delivered[key]? = some devices → devices.Nodup

/-- A row of the hash is a favorite or among the first rows that are none. -/
def Retained (n : ℕ) (l : List HistoryItem) (key : String) : Prop :=
  ∃ l₁ h l₂, l = l₁ ++ h :: l₂ ∧ h.hash = key ∧ (h.favorite ∨ l₁.countP (!·.favorite) < n)

/-- A row that an expiry keeps. -/
def unexpired (secs nowMs : UInt64) (h : HistoryItem) : Bool :=
  secs == 0 || h.favorite || h.createdMs == 0 ||
    saturatingSub nowMs h.createdMs ≤ saturatingMul secs 1000

/-- The call leaves a row of the hash on the list. -/
def Spares (blake3 : ByteArray → ContentHash) (app : App) (key : String) : Call → Prop
  | .handle (.clearHistory includeFavorites) _ =>
    includeFavorites = false ∧ ∃ h ∈ app.state.history, h.hash = key ∧ h.favorite
  | .handle e wall =>
    app.wipes e = false ∧ ∀ x, app.admitted blake3 e wall = some x →
      Retained HISTORY_SOFT_CAP (onTop app.state.history x) key
  | .setHistoryRetention secs nowMs =>
    secs ∈ HISTORY_RETENTION_CHOICES →
      ∃ h ∈ app.state.history, h.hash = key ∧ unexpired secs nowMs h
  | .expireHistory nowMs =>
    ∃ h ∈ app.state.history, h.hash = key ∧ unexpired app.state.historyRetentionSecs nowMs h
  | .restoreHistory items => Retained HISTORY_SOFT_CAP items key
  | _ => True

/-- Every hash with a delivered marker keeps a row. -/
def SparesMarked (blake3 : ByteArray → ContentHash) (app : App) (c : Call) : Prop :=
  ∀ key ∈ app.state.delivered, app.Spares blake3 key c

theorem retained_of_held (hh : Held (keepNonFavorites n l) key) : Retained n l key := by
  induction l generalizing n with
  | nil =>
    obtain ⟨h, hm, -⟩ := hh
    cases keepNonFavorites_sublist.subset hm
  | cons g l ih =>
    by_cases hg : g.favorite
    · rw [keepNonFavorites_favorite hg] at hh
      obtain ⟨h, hm, hkey⟩ := hh
      obtain rfl | hm := List.mem_cons.mp hm
      · exact ⟨[], h, l, rfl, hkey, .inl hg⟩
      · obtain ⟨l₁, h, l₂, rfl, hkey, hk⟩ := ih ⟨h, hm, hkey⟩
        exact ⟨g :: l₁, h, l₂, rfl, hkey, by simpa [hg] using hk⟩
    · cases n with
      | zero =>
        rw [keepNonFavorites_zero hg] at hh
        obtain ⟨l₁, h, l₂, rfl, hkey, hk⟩ := ih hh
        exact ⟨g :: l₁, h, l₂, rfl, hkey, .inl (hk.resolve_right (Nat.not_lt_zero _))⟩
      | succ n =>
        rw [keepNonFavorites_succ hg] at hh
        obtain ⟨h, hm, hkey⟩ := hh
        obtain rfl | hm := List.mem_cons.mp hm
        · exact ⟨[], h, l, rfl, hkey, .inr (by simp)⟩
        · obtain ⟨l₁, h, l₂, rfl, hkey, hk⟩ := ih ⟨h, hm, hkey⟩
          refine ⟨g :: l₁, h, l₂, rfl, hkey, hk.imp_right fun hlt ↦ ?_⟩
          rw [List.countP_cons_of_pos (by simpa using hg)]
          omega

/-- A row with fewer than `n` others above it that are no favorites is kept. -/
theorem mem_keepNonFavorites_append {h : HistoryItem} {l₁ l₂ : List HistoryItem}
    (hlt : l₁.countP (!·.favorite) < n) : h ∈ keepNonFavorites n (l₁ ++ h :: l₂) := by
  induction l₁ generalizing n with
  | nil =>
    rw [List.nil_append]
    by_cases hfav : h.favorite
    · rw [keepNonFavorites_favorite hfav]
      exact .head _
    · obtain ⟨n, rfl⟩ := Nat.exists_eq_succ_of_ne_zero (Nat.ne_zero_of_lt hlt)
      rw [keepNonFavorites_succ hfav]
      exact .head _
  | cons g l₁ ih =>
    rw [List.cons_append]
    by_cases hg : g.favorite
    · rw [keepNonFavorites_favorite hg]
      rw [List.countP_cons_of_neg (by simp [hg])] at hlt
      exact .tail g (ih hlt)
    · rw [List.countP_cons_of_pos (by simpa using hg)] at hlt
      obtain ⟨n, rfl⟩ := Nat.exists_eq_succ_of_ne_zero (Nat.ne_zero_of_lt hlt)
      rw [keepNonFavorites_succ hg]
      exact .tail g (ih (Nat.lt_of_succ_lt_succ hlt))

theorem held_keepNonFavorites : Held (keepNonFavorites n l) key ↔ Retained n l key := by
  constructor
  · exact retained_of_held
  · rintro ⟨l₁, h, l₂, rfl, hkey, hfav | hlt⟩
    · exact ⟨h, mem_keepNonFavorites (by simp) hfav, hkey⟩
    · exact ⟨h, mem_keepNonFavorites_append hlt, hkey⟩

theorem held_pushHistory :
    Held (app.pushHistory x).state.history key ↔
      Retained HISTORY_SOFT_CAP (onTop app.state.history x) key := by
  rw [pushHistory_history]
  split
  · exact held_keepNonFavorites
  · rename_i hlen
    constructor
    · rintro ⟨h, hm, hkey⟩
      obtain ⟨l₁, l₂, heq⟩ := List.append_of_mem hm
      refine ⟨l₁, h, l₂, heq, hkey, .inr ?_⟩
      have hcount : l₁.countP (!·.favorite) ≤ l₁.length := List.countP_le_length
      rw [heq, List.length_append, List.length_cons] at hlen
      omega
    · rintro ⟨l₁, h, l₂, heq, hkey, -⟩
      exact ⟨h, by simp [heq], hkey⟩

theorem held_pinned {hash : String} {favorite : Bool} :
    Held (pinned l hash favorite) key ↔ Held l key := by
  simp only [Held, pinned, List.mem_map]
  constructor
  · rintro ⟨h, ⟨g, hm, rfl⟩, hkey⟩
    refine ⟨g, hm, ?_⟩
    split at hkey <;> exact hkey
  · rintro ⟨g, hm, hkey⟩
    refine ⟨_, ⟨g, hm, rfl⟩, ?_⟩
    split <;> exact hkey

theorem expireHistory_history {nowMs : UInt64} :
    (app.expireHistory nowMs).1.state.history =
      app.state.history.filter (unexpired app.state.historyRetentionSecs nowMs) := by
  rw [expireHistory]
  split
  · rename_i hsecs
    exact (List.filter_eq_self.mpr fun h _ ↦ by simp [unexpired, hsecs]).symm
  · rename_i hsecs
    apply List.filter_congr
    intro h _
    rw [unexpired, beq_false_of_ne hsecs, Bool.false_or]

theorem held_expireHistory {nowMs : UInt64} : Held (app.expireHistory nowMs).1.state.history key ↔
    ∃ h ∈ app.state.history, h.hash = key ∧ unexpired app.state.historyRetentionSecs nowMs h := by
  rw [expireHistory_history]
  simp only [Held, List.mem_filter]
  constructor
  · rintro ⟨h, ⟨hm, hu⟩, hkey⟩
    exact ⟨h, hm, hkey, hu⟩
  · rintro ⟨h, hm, hkey, hu⟩
    exact ⟨h, ⟨hm, hu⟩, hkey⟩

theorem held_handle (hheld : Held app.state.history key) :
    Held (app.handle blake3 e wall).1.state.history key ↔ app.Spares blake3 key (.handle e wall) := by
  rw [history_handle]
  by_cases hc : ∃ includeFavorites, e = .clearHistory includeFavorites
  · obtain ⟨includeFavorites, rfl⟩ := hc
    cases includeFavorites with
    | true => simp [historyAfter, Spares, Held]
    | false =>
      simp only [historyAfter, Spares, Held, List.mem_filter, Bool.false_eq_true, if_false,
        true_and]
      constructor
      · rintro ⟨h, ⟨hm, hfav⟩, hkey⟩
        exact ⟨h, hm, hkey, hfav⟩
      · rintro ⟨h, hm, hkey, hfav⟩
        exact ⟨h, ⟨hm, hfav⟩, hkey⟩
  by_cases hf : ∃ hash favorite, e = .setFavorite hash favorite
  · obtain ⟨hash, favorite, rfl⟩ := hf
    rw [historyAfter, held_pinned]
    exact iff_of_true hheld ⟨rfl, fun x hx ↦ by cases hx⟩
  have hspares : app.Spares blake3 key (.handle e wall) ↔
      app.wipes e = false ∧ ∀ x, app.admitted blake3 e wall = some x →
        Retained HISTORY_SOFT_CAP (onTop app.state.history x) key := by
    cases e with
    | clearHistory includeFavorites => exact absurd ⟨includeFavorites, rfl⟩ hc
    | _ => rfl
  rw [hspares, historyAfter_other (fun hash favorite h ↦ hf ⟨hash, favorite, h⟩)
    fun i h ↦ hc ⟨i, h⟩]
  cases hw : app.wipes e with
  | true => simp [Held]
  | false =>
    cases hx : app.admitted blake3 e wall with
    | none => simp [hheld]
    | some x => simp [held_pushHistory]

theorem delivered_gateItem {dir : Direction} {kind : Kind} {sensitive : Bool} {hash : ContentHash}
    {payload : ByteArray} {preview : String} {peerId : Option PeerId} {actions : List Action} :
    (app.gateItem dir kind sensitive hash payload preview peerId actions).1.state.delivered =
      app.state.delivered := by
  rw [gateItem]
  split
  · rfl
  · rfl
  · rw [parkPending]
    split <;> rfl

theorem delivered_preTransition :
    (app.preTransition blake3 e wall).app.state.delivered = app.state.delivered := by
  cases e with
  | localClipboardChange | frameReceivedClipboard =>
    simp only [preTransition]
    (repeat' split) <;> rfl
  | _ =>
    first
    | rfl
    | simp only [preTransition]
      (repeat' split) <;> rfl

theorem delivered_postTransition {p : Prelude} :
    (postTransition p e).1.state.delivered = p.app.state.delivered := by
  cases e with
  | localClipboardChange | frameReceivedClipboard => exact delivered_gateItem
  | _ => rfl

theorem delivered_handle : (app.handle blake3 e wall).1.state.delivered = app.state.delivered := by
  by_cases he : ∃ hash allow, e = .resolvePending hash allow
  · obtain ⟨hash, allow, rfl⟩ := he
    rw [handle, resolvePending]
    split
    · rfl
    · split <;> rfl
  obtain h | ⟨h, -⟩ | h := handle_cases blake3 app wall fun hash allow h ↦ he ⟨hash, allow, h⟩
  · rw [h]
  · rw [h, delivered_preTransition]
  · rw [h, delivered_postTransition, delivered_preTransition]

theorem delivered_expireHistory {nowMs : UInt64} :
    (app.expireHistory nowMs).1.state.delivered = app.state.delivered := by
  rw [expireHistory]
  split <;> rfl

theorem markersFit_insert {hash : String} {m : ExtTreeMap String (List String)}
    {devices : List String} (hrow : Held app.state.history hash)
    (hm : ∀ (key : String) (devices : List String), m[key]? = some devices →
      Held app.state.history key ∧ devices.Nodup) (hd : devices.Nodup) :
    ({ app with state := { app.state with delivered := m.insert hash devices } } : App).MarkersFit := by
  have hboth (key : String) (ds : List String) (h : (m.insert hash devices)[key]? = some ds) :
      Held app.state.history key ∧ ds.Nodup := by
    rw [OrderedMap.lookup_insert] at h
    split at h
    · rename_i hkey
      obtain rfl := Option.some.inj h
      exact ⟨hkey ▸ hrow, hd⟩
    · exact hm key ds h
  constructor
  · intro key hk
    obtain ⟨ds, hds⟩ := Option.isSome_iff_exists.mp (ExtTreeMap.isSome_getElem?_iff_mem.mpr hk)
    exact (hboth key ds hds).1
  · exact fun key ds h ↦ (hboth key ds h).2

/-- An acknowledgement lists a device once and leaves only markers of rows on the list. -/
theorem MarkersFit.markDelivered (hi : app.MarkersFit) (hash : ContentHash) (device : String) :
    (app.markDelivered hash device).1.MarkersFit := by
  simp only [App.markDelivered]
  split
  · exact hi
  · rename_i hmem
    have hrow : Held app.state.history (hex32 hash) := by simpa [Held] using hmem
    have hkept (key : String) (devices : List String)
        (h : (app.state.delivered.filter fun k _ ↦ app.state.history.any (·.hash == k))[key]? =
          some devices) : Held app.state.history key ∧ devices.Nodup := by
      obtain ⟨hmem, hany⟩ := OrderedMap.lookup_filter.mp h
      exact ⟨by simpa [Held] using hany, hi.2 _ _ hmem⟩
    have hlisted : ((app.state.delivered.filter fun k _ ↦
        app.state.history.any (·.hash == k))[hex32 hash]?.getD []).Nodup := by
      cases hd : (app.state.delivered.filter fun k _ ↦
          app.state.history.any (·.hash == k))[hex32 hash]? with
      | none => exact .nil
      | some devices => exact (hkept _ _ hd).2
    split
    · exact markersFit_insert hrow hkept hlisted
    · rename_i hnew
      refine markersFit_insert hrow hkept (List.nodup_append.mpr ⟨hlisted, by simp, ?_⟩)
      intro a ha b hb
      rw [List.mem_singleton.mp hb]
      rintro rfl
      exact hnew ha

theorem MarkersFit.call_iff (hi : app.MarkersFit) (c : Call) :
    (app.call blake3 c).1.MarkersFit ↔ app.SparesMarked blake3 c := by
  have hsame {u : App} (hd : u.state.delivered = app.state.delivered)
      (hh : ∀ key ∈ app.state.delivered, Held u.state.history key ↔ app.Spares blake3 key c) :
      u.MarkersFit ↔ app.SparesMarked blake3 c := by
    rw [MarkersFit, hd, and_iff_left hi.2]
    exact forall₂_congr hh
  cases c with
  | handle e wall => exact hsame delivered_handle fun key hk ↦ held_handle (hi.1 key hk)
  | setFirewall policy => exact hsame rfl fun key hk ↦ iff_of_true (hi.1 key hk) trivial
  | setHistoryRetention secs nowMs =>
    rw [call, setHistoryRetention]
    split
    · rename_i hsecs
      refine hsame delivered_expireHistory fun key hk ↦ ?_
      rw [Option.getD_some, held_expireHistory]
      exact ⟨fun h _ ↦ h, fun h ↦ h hsecs⟩
    · rename_i hsecs
      exact hsame rfl fun key hk ↦ iff_of_true (hi.1 key hk) fun h ↦ absurd h hsecs
  | expireHistory nowMs => exact hsame delivered_expireHistory fun key hk ↦ held_expireHistory
  | markDelivered hash device =>
    exact iff_of_true (hi.markDelivered hash device) fun _ _ ↦ trivial
  | setOtherLinkedPeers peers => exact hsame rfl fun key hk ↦ iff_of_true (hi.1 key hk) trivial
  | restoreHistory items => exact hsame rfl fun key hk ↦ held_keepNonFavorites

theorem markersFit_new (policy : FirewallPolicy) : (new policy).MarkersFit := by
  simp [MarkersFit, new]

/-- The delivered markers refer to the history in every state of a run exactly
when each of its calls leaves every marked hash a row. -/
theorem markers_fit_iff (hr : Run (step blake3) Always (.new policy) calls app) :
    (∀ l' t, l' <+: calls → Run (step blake3) Always (.new policy) l' t → t.MarkersFit) ↔
      Run (step blake3) (SparesMarked blake3) (.new policy) calls app := by
  apply run_guarded_iff (markersFit_new policy) ?_ hr
  intro t c u ht hu
  cases hu
  exact ht.call_iff c

/-- A copy that a device acknowledged goes with the whole list. -/
def ackThenClear : List Call :=
  [copy, .markDelivered 7 "Pixel", .handle (.clearHistory true) noon]

theorem markers_fit_iff_ackThenClear : ∃ app,
    (∀ l' t, l' <+: ackThenClear → Run (step fun _ ↦ 0) Always (.new {}) l' t → t.MarkersFit) ↔
      Run (step fun _ ↦ 0) (SparesMarked fun _ ↦ 0) (.new {}) ackThenClear app :=
  ⟨_, markers_fit_iff (run_of_isSome (by decide +kernel))⟩

theorem marker_outlives_row : ∃ app, Run (step fun _ ↦ 0) Always (.new {}) ackThenClear app ∧
    app.state.history = [] ∧ app.state.delivered[hex32 7]? = some ["Pixel"] ∧ ¬ app.MarkersFit := by
  obtain ⟨app, hrun, hempty, hmark⟩ :
      ∃ app, Run (step fun _ ↦ 0) Always (.new {}) ackThenClear app ∧
        app.state.history = [] ∧ app.state.delivered[hex32 7]? = some ["Pixel"] :=
    ⟨_, run_of_isSome (by decide +kernel), by decide +kernel⟩
  refine ⟨app, hrun, hempty, hmark, fun hfit ↦ ?_⟩
  have hmem : hex32 7 ∈ app.state.delivered :=
    ExtTreeMap.isSome_getElem?_iff_mem.mp (Option.isSome_of_eq_some hmark)
  obtain ⟨h, hm, -⟩ := hfit.1 (hex32 7) hmem
  rw [hempty] at hm
  cases hm

end FluxSync.App
