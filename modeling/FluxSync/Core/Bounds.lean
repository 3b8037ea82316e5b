import FluxSync.Core.History
import FluxSync.Foundation.Recency

namespace FluxSync

open Std Runs Recency

/-- What makes two rows the same. -/
abbrev RowKey := String × Kind × String

def HistoryItem.key (h : HistoryItem) : RowKey := (h.hash, h.kind, h.preview)

namespace App

variable {blake3 : ByteArray → ContentHash} {app app' : App} {e : Event} {wall : WallClock}
  {policy : FirewallPolicy} {c : Call} {x h : HistoryItem} {l items : List HistoryItem}
  {log : List RowKey}

theorem same_iff_key {a b : HistoryItem} : a.same b ↔ a.key = b.key := by
  rw [HistoryItem.same_iff, HistoryItem.key, HistoryItem.key, Prod.mk.injEq, Prod.mk.injEq]

theorem distinct_iff : Distinct l ↔ (l.map HistoryItem.key).Nodup := by
  rw [Distinct, List.Nodup, List.pairwise_map]
  simp only [same_iff_key]

/-- The history after an event, row by row. -/
def historyAfter (blake3 : ByteArray → ContentHash) (app : App) (wall : WallClock) (e : Event) :
    List HistoryItem :=
  match e with
  | .setFavorite hash favorite => pinned app.state.history hash favorite
  | .clearHistory includeFavorites =>
    if includeFavorites then [] else app.state.history.filter (·.favorite)
  | e =>
    if app.wipes e then []
    else
      match app.admitted blake3 e wall with
      | some x => (app.pushHistory x).state.history
      | none => app.state.history

theorem preTransition_peerSeen (blake3 : ByteArray → ContentHash) (wall : WallClock) {q : PeerId}
    (name : String) (hm : app.isPeerMismatch q = false) :
    (app.preTransition blake3 (.peerSeen q name) wall).suppressAction = false ∧
      (app.preTransition blake3 (.peerSeen q name) wall).app.state.history =
        if app.wipes (.peerSeen q name) then [] else app.state.history := by
  have hother : ({ app with state := { app.state with peerName := name } } : App).otherPeersLinked =
      app.otherPeersLinked := rfl
  simp only [preTransition, wipes, hm, hother, Bool.not_false, Bool.true_and]
  split
  case isTrue hq => simp [hq]
  case isFalse hq =>
    split
    case isTrue hlast =>
      split
      case isTrue hlinked => simp [hlinked, dropPendingFor]
      case isFalse hlinked =>
        have hw : (q != 0 && app.lastPairedPeerId != 0 && q != app.lastPairedPeerId &&
            !app.otherPeersLinked) = true := by
          simp only [Bool.and_eq_true, bne_iff_ne, Bool.not_eq_true']
          exact ⟨⟨⟨hq, hlast.1⟩, hlast.2⟩, Bool.eq_false_of_not_eq_true hlinked⟩
        rw [if_pos hw]
        exact ⟨rfl, rfl⟩
    case isFalse hlast =>
      rw [not_and_or, not_not, not_not] at hlast
      rcases hlast with hlast | hlast <;> simp [hlast]

theorem history_peerSeen {q : PeerId} {name : String} :
    (app.handle blake3 (.peerSeen q name) wall).1.state.history =
      if app.wipes (.peerSeen q name) then [] else app.state.history := by
  cases hm : app.isPeerMismatch q with
  | true => simp [handle, wipes, hm]
  | false =>
    obtain ⟨hfresh, hhistory⟩ := preTransition_peerSeen blake3 wall name hm
    simp only [handle, hm, hfresh, Bool.false_eq_true, if_false]
    rw [← hhistory]
    rfl

theorem history_handle :
    (app.handle blake3 e wall).1.state.history = app.historyAfter blake3 wall e := by
  have hpre (he : ∀ hash allow, e ≠ .resolvePending hash allow)
      (hs : ∀ q name, e ≠ .peerSeen q name) : (app.handle blake3 e wall).1.state.history =
        (app.preTransition blake3 e wall).app.state.history :=
    congrArg Prod.fst (recorded_handle he hs)
  cases e with
  | peerSeen q name =>
    rw [history_peerSeen]
    rfl
  | resolvePending hash allow =>
    rw [handle, resolvePending]
    split
    · rfl
    · split <;> rfl
  | setFavorite hash favorite =>
    exact congrArg Prod.fst (recorded_edit blake3 app wall (.pin hash favorite))
  | localClipboardChange hash kind payload preview sensitive lamport =>
    exact congrArg Prod.fst
      (recorded_edit blake3 app wall (.copy hash kind payload preview sensitive lamport))
  | frameReceivedClipboard hash kind payload preview sensitive lamport resync p =>
    exact congrArg Prod.fst
      (recorded_edit blake3 app wall (.arrive hash kind payload preview sensitive lamport resync p))
  | clearHistory includeFavorites =>
    rw [hpre (by simp) (by simp)]
    rfl
  | _ =>
    rw [hpre (by simp) (by simp)]
    simp only [preTransition]
    (repeat' split) <;> rfl

/-- The keys that are put into the history, newest first; a restored list starts anew. -/
def insertions (blake3 : ByteArray → ContentHash) (app : App) (c : Call) (log : List RowKey) :
    List RowKey :=
  match c with
  | .handle e wall =>
    match app.admitted blake3 e wall with
    | some x => x.key :: log
    | none => log
  | .restoreHistory items => items.map HistoryItem.key
  | _ => log

def logged (blake3 : ByteArray → ContentHash) : App × List RowKey → Call → Option (App × List RowKey) :=
  monitored (step blake3) (insertions blake3)

/-- What a list of rows has to satisfy on its own. -/
structure Bounded (l : List HistoryItem) : Prop where
  cap : l.countP (!·.favorite) ≤ HISTORY_SOFT_CAP
  distinct : (l.map HistoryItem.key).Nodup

/-- The rows of the history, each once, in the order of their last insertions. -/
structure Kept (l : List HistoryItem) (log : List RowKey) : Prop extends Bounded l where
  order : (l.map HistoryItem.key).Sublist (latest id log)

theorem Kept.sublist {l' : List HistoryItem} (hk : Kept l log) (hl : l'.Sublist l) : Kept l' log where
  cap := (hl.countP_le (p := (!·.favorite))).trans hk.cap
  distinct := hk.distinct.sublist (hl.map _)
  order := (hl.map _).trans hk.order

theorem Kept.nil : Kept [] log where
  cap := Nat.zero_le _
  distinct := List.nodup_nil
  order := List.nil_sublist _

theorem keepingPin_key : (keepingPin l x).key = x.key := rfl

theorem map_key_onTop (hl : (l.map HistoryItem.key).Nodup) :
    (onTop l x).map HistoryItem.key = x.key :: (l.map HistoryItem.key).filter (· ≠ x.key) := by
  have hsame : (fun h : HistoryItem ↦ h.same x) = fun h ↦ decide (h.key = x.key) := by
    funext h
    rw [Bool.eq_iff_iff, same_iff_key, decide_eq_true_iff]
  rw [onTop, List.map_cons, keepingPin_key, hsame, eraseP_key hl, List.filter_map]
  rfl

theorem Kept.push (hk : Kept app.state.history log) :
    Kept (app.pushHistory x).state.history (x.key :: log) := by
  have htop : ((onTop app.state.history x).map HistoryItem.key).Sublist (latest id (x.key :: log)) := by
    rw [map_key_onTop hk.distinct, latest]
    exact (hk.order.filter _).cons_cons _
  have hdistinct : ((onTop app.state.history x).map HistoryItem.key).Nodup := by
    rw [← distinct_iff]
    exact Distinct.onTop (distinct_iff.mpr hk.distinct)
  rw [pushHistory_history]
  split
  case isTrue =>
    have hsub : ((capHistoryKeepingFavorites (onTop app.state.history x)).map
        HistoryItem.key).Sublist ((onTop app.state.history x).map HistoryItem.key) :=
      keepNonFavorites_sublist.map _
    exact ⟨⟨countP_keepNonFavorites, hdistinct.sublist hsub⟩, hsub.trans htop⟩
  case isFalse hcap =>
    exact ⟨⟨List.countP_le_length.trans (Nat.le_of_not_lt hcap), hdistinct⟩, htop⟩

theorem map_key_pinned {hash : String} {favorite : Bool} :
    (pinned l hash favorite).map HistoryItem.key = l.map HistoryItem.key := by
  rw [pinned, List.map_map]
  apply List.map_congr_left
  intro h _
  rw [Function.comp_apply]
  split <;> rfl

/-- The rows that an un-pin leaves unpinned. -/
theorem countP_unpinned {hash : String} : (pinned l hash false).countP (!·.favorite) =
    l.countP fun h ↦ !h.favorite || h.hash == hash := by
  rw [pinned, List.countP_map]
  apply List.countP_congr
  intro h _
  rw [Function.comp_apply]
  by_cases hh : h.hash = hash <;> simp [hh]

theorem countP_pinned {hash : String} :
    (pinned l hash true).countP (!·.favorite) ≤ l.countP (!·.favorite) := by
  rw [pinned, List.countP_map]
  apply List.countP_mono_left
  intro h _
  rw [Function.comp_apply]
  by_cases hh : h.hash = hash <;> simp [hh]

/-- An un-pin leaves no more unpinned rows than the cap, a restore drops no pinned row. -/
def KeepsBounds (x : App × List RowKey) : Call → Prop
  | .handle (.setFavorite hash false) _ =>
    x.1.state.history.countP (fun h ↦ !h.favorite || h.hash == hash) ≤ HISTORY_SOFT_CAP
  | .restoreHistory items =>
    ∀ h ∈ x.1.state.history, h.favorite → ∃ g ∈ items, g.favorite ∧ g.key = h.key
  | _ => True

/-- What lets a pinned row go: a clear, a wipe, or an un-pin of it. -/
def Releases (app : App) (h : HistoryItem) : Call → Prop
  | .handle (.clearHistory includeFavorites) _ => includeFavorites = true
  | .handle (.setFavorite hash favorite) _ => favorite = false ∧ h.hash = hash
  | .handle e _ => app.wipes e
  | _ => False

def FavoritesStay (app : App) (c : Call) (app' : App) : Prop :=
  ∀ h ∈ app.state.history, h.favorite → ¬ app.Releases h c →
    ∃ g ∈ app'.state.history, g.favorite ∧ g.key = h.key

theorem admitted_of_wipes (hw : app.wipes e) : app.admitted blake3 e wall = none := by
  cases e <;> first | rfl | cases hw

/-- The history after an event that neither pins nor clears. -/
theorem historyAfter_other (hf : ∀ hash favorite, e ≠ .setFavorite hash favorite)
    (hc : ∀ includeFavorites, e ≠ .clearHistory includeFavorites) :
    app.historyAfter blake3 wall e = if app.wipes e then [] else
      (app.admitted blake3 e wall).elim app.state.history
        fun x ↦ (app.pushHistory x).state.history := by
  cases e with
  | setFavorite hash favorite => exact absurd rfl (hf hash favorite)
  | clearHistory includeFavorites => exact absurd rfl (hc includeFavorites)
  | _ =>
    simp only [historyAfter]
    split
    · rfl
    · split
      case h_1 hx => rw [hx, Option.elim_some]
      case h_2 hx => rw [hx, Option.elim_none]

theorem Kept.handle (hk : Kept app.state.history log)
    (hok : KeepsBounds (app, log) (.handle e wall)) :
    Kept (app.handle blake3 e wall).1.state.history
      (insertions blake3 app (.handle e wall) log) := by
  rw [history_handle]
  by_cases hf : ∃ hash favorite, e = .setFavorite hash favorite
  · rcases hf with ⟨hash, favorite, rfl⟩
    refine ⟨⟨?_, ?_⟩, ?_⟩
    · cases favorite with
      | true => exact countP_pinned.trans hk.cap
      | false => exact countP_unpinned.trans_le hok
    · rw [historyAfter, map_key_pinned]
      exact hk.distinct
    · rw [historyAfter, map_key_pinned]
      exact hk.order
  by_cases hc : ∃ includeFavorites, e = .clearHistory includeFavorites
  · rcases hc with ⟨includeFavorites, rfl⟩
    rw [historyAfter]
    split
    · exact .nil
    · exact hk.sublist List.filter_sublist
  rw [historyAfter_other (fun hash favorite h ↦ hf ⟨hash, favorite, h⟩) fun i h ↦ hc ⟨i, h⟩]
  split
  · exact .nil
  · cases hx : app.admitted blake3 e wall with
    | none => simpa [insertions, hx] using hk
    | some x => simpa [insertions, hx] using hk.push

/-- A pushed row takes no pinned row away. -/
theorem favorite_stays_push (hd : (app.state.history.map HistoryItem.key).Nodup)
    (hm : h ∈ app.state.history) (hf : h.favorite) :
    ∃ g ∈ (app.pushHistory x).state.history, g.favorite ∧ g.key = h.key := by
  by_cases hx : h.same x
  · have hpin := keepingPin_favorite (distinct_iff.mpr hd) hm hf hx
    refine ⟨_, favorite_mem_pushHistory (.head _) hpin, hpin, ?_⟩
    rw [keepingPin_key]
    exact (same_iff_key.mp hx).symm
  · exact ⟨h, mem_pushHistory_of_favorite hm hf hx, hf, rfl⟩

theorem FavoritesStay.handle (hd : (app.state.history.map HistoryItem.key).Nodup) :
    app.FavoritesStay (.handle e wall) (app.handle blake3 e wall).1 := by
  intro h hm hf hr
  rw [history_handle]
  by_cases hs : ∃ hash favorite, e = .setFavorite hash favorite
  · rcases hs with ⟨hash, favorite, rfl⟩
    refine ⟨_, List.mem_map_of_mem hm, ?_, ?_⟩
    · split
      case isTrue hh =>
        cases favorite with
        | true => rfl
        | false => exact absurd ⟨rfl, hh⟩ hr
      case isFalse => exact hf
    · split <;> rfl
  by_cases hc : ∃ includeFavorites, e = .clearHistory includeFavorites
  · rcases hc with ⟨includeFavorites, rfl⟩
    have hkeep : ¬ includeFavorites = true := hr
    rw [historyAfter, if_neg hkeep]
    exact ⟨h, List.mem_filter.mpr ⟨hm, hf⟩, hf, rfl⟩
  rw [historyAfter_other (fun hash favorite h ↦ hs ⟨hash, favorite, h⟩) fun i h ↦ hc ⟨i, h⟩]
  have hw : ¬ app.wipes e := by
    intro hw
    apply hr
    cases e with
    | setFavorite hash favorite => exact absurd ⟨hash, favorite, rfl⟩ hs
    | clearHistory includeFavorites => exact absurd ⟨includeFavorites, rfl⟩ hc
    | _ => exact hw
  rw [if_neg hw]
  cases app.admitted blake3 e wall with
  | none => exact ⟨h, hm, hf, rfl⟩
  | some x => exact favorite_stays_push hd hm hf

/-- What the calls that are no event keep of the history. -/
theorem call_keeps (blake3 : ByteArray → ContentHash) (app : App)
    (hh : ∀ e wall, c ≠ .handle e wall) (hr : ∀ items, c ≠ .restoreHistory items) :
    (app.call blake3 c).1.state.history.Sublist app.state.history ∧
      ∀ h ∈ app.state.history, h.favorite → h ∈ (app.call blake3 c).1.state.history := by
  have hexpire {app : App} {nowMs : UInt64} :
      (app.expireHistory nowMs).1.state.history.Sublist app.state.history ∧
        ∀ h ∈ app.state.history, h.favorite → h ∈ (app.expireHistory nowMs).1.state.history := by
    rw [expireHistory]
    split
    · exact ⟨.refl _, fun h hm _ ↦ hm⟩
    · exact ⟨List.filter_sublist, fun h hm hf ↦ List.mem_filter.mpr ⟨hm, by simp [hf]⟩⟩
  cases c with
  | handle e wall => exact absurd rfl (hh e wall)
  | restoreHistory items => exact absurd rfl (hr items)
  | expireHistory nowMs => exact hexpire
  | setHistoryRetention secs nowMs =>
    rw [call, setHistoryRetention]
    split
    · exact hexpire
    · exact ⟨.refl _, fun h hm _ ↦ hm⟩
  | markDelivered hash device =>
    simp only [call, markDelivered]
    split
    · exact ⟨.refl _, fun h hm _ ↦ hm⟩
    · split <;> exact ⟨.refl _, fun h hm _ ↦ hm⟩
  | setFirewall | setOtherLinkedPeers => exact ⟨.refl _, fun h hm _ ↦ hm⟩

/-- A restored list within the bounds is taken as it is. -/
theorem restoreHistory_history (hb : Bounded items) :
    (app.restoreHistory items).state.history = items := keepNonFavorites_eq_self hb.cap

theorem Kept.call (hk : Kept app.state.history log) (hok : KeepsBounds (app, log) c)
    (hb : ∀ items, c = .restoreHistory items → Bounded items) :
    Kept (app.call blake3 c).1.state.history (insertions blake3 app c log) := by
  by_cases hh : ∃ e wall, c = .handle e wall
  · rcases hh with ⟨e, wall, rfl⟩
    exact hk.handle hok
  by_cases hr : ∃ items, c = .restoreHistory items
  · rcases hr with ⟨items, rfl⟩
    have hb := hb items rfl
    rw [App.call, restoreHistory_history hb, insertions]
    refine ⟨hb, ?_⟩
    rw [latest_of_nodup (by simpa using hb.distinct)]
  · have hsub := (call_keeps blake3 app (fun e wall h ↦ hh ⟨e, wall, h⟩)
      fun items h ↦ hr ⟨items, h⟩).1
    have hlog : insertions blake3 app c log = log := by
      cases c with
      | handle e wall => exact absurd ⟨e, wall, rfl⟩ hh
      | restoreHistory items => exact absurd ⟨items, rfl⟩ hr
      | _ => rfl
    rw [hlog]
    exact hk.sublist hsub

theorem FavoritesStay.call (hd : (app.state.history.map HistoryItem.key).Nodup)
    (hok : KeepsBounds (app, log) c) (hb : ∀ items, c = .restoreHistory items → Bounded items) :
    app.FavoritesStay c (app.call blake3 c).1 := by
  by_cases hh : ∃ e wall, c = .handle e wall
  · rcases hh with ⟨e, wall, rfl⟩
    exact .handle hd
  intro h hm hf _
  by_cases hr : ∃ items, c = .restoreHistory items
  · rcases hr with ⟨items, rfl⟩
    rw [App.call, restoreHistory_history (hb items rfl)]
    exact hok h hm hf
  · exact ⟨h, (call_keeps _ _ (fun e wall h ↦ hh ⟨e, wall, h⟩) fun items h ↦ hr ⟨items, h⟩).2 h hm hf,
      hf, rfl⟩

/-- The conditions on a step are those under which its outcome is within the bounds. -/
theorem keepsBounds_of_outcome (hk : Kept (app.call blake3 c).1.state.history log)
    (hs : app.FavoritesStay c (app.call blake3 c).1) {log' : List RowKey} :
    KeepsBounds (app, log') c := by
  cases c with
  | handle e wall =>
    cases e with
    | setFavorite hash favorite =>
      cases favorite with
      | true => trivial
      | false =>
        have hcap := hk.cap
        rw [call, history_handle, historyAfter, countP_unpinned] at hcap
        exact hcap
    | _ => trivial
  | restoreHistory items =>
    intro h hm hf
    obtain ⟨g, hg, hgood⟩ := hs h hm hf (by simp [Releases])
    exact ⟨g, keepNonFavorites_sublist.subset hg, hgood⟩
  | _ => trivial

section Throughout

variable {calls : List Call} (hl : ∀ items, .restoreHistory items ∈ calls → Bounded items)

include hl

theorem kept_along {l' : List Call} {x : App × List RowKey} (hpre : l' <+: calls)
    (hok : ∀ l' c x, l' ++ [c] <+: calls →
      Run (logged blake3) Always (.new policy, []) l' x → KeepsBounds x c)
    (hr : Run (logged blake3) Always (.new policy, []) l' x) :
    Kept x.1.state.history x.2 := by
  apply hr.history (I := fun l' x ↦ l' <+: calls → Kept x.1.state.history x.2) ?_ ?_ hpre
  · exact fun _ ↦ .nil
  · rintro l' ⟨app, log⟩ c ⟨app', log'⟩ hr hi - hs hpre
    obtain ⟨hs, hlog⟩ := monitored_eq_some.mp hs
    cases hs
    cases hlog
    refine (hi ((List.prefix_append l' [c]).trans hpre)).call (hok l' c _ hpre hr) ?_
    rintro items rfl
    exact hl items (hpre.subset (by simp))

/-- The history stays within its bounds and keeps its pinned rows as long as no un-pin leaves
more unpinned rows than the cap and no later restore drops a pinned one. -/
theorem history_bounds_iff {log : List RowKey}
    (hr : Run (logged blake3) Always (.new policy, []) calls (app, log)) :
    ((∀ l' x, l' <+: calls → Run (logged blake3) Always (.new policy, []) l' x →
        Kept x.1.state.history x.2) ∧
      ∀ l' c x x', l' ++ [c] <+: calls → Run (logged blake3) Always (.new policy, []) l' x →
        logged blake3 x c = some x' → x.1.FavoritesStay c x'.1) ↔
    Run (logged blake3) KeepsBounds (.new policy, []) calls (app, log) := by
  rw [run_iff_forall_steps]
  constructor
  · rintro ⟨hkept, hstay⟩
    refine ⟨hr, fun l' c x hpre hr' ↦ ?_⟩
    have hstep : logged blake3 x c = some ((x.1.call blake3 c).1, insertions blake3 x.1 c x.2) :=
      monitored_eq_some.mpr ⟨rfl, rfl⟩
    exact keepsBounds_of_outcome (hkept _ _ hpre (hr'.snoc trivial hstep))
      (hstay l' c x _ hpre hr' hstep)
  · rintro ⟨-, hok⟩
    refine ⟨fun l' x hpre hr' ↦ kept_along hl hpre (fun l' c x ↦ hok l' c x) hr', ?_⟩
    rintro l' c ⟨app, log⟩ ⟨app', log'⟩ hpre hr' hs
    have hk := kept_along hl ((List.prefix_append l' [c]).trans hpre)
      (fun l' c x ↦ hok l' c x) hr'
    obtain ⟨hs, -⟩ := monitored_eq_some.mp hs
    cases hs
    refine .call hk.distinct (hok l' c _ hpre hr') ?_
    rintro items rfl
    exact hl items (hpre.subset (by simp))

end Throughout

def row (n : ℕ) (favorite : Bool) : HistoryItem where
  kind := .text
  preview := toString n
  time := "12:00"
  source := .localCopy
  sensitive := false
  lamport := 0
  hash := hex32 (BitVec.ofNat 256 n)
  favorite := favorite
  resync := false
  sourcePeerId := none
  createdMs := 0

/-- Fifty plain rows and a pinned one are restored. -/
def fullHistory : List HistoryItem := row 50 true :: (List.range 50).map (row · false)

def restoreThenPin : List Call :=
  [.restoreHistory fullHistory, .handle (.setFavorite (hex32 0) true) noon,
    .handle (.setFavorite (hex32 0) false) noon]

def restoreThenUnpin : List Call :=
  [.restoreHistory fullHistory, .handle (.setFavorite (hex32 50) false) noon]

theorem fullHistory_keys :
    fullHistory.map HistoryItem.key = (50 :: List.range 50).map fun n ↦ (row n true).key := by
  rw [fullHistory, List.map_cons, List.map_map, List.map_cons]
  rfl

theorem row_key_injective {m n : ℕ} (h : (row m true).key = (row n true).key) : m = n :=
  Nat.repr_injective (congrArg (·.2.2) h)

theorem fullHistory_bounded : Bounded fullHistory where
  cap := by decide +kernel
  distinct := by
    rw [fullHistory_keys]
    exact (List.nodup_cons.mpr ⟨by simp, List.nodup_range⟩).map fun _ _ h ↦ row_key_injective h

theorem history_bounds_restoreThenPin :
    ∃ x, Run (logged fun _ ↦ 0) Always (.new {}, []) restoreThenPin x ∧
      (((∀ l' x, l' <+: restoreThenPin → Run (logged fun _ ↦ 0) Always (.new {}, []) l' x →
          Kept x.1.state.history x.2) ∧
        ∀ l' c x x', l' ++ [c] <+: restoreThenPin →
          Run (logged fun _ ↦ 0) Always (.new {}, []) l' x → logged (fun _ ↦ 0) x c = some x' →
          x.1.FavoritesStay c x'.1) ↔
      Run (logged fun _ ↦ 0) KeepsBounds (.new {}, []) restoreThenPin x) := by
  have hrun : Run (logged fun _ ↦ 0) Always (.new {}, []) restoreThenPin _ :=
    run_of_isSome (by decide +kernel)
  refine ⟨_, hrun, history_bounds_iff (fun items hitems ↦ ?_) hrun⟩
  simp only [restoreThenPin, List.mem_cons, Call.restoreHistory.injEq, reduceCtorEq, or_false,
    List.not_mem_nil] at hitems
  exact hitems ▸ fullHistory_bounded

theorem unpinned_count : (pinned fullHistory (hex32 50) false).countP (!·.favorite) = 51 := by
  have hplain : ∀ h ∈ pinned fullHistory (hex32 50) false, (!h.favorite) = true := by
    intro h hm
    obtain ⟨x, hx, rfl⟩ := List.mem_map.mp hm
    rcases List.mem_cons.mp hx with rfl | hx
    · have hhash : (row 50 true).hash = hex32 50 := rfl
      rw [if_pos hhash]
      rfl
    · obtain ⟨n, -, rfl⟩ := List.mem_map.mp hx
      split <;> rfl
  rw [List.countP_eq_length.mpr hplain, pinned, List.length_map]
  decide

/-- An un-pin leaves 51 unpinned rows. -/
theorem restoreThenUnpin_exceeds :
    Bounded fullHistory ∧ ∃ x, Run (logged fun _ ↦ 0) Always (.new {}, []) restoreThenUnpin x ∧
      x.1.state.history.countP (!·.favorite) = 51 ∧ ¬ Kept x.1.state.history x.2 := by
  have hrun : Run (logged fun _ ↦ 0) Always (.new {}, []) restoreThenUnpin _ :=
    run_of_isSome (by decide +kernel)
  have hcount : ((((App.new {}).restoreHistory fullHistory).handle (fun _ ↦ 0)
      (.setFavorite (hex32 50) false) noon).1.state.history).countP (!·.favorite) = 51 := by
    rw [history_handle, historyAfter, restoreHistory_history fullHistory_bounded]
    exact unpinned_count
  refine ⟨fullHistory_bounded, _, hrun, hcount, fun h ↦ ?_⟩
  have hcap : _ ≤ HISTORY_SOFT_CAP := h.cap
  exact absurd (hcount.symm.trans_le hcap) (by decide)

end App

end FluxSync
