import FluxSync.Core.Transfer

namespace FluxSync

open Std

variable {blake3 : ByteArray → ContentHash} {app : App} {e : Event} {wall : WallClock}
  {actions : List Action} {x h : HistoryItem} {l : List HistoryItem} {n : ℕ}

/-- Rows that the history keeps only one of. -/
def HistoryItem.same (a b : HistoryItem) : Bool :=
  a.hash == b.hash && a.kind == b.kind && a.preview == b.preview

def Distinct (l : List HistoryItem) : Prop := l.Pairwise fun a b ↦ ¬ a.same b

instance : Decidable (Distinct l) := inferInstanceAs (Decidable (l.Pairwise _))

theorem HistoryItem.same_iff {a b : HistoryItem} :
    a.same b ↔ a.hash = b.hash ∧ a.kind = b.kind ∧ a.preview = b.preview := by
  simp [same, and_assoc]

theorem HistoryItem.same_comm {a b : HistoryItem} : a.same b ↔ b.same a := by
  simp only [same_iff]
  constructor <;> exact fun ⟨h₁, h₂, h₃⟩ ↦ ⟨h₁.symm, h₂.symm, h₃.symm⟩

theorem HistoryItem.same_trans {a b c : HistoryItem} (h : a.same b) (h' : b.same c) : a.same c := by
  rw [same_iff] at *
  exact ⟨h.1.trans h'.1, h.2.1.trans h'.2.1, h.2.2.trans h'.2.2⟩

theorem Distinct.eq_of_same {a b : HistoryItem} (hl : Distinct l) (ha : a ∈ l) (hb : b ∈ l)
    (hab : a.same b) : a = b := by
  by_contra hne
  have : Std.Symm fun a b : HistoryItem ↦ ¬ a.same b :=
    ⟨fun _ _ h h' ↦ h (HistoryItem.same_comm.mp h')⟩
  exact List.Pairwise.forall hl ha hb hne hab

theorem keepNonFavorites_favorite (hf : h.favorite) :
    keepNonFavorites n (h :: l) = h :: keepNonFavorites n l := by
  cases n <;> simp [keepNonFavorites, hf]

theorem keepNonFavorites_zero (hf : ¬ h.favorite) :
    keepNonFavorites 0 (h :: l) = keepNonFavorites 0 l := by
  simp [keepNonFavorites, hf]

theorem keepNonFavorites_succ (hf : ¬ h.favorite) :
    keepNonFavorites (n + 1) (h :: l) = h :: keepNonFavorites n l := by
  simp [keepNonFavorites, hf]

/-- A favorite stays, another row stays while the cap allows it. -/
theorem keepNonFavorites_sublist : (keepNonFavorites n l).Sublist l := by
  induction l generalizing n with
  | nil => cases n <;> exact .refl []
  | cons h l ih =>
    by_cases hf : h.favorite
    · rw [keepNonFavorites_favorite hf]
      exact ih.cons_cons h
    · cases n with
      | zero =>
        rw [keepNonFavorites_zero hf]
        exact ih.cons h
      | succ n =>
        rw [keepNonFavorites_succ hf]
        exact ih.cons_cons h

theorem mem_keepNonFavorites (hm : h ∈ l) (hf : h.favorite) : h ∈ keepNonFavorites n l := by
  induction l generalizing n with
  | nil => cases hm
  | cons g l ih =>
    by_cases hg : g.favorite
    · rw [keepNonFavorites_favorite hg]
      obtain rfl | hm := List.mem_cons.mp hm
      · exact .head _
      · exact .tail g (ih hm)
    · obtain rfl | hm := List.mem_cons.mp hm
      · exact absurd hf hg
      · cases n with
        | zero =>
          rw [keepNonFavorites_zero hg]
          exact ih hm
        | succ n =>
          rw [keepNonFavorites_succ hg]
          exact .tail g (ih hm)

theorem keepNonFavorites_eq_self (hn : l.countP (!·.favorite) ≤ n) : keepNonFavorites n l = l := by
  induction l generalizing n with
  | nil => cases n <;> rfl
  | cons h l ih =>
    by_cases hf : h.favorite
    · rw [List.countP_cons_of_neg (by simp [hf])] at hn
      rw [keepNonFavorites_favorite hf, ih hn]
    · rw [List.countP_cons_of_pos (by simpa using hf)] at hn
      cases n with
      | zero => omega
      | succ n => rw [keepNonFavorites_succ hf, ih (by omega)]

theorem countP_keepNonFavorites : (keepNonFavorites n l).countP (!·.favorite) ≤ n := by
  induction l generalizing n with
  | nil => cases n <;> exact Nat.zero_le _
  | cons h l ih =>
    by_cases hf : h.favorite
    · rw [keepNonFavorites_favorite hf, List.countP_cons_of_neg (by simp [hf])]
      exact ih
    · cases n with
      | zero =>
        rw [keepNonFavorites_zero hf]
        exact ih
      | succ n =>
        rw [keepNonFavorites_succ hf, List.countP_cons_of_pos (by simpa using hf)]
        exact Nat.succ_le_succ ih

namespace App

/-- The row as it goes into the list, with the pin of the row it replaces. -/
def keepingPin (l : List HistoryItem) (x : HistoryItem) : HistoryItem :=
  { x with favorite := x.favorite || (l.find? (·.same x)).any (·.favorite) }

theorem same_keepingPin : h.same (keepingPin l x) ↔ h.same x := by
  simp only [HistoryItem.same_iff, keepingPin]

/-- The list with the row on top and the row it replaces gone. -/
def onTop (l : List HistoryItem) (x : HistoryItem) : List HistoryItem :=
  keepingPin l x :: l.eraseP (·.same x)

theorem pushHistory_history :
    (app.pushHistory x).state.history =
      if HISTORY_SOFT_CAP < (onTop app.state.history x).length then
        capHistoryKeepingFavorites (onTop app.state.history x)
      else onTop app.state.history x := by
  have hsame : (fun h : HistoryItem ↦ h.hash == x.hash && h.kind == x.kind &&
      h.preview == x.preview) = (·.same x) := rfl
  rw [onTop, keepingPin, List.eraseP_eq_eraseIdx, List.find?_eq_bind_findIdx?_getElem?]
  simp only [pushHistory, hsame]
  cases app.state.history.findIdx? (·.same x) with
  | none => simp
  | some pos => simp

theorem mem_pushHistory (hm : h ∈ (app.pushHistory x).state.history) :
    h = keepingPin app.state.history x ∨ h ∈ app.state.history := by
  have hm : h ∈ onTop app.state.history x := by
    rw [pushHistory_history] at hm
    split at hm
    · exact keepNonFavorites_sublist.subset hm
    · exact hm
  obtain h | h := List.mem_cons.mp hm
  · exact .inl h
  · exact .inr (List.mem_of_mem_eraseP h)

theorem favorite_mem_pushHistory (hm : h ∈ onTop app.state.history x) (hf : h.favorite) :
    h ∈ (app.pushHistory x).state.history := by
  rw [pushHistory_history]
  split
  · exact mem_keepNonFavorites hm hf
  · exact hm

theorem Distinct.onTop (hl : Distinct l) : Distinct (onTop l x) := by
  refine List.pairwise_cons.mpr ⟨fun h hm hsame ↦ ?_, hl.sublist List.eraseP_sublist⟩
  have hh : h.same x := same_keepingPin.mp (HistoryItem.same_comm.mp hsame)
  obtain ⟨a, l₁, l₂, hl₁, ha, rfl, he⟩ :=
    List.exists_of_eraseP (p := (·.same x)) (List.mem_of_mem_eraseP hm) hh
  rw [he] at hm
  obtain hm | hm := List.mem_append.mp hm
  · exact hl₁ h hm hh
  · have hal := (List.pairwise_cons.mp (List.pairwise_append.mp hl).2.1).1 h hm
    exact hal (HistoryItem.same_trans ha (HistoryItem.same_comm.mp hh))

theorem Distinct.pushHistory (hl : Distinct app.state.history) :
    Distinct (app.pushHistory x).state.history := by
  rw [pushHistory_history]
  split
  · exact (Distinct.onTop hl).sublist keepNonFavorites_sublist
  · exact Distinct.onTop hl

/-- A favorite leaves the list only for a row that takes its place. -/
theorem mem_pushHistory_of_favorite (hm : h ∈ app.state.history) (hf : h.favorite)
    (hx : ¬ h.same x) : h ∈ (app.pushHistory x).state.history :=
  favorite_mem_pushHistory (.tail _ ((List.mem_eraseP_of_neg (p := (·.same x)) hx).mpr hm)) hf

/-- A row that takes a favorite's place is a favorite. -/
theorem keepingPin_favorite (hl : Distinct l) (hm : h ∈ l) (hf : h.favorite) (hx : h.same x) :
    (keepingPin l x).favorite := by
  obtain ⟨g, hg⟩ : ∃ g, l.find? (·.same x) = some g :=
    Option.isSome_iff_exists.mp (List.find?_isSome.mpr ⟨h, hm, hx⟩)
  have hgx : g.same x := by simpa using List.find?_some hg
  have hgh : g = h := hl.eq_of_same (List.mem_of_find?_eq_some hg) hm
    (HistoryItem.same_trans hgx (HistoryItem.same_comm.mp hx))
  simp [keepingPin, hg, hgh, hf]

/-- The row that an event adds to the history. -/
def admitted (blake3 : ByteArray → ContentHash) (app : App) (e : Event) (wall : WallClock) :
    Option HistoryItem :=
  match e with
  | .localClipboardChange hash kind _ preview sensitive lamport =>
    if (app.dedup.observeClipboard hash wall.unixMillis).2 ∧ !sensitive then
      some
        { kind, preview := trim preview, time := wall.hhmm, source := .localCopy, sensitive
          lamport, hash := hex32 hash, favorite := false, resync := false, sourcePeerId := none
          createdMs := wall.unixMillis }
    else none
  | .frameReceivedClipboard hash kind payload preview sensitive lamport resync peerId =>
    let computed := contentDigest blake3 kind payload
    if (resync && app.dedup.contains computed) = false ∧
        (app.dedup.observeClipboard computed wall.unixMillis).2 ∧
        (!sensitive && app.firewall.decide kind sensitive .inbound == .pass) then
      some
        { kind, preview := trim preview, time := wall.hhmm, source := .remote, sensitive
          lamport, hash := hex32 hash, favorite := false, resync
          sourcePeerId := some (hex32 peerId), createdMs := wall.unixMillis }
    else none
  | _ => none

/-- The event makes `handle` wipe, for a change of peers or a rejected identity. -/
def wipes (app : App) : Event → Bool
  | .peerSeen q _ =>
    !app.isPeerMismatch q && q != 0 && app.lastPairedPeerId != 0 && q != app.lastPairedPeerId &&
      !app.otherPeersLinked
  | .untrustedPeerSeen _ => true
  | _ => false

/-- What the vault persister reads of the App. -/
def recorded (app : App) : List HistoryItem × UInt64 := (app.state.history, app.state.vaultWipeGen)

theorem recorded_gateItem {dir kind sensitive hash payload preview peerId} :
    (app.gateItem dir kind sensitive hash payload preview peerId actions).1.recorded =
      app.recorded := by
  rw [gateItem]
  split
  · rfl
  · rfl
  · rw [parkPending]
    split <;> rfl

theorem recorded_postTransition {p : Prelude} :
    (postTransition p e).1.recorded = p.app.recorded := by
  cases e with
  | localClipboardChange | frameReceivedClipboard => exact recorded_gateItem
  | _ => rfl

theorem recorded_handle (he : ∀ hash allow, e ≠ .resolvePending hash allow)
    (hs : ∀ q name, e ≠ .peerSeen q name) :
    (app.handle blake3 e wall).1.recorded = (app.preTransition blake3 e wall).app.recorded := by
  cases e with
  | peerSeen q name => exact absurd rfl (hs q name)
  | resolvePending hash allow => exact absurd rfl (he hash allow)
  | _ =>
    simp only [handle, Bool.false_eq_true, if_false]
    split
    · rfl
    · exact recorded_postTransition

/-- What a user or a peer does to the history, row by row. -/
inductive Edit
  | copy (hash : ContentHash) (kind : Kind) (payload : ByteArray) (preview : String)
      (sensitive : Bool) (lamport : UInt64)
  | arrive (hash : ContentHash) (kind : Kind) (payload : ByteArray) (preview : String)
      (sensitive : Bool) (lamport : UInt64) (resync : Bool) (peerId : PeerId)
  /-- A pin or an un-pin. -/
  | pin (hash : String) (favorite : Bool)

def Edit.event : Edit → Event
  | .copy hash kind payload preview sensitive lamport =>
    .localClipboardChange hash kind payload preview sensitive lamport
  | .arrive hash kind payload preview sensitive lamport resync peerId =>
    .frameReceivedClipboard hash kind payload preview sensitive lamport resync peerId
  | .pin hash favorite => .setFavorite hash favorite

def pinned (l : List HistoryItem) (hash : String) (favorite : Bool) : List HistoryItem :=
  l.map fun h ↦ if h.hash = hash then { h with favorite } else h

/-- The history after an edit. -/
def edited (blake3 : ByteArray → ContentHash) (app : App) (wall : WallClock) (edit : Edit) :
    List HistoryItem :=
  match edit with
  | .pin hash favorite => pinned app.state.history hash favorite
  | edit =>
    match app.admitted blake3 edit.event wall with
    | some x => (app.pushHistory x).state.history
    | none => app.state.history

theorem recorded_edit (blake3 : ByteArray → ContentHash) (app : App) (wall : WallClock)
    (edit : Edit) :
    (app.handle blake3 edit.event wall).1.recorded =
      (app.edited blake3 wall edit, app.state.vaultWipeGen) := by
  rw [recorded_handle (by cases edit <;> simp [Edit.event]) (by cases edit <;> simp [Edit.event])]
  cases edit with
  | pin hash favorite => rfl
  | copy hash kind payload preview sensitive lamport =>
    simp only [Edit.event, edited, preTransition, admitted]
    cases (app.dedup.observeClipboard hash wall.unixMillis).2 with
    | false => rfl
    | true => cases sensitive <;> rfl
  | arrive hash kind payload preview sensitive lamport resync peerId =>
    simp only [Edit.event, edited, preTransition, admitted]
    cases resync && app.dedup.contains (contentDigest blake3 kind payload) with
    | true => rfl
    | false =>
      cases (app.dedup.observeClipboard (contentDigest blake3 kind payload) wall.unixMillis).2 with
      | false => rfl
      | true =>
        cases (!sensitive && app.firewall.decide kind sensitive .inbound == .pass) <;> rfl

end App

end FluxSync
