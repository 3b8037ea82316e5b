import FluxSync.Core.Approval
import FluxSync.Core.ReadBack
import FluxSync.Pipeline.Node

/-! ## Answers to pulls of content that is held -/

namespace FluxSync.Pipeline

open App Runs

variable {env : Env} {app : App} {wall : WallClock} {a : Action} {actions : List Action}
  {p : Prelude} {e : Event} {policy : FirewallPolicy} {l : List Call}

/-- An item that a peer sends in answer to a pull. -/
structure Redelivery where
  hash : ContentHash
  kind : Kind
  payload : ByteArray
  preview : String
  sensitive : Bool
  lamport : UInt64
  peerId : PeerId

namespace Redelivery

variable {d : Redelivery}

def event (d : Redelivery) : Event :=
  .frameReceivedClipboard d.hash d.kind d.payload d.preview d.sensitive d.lamport true d.peerId

/-- The row that the item would get. -/
def row (d : Redelivery) (wall : WallClock) : HistoryItem :=
  arrival d.hash d.kind d.preview d.sensitive d.lamport true d.peerId wall

/-- The item is what its hash says, and the history has a row with this hash. -/
def Held (env : Env) (app : App) (d : Redelivery) : Prop :=
  verifyContentHash env d.kind d.payload.data.toList d.hash = true ∧
    ∃ h ∈ app.state.history, h.hash = hex32 d.hash

/-- The item changes no row and is not written to the clipboard. -/
def Ignored (env : Env) (app : App) (d : Redelivery) (wall : WallClock) : Prop :=
  (app.handle env.blake3 d.event wall).1.state.history = app.state.history ∧
    ∀ a ∈ (app.handle env.blake3 d.event wall).2, isWrite a = false

/-- The ring has the content, or the item is not admitted, or its row is there already. -/
def Recognised (env : Env) (app : App) (d : Redelivery) (wall : WallClock) : Prop :=
  app.dedup.contains (contentDigest env.blake3 d.kind d.payload) = true ∨ d.sensitive = true ∨
    app.firewall.decide d.kind d.sensitive .inbound ≠ .pass ∨ app.OnTop (d.row wall)

theorem isWrite_of_stripped (h : a ∈ stripResyncApply actions) : isWrite a = false := by
  have hkept : ∀ a ∈ actions.filter (fun a ↦ !isWrite a), isWrite a = false := by
    intro a ha
    simpa using (List.mem_filter.mp ha).2
  have hsplit : stripResyncApply actions = if actions.any isWrite then
      actions.filter (fun a ↦ !isWrite a) ++ [.resyncApplySuppressed]
      else actions.filter (fun a ↦ !isWrite a) := rfl
  rw [hsplit] at h
  split at h
  · rcases List.mem_append.mp h with h | h
    · exact hkept a h
    · rw [List.mem_singleton.mp h]
      rfl
  · exact hkept a h

/-- Nothing that follows the transition of an answer to a pull is a write. -/
theorem isWrite_postTransition (hp : p.suppressResyncApply = true) (h : a ∈ (postTransition p e).2) :
    isWrite a = false := by
  have emitted {l : List Action} (h : a ∈ ensureEmit l) : a ∈ l ∨ a = .emitState := mem_ensureEmit.mp h
  have hbattery (h : a ∈ realBattery (p.app.applyFirewall e (transition p.app.phase e).2).1.state
      (stripResyncApply (if p.pendingDropped = [] then
        (p.app.applyFirewall e (transition p.app.phase e).2).2
        else (p.app.applyFirewall e (transition p.app.phase e).2).2 ++
          [.pendingDropped p.pendingDropped]))) : isWrite a = false := by
    rcases mem_realBattery h with h | rfl
    · exact isWrite_of_stripped h
    · rfl
  simp only [postTransition, hp, if_true] at h
  split at h
  · rcases emitted h with h | rfl
    · split at h
      · rcases emitted h with h | rfl
        · exact hbattery h
        · rfl
      · exact hbattery h
    · rfl
  · split at h
    · rcases emitted h with h | rfl
      · exact hbattery h
      · rfl
    · exact hbattery h

theorem isWrite_handle (h : a ∈ (app.handle env.blake3 d.event wall).2) : isWrite a = false := by
  simp only [event, handle, Bool.false_eq_true, if_false] at h
  split at h
  · simp only [List.mem_cons, List.not_mem_nil, or_false] at h
    rcases h with rfl | rfl <;> rfl
  · refine isWrite_postTransition ?_ h
    simp only [preTransition]
    (repeat' split) <;> rfl

theorem observe_absent {r : DedupRing} {hash : ContentHash} {t : UInt64}
    (h : r.contains hash = false) : (r.observeClipboard hash t).2 = true := by
  have hnone : r.inner.findIdx? (·.hash == hash) = none := by
    rw [List.findIdx?_eq_none_iff]
    simpa [DedupRing.contains] using h
  simp only [DedupRing.observeClipboard, hnone]

/-- The row that an answer to a pull adds. -/
theorem admitted_event : app.admitted env.blake3 d.event wall =
    if app.dedup.contains (contentDigest env.blake3 d.kind d.payload) = false ∧ d.sensitive = false ∧
      app.firewall.decide d.kind d.sensitive .inbound = .pass then some (d.row wall) else none := by
  simp only [event, admitted, Bool.true_and]
  cases hring : app.dedup.contains (contentDigest env.blake3 d.kind d.payload) with
  | true => simp
  | false =>
    rw [observe_absent hring]
    cases hs : d.sensitive <;> simp [row, arrival, hs]

theorem history_event : (app.handle env.blake3 d.event wall).1.state.history =
    match app.admitted env.blake3 d.event wall with
    | some x => (app.pushHistory x).state.history
    | none => app.state.history :=
  congrArg Prod.fst (recorded_edit env.blake3 app wall
    (.arrive d.hash d.kind d.payload d.preview d.sensitive d.lamport true d.peerId))

theorem ignored_iff : d.Ignored env app wall ↔ d.Recognised env app wall := by
  rw [Ignored, and_iff_left fun a ha ↦ isWrite_handle ha, history_event, admitted_event, Recognised]
  by_cases hadmitted : app.dedup.contains (contentDigest env.blake3 d.kind d.payload) = false ∧
      d.sensitive = false ∧ app.firewall.decide d.kind d.sensitive .inbound = .pass
  · rw [if_pos hadmitted]
    obtain ⟨hring, hsensitive, hpass⟩ := hadmitted
    rw [hring, hsensitive] at *
    have hunchanged : (app.pushHistory (d.row wall)).state.history = app.state.history ↔
        app.OnTop (d.row wall) := pushHistory_unchanged_iff rfl
    simp [hpass, ← hunchanged]
  · rw [if_neg hadmitted]
    refine iff_of_true rfl ?_
    by_contra hnot
    simp only [not_or, Bool.not_eq_true, not_not] at hnot
    exact hadmitted ⟨hnot.1, hnot.2.1, hnot.2.2.1⟩

/-- What decides whether an item is held, as a test. -/
theorem held_of_any (hv : verifyContentHash env d.kind d.payload.data.toList d.hash = true)
    (hrow : app.state.history.any (·.hash == hex32 d.hash) = true) : d.Held env app := by
  refine ⟨hv, ?_⟩
  obtain ⟨h, hmem, heq⟩ := List.any_eq_true.mp hrow
  exact ⟨h, hmem, beq_iff_eq.mp heq⟩

end Redelivery

/-- Answers to pulls of content that is in the history are all ignored exactly as long as the
ring has each one's content, or it is not admitted, or its row is there already. -/
theorem catchup_ignored_iff (hrun : Run (App.step env.blake3) Always (.new policy) l app) :
    (∀ l' app' d wall, l' ++ [.handle (Redelivery.event d) wall] <+: l →
      Run (App.step env.blake3) Always (.new policy) l' app' → d.Held env app' →
        d.Ignored env app' wall) ↔
      Run (App.step env.blake3) (fun app c ↦ ∀ d wall, c = .handle (Redelivery.event d) wall →
        d.Held env app → d.Recognised env app wall) (.new policy) l app := by
  rw [run_iff_forall_steps]
  simp only [Redelivery.ignored_iff]
  constructor
  · intro h
    refine ⟨hrun, ?_⟩
    rintro l' _ app' hpre hrun' d wall rfl hheld
    exact h l' app' d wall hpre hrun' hheld
  · rintro ⟨-, h⟩ l' app' d wall hpre hrun' hheld
    exact h l' _ app' hpre hrun' d wall rfl hheld

def pixelEnv : Env where
  blake3 := lastBytes
  imageHash := fun payload ↦
    (decodePixel ⟨payload.toArray⟩).map fun i ↦ imageRgbaHash lastBytes i.1 i.2.1 i.2.2
  previewLabel := fun _ _ ↦ ""

def hiRow : HistoryItem where
  kind := .text
  preview := "hi"
  time := "10:00"
  source := .remote
  sensitive := false
  lamport := 1
  hash := hex32 (lastBytes hi)
  favorite := false
  resync := false
  sourcePeerId := none
  createdMs := 1

/-- A text that was restored from the vault. -/
def hiAgain : Redelivery := ⟨lastBytes hi, .text, hi, "hi", false, 2, 1⟩

def restoredLink : List Call :=
  .restoreHistory [{ hiRow with preview := "newer", hash := "" }, hiRow] :: link

theorem catchup_ignored_iff_restored :
    ∃ app, Run (App.step lastBytes) Always (.new {}) restoredLink app ∧
      hiAgain.Held pixelEnv app ∧ hiAgain.Ignored pixelEnv app noon := by
  obtain ⟨app, hrun, hring, hrow⟩ : ∃ app, Run (App.step lastBytes) Always (.new {}) restoredLink app ∧
      app.dedup.contains (contentDigest lastBytes .text hi) = true ∧
      app.state.history.any (·.hash == hex32 (lastBytes hi)) = true :=
    ⟨_, run_of_isSome (by decide +kernel), by decide +kernel⟩
  have hheld : hiAgain.Held pixelEnv app := Redelivery.held_of_any (by decide +kernel) hrow
  have hlabels : ∀ c ∈ restoredLink, ∀ d wall, c ≠ .handle (Redelivery.event d) wall := by
    intro c hc d wall heq
    subst heq
    revert hc
    simp [restoredLink, link, Redelivery.event]
  have hrun' : Run (App.step pixelEnv.blake3) (fun app c ↦ ∀ d wall,
      c = .handle (Redelivery.event d) wall → d.Held pixelEnv app → d.Recognised pixelEnv app wall)
      (.new {}) (restoredLink ++ [.handle hiAgain.event noon])
      (app.call lastBytes (.handle hiAgain.event noon)).1 := by
    refine .snoc ((hrun.labels hlabels).mono fun _ c hc d wall heq ↦ absurd heq (hc d wall)) ?_ rfl
    intro d wall heq _
    simp only [Call.handle.injEq, Redelivery.event, Event.frameReceivedClipboard.injEq] at heq
    obtain ⟨⟨-, hkind, hpayload, -⟩, -⟩ := heq
    left
    rw [← hkind, ← hpayload]
    exact hring
  exact ⟨app, hrun, hheld, (catchup_ignored_iff (hrun'.mono fun _ _ _ ↦ trivial)).mpr hrun'
    restoredLink app hiAgain noon List.prefix_rfl hrun hheld⟩

/-- The picture is copied here. -/
def pixelCopied : List Call :=
  link ++ [.handle (.localClipboardChange pixelHash .image pixelPng "Image 1x1, 1 KB" false 0) noon]

def pixelAgain : Redelivery := ⟨pixelHash, .image, pixelPng, "Image 1x1, 1 KB", false, 2, 1⟩

/-- The ring knows a copied image by its pixels, an answer to a pull by its file: the row
becomes the peer's. -/
theorem image_row_rewritten :
    ∃ app, Run (App.step lastBytes) Always (.new {}) pixelCopied app ∧
      pixelAgain.Held pixelEnv app ∧ app.state.history.map (·.source) = [.localCopy] ∧
      (app.handle lastBytes pixelAgain.event later).1.state.history.map (·.source) = [.remote] := by
  have hrun : Run (App.step lastBytes) Always (.new {}) pixelCopied _ :=
    run_of_isSome (by decide +kernel)
  exact ⟨_, hrun, Redelivery.held_of_any (by decide +kernel) (by decide +kernel), by decide +kernel⟩

end FluxSync.Pipeline
