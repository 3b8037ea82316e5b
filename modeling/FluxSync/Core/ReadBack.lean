import FluxSync.Core.History
import FluxSync.Core.Parking
import FluxSync.Core.Ring
import FluxSync.Core.Transfer
import FluxSync.Proto.File

namespace FluxSync

open Proto

/-- `from_utf8_lossy`: how long the bytes at the head are that one replacement stands for. -/
def invalidLength : List UInt8 → ℕ
  | b :: c :: rest =>
    let second := (b == 0xE0 && 0xA0 ≤ c && c ≤ 0xBF) || (b == 0xED && 0x80 ≤ c && c ≤ 0x9F)
      || (0xE1 ≤ b && b ≤ 0xEF && b != 0xED && 0x80 ≤ c && c ≤ 0xBF)
    let secondOfFour := (b == 0xF0 && 0x90 ≤ c && c ≤ 0xBF) || (b == 0xF4 && 0x80 ≤ c && c ≤ 0x8F)
      || (0xF1 ≤ b && b ≤ 0xF3 && 0x80 ≤ c && c ≤ 0xBF)
    if second then 2
    else if secondOfFour then if rest.head?.any fun d ↦ 0x80 ≤ d && d ≤ 0xBF then 3 else 2
    else 1
  | _ => 1

def lossyChars : ℕ → List UInt8 → List Char
  | 0, _ | _, [] => []
  | n + 1, b :: bytes =>
    match ByteArray.utf8DecodeChar? ⟨(b :: bytes).toArray⟩ 0 with
    | some c => c :: lossyChars n ((b :: bytes).drop c.utf8Size)
    | none => '\uFFFD' :: lossyChars n ((b :: bytes).drop (invalidLength (b :: bytes)))

def fromUtf8Lossy (payload : ByteArray) : String :=
  match String.fromUTF8? payload with
  | some text => text
  | none => .ofList (lossyChars payload.size payload.data.toList)

/-- `rsplit_once` at the last dot, unless nothing stands before it. -/
def stemAndExt (name : String) : String × String :=
  let ext := name.toList.rtakeWhile (· ≠ '.')
  let stem := name.toList.take (name.toList.length - ext.length - 1)
  if ext.length < name.toList.length ∧ stem ≠ [] then (.ofList stem, "." ++ .ofList ext)
  else (name, "")

/-- The first name that is free in the folder: some of the candidates is. -/
def saveReceivedFile (folder : List String) (name : String) : Option String :=
  let name := File.sanitize name
  let numbered := (List.range folder.length).map fun n ↦
    (stemAndExt name).1 ++ " (" ++ toString (n + 1) ++ ")" ++ (stemAndExt name).2
  (name :: numbered).find? (· ∉ folder)

/-- What the writer thread puts on the clipboard. -/
inductive ClipWrite
  | text (t : String)
  /-- The name it was saved under, and what is read back from there. -/
  | files (name : String) (bytes : ByteArray)
  | image (width height : UInt32) (rgba : ByteArray)

/-- What `Action::WriteClipboard` comes to. -/
def clipWrite (decodePng : ByteArray → Option (UInt32 × UInt32 × ByteArray)) (folder : List String)
    (kind : Kind) (payload : ByteArray) : Option ClipWrite :=
  match kind with
  | .file =>
    (File.decode payload).bind fun f ↦ (saveReceivedFile folder f.1).map fun name ↦ .files name f.2
  | .image => (decodePng payload).map fun i ↦ .image i.1 i.2.1 i.2.2
  | _ => some (.text (fromUtf8Lossy payload))

def leBytes (n : UInt32) : ByteArray :=
  ⟨#[n.toUInt8, (n >>> 8).toUInt8, (n >>> 16).toUInt8, (n >>> 24).toUInt8]⟩

section Canon

def lfChars (l : List Char) : List Char := (crlfToLf l).map fun c ↦ if c = '\r' then '\n' else c

variable {c : Char} {l l₁ l₂ : List Char}

theorem crlfToLf_cons (h : ¬ (c = '\r' ∧ l.head? = some '\n')) :
    crlfToLf (c :: l) = c :: crlfToLf l := by
  rw [crlfToLf]
  rintro l' rfl rfl
  exact h ⟨rfl, rfl⟩

theorem crlfToLf_append (h : l₁.getLast? ≠ some '\r') :
    crlfToLf (l₁ ++ l₂) = crlfToLf l₁ ++ crlfToLf l₂ := by
  induction l₁ using crlfToLf.induct with
  | case1 l ih =>
    have hl : l.getLast? ≠ some '\r' := by
      cases l with
      | nil => simp
      | cons b l => simpa [List.getLast?_cons_cons] using h
    simp only [List.cons_append, crlfToLf, ih hl]
  | case2 c l hne ih =>
    have hhead : ¬ (c = '\r' ∧ l.head? = some '\n') := by
      rintro ⟨rfl, hl⟩
      cases l with
      | nil => cases hl
      | cons b l =>
        simp only [List.head?_cons, Option.some.injEq] at hl
        exact hne l rfl (by rw [hl])
    have hhead' : ¬ (c = '\r' ∧ (l ++ l₂).head? = some '\n') := by
      rintro ⟨rfl, hl⟩
      cases l with
      | nil => simp at h
      | cons b l => exact hhead ⟨rfl, by simpa using hl⟩
    have hl : l.getLast? ≠ some '\r' := by
      cases l with
      | nil => simp
      | cons b l => simpa [List.getLast?_cons_cons] using h
    rw [List.cons_append, crlfToLf_cons hhead', crlfToLf_cons hhead, ih hl, List.cons_append]
  | case3 => rfl

theorem lfChars_whitespace (h : ∀ c ∈ l, isWhitespace c) : ∀ c ∈ lfChars l, isWhitespace c := by
  induction l using crlfToLf.induct with
  | case1 l ih =>
    have hrest := ih fun c hc ↦ h c (by simp [hc])
    simp only [lfChars, crlfToLf, List.map_cons, List.mem_cons] at hrest ⊢
    rintro c (rfl | hc)
    · decide
    · exact hrest c hc
  | case2 c l hne ih =>
    have hrest := ih fun c hc ↦ h c (List.mem_cons_of_mem _ hc)
    rw [lfChars, crlfToLf.eq_2 _ _ hne, List.map_cons]
    intro d hd
    rcases List.mem_cons.mp hd with rfl | hd
    · split
      · decide
      · exact h c List.mem_cons_self
    · exact hrest d hd
  | case3 => simp [lfChars, crlfToLf]

theorem trimChars_append (h : ∀ c ∈ l₂, isWhitespace c) : trimChars (l₁ ++ l₂) = trimChars l₁ := by
  have hdrop : l₂.dropWhile isWhitespace = [] := List.dropWhile_eq_nil_iff.mpr h
  rw [trimChars, trimChars, List.dropWhile_append, hdrop]
  split
  case isTrue he => rw [List.isEmpty_iff.mp he]
  case isFalse =>
    have hrev : l₂.reverse.dropWhile isWhitespace = [] :=
      List.dropWhile_eq_nil_iff.mpr fun c hc ↦ h c (List.mem_reverse.mp hc)
    rw [List.reverse_append, List.dropWhile_append, hrev, List.isEmpty_nil, if_pos rfl]

theorem trimChars_cons (h : isWhitespace c) : trimChars (c :: l) = trimChars l := by
  rw [trimChars, trimChars, List.dropWhile_cons_of_pos h]

theorem trimChars_lfChars_dropWhile :
    trimChars (lfChars (l.dropWhile isWhitespace)) = trimChars (lfChars l) := by
  induction l using crlfToLf.induct with
  | case1 l ih =>
    have hr : isWhitespace '\r' := by decide
    have hn : isWhitespace '\n' := by decide
    rw [List.dropWhile_cons_of_pos hr, List.dropWhile_cons_of_pos hn, ih]
    simp only [lfChars, crlfToLf, List.map_cons]
    rw [trimChars_cons (by decide)]
  | case2 c l hne ih =>
    by_cases hc : isWhitespace c
    · rw [List.dropWhile_cons_of_pos hc, ih, lfChars, lfChars, crlfToLf.eq_2 _ _ hne,
        List.map_cons, trimChars_cons]
      split
      · decide
      · exact hc
    · rw [List.dropWhile_cons_of_neg hc]
  | case3 => rfl

/-- The watcher trims before the canonical form is taken, which trims anyway. -/
theorem canonChars_trimChars : canonChars (trimChars l) = canonChars l := by
  have hsplit : ∀ l : List Char, trimChars (lfChars (l.rdropWhile isWhitespace)) = trimChars (lfChars l) := by
    intro l
    have hw : ∀ c ∈ l.rtakeWhile isWhitespace, isWhitespace c := fun c hc ↦
      List.mem_rtakeWhile_imp hc
    have hlast : (l.rdropWhile isWhitespace).getLast? ≠ some '\r' := by
      intro hl
      have hne : l.rdropWhile isWhitespace ≠ [] := by
        intro hnil
        rw [hnil] at hl
        cases hl
      have hstop := List.rdropWhile_last_not isWhitespace l hne
      rw [List.getLast?_eq_getLast_of_ne_nil hne, Option.some.injEq] at hl
      rw [hl] at hstop
      exact hstop (by decide)
    calc trimChars (lfChars (l.rdropWhile isWhitespace))
        = trimChars (lfChars (l.rdropWhile isWhitespace) ++ lfChars (l.rtakeWhile isWhitespace)) :=
          (trimChars_append (lfChars_whitespace hw)).symm
      _ = trimChars (lfChars (l.rdropWhile isWhitespace ++ l.rtakeWhile isWhitespace)) := by
          rw [lfChars, lfChars, lfChars, crlfToLf_append hlast, List.map_append]
      _ = trimChars (lfChars l) := by rw [List.rdropWhile_append_rtakeWhile]
  exact (hsplit (l.dropWhile isWhitespace)).trans trimChars_lfChars_dropWhile

theorem canonText_trim (t : String) : canonText (trim t) = canonText t := by
  rw [canonText, trim, String.toList_ofList, canonChars_trimChars, canonText]

end Canon

variable (blake3 : ByteArray → ContentHash)

def clipboardDedupHash (text : String) : ContentHash := blake3 (canonText text).toUTF8

def imageRgbaHash (width height : UInt32) (rgba : ByteArray) : ContentHash :=
  blake3 (leBytes width ++ leBytes height ++ rgba)

/-- The hash of the `LocalClipboardChange` that the watcher's read-back leads to. -/
def ClipWrite.polled : ClipWrite → ContentHash
  -- `CmdOp::Push` hashes the trimmed text once more.
  | .text t => clipboardDedupHash blake3 (trim t)
  | .files name bytes => blake3 (File.encode name bytes)
  | .image width height rgba => imageRgbaHash blake3 width height rgba

namespace App

open Runs

variable {blake3} {app app' app₂ : App} {e : Event} {wall : WallClock} {a : Action} {c : Call}
  {policy : FirewallPolicy} {l : List Call} {h hash : ContentHash} {kind : Kind}
  {payload payload' : ByteArray} {preview : String} {sensitive sensitive' : Bool} {lamport : UInt64}
  {r : DedupRing} {kind' : Kind} {folder : List String}
  {decodePng : ByteArray → Option (UInt32 × UInt32 × ByteArray)}

/-- What an event shows to the ring. -/
def shown (blake3 : ByteArray → ContentHash) (r : DedupRing) (e : Event) (wall : WallClock) :
    List DedupRing.Sighting :=
  match e with
  | .localClipboardChange hash .. => [.observeClipboard hash wall.unixMillis]
  | .frameReceivedClipboard _ kind payload _ _ _ resync _ =>
    if resync && r.contains (contentDigest blake3 kind payload) then []
    else [.observeClipboard (contentDigest blake3 kind payload) wall.unixMillis]
  | _ => []

def sightAll (r : DedupRing) (l : List DedupRing.Sighting) : DedupRing :=
  l.foldl (fun r s ↦ (r.sight s).1) r

theorem preTransition_dedup : (app.preTransition blake3 e wall).app.dedup =
    sightAll app.dedup (shown blake3 app.dedup e wall) := by
  cases e with
  | localClipboardChange hash kind payload preview sensitive lamport =>
    simp only [preTransition, shown, sightAll, List.foldl_cons, List.foldl_nil, DedupRing.sight]
    split
    · rfl
    · split <;> rfl
  | frameReceivedClipboard hash kind payload preview sensitive lamport resync p =>
    simp only [preTransition, shown]
    split
    · rfl
    · simp only [sightAll, List.foldl_cons, List.foldl_nil, DedupRing.sight]
      split
      · rfl
      · split <;> rfl
  | _ => simp only [preTransition, shown, sightAll, List.foldl_nil] <;> (repeat' split) <;> rfl

theorem gateItem_dedup {dir kind sensitive hash payload preview peerId} {actions : List Action} :
    (app.gateItem dir kind sensitive hash payload preview peerId actions).1.dedup = app.dedup := by
  rw [gateItem]
  split
  · rfl
  · rfl
  · rw [parkPending]
    split <;> rfl

theorem postTransition_dedup {p : Prelude} : (postTransition p e).1.dedup = p.app.dedup := by
  cases e with
  | localClipboardChange | frameReceivedClipboard => exact gateItem_dedup
  | _ => rfl

theorem handle_dedup : (app.handle blake3 e wall).1.dedup =
    sightAll app.dedup (shown blake3 app.dedup e wall) := by
  have hpre : (app.preTransition blake3 e wall).app.dedup = _ := preTransition_dedup
  cases e with
  | resolvePending hash allow =>
    rw [handle, resolvePending]
    split
    · rfl
    · split <;> rfl
  | peerSeen q name =>
    simp only [handle]
    split
    · rfl
    · split
      · exact hpre
      · exact postTransition_dedup.trans hpre
  | _ =>
    simp only [handle, Bool.false_eq_true, if_false]
    split
    · exact hpre
    · exact postTransition_dedup.trans hpre

/-- What a call shows to the ring, in this order. -/
def sightings (blake3 : ByteArray → ContentHash) (app : App) : Call → List DedupRing.Sighting
  | .handle e wall => shown blake3 app.dedup e wall
  | .restoreHistory items =>
    (((capHistoryKeepingFavorites items).take app.dedup.capacity).reverse.filterMap
      (hex32Decode ·.hash)).map .observe
  | _ => []

theorem call_dedup :
    (app.call blake3 c).1.dedup = sightAll app.dedup (sightings blake3 app c) := by
  cases c with
  | handle e wall => exact handle_dedup
  | restoreHistory items =>
    rw [sightings, sightAll, List.foldl_map]
    rfl
  | setHistoryRetention secs nowMs =>
    rw [call, setHistoryRetention]
    split
    · rw [Option.getD_some, expireHistory]
      split <;> rfl
    · rfl
  | expireHistory nowMs =>
    rw [call, expireHistory]
    split <;> rfl
  | markDelivered hash device =>
    simp only [call, markDelivered]
    split
    · rfl
    · split <;> rfl
  | setFirewall | setOtherLinkedPeers => rfl

/-- The ring as every `App` has it. -/
structure Ringed (r : DedupRing) : Prop where
  capacity : 0 < r.capacity
  length_le : r.inner.length ≤ r.capacity
  nodup : (r.inner.map (·.hash)).Nodup

theorem Ringed.sight {s : DedupRing.Sighting} (hr : Ringed r) : Ringed (r.sight s).1 := by
  cases hs : (r.sight s).2 with
  | false =>
    rw [DedupRing.sight_rejects hs]
    exact hr
  | true =>
    have hin := DedupRing.sight_accepts hr.capacity hr.length_le hr.nodup hs
    have hcap : (r.sight s).1.capacity = r.capacity := DedupRing.sight_capacity
    have hkept : ((r.inner.reverse.filter (·.hash ≠ s.entry.hash)).take
        (r.capacity - 1)).Sublist r.inner.reverse :=
      (List.take_sublist _ _).trans List.filter_sublist
    constructor
    · rw [hcap]
      exact hr.capacity
    · have hpos := hr.capacity
      rw [hcap, ← List.length_reverse, hin, List.length_cons, List.length_take]
      omega
    · rw [← List.nodup_reverse, ← List.map_reverse, hin, List.map_cons, List.nodup_cons]
      constructor
      · intro hmem
        obtain ⟨x, hx, hhash⟩ := List.mem_map.mp hmem
        have := (List.mem_filter.mp (List.mem_of_mem_take hx)).2
        simp [hhash] at this
      · apply List.Nodup.sublist (hkept.map _)
        rw [List.map_reverse]
        exact List.nodup_reverse.mpr hr.nodup

theorem Ringed.sightAll {l : List DedupRing.Sighting} (hr : Ringed r) : Ringed (sightAll r l) := by
  induction l generalizing r with
  | nil => exact hr
  | cons s l ih => exact ih hr.sight

theorem ringed_of_run (hr : Run (step blake3) Always (.new policy) l app) : Ringed app.dedup := by
  apply hr.invariant (I := fun app ↦ Ringed app.dedup)
  · exact ⟨Nat.succ_pos 49, Nat.zero_le _, List.nodup_nil⟩
  · intro app c app' hi _ hs
    cases hs
    rw [call_dedup]
    exact hi.sightAll

/-- No content is seen: nothing is copied, nothing arrives, no history is restored. -/
def Quiet (_ : App) : Call → Prop
  | .handle (.localClipboardChange ..) _ | .handle (.frameReceivedClipboard ..) _
  | .restoreHistory _ => False
  | _ => True

/-- Neither an item for the peers nor a row of the history comes of the event. -/
def Silent (blake3 : ByteArray → ContentHash) (app : App) (e : Event) (wall : WallClock) : Prop :=
  (∀ hash kind payload sensitive,
    .sendItem hash kind payload sensitive ∉ (app.handle blake3 e wall).2) ∧
  (app.handle blake3 e wall).1.state.history = app.state.history

theorem Quiet.dedup (hq : Quiet app c) : (app.call blake3 c).1.dedup = app.dedup := by
  have hnone : sightings blake3 app c = [] := by
    cases c with
    | handle e wall =>
      cases e with
      | localClipboardChange | frameReceivedClipboard => exact hq.elim
      | _ => rfl
    | restoreHistory items => exact hq.elim
    | _ => rfl
  rw [call_dedup, hnone]
  rfl

theorem dedup_of_quiet (hr : Run (step blake3) Quiet app l app') : app'.dedup = app.dedup := by
  apply hr.invariant (I := fun app' ↦ app'.dedup = app.dedup) rfl
  intro app₁ c app₂ hi hq hs
  cases hs
  exact hq.dedup.trans hi

theorem silent_of_echo (he : (app.dedup.observeClipboard hash wall.unixMillis).2 = false) :
    Silent blake3 app (.localClipboardChange hash kind payload preview sensitive lamport) wall := by
  constructor
  · intro hash' kind' payload' sensitive' hmem
    simp [handle, preTransition, he] at hmem
  · have hrec := recorded_edit blake3 app wall (.copy hash kind payload preview sensitive lamport)
    have hnone : app.admitted blake3 (.localClipboardChange hash kind payload preview sensitive
        lamport) wall = none := by simp [admitted, he]
    have hsame : app.edited blake3 wall (.copy hash kind payload preview sensitive lamport) =
        app.state.history := by
      simp only [edited, Edit.event, hnone]
    exact (congrArg Prod.fst hrec).trans hsame

theorem postTransition_sends {p : Prelude} (hlinked : p.app.phase = .linked)
    (hopen : p.app.firewall = {}) (hresync : p.suppressResyncApply = false) :
    .sendItem hash kind payload sensitive ∈ (postTransition p
      (.localClipboardChange hash kind payload preview sensitive lamport)).2 := by
  have hpass : p.app.firewall.decide kind sensitive .outbound = .pass := by
    rw [hopen]
    rfl
  simp only [postTransition, hlinked, transition, applyFirewall, gateItem, hpass, hresync,
    Bool.false_eq_true, if_false, alwaysEmits, if_true]
  rw [mem_ensureEmit]
  left
  split <;> split <;> simp [mem_ensureEmit, realBattery]

theorem sends_of_fresh (hlinked : app.phase = .linked) (hopen : app.firewall = {})
    (hf : (app.dedup.observeClipboard hash wall.unixMillis).2 = true) :
    .sendItem hash kind payload sensitive ∈ (app.handle blake3
      (.localClipboardChange hash kind payload preview sensitive lamport) wall).2 := by
  have hpre : (app.preTransition blake3 (.localClipboardChange hash kind payload preview sensitive
      lamport) wall).suppressAction = false ∧ (app.preTransition blake3 (.localClipboardChange hash
        kind payload preview sensitive lamport) wall).suppressResyncApply = false := by
    simp only [preTransition, hf]
    cases sensitive <;> exact ⟨rfl, rfl⟩
  simp only [handle, Bool.false_eq_true, if_false, hpre.1]
  exact postTransition_sends (preTransition_phase.trans hlinked)
    (preTransition_firewall.trans hopen) hpre.2

/-- Sync is switched off and on, a peer is met, and the policy lets everything pass. -/
def relink : List Call :=
  [.handle .toggleOff ⟨"", 0⟩, .handle .toggleOn ⟨"", 0⟩, .handle (.peerSeen 1 "") ⟨"", 0⟩,
    .handle .handshakeOk ⟨"", 0⟩, .setFirewall {}]

theorem relink_run (blake3 : ByteArray → ContentHash) (app : App) :
    ∃ app', Run (step blake3) Quiet app relink app' ∧ app'.phase = .linked ∧ app'.firewall = {} := by
  have hoff : ∀ a : App, (a.handle blake3 .toggleOff ⟨"", 0⟩).1.phase = .idle := by
    intro a
    cases hp : a.phase <;> simp [handle, preTransition, postTransition, hp, transition]
  have hon : ∀ a : App, a.phase = .idle →
      (a.handle blake3 .toggleOn ⟨"", 0⟩).1.phase = .discovering := by
    intro a hp
    simp [handle, preTransition, postTransition, hp, transition]
  have hseen : ∀ a : App, a.phase = .discovering →
      (a.handle blake3 (.peerSeen 1 "") ⟨"", 0⟩).1.phase = .handshaking := by
    intro a hp
    have hpre : (a.preTransition blake3 (.peerSeen 1 "") ⟨"", 0⟩).app.phase = a.phase :=
      preTransition_phase
    have hno : a.isPeerMismatch 1 = false := by simp [isPeerMismatch, hp]
    simp only [handle, hno, Bool.false_eq_true, if_false]
    split
    case isTrue hs => simp [preTransition] at hs
    case isFalse => rw [postTransition_phase, hpre, hp]; rfl
  have hok : ∀ a : App, a.phase = .handshaking →
      (a.handle blake3 .handshakeOk ⟨"", 0⟩).1.phase = .linked := by
    intro a hp
    simp [handle, preTransition, postTransition, hp, transition]
  have hrun : Run (step blake3) Always app relink _ := run_of_foldlM rfl
  refine ⟨_, (hrun.labels (p := fun c ↦ c ∈ relink) fun _ ↦ id).mono ?_, ?_, rfl⟩
  · intro _ c hc
    simp only [relink, List.mem_cons, List.not_mem_nil, or_false] at hc
    obtain rfl | rfl | rfl | rfl | rfl := hc <;> trivial
  · exact hok _ (hseen _ (hon _ (hoff app)))

def newest (r : DedupRing) : Option ContentHash := r.inner.reverse.head?.map (·.hash)

/-- What the ring has as its newest when a call hands out something for the clipboard: an item that
comes in was just seen, an item that is approved was seen when it was parked. -/
def lastSeen (blake3 : ByteArray → ContentHash) (app : App) : Call → Option ContentHash
  | .handle (.frameReceivedClipboard _ kind payload ..) _ =>
    some (contentDigest blake3 kind payload)
  | _ => newest app.dedup

theorem newest_of_fresh {t : UInt64} (hr : Ringed r) (hf : (r.observeClipboard h t).2 = true) :
    newest (r.observeClipboard h t).1 = some h := by
  have hin := DedupRing.sight_accepts (s := .observeClipboard h t) hr.capacity hr.length_le
    hr.nodup hf
  rw [newest]
  exact congrArg (fun l ↦ l.head?.map (·.hash)) hin

theorem no_write_of_copy : .writeClipboard kind payload sensitive ∉ (app.handle blake3
    (.localClipboardChange hash kind' payload' preview sensitive' lamport) wall).2 := by
  intro hw
  obtain hlinked | ⟨hash, p, he, -⟩ := handle_transfers hw rfl
  · simp only [handle, Bool.false_eq_true, if_false] at hw
    split at hw
    · simp at hw
    · have := postTransition_transfers hw rfl
      rw [preTransition_phase, hlinked] at this
      simp [transition] at this
  · cases he

theorem newest_of_write (hr : Ringed app.dedup)
    (hw : .writeClipboard kind payload sensitive ∈ (app.call blake3 c).2) :
    newest (app.call blake3 c).1.dedup = lastSeen blake3 app c := by
  rw [call_dedup]
  cases c with
  | handle e wall =>
    cases e with
    | localClipboardChange => exact absurd hw no_write_of_copy
    | frameReceivedClipboard hash kind payload preview sensitive lamport resync p =>
      have hfresh : (app.preTransition blake3 (.frameReceivedClipboard hash kind payload preview
          sensitive lamport resync p) wall).suppressAction = false := by
        by_contra hs
        rw [Bool.not_eq_false] at hs
        simp [call, handle, hs] at hw
      simp only [sightings, shown, lastSeen]
      simp only [preTransition] at hfresh
      split at hfresh
      · cases hfresh
      case isFalse hnew =>
        rw [if_neg hnew]
        split at hfresh
        · cases hfresh
        case isFalse hf => exact newest_of_fresh hr (by simpa using hf)
    | _ => rfl
  | restoreHistory items => cases hw
  | _ => rfl

/-- Valid text is read back under the digest it was kept by. -/
theorem polled_text {text : String} (hk : kind ≠ .image ∧ kind ≠ .file)
    (hp : String.fromUTF8? payload = some text) :
    (clipWrite decodePng folder kind payload).map (·.polled blake3) =
      some (contentDigest blake3 kind payload) := by
  have hwrite : clipWrite decodePng folder kind payload = some (.text text) := by
    cases kind with
    | image => exact absurd rfl hk.1
    | file => exact absurd rfl hk.2
    | _ => simp [clipWrite, fromUtf8Lossy, hp]
  rw [hwrite, contentDigest, if_neg (not_or.mpr hk), hp, Option.map_some, ClipWrite.polled,
    clipboardDedupHash, canonText_trim]

/-- So is a file that is saved under the name it was framed with. -/
theorem polled_file {name : String} {bytes : ByteArray} (hp : payload = File.encode name bytes)
    (hd : File.decode payload = some (name, bytes)) (hs : saveReceivedFile folder name = some name) :
    (clipWrite decodePng folder .file payload).map (·.polled blake3) =
      some (contentDigest blake3 .file payload) := by
  simp only [clipWrite, hd, Option.bind_some, hs, Option.map_some, ClipWrite.polled, ← hp]
  rw [contentDigest, if_pos (.inr rfl)]

/-- However late the read-back comes, with nothing else seen: it is silent exactly when its hash is
the last the ring saw, or one that was seen within the echo window. -/
theorem read_back_silent_iff (hr : Run (step blake3) Always (.new policy) l app)
    (hw : .writeClipboard kind payload sensitive ∈ (app.call blake3 c).2)
    (hh : (clipWrite decodePng folder kind payload).map (·.polled blake3) = some hash) :
    (∀ l' app', Run (step blake3) Quiet (app.call blake3 c).1 l' app' →
      Silent blake3 app' (.localClipboardChange hash kind' payload' preview sensitive' lamport)
        wall) ↔
      lastSeen blake3 app c = (clipWrite decodePng folder kind payload).map (·.polled blake3) ∨
        ∃ x ∈ (app.call blake3 c).1.dedup.inner, x.hash = hash ∧
          DedupRing.Entry.recent x wall.unixMillis := by
  have hring := ringed_of_run hr
  have hring' : Ringed (app.call blake3 c).1.dedup := by
    rw [call_dedup]
    exact hring.sightAll
  have hecho := DedupRing.duplicate_iff (h := hash) (t := wall.unixMillis) hring'.nodup
  rw [hh, ← newest_of_write hring hw, newest, ← hecho]
  constructor
  · intro hsilent
    obtain ⟨app', hrun, hlinked, hopen⟩ := relink_run blake3 (app.call blake3 c).1
    by_contra hfresh
    rw [Bool.not_eq_false, ← dedup_of_quiet hrun] at hfresh
    exact (hsilent _ _ hrun).1 _ _ _ _ (sends_of_fresh hlinked hopen hfresh)
  · intro he l' app' hrun
    rw [← dedup_of_quiet hrun] at he
    exact silent_of_echo he

/-- A stand-in for the digest: the last 32 bytes. -/
def lastBytes (b : ByteArray) : ContentHash :=
  b.data.toList.foldl (fun h x ↦ h * 256 + BitVec.ofNat 256 x.toNat) 0

def hi : ByteArray := ⟨#[104, 105]⟩

def hiArrives : Call :=
  .handle (.frameReceivedClipboard (lastBytes hi) .text hi "hi" false 0 false 1) noon

def later : WallClock := ⟨"12:00", 1006000⟩

theorem read_back_silent_iff_hi :
    ∃ app, Run (step lastBytes) Always (.new {}) link app ∧
      ∀ l' app', Run (step lastBytes) Quiet (app.call lastBytes hiArrives).1 l' app' →
        Silent lastBytes app' (.localClipboardChange (lastBytes hi) .text hi "hi" false 0) later := by
  have hrun : Run (step lastBytes) Always (.new {}) link _ := run_of_isSome (by decide +kernel)
  have hpolled : (clipWrite (fun _ ↦ none) [] .text hi).map (·.polled lastBytes) =
      some (lastBytes hi) := by decide +kernel
  exact ⟨_, hrun, (read_back_silent_iff hrun
    (show Action.writeClipboard .text hi false ∈ _ by decide +kernel) hpolled).mpr
      (.inl (by decide +kernel))⟩

/-- One black pixel. -/
def pixelPng : ByteArray :=
  ⟨#[137, 80, 78, 71, 13, 10, 26, 10, 0, 0, 0, 13, 73, 72, 68, 82, 0, 0, 0, 1, 0, 0, 0, 1, 8, 6, 0,
    0, 0, 31, 21, 196, 137, 0, 0, 0, 13, 73, 68, 65, 84, 120, 156, 99, 96, 96, 96, 248, 15, 0, 1, 4,
    1, 0, 95, 229, 195, 75, 0, 0, 0, 0, 73, 69, 78, 68, 174, 66, 96, 130]⟩

def decodePixel (payload : ByteArray) : Option (UInt32 × UInt32 × ByteArray) :=
  if payload.data = pixelPng.data then some (1, 1, ⟨#[0, 0, 0, 255]⟩) else none

def pixelHash : ContentHash := imageRgbaHash lastBytes 1 1 ⟨#[0, 0, 0, 255]⟩

def pixelArrives : Call :=
  .handle (.frameReceivedClipboard pixelHash .image pixelPng "Image, 1 KB" false 0 false 1) noon

/-- The ring keeps an image by its file, the watcher knows it by its pixels. -/
theorem image_read_back_sent :
    ∃ app, Run (step lastBytes) Always (.new {}) link app ∧
      .writeClipboard .image pixelPng false ∈ (app.call lastBytes pixelArrives).2 ∧
      (clipWrite decodePixel [] .image pixelPng).map (·.polled lastBytes) = some pixelHash ∧
      .sendItem pixelHash .image pixelPng false ∈ ((app.call lastBytes pixelArrives).1.handle
        lastBytes (.localClipboardChange pixelHash .image pixelPng "Image 1x1, 1 KB" false 0)
          later).2 ∧
      (((app.call lastBytes pixelArrives).1.handle lastBytes (.localClipboardChange pixelHash .image
        pixelPng "Image 1x1, 1 KB" false 0) later).1.state.history.map (·.hash)) =
          [hex32 pixelHash, hex32 pixelHash] := by
  have hrun : Run (step lastBytes) Always (.new {}) link _ := run_of_isSome (by decide +kernel)
  exact ⟨_, hrun, by decide +kernel⟩

end App

end FluxSync
