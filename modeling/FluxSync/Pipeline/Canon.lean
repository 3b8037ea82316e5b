import FluxSync.Core.ReadBack
import FluxSync.Pipeline.Node

namespace FluxSync.Pipeline

open Proto

variable {env : Env} {c : Char} {l before after : List Char} {kind : Kind}

/-- The line ends that a clipboard may come back with. -/
inductive LineEnd
  | lf
  | crlf
  | cr
  deriving DecidableEq

def LineEnd.chars : LineEnd → List Char
  | .lf => ['\n']
  | .crlf => ['\r', '\n']
  | .cr => ['\r']

/-- The text with each of its line breaks written as `e`. -/
def LineEnd.render (e : LineEnd) (l : List Char) : List Char :=
  l.flatMap fun c ↦ if c = '\n' then e.chars else [c]

theorem trimChars_padding (hb : ∀ c ∈ before, isWhitespace c) (ha : ∀ c ∈ after, isWhitespace c) :
    trimChars (before ++ l ++ after) = trimChars l := by
  rw [trimChars_append ha]
  induction before with
  | nil => rfl
  | cons c before ih =>
    have hc : isWhitespace c := hb c List.mem_cons_self
    rw [List.cons_append, trimChars_cons hc]
    exact ih fun d hd ↦ hb d (List.mem_cons_of_mem c hd)

/-- A return at the end of the padding does not join the text's first line break:
both are trimmed. -/
theorem canonChars_padding (hb : ∀ c ∈ before, isWhitespace c) (ha : ∀ c ∈ after, isWhitespace c) :
    canonChars (before ++ l ++ after) = canonChars l := by
  rw [← canonChars_trimChars, trimChars_padding hb ha, canonChars_trimChars]

theorem lfChars_cons (hc : c ≠ '\r') : lfChars (c :: l) = c :: lfChars l := by
  rw [lfChars, crlfToLf_cons fun h ↦ hc h.1, List.map_cons, if_neg hc]
  rfl

theorem lfChars_return (hl : l.head? ≠ some '\n') : lfChars ('\r' :: l) = '\n' :: lfChars l := by
  rw [lfChars, crlfToLf_cons fun h ↦ hl h.2, List.map_cons, if_pos rfl]
  rfl

theorem render_cons (e : LineEnd) :
    e.render (c :: l) = (if c = '\n' then e.chars else [c]) ++ e.render l := rfl

/-- With lone returns for line breaks no line feed is left to join one. -/
theorem head?_render_cr : (LineEnd.cr.render l).head? ≠ some '\n' := by
  cases l with
  | nil => simp [LineEnd.render]
  | cons c l =>
    rw [render_cons]
    by_cases hc : c = '\n'
    · simp [LineEnd.chars, hc]
    · simp [hc]

theorem lfChars_render (e : LineEnd) (hl : '\r' ∉ l) : lfChars (e.render l) = l := by
  induction l with
  | nil => rfl
  | cons c l ih =>
    have hc : c ≠ '\r' := fun h ↦ hl (h ▸ List.mem_cons_self)
    have hrest : lfChars (e.render l) = l := ih fun h ↦ hl (List.mem_cons_of_mem c h)
    rw [render_cons]
    by_cases hn : c = '\n'
    · rw [if_pos hn, hn]
      cases e with
      | lf => exact (lfChars_cons (by decide)).trans (congrArg _ hrest)
      | crlf => exact congrArg ('\n' :: ·) hrest
      | cr => exact (lfChars_return head?_render_cr).trans (congrArg _ hrest)
    · rw [if_neg hn]
      exact (lfChars_cons hc).trans (congrArg _ hrest)

theorem canonChars_render (e : LineEnd) (hl : '\r' ∉ l) : canonChars (e.render l) = trimChars l :=
  congrArg trimChars (lfChars_render e hl)

theorem render_lf : LineEnd.lf.render l = l := by
  induction l with
  | nil => rfl
  | cons c l ih =>
    rw [render_cons, ih]
    split
    case isTrue hc =>
      rw [hc]
      rfl
    case isFalse => rfl

theorem canonChars_of_no_return (hl : '\r' ∉ l) : canonChars l = trimChars l := by
  have h := canonChars_render .lf hl
  rwa [render_lf] at h

theorem no_return_canonChars : '\r' ∉ canonChars l := by
  intro h
  obtain ⟨c, -, hc⟩ := List.mem_map.mp (File.trimChars_sublist.subset h)
  split at hc
  case isTrue => cases hc
  case isFalse hne => exact hne hc

theorem trimChars_head (hc : c ∈ (trimChars l).head?) : ¬ isWhitespace c := by
  have hpre : trimChars l <+: l.dropWhile isWhitespace := by
    rw [← List.reverse_reverse (l.dropWhile isWhitespace)]
    exact List.reverse_prefix.mpr (List.dropWhile_suffix _)
  have hhead : (l.dropWhile isWhitespace).head? = some c := by
    obtain ⟨rest, hrest⟩ := hpre
    rw [← hrest, List.head?_append, hc]
    rfl
  have h := List.head?_dropWhile_not isWhitespace l
  rw [hhead] at h
  simpa using h

theorem trimChars_idem : trimChars (trimChars l) = trimChars l :=
  File.trimChars_eq_self (fun _ hc ↦ trimChars_head hc) fun _ hc ↦ File.trimChars_getLast hc

theorem canonChars_idem : canonChars (canonChars l) = canonChars l := by
  rw [canonChars_of_no_return no_return_canonChars]
  exact trimChars_idem

/-- What the receiver accepts for an item that is no image is the digest the core recomputes. -/
theorem verifyContentHash_iff {payload : List UInt8} {claimed : ContentHash} (hk : kind ≠ .image) :
    verifyContentHash env kind payload claimed = true ↔
      claimed = App.contentDigest env.blake3 kind ⟨payload.toArray⟩ := by
  cases kind with
  | image => exact absurd rfl hk
  | text | url | code | file => exact beq_iff_eq.trans eq_comm

theorem contentDigest_text {payload : ByteArray} {text : String} (hk : kind ≠ .image ∧ kind ≠ .file)
    (ht : String.fromUTF8? payload = some text) :
    App.contentDigest env.blake3 kind payload = clipboardDedupHash env.blake3 text := by
  rw [App.contentDigest, if_neg (not_or.mpr hk), ht]
  rfl

theorem contentDigest_invalid {payload : ByteArray} (hk : kind ≠ .image ∧ kind ≠ .file)
    (ht : String.fromUTF8? payload = none) :
    App.contentDigest env.blake3 kind payload = env.blake3 payload := by
  rw [App.contentDigest, if_neg (not_or.mpr hk), ht]

/-- The canonical form depends on no line end and no outer whitespace. The sender, the receiver's
check and the core's ring go by its hash, and for bytes that are no text by theirs. -/
theorem text_hashes_agree (env : Env) :
    (∀ s, canonText (canonText s) = canonText s) ∧
    (∀ (s : String) (e : LineEnd) (before after : List Char), '\r' ∉ s.toList →
      (∀ c ∈ before, isWhitespace c) → (∀ c ∈ after, isWhitespace c) →
      canonText (.ofList (before ++ e.render s.toList ++ after)) = canonText s) ∧
    ∀ kind, kind ≠ .image ∧ kind ≠ .file → ∀ payload : List UInt8, ∃ digest,
      (∀ text, String.fromUTF8? ⟨payload.toArray⟩ = some text →
        digest = clipboardDedupHash env.blake3 text) ∧
      (String.fromUTF8? ⟨payload.toArray⟩ = none → digest = env.blake3 ⟨payload.toArray⟩) ∧
      (∀ claimed, verifyContentHash env kind payload claimed = true ↔ claimed = digest) ∧
      ∀ (app : App) hash preview sensitive lamport resync peer wall,
        (app.handle env.blake3 (.frameReceivedClipboard hash kind ⟨payload.toArray⟩ preview
          sensitive lamport resync peer) wall).1.dedup =
            if resync && app.dedup.contains digest then app.dedup
            else (app.dedup.observeClipboard digest wall.unixMillis).1 := by
  refine ⟨fun s ↦ ?_, fun s e before after hs hb ha ↦ ?_, fun kind hk payload ↦ ?_⟩
  · rw [canonText, canonText, String.toList_ofList, canonChars_idem]
  · rw [canonText, canonText, String.toList_ofList, canonChars_padding hb ha,
      canonChars_render e hs, canonChars_of_no_return hs]
  · refine ⟨App.contentDigest env.blake3 kind ⟨payload.toArray⟩, ?_, ?_, ?_, ?_⟩
    · exact fun text ht ↦ contentDigest_text hk ht
    · exact fun ht ↦ contentDigest_invalid hk ht
    · exact fun claimed ↦ verifyContentHash_iff hk.1
    · intro app hash preview sensitive lamport resync peer wall
      rw [App.handle_dedup, App.shown]
      split <;> rfl

end FluxSync.Pipeline
