import Mathlib.Data.List.DropRight
import FluxSync.Core.Text

/-! ## The framing of file payloads

The file's name travels with its bytes: the length of the name in two bytes, the name, the bytes. -/

namespace FluxSync.Proto.File

variable {c : Char} {l : List Char} {n : ℕ} {name : String} {bytes : ByteArray}

def MAX_NAME : ℕ := 255

/-- The longest prefix of at most `n` bytes, as popping the last character leaves it. -/
def cutName : ℕ → List Char → List Char
  | _, [] => []
  | n, c :: l => if c.utf8Size ≤ n then c :: cutName (n - c.utf8Size) l else []

def cleanChar (c : Char) : Char :=
  if c.toNat < 32 ∨ 127 ≤ c.toNat ∧ c.toNat < 160 ∨ c ∈ [':', '*', '?', '\x22', '<', '>', '|'] then
    '_'
  else c

/-- `sanitize` up to its last loop. -/
def stripped (name : String) : List Char :=
  let base := name.toList.rtakeWhile fun c ↦ c ≠ '/' ∧ c ≠ '\\'
  let clean := (trimChars (base.map cleanChar)).dropWhile (· = '.')
  if clean = [] then ['f', 'i', 'l', 'e'] else clean

/-- No directory part, no control character, not empty or a dot-name. -/
def sanitize (name : String) : String := .ofList (cutName MAX_NAME (stripped name))

def encode (name : String) (bytes : ByteArray) : ByteArray :=
  let name := (sanitize name).toUTF8
  ⟨#[UInt8.ofNat (name.size / 256), UInt8.ofNat name.size]⟩ ++ name ++ bytes

def decode (payload : ByteArray) : Option (String × ByteArray) :=
  match payload.data.toList with
  | hi :: lo :: rest =>
    let len := hi.toNat * 256 + lo.toNat
    if len ≤ rest.length then
      (String.fromUTF8? ⟨(rest.take len).toArray⟩).map fun name ↦
        (sanitize name, ⟨(rest.drop len).toArray⟩)
    else none
  | _ => none

theorem cutName_isInitial : cutName n l <+: l := by
  induction l generalizing n with
  | nil => exact List.prefix_rfl
  | cons c l ih =>
    rw [cutName]
    split
    · exact List.prefix_cons_iff.mpr (.inr ⟨_, rfl, ih⟩)
    · exact List.nil_prefix

theorem sum_cutName : ((cutName n l).map Char.utf8Size).sum ≤ n := by
  induction l generalizing n with
  | nil => exact Nat.zero_le n
  | cons c l ih =>
    rw [cutName]
    split
    · have := ih (n := n - c.utf8Size)
      rw [List.map_cons, List.sum_cons]
      omega
    · exact Nat.zero_le n

theorem cutName_of_sum_le (h : (l.map Char.utf8Size).sum ≤ n) : cutName n l = l := by
  induction l generalizing n with
  | nil => rfl
  | cons c l ih =>
    rw [List.map_cons, List.sum_cons] at h
    rw [cutName, if_pos (by omega), ih (by omega)]

theorem head?_cutName (h : 4 ≤ n) : (cutName n l).head? = l.head? := by
  cases l with
  | nil => rfl
  | cons c l =>
    have := c.utf8Size_le_four
    rw [cutName, if_pos (by omega)]
    rfl

/-- A character that `sanitize` keeps as it is. -/
def Kept (c : Char) : Prop := cleanChar c = c ∧ c ≠ '/' ∧ c ≠ '\\'

theorem kept_cleanChar (h : c ≠ '/' ∧ c ≠ '\\') : Kept (cleanChar c) := by
  by_cases hc : cleanChar c = c
  · rw [hc]
    exact ⟨hc, h⟩
  · have hunder : cleanChar c = '_' := by
      rw [cleanChar] at hc ⊢
      split
      · rfl
      case isFalse hno => exact absurd (if_neg hno) hc
    rw [hunder]
    exact ⟨rfl, by decide⟩

theorem trimChars_sublist : (trimChars l).Sublist l := by
  have h : ((l.dropWhile isWhitespace).reverse.dropWhile isWhitespace).reverse.Sublist
      (l.dropWhile isWhitespace).reverse.reverse := (List.dropWhile_sublist _).reverse
  rw [List.reverse_reverse] at h
  exact h.trans (List.dropWhile_sublist _)

theorem stripped_kept : ∀ c ∈ stripped name, Kept c := by
  intro c hc
  rw [stripped] at hc
  split at hc
  · simp only [List.mem_cons, List.not_mem_nil, or_false] at hc
    rcases hc with rfl | rfl | rfl | rfl <;> exact ⟨rfl, by decide⟩
  · have hmem := trimChars_sublist.subset ((List.dropWhile_sublist _).subset hc)
    obtain ⟨d, hd, rfl⟩ := List.mem_map.mp hmem
    exact kept_cleanChar (by simpa using List.mem_rtakeWhile_imp hd)

theorem stripped_ne_nil : stripped name ≠ [] := by
  rw [stripped]
  split
  · exact List.cons_ne_nil _ _
  · assumption

theorem stripped_head (hc : c ∈ (stripped name).head?) : c ≠ '.' := by
  rw [stripped] at hc
  split at hc
  · cases hc
    decide
  · have := List.head?_dropWhile_not (fun c : Char ↦ decide (c = '.')) (trimChars
      ((name.toList.rtakeWhile fun c ↦ c ≠ '/' ∧ c ≠ '\\').map cleanChar))
    simp_all

/-- What a second `sanitize` does to a name of kept characters. -/
theorem stripped_ofList (hl : ∀ c ∈ l, Kept c) :
    stripped (.ofList l) =
      if (trimChars l).dropWhile (· = '.') = [] then ['f', 'i', 'l', 'e']
      else (trimChars l).dropWhile (· = '.') := by
  have hbase : l.rtakeWhile (fun c ↦ c ≠ '/' ∧ c ≠ '\\') = l :=
    List.rtakeWhile_eq_self_iff.mpr fun c hc ↦ by simpa using (hl c hc).2
  have hclean : l.map cleanChar = l := by
    rw [List.map_congr_left fun c hc ↦ (hl c hc).1, List.map_id']
  rw [stripped, String.toList_ofList, hbase, hclean]

theorem trimChars_eq_self (hhead : ∀ c ∈ l.head?, ¬ isWhitespace c)
    (hlast : ∀ c ∈ l.getLast?, ¬ isWhitespace c) : trimChars l = l := by
  have hdrop (l : List Char) (h : ∀ c ∈ l.head?, ¬ isWhitespace c) :
      l.dropWhile isWhitespace = l := by
    cases l with
    | nil => rfl
    | cons c l => rw [List.dropWhile_cons_of_neg (h c rfl)]
  rw [trimChars, hdrop l hhead, hdrop l.reverse, List.reverse_reverse]
  rwa [List.head?_reverse]

theorem of_trimChars_eq_self (h : trimChars l = l) :
    (∀ c ∈ l.head?, ¬ isWhitespace c) ∧ ∀ c ∈ l.getLast?, ¬ isWhitespace c := by
  have hdrop (l : List Char) (h : (l.dropWhile isWhitespace).length = l.length) :
      ∀ c ∈ l.head?, ¬ isWhitespace c := by
    intro c hc hw
    cases l with
    | nil => cases hc
    | cons d l =>
      cases hc
      have := (List.dropWhile_sublist isWhitespace (l := l)).length_le
      rw [List.dropWhile_cons_of_pos hw, List.length_cons] at h
      omega
  have hlen : (trimChars l).length = l.length := by rw [h]
  have houter := (List.dropWhile_sublist isWhitespace (l := l)).length_le
  have hinner :=
    (List.dropWhile_sublist isWhitespace (l := (l.dropWhile isWhitespace).reverse)).length_le
  rw [trimChars, List.length_reverse] at hlen
  rw [List.length_reverse] at hinner
  have hself : l.dropWhile isWhitespace = l :=
    (List.dropWhile_sublist isWhitespace).eq_of_length (by omega)
  rw [hself] at hlen
  refine ⟨hdrop l (by rw [hself]), ?_⟩
  rw [← List.head?_reverse]
  exact hdrop l.reverse (by rw [hlen, List.length_reverse])

/-- The name behind its leading dots, when it is otherwise clean. -/
def undotted (name : String) : List Char :=
  (trimChars ((name.toList.rtakeWhile fun c ↦ c ≠ '/' ∧ c ≠ '\\').map cleanChar)).dropWhile (· = '.')

def bytesOf (l : List Char) : ℕ := (l.map Char.utf8Size).sum

/-- No whitespace stands behind the leading dots of the name, and where it is too long none is
the last character that has room. -/
structure Settled (name : String) : Prop where
  head : ∀ c ∈ (undotted name).head?, ¬ isWhitespace c
  cut : ∀ pre w c rest, undotted name = pre ++ w :: c :: rest → bytesOf (pre ++ [w]) ≤ MAX_NAME →
    MAX_NAME < bytesOf (pre ++ [w, c]) → ¬ isWhitespace w

theorem stripped_eq :
    stripped name = if undotted name = [] then ['f', 'i', 'l', 'e'] else undotted name := rfl

theorem cutName_append {rest : List Char} (h : bytesOf l ≤ n) (hc : n < bytesOf (l ++ [c])) :
    cutName n (l ++ c :: rest) = l := by
  induction l generalizing n with
  | nil =>
    simp only [bytesOf, List.nil_append, List.map_cons, List.map_nil, List.sum_singleton] at hc
    rw [List.nil_append, cutName, if_neg (by omega)]
  | cons d l ih =>
    simp only [bytesOf, List.cons_append, List.map_cons, List.sum_cons] at h hc
    rw [List.cons_append, cutName, if_pos (by omega), ih (by rw [bytesOf]; omega)]
    rw [bytesOf]
    omega

/-- What is cut off starts with a character that has no room. -/
theorem cutName_split (n : ℕ) (l : List Char) : cutName n l = l ∨
    ∃ c rest, l = cutName n l ++ c :: rest ∧ n < bytesOf (cutName n l ++ [c]) := by
  induction l generalizing n with
  | nil => exact .inl rfl
  | cons d l ih =>
    rw [cutName]
    split
    case isFalse h =>
      refine .inr ⟨d, l, rfl, ?_⟩
      simpa [bytesOf] using h
    case isTrue h =>
      rcases ih (n - d.utf8Size) with hself | ⟨c, rest, hl, hc⟩
      · exact .inl (by rw [hself])
      · refine .inr ⟨c, rest, congrArg (d :: ·) hl, ?_⟩
        simp only [bytesOf, List.cons_append, List.map_cons, List.sum_cons] at hc ⊢
        omega

theorem trimChars_getLast (hc : c ∈ (trimChars l).getLast?) : ¬ isWhitespace c := by
  rw [trimChars, List.getLast?_reverse] at hc
  have h := List.head?_dropWhile_not isWhitespace (l.dropWhile isWhitespace).reverse
  rw [hc] at h
  simpa using h

theorem undotted_getLast (hc : c ∈ (undotted name).getLast?) : ¬ isWhitespace c := by
  obtain ⟨pre, hpre⟩ := List.dropWhile_suffix (l := trimChars
    ((name.toList.rtakeWhile fun c ↦ c ≠ '/' ∧ c ≠ '\\').map cleanChar)) (fun c : Char ↦ decide (c = '.'))
  apply trimChars_getLast (l := (name.toList.rtakeWhile fun c ↦ c ≠ '/' ∧ c ≠ '\\').map cleanChar)
  rw [← hpre, List.getLast?_append]
  rw [Option.mem_def, undotted] at hc
  rw [hc]
  rfl

/-- The condition on the name is one on what is left of it. -/
theorem settled_iff : Settled name ↔
    (∀ c ∈ (stripped name).head?, ¬ isWhitespace c) ∧
      ∀ c ∈ (cutName MAX_NAME (stripped name)).getLast?, ¬ isWhitespace c := by
  rw [stripped_eq]
  split
  case isTrue hnil =>
    constructor
    · intro _
      rw [cutName_of_sum_le (by decide)]
      constructor <;> simp [isWhitespace]
    · intro _
      constructor
      · simp [hnil]
      · simp [hnil]
  case isFalse hne =>
    constructor
    · intro hs
      refine ⟨hs.head, fun w hw ↦ ?_⟩
      rcases cutName_split MAX_NAME (undotted name) with hself | ⟨c, rest, hl, hc⟩
      · rw [hself] at hw
        exact undotted_getLast hw
      · obtain ⟨pre, hpre⟩ := List.getLast?_eq_some_iff.mp hw
        have hfit : bytesOf (cutName MAX_NAME (undotted name)) ≤ MAX_NAME := sum_cutName
        rw [hpre] at hl hc hfit
        exact hs.cut pre w c rest (by simpa using hl) hfit (by simpa using hc)
    · intro hs
      refine ⟨hs.1, fun pre w c rest hl hfit hc ↦ hs.2 w ?_⟩
      have hcut : cutName MAX_NAME (undotted name) = pre ++ [w] := by
        rw [hl, List.append_cons]
        exact cutName_append hfit (by simpa using hc)
      rw [hcut]
      simp

theorem sanitize_sanitize_iff : sanitize (sanitize name) = sanitize name ↔ Settled name := by
  let l := cutName MAX_NAME (stripped name)
  have hpre : l <+: stripped name := cutName_isInitial
  have hkept : ∀ c ∈ l, Kept c := fun c hc ↦ stripped_kept c (hpre.subset hc)
  have hhead : l.head? = (stripped name).head? := head?_cutName (by decide)
  have hdots : l.dropWhile (· = '.') = l := by
    cases hl : l with
    | nil => rfl
    | cons c l' =>
      have hc : c ∈ (stripped name).head? := by
        rw [← hhead, hl]
        rfl
      rw [List.dropWhile_cons_of_neg (by simpa using stripped_head hc)]
  have hne : l ≠ [] := by
    intro hnil
    rw [hnil] at hhead
    exact stripped_ne_nil (List.head?_eq_none_iff.mp hhead.symm)
  have hagain := stripped_ofList hkept
  have hsettled : Settled name ↔ trimChars l = l := by
    rw [settled_iff, ← hhead]
    exact ⟨fun h ↦ trimChars_eq_self h.1 h.2, of_trimChars_eq_self⟩
  rw [hsettled]
  constructor
  · intro h
    have hchars : cutName MAX_NAME (stripped (.ofList l)) = l := by
      have := congrArg String.toList h
      simpa only [sanitize, String.toList_ofList] using this
    by_contra htrim
    have hlt : (trimChars l).length < l.length := by
      refine lt_of_le_of_ne trimChars_sublist.length_le fun hlen ↦ ?_
      exact htrim (trimChars_sublist.eq_of_length hlen)
    rw [hagain] at hchars
    split at hchars
    · have hfile : l = ['f', 'i', 'l', 'e'] := hchars.symm
      rw [hfile] at htrim
      exact htrim (by decide)
    · have hshort : (cutName MAX_NAME ((trimChars l).dropWhile (· = '.'))).length ≤
          (trimChars l).length :=
        (cutName_isInitial.length_le).trans (List.dropWhile_sublist _).length_le
      rw [hchars] at hshort
      omega
  · intro htrim
    rw [htrim, hdots, if_neg hne] at hagain
    have hcut : cutName MAX_NAME l = l := cutName_of_sum_le sum_cutName
    show String.ofList (cutName MAX_NAME (stripped (.ofList l))) = .ofList l
    rw [hagain, hcut]

theorem utf8ByteSize_ofList (l : List Char) :
    (String.ofList l).utf8ByteSize = (l.map Char.utf8Size).sum := by
  induction l with
  | nil => rfl
  | cons c l ih =>
    rw [String.ofList_cons, String.utf8ByteSize_append, String.utf8ByteSize_singleton, ih,
      List.map_cons, List.sum_cons]

theorem size_sanitize : (sanitize name).toUTF8.size ≤ 255 :=
  (utf8ByteSize_ofList _).trans_le sum_cutName

theorem fromUTF8?_toUTF8 (s : String) : String.fromUTF8? s.toUTF8 = some s := by
  have hvalid : s.toUTF8.IsValidUTF8 := s.isValidUTF8
  rw [String.fromUTF8?, dif_pos hvalid]
  rfl

theorem two_bytes {n : ℕ} (h : n ≤ 255) :
    (UInt8.ofNat (n / 256)).toNat * 256 + (UInt8.ofNat n).toNat = n := by
  rw [UInt8.toNat_ofNat', UInt8.toNat_ofNat']
  omega

theorem decode_framed {s : String} (h : s.toUTF8.size ≤ 255) :
    decode (⟨#[UInt8.ofNat (s.toUTF8.size / 256), UInt8.ofNat s.toUTF8.size]⟩ ++ s.toUTF8 ++ bytes) =
      some (sanitize s, bytes) := by
  have hlist : (⟨#[UInt8.ofNat (s.toUTF8.size / 256), UInt8.ofNat s.toUTF8.size]⟩ ++ s.toUTF8 ++
      bytes : ByteArray).data.toList =
      UInt8.ofNat (s.toUTF8.size / 256) :: UInt8.ofNat s.toUTF8.size ::
        (s.toUTF8.data.toList ++ bytes.data.toList) := by
    simp [ByteArray.data_append]
  have hlen : s.toUTF8.data.toList.length = s.toUTF8.size := Array.length_toList
  rw [decode, hlist]
  dsimp only
  rw [two_bytes h, if_pos (by rw [List.length_append, hlen]; exact Nat.le_add_right _ _),
    List.take_left' hlen, List.drop_left' hlen, Array.toArray_toList, Array.toArray_toList,
    fromUTF8?_toUTF8, Option.map_some]

/-- What the receiver reads is what was framed, under the name sanitized once more. -/
theorem decode_encode : decode (encode name bytes) = some (sanitize (sanitize name), bytes) :=
  decode_framed size_sanitize

theorem decode_encode_iff :
    decode (encode name bytes) = some (sanitize name, bytes) ↔ Settled name := by
  rw [decode_encode, ← sanitize_sanitize_iff, Option.some.injEq, Prod.mk.injEq]
  exact and_iff_left rfl

/-- The space behind the dot goes only the second time. -/
theorem dotted_name_changes :
    sanitize ". x" = " x" ∧ decode (encode ". x" ⟨#[7]⟩) = some ("x", ⟨#[7]⟩) := by
  decide +kernel

end FluxSync.Proto.File
