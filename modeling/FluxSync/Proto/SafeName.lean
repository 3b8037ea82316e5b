import FluxSync.Proto.File

namespace FluxSync.Proto.File

variable {c : Char} {l : List Char} {n : ℕ} {name : String} {payload : ByteArray}

/-- `char::is_control`. -/
def isControl (c : Char) : Prop := c.toNat < 32 ∨ 127 ≤ c.toNat ∧ c.toNat < 160

def RESERVED : List Char := [':', '*', '?', '\x22', '<', '>', '|']

/-- A name that can be created in any folder and is no hidden file there. -/
structure Safe (name : String) : Prop where
  nonempty : name ≠ ""
  valid : name.toUTF8.IsValidUTF8
  short : name.toUTF8.size ≤ 255
  plain : ∀ c ∈ name.toList, ¬ isControl c ∧ c ∉ RESERVED ∧ c ≠ '/' ∧ c ≠ '\\'
  undotted : name.toList.head? ≠ some '.'

/-- The last loop of `sanitize`: it pops a character for as long as the name is too long. -/
def popped (l : List Char) : List Char :=
  if MAX_NAME < bytesOf l then popped l.dropLast else l
termination_by l.length
decreasing_by
  rename_i h
  have hne : l ≠ [] := by
    rintro rfl
    exact Nat.not_lt_zero _ h
  have hpos : 0 < l.length := List.length_pos_of_ne_nil hne
  rw [List.length_dropLast]
  omega

theorem cutName_dropLast (h : n < bytesOf l) : cutName n l.dropLast = cutName n l := by
  induction l generalizing n with
  | nil => rfl
  | cons c l ih =>
    simp only [bytesOf, List.map_cons, List.sum_cons] at h ih
    cases l with
    | nil =>
      have hc : ¬ c.utf8Size ≤ n := by simpa using h
      rw [List.dropLast_singleton, cutName, cutName, if_neg hc]
    | cons d l =>
      rw [List.dropLast_cons_of_ne_nil (List.cons_ne_nil d l), cutName, cutName]
      split
      case isTrue hc => rw [ih (by omega)]
      case isFalse => rfl

/-- The loop ends with the longest prefix that has room. -/
theorem popped_eq_cutName : popped l = cutName MAX_NAME l := by
  induction l using popped.induct with
  | case1 l h ih =>
    rw [popped, if_pos h, ih]
    exact cutName_dropLast h
  | case2 l h =>
    rw [popped, if_neg h]
    exact (cutName_of_sum_le (Nat.not_lt.mp h)).symm

theorem plain_of_cleanChar (h : cleanChar c = c) (hc : c ≠ '_') :
    ¬ isControl c ∧ c ∉ RESERVED := by
  rw [cleanChar] at h
  split at h
  case isTrue => exact absurd h.symm hc
  case isFalse hno => exact ⟨fun hctl ↦ hno (or_assoc.mp (.inl hctl)), fun hres ↦ hno (.inr (.inr hres))⟩

theorem Kept.plain (h : Kept c) : ¬ isControl c ∧ c ∉ RESERVED ∧ c ≠ '/' ∧ c ≠ '\\' := by
  by_cases hc : c = '_'
  · rw [hc]
    exact ⟨by simp [isControl], by decide⟩
  · obtain ⟨hctl, hres⟩ := plain_of_cleanChar h.1 hc
    exact ⟨hctl, hres, h.2⟩

theorem sanitize_safe (name : String) : Safe (sanitize name) := by
  have hpre : cutName MAX_NAME (stripped name) <+: stripped name := cutName_isInitial
  have hhead : (cutName MAX_NAME (stripped name)).head? = (stripped name).head? :=
    head?_cutName (by decide)
  have hchars : (sanitize name).toList = cutName MAX_NAME (stripped name) :=
    String.toList_ofList
  constructor
  case nonempty =>
    intro hempty
    rw [hempty] at hchars
    rw [← hchars] at hhead
    exact stripped_ne_nil (List.head?_eq_none_iff.mp hhead.symm)
  case valid => exact (sanitize name).isValidUTF8
  case short => exact size_sanitize
  case plain =>
    intro c hc
    rw [hchars] at hc
    exact (stripped_kept c (hpre.subset hc)).plain
  case undotted =>
    intro hdot
    rw [hchars, hhead] at hdot
    exact stripped_head hdot rfl

/-- `&payload[n..]`, which panics on an offset past the end. -/
def sliceFrom (bytes : List UInt8) (n : ℕ) : Option (List UInt8) :=
  if n ≤ bytes.length then some (bytes.drop n) else none

/-- `decode` read access by read access: `none` is a panic. -/
def decodeSliced (payload : ByteArray) : Option (Option (String × ByteArray)) :=
  let bytes := payload.data.toList
  match bytes[0]?, bytes[1]? with
  | some hi, some lo =>
    let len := hi.toNat * 256 + lo.toNat
    -- `payload.get(2..2 + len)?`
    if 2 + len ≤ bytes.length then
      match String.fromUTF8? ⟨((bytes.drop 2).take len).toArray⟩ with
      | some name =>
        (sliceFrom bytes (2 + len)).map fun rest ↦ some (sanitize name, ⟨rest.toArray⟩)
      | none => some none
    else some none
  | _, _ => some none

/-- The slice behind the name is in bounds where the name is. -/
theorem decodeSliced_eq (payload : ByteArray) : decodeSliced payload = some (decode payload) := by
  rw [decodeSliced, decode]
  generalize payload.data.toList = l
  cases l with
  | nil => rfl
  | cons hi l =>
  cases l with
  | nil => rfl
  | cons lo rest =>
    have hlen : 2 + (hi.toNat * 256 + lo.toNat) ≤ (hi :: lo :: rest).length ↔
        hi.toNat * 256 + lo.toNat ≤ rest.length := by
      simp only [List.length_cons]
      omega
    have hdrop : (hi :: lo :: rest).drop (2 + (hi.toNat * 256 + lo.toNat)) =
        rest.drop (hi.toNat * 256 + lo.toNat) := by
      rw [Nat.add_comm, List.drop_succ_cons, List.drop_succ_cons]
    simp only [List.getElem?_cons_zero, List.getElem?_cons_succ, List.drop_succ_cons,
      List.drop_zero, sliceFrom, hlen, hdrop]
    split
    case isFalse => rfl
    case isTrue h =>
      cases String.fromUTF8? ⟨(rest.take (hi.toNat * 256 + lo.toNat)).toArray⟩ with
      | none => rfl
      | some name => rfl

theorem decode_safe {bytes : ByteArray} (h : decode payload = some (name, bytes)) : Safe name := by
  rw [decode] at h
  split at h
  case h_2 => cases h
  case h_1 =>
    obtain ⟨-, h⟩ := Option.ite_none_right_eq_some.mp h
    obtain ⟨raw, -, hname⟩ := Option.map_eq_some_iff.mp h
    rw [← (Prod.mk.inj hname).1]
    exact sanitize_safe raw

/-- Every name that `sanitize` makes or a received file is given is safe to create, and no payload
makes `decode` panic. -/
theorem file_names_safe :
    (∀ name, (sanitize name).toList = popped (stripped name) ∧ Safe (sanitize name)) ∧
      ∀ payload, decodeSliced payload = some (decode payload) ∧
        ∀ name bytes, decode payload = some (name, bytes) → Safe name := by
  constructor
  · intro name
    exact ⟨String.toList_ofList.trans popped_eq_cutName.symm, sanitize_safe name⟩
  · intro payload
    exact ⟨decodeSliced_eq payload, fun name bytes h ↦ decode_safe h⟩

end FluxSync.Proto.File
