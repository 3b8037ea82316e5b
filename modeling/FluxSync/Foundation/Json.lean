import Mathlib.Data.List.DropRight
import Mathlib.Data.Nat.Digits.Defs
import FluxSync.Foundation.NetText

namespace FluxSync.Json

open NetText

/-- A JSON value as it is read. A number keeps its text, and a string is `none`
where its escapes stand for no text. -/
inductive Value
  | null
  | bool (b : Bool)
  | number (text : List Char)
  | string (text : Option String)
  | array (items : List Value)
  | object (members : List (String × Value))

def isSpace (c : Char) : Bool := c = ' ' || c = '\n' || c = '\t' || c = '\r'

def skipSpace (s : List Char) : List Char := s.dropWhile isSpace

/-- A character of a string, or the number of a `\u` escape. -/
inductive CodeUnit
  | char (c : Char)
  | escape (n : ℕ)

def hexDigit (c : Char) : Option ℕ := toDigit 16 c

def hex4 (a b c d : Char) : Option ℕ := do
  return (((← hexDigit a) * 16 + (← hexDigit b)) * 16 + (← hexDigit c)) * 16 + (← hexDigit d)

def unescape : Char → Option Char
  | '"' => some '"'
  | '\\' => some '\\'
  | '/' => some '/'
  | 'b' => some '\x08'
  | 'f' => some '\x0c'
  | 'n' => some '\n'
  | 'r' => some '\r'
  | 't' => some '\t'
  | _ => none

/-- The rest of a string, up to its closing quote. -/
def readUnits : List Char → Option (List CodeUnit × List Char)
  | [] => none
  | '"' :: s => some ([], s)
  | '\\' :: 'u' :: a :: b :: c :: d :: s => do
    let n ← hex4 a b c d
    let (us, s) ← readUnits s
    return (.escape n :: us, s)
  | '\\' :: e :: s => do
    let c ← unescape e
    let (us, s) ← readUnits s
    return (.char c :: us, s)
  | c :: s =>
    if c.toNat < 32 then none
    else do
      let (us, s) ← readUnits s
      return (.char c :: us, s)

/-- The characters; two escaped halves of a pair are one, and neither stands alone. -/
def text : List CodeUnit → Option (List Char)
  | [] => some []
  | .char c :: us => (text us).map (c :: ·)
  | .escape n :: us =>
    if n < 0xD800 ∨ 0xE000 ≤ n then (text us).map (.ofNat n :: ·)
    else
      match us with
      | .escape m :: us =>
        if n < 0xDC00 ∧ 0xDC00 ≤ m ∧ m < 0xE000 then
          (text us).map (.ofNat ((n - 0xD800) * 0x400 + (m - 0xDC00) + 0x10000) :: ·)
        else none
      | _ => none

def takeDigits (s : List Char) : Option (List Char × List Char) :=
  let ds := s.takeWhile Char.isDigit
  if ds = [] then none else some (ds, s.dropWhile Char.isDigit)

def readInt : List Char → Option (List Char × List Char)
  | '0' :: s => some (['0'], s)
  | s => takeDigits s

def readFraction : List Char → Option (List Char × List Char)
  | '.' :: s => (takeDigits s).map fun (ds, s) ↦ ('.' :: ds, s)
  | s => some ([], s)

def readExponent : List Char → Option (List Char × List Char)
  | e :: s =>
    if e = 'e' ∨ e = 'E' then
      match s with
      | c :: s =>
        if c = '+' ∨ c = '-' then (takeDigits s).map fun (ds, s) ↦ (e :: c :: ds, s)
        else (takeDigits (c :: s)).map fun (ds, s) ↦ (e :: ds, s)
      | [] => none
    else some ([], e :: s)
  | [] => some ([], [])

def readUnsigned (s : List Char) : Option (List Char × List Char) := do
  let (i, s) ← readInt s
  let (f, s) ← readFraction s
  let (e, s) ← readExponent s
  return (i ++ f ++ e, s)

def readNumber : List Char → Option (List Char × List Char)
  | '-' :: s => (readUnsigned s).map fun (t, s) ↦ ('-' :: t, s)
  | s => readUnsigned s

def readKey : List Char → Option (String × List Char)
  | '"' :: s => do
    let (us, s) ← readUnits s
    let key ← text us
    match skipSpace s with
    | ':' :: s => return (.ofList key, s)
    | _ => none
  | _ => none

mutual

/-- The value that the text begins with, and what follows it; no value in a text
takes more steps than the text has characters. -/
def readValue : ℕ → List Char → Option (Value × List Char)
  | 0, _ => none
  | n + 1, s =>
    match skipSpace s with
    | 'n' :: 'u' :: 'l' :: 'l' :: s => some (.null, s)
    | 't' :: 'r' :: 'u' :: 'e' :: s => some (.bool true, s)
    | 'f' :: 'a' :: 'l' :: 's' :: 'e' :: s => some (.bool false, s)
    | '"' :: s => do
      let (us, s) ← readUnits s
      return (.string ((text us).map .ofList), s)
    | '[' :: s =>
      match skipSpace s with
      | ']' :: s => some (.array [], s)
      | s => do
        let (v, s) ← readValue n s
        let (vs, s) ← readItems n s
        return (.array (v :: vs), s)
    | '{' :: s =>
      match skipSpace s with
      | '}' :: s => some (.object [], s)
      | s => do
        let (k, s) ← readKey s
        let (v, s) ← readValue n s
        let (ms, s) ← readMembers n s
        return (.object ((k, v) :: ms), s)
    | s => (readNumber s).map fun (t, s) ↦ (.number t, s)

/-- The items after the first, up to the end of the array. -/
def readItems : ℕ → List Char → Option (List Value × List Char)
  | 0, _ => none
  | n + 1, s =>
    match skipSpace s with
    | ']' :: s => some ([], s)
    | ',' :: s => do
      let (v, s) ← readValue n s
      let (vs, s) ← readItems n s
      return (v :: vs, s)
    | _ => none

def readMembers : ℕ → List Char → Option (List (String × Value) × List Char)
  | 0, _ => none
  | n + 1, s =>
    match skipSpace s with
    | '}' :: s => some ([], s)
    | ',' :: s => do
      let (k, s) ← readKey (skipSpace s)
      let (v, s) ← readValue n s
      let (ms, s) ← readMembers n s
      return ((k, v) :: ms, s)
    | _ => none

end

/-- The value that a whole text is. -/
def parse (s : List Char) : Option Value := do
  let (v, rest) ← readValue s.length s
  if skipSpace rest = [] then some v else none

def escape (c : Char) : List Char :=
  if c = '"' then ['\\', '"']
  else if c = '\\' then ['\\', '\\']
  else if c = '\x08' then ['\\', 'b']
  else if c = '\x0c' then ['\\', 'f']
  else if c = '\n' then ['\\', 'n']
  else if c = '\r' then ['\\', 'r']
  else if c = '\t' then ['\\', 't']
  else if c.toNat < 32 then
    ['\\', 'u', '0', '0', Nat.digitChar (c.toNat / 16), Nat.digitChar (c.toNat % 16)]
  else [c]

def writeString (s : String) : List Char := '"' :: (s.toList.flatMap escape ++ ['"'])

def newline (pretty : Bool) (level : ℕ) : List Char :=
  if pretty then '\n' :: List.replicate (2 * level) ' ' else []

def colon (pretty : Bool) : List Char := if pretty then [':', ' '] else [':']

mutual

/-- The text of a value inside of `level` others, on one line or one line an entry. -/
def write (pretty : Bool) (level : ℕ) : Value → List Char
  | .null => ['n', 'u', 'l', 'l']
  | .bool true => ['t', 'r', 'u', 'e']
  | .bool false => ['f', 'a', 'l', 's', 'e']
  | .number t => t
  | .string s => writeString (s.getD "")
  | .array [] => ['[', ']']
  | .array (v :: vs) =>
    '[' :: (newline pretty (level + 1) ++ write pretty (level + 1) v ++ writeItems pretty level vs)
  | .object [] => ['{', '}']
  | .object ((k, v) :: ms) =>
    '{' :: (newline pretty (level + 1) ++ writeString k ++ colon pretty ++
      write pretty (level + 1) v ++ writeMembers pretty level ms)

def writeItems (pretty : Bool) (level : ℕ) : List Value → List Char
  | [] => newline pretty level ++ [']']
  | v :: vs =>
    ',' :: (newline pretty (level + 1) ++ write pretty (level + 1) v ++ writeItems pretty level vs)

def writeMembers (pretty : Bool) (level : ℕ) : List (String × Value) → List Char
  | [] => newline pretty level ++ ['}']
  | (k, v) :: ms =>
    ',' :: (newline pretty (level + 1) ++ writeString k ++ colon pretty ++
      write pretty (level + 1) v ++ writeMembers pretty level ms)

end

/-- Without steps nothing is read. -/
alias readValue_zero := readValue.eq_1

/-- The values that are written: their strings are texts, their numbers natural. -/
inductive Plain : Value → Prop
  | null : Plain .null
  | bool (b : Bool) : Plain (.bool b)
  | number (n : ℕ) : Plain (.number (decimal n))
  | string (s : String) : Plain (.string (some s))
  | array {items : List Value} (h : ∀ v ∈ items, Plain v) : Plain (.array items)
  | object {members : List (String × Value)} (h : ∀ m ∈ members, Plain m.2) : Plain (.object members)

variable {c : Char} {s s' rest : List Char} {us : List CodeUnit} {v : Value} {n m : ℕ} {k : String}

theorem length_skipSpace (s : List Char) : (skipSpace s).length ≤ s.length :=
  (List.dropWhile_sublist _).length_le

theorem skipSpace_cons (hc : isSpace c = false) : skipSpace (c :: s) = c :: s := by
  simp [skipSpace, hc]

theorem readUnits_length : ∀ {s : List Char} {us : List CodeUnit} {rest : List Char},
    readUnits s = some (us, rest) → rest.length < s.length := by
  intro s
  fun_induction readUnits s with
  | case1 => simp
  | case2 s =>
    intro us rest h
    obtain ⟨-, rfl⟩ := Prod.mk.inj (Option.some.inj h)
    exact Nat.lt_succ_self _
  | case3 a b c d s ih =>
    intro us rest h
    simp only [Option.bind_eq_bind, Option.bind_eq_some_iff, Option.pure_def] at h
    obtain ⟨n, -, ⟨us', s'⟩, hs, h⟩ := h
    obtain ⟨-, rfl⟩ := Prod.mk.inj (Option.some.inj h)
    have := ih hs
    simp only [List.length_cons]
    omega
  | case4 e s _ ih =>
    intro us rest h
    simp only [Option.bind_eq_bind, Option.bind_eq_some_iff, Option.pure_def] at h
    obtain ⟨n, -, ⟨us', s'⟩, hs, h⟩ := h
    obtain ⟨-, rfl⟩ := Prod.mk.inj (Option.some.inj h)
    have := ih hs
    simp only [List.length_cons]
    omega
  | case5 c s => simp
  | case6 c s _ _ _ _ ih =>
    intro us rest h
    simp only [Option.bind_eq_bind, Option.bind_eq_some_iff, Option.pure_def] at h
    obtain ⟨⟨us', s'⟩, hs, h⟩ := h
    obtain ⟨-, rfl⟩ := Prod.mk.inj (Option.some.inj h)
    have := ih hs
    simp only [List.length_cons]
    omega

theorem takeDigits_length {t : List Char} (h : takeDigits s = some (t, rest)) :
    rest.length < s.length := by
  have hlen := congrArg List.length (List.takeWhile_append_dropWhile (p := Char.isDigit) (l := s))
  rw [List.length_append] at hlen
  simp only [takeDigits, Option.ite_none_left_eq_some, Option.some.injEq, Prod.mk.injEq] at h
  obtain ⟨hne, -, rfl⟩ := h
  have hpos := List.length_pos_iff.mpr hne
  omega

theorem readInt_length {t : List Char} (h : readInt s = some (t, rest)) : rest.length < s.length := by
  unfold readInt at h
  split at h
  · obtain ⟨-, rfl⟩ := Prod.mk.inj (Option.some.inj h)
    exact Nat.lt_succ_self _
  · exact takeDigits_length h

theorem readFraction_length {t : List Char} (h : readFraction s = some (t, rest)) :
    rest.length ≤ s.length := by
  unfold readFraction at h
  split at h
  · simp only [Option.map_eq_some_iff, Prod.mk.injEq] at h
    obtain ⟨⟨ds, s'⟩, hds, -, rfl⟩ := h
    have := takeDigits_length hds
    simp only [List.length_cons]
    omega
  · obtain ⟨-, rfl⟩ := Prod.mk.inj (Option.some.inj h)
    exact le_rfl

theorem readExponent_length {t : List Char} (h : readExponent s = some (t, rest)) :
    rest.length ≤ s.length := by
  unfold readExponent at h
  split at h
  · split at h
    · split at h
      · split at h
        all_goals
          simp only [Option.map_eq_some_iff, Prod.mk.injEq] at h
          obtain ⟨⟨ds, s'⟩, hds, -, rfl⟩ := h
          have := takeDigits_length hds
          simp only [List.length_cons] at this ⊢
          omega
      · cases h
    · obtain ⟨-, rfl⟩ := Prod.mk.inj (Option.some.inj h)
      exact le_rfl
  · obtain ⟨-, rfl⟩ := Prod.mk.inj (Option.some.inj h)
    exact le_rfl

theorem readUnsigned_length {t : List Char} (h : readUnsigned s = some (t, rest)) :
    rest.length < s.length := by
  simp only [readUnsigned, Option.bind_eq_bind, Option.bind_eq_some_iff, Option.pure_def] at h
  obtain ⟨⟨i, s₁⟩, hi, ⟨f, s₂⟩, hf, ⟨e, s₃⟩, he, h⟩ := h
  obtain ⟨-, rfl⟩ := Prod.mk.inj (Option.some.inj h)
  have hi := readInt_length hi
  have hf := readFraction_length hf
  have he := readExponent_length he
  dsimp only at hf he ⊢
  omega

theorem readNumber_length {t : List Char} (h : readNumber s = some (t, rest)) :
    rest.length < s.length := by
  unfold readNumber at h
  split at h
  · simp only [Option.map_eq_some_iff, Prod.mk.injEq] at h
    obtain ⟨⟨ds, s'⟩, hds, -, rfl⟩ := h
    have := readUnsigned_length hds
    simp only [List.length_cons]
    omega
  · exact readUnsigned_length h

theorem readKey_length (h : readKey s = some (k, rest)) : rest.length < s.length := by
  unfold readKey at h
  split at h
  · rename_i s'
    simp only [Option.bind_eq_bind, Option.bind_eq_some_iff, Option.pure_def] at h
    obtain ⟨⟨us, s₁⟩, hus, key, -, h⟩ := h
    have hus := readUnits_length hus
    have hskip := length_skipSpace s₁
    split at h
    · rename_i s₂ hs₂
      obtain ⟨-, rfl⟩ := Prod.mk.inj (Option.some.inj h)
      dsimp only at hs₂
      rw [hs₂] at hskip
      simp only [List.length_cons] at hskip ⊢
      omega
    · cases h
  · cases h

/-- What a reader finds does not depend on how many steps it is given, if they are enough. -/
def Settles {α : Type} (read : ℕ → List Char → Option (α × List Char)) (n : ℕ) : Prop :=
  ∀ s a rest, read n s = some (a, rest) →
    rest.length < s.length ∧ ∀ m, s.length ≤ m → read m s = some (a, rest)

theorem Settles.value (hv : Settles readValue n) (hi : Settles readItems n)
    (hm : Settles readMembers n) : Settles readValue (n + 1) := by
  intro s v rest h
  have hskip := length_skipSpace s
  have hsucc : ∀ m, s.length ≤ m → 0 < (skipSpace s).length → ∃ m', m = m' + 1 := by
    intro m hm hpos
    exact Nat.exists_eq_succ_of_ne_zero (by omega)
  rw [readValue] at h
  split at h
  case h_1 s₁ hs | h_2 s₁ hs | h_3 s₁ hs =>
    obtain ⟨rfl, rfl⟩ := Prod.mk.inj (Option.some.inj h)
    rw [hs] at hskip hsucc
    simp only [List.length_cons] at hskip
    refine ⟨by omega, fun m hm ↦ ?_⟩
    obtain ⟨m, rfl⟩ := hsucc m hm (by simp)
    simp only [readValue, hs]
  case h_4 s₁ hs =>
    simp only [Option.bind_eq_bind, Option.bind_eq_some_iff, Option.pure_def] at h
    obtain ⟨⟨us, s₂⟩, hus, h⟩ := h
    obtain ⟨rfl, rfl⟩ := Prod.mk.inj (Option.some.inj h)
    have hlen := readUnits_length hus
    rw [hs] at hskip hsucc
    simp only [List.length_cons] at hskip
    refine ⟨by dsimp only; omega, fun m hm ↦ ?_⟩
    obtain ⟨m, rfl⟩ := hsucc m hm (by simp)
    simp only [readValue, hs, hus, Option.bind_eq_bind, Option.bind_some, Option.pure_def]
  case h_5 s₁ hs =>
    have hskip₁ := length_skipSpace s₁
    rw [hs] at hskip hsucc
    simp only [List.length_cons] at hskip
    split at h
    · rename_i s₂ hs₂
      obtain ⟨rfl, rfl⟩ := Prod.mk.inj (Option.some.inj h)
      rw [hs₂] at hskip₁
      simp only [List.length_cons] at hskip₁
      refine ⟨by omega, fun m hm ↦ ?_⟩
      obtain ⟨m, rfl⟩ := hsucc m hm (by simp)
      simp only [readValue, hs, hs₂]
    · rename_i s₂ hne
      simp only [Option.bind_eq_bind, Option.bind_eq_some_iff, Option.pure_def] at h
      obtain ⟨⟨v, s₃⟩, hv', ⟨vs, s₄⟩, hvs, h⟩ := h
      obtain ⟨rfl, rfl⟩ := Prod.mk.inj (Option.some.inj h)
      obtain ⟨hlen, hread⟩ := hv _ _ _ hv'
      obtain ⟨hlen', hread'⟩ := hi _ _ _ hvs
      dsimp only at hlen hlen' hread' ⊢
      refine ⟨by omega, fun m hm ↦ ?_⟩
      obtain ⟨m, rfl⟩ := hsucc m hm (by simp)
      simp only [readValue, hs, hread m (by omega), Option.bind_eq_bind, Option.bind_some,
        hread' m (by omega), Option.pure_def]
  case h_6 s₁ hs =>
    have hskip₁ := length_skipSpace s₁
    rw [hs] at hskip hsucc
    simp only [List.length_cons] at hskip
    split at h
    · rename_i s₂ hs₂
      obtain ⟨rfl, rfl⟩ := Prod.mk.inj (Option.some.inj h)
      rw [hs₂] at hskip₁
      simp only [List.length_cons] at hskip₁
      refine ⟨by omega, fun m hm ↦ ?_⟩
      obtain ⟨m, rfl⟩ := hsucc m hm (by simp)
      simp only [readValue, hs, hs₂]
    · rename_i s₂ hne
      simp only [Option.bind_eq_bind, Option.bind_eq_some_iff, Option.pure_def] at h
      obtain ⟨⟨k, s₃⟩, hk, ⟨v, s₄⟩, hv', ⟨ms, s₅⟩, hms, h⟩ := h
      obtain ⟨rfl, rfl⟩ := Prod.mk.inj (Option.some.inj h)
      have hlenk := readKey_length hk
      obtain ⟨hlen, hread⟩ := hv _ _ _ hv'
      obtain ⟨hlen', hread'⟩ := hm _ _ _ hms
      dsimp only at hlen hlen' hread hread' ⊢
      refine ⟨by omega, fun m hm ↦ ?_⟩
      obtain ⟨m, rfl⟩ := hsucc m hm (by simp)
      simp only [readValue, hs, hk, Option.bind_eq_bind, Option.bind_some, hread m (by omega),
        hread' m (by omega), Option.pure_def]
  case h_7 s₁ h₁ h₂ h₃ h₄ h₅ h₆ =>
    simp only [Option.map_eq_some_iff, Prod.mk.injEq] at h
    obtain ⟨⟨t, s₂⟩, ht, rfl, rfl⟩ := h
    have hlen := readNumber_length ht
    dsimp only
    refine ⟨by omega, fun m hm ↦ ?_⟩
    obtain ⟨m, rfl⟩ := hsucc m hm (by omega)
    rw [readValue]
    split
    case h_7 => rw [ht]; rfl
    all_goals
      rename_i hs
      first
        | exact absurd hs (h₁ _) | exact absurd hs (h₂ _) | exact absurd hs (h₃ _)
        | exact absurd hs (h₄ _) | exact absurd hs (h₅ _) | exact absurd hs (h₆ _)

theorem Settles.items (hv : Settles readValue n) (hi : Settles readItems n) :
    Settles readItems (n + 1) := by
  intro s vs rest h
  have hskip := length_skipSpace s
  rw [readItems] at h
  split at h
  · rename_i s₁ hs
    obtain ⟨rfl, rfl⟩ := Prod.mk.inj (Option.some.inj h)
    rw [hs, List.length_cons] at hskip
    refine ⟨by omega, fun m hm ↦ ?_⟩
    obtain ⟨m, rfl⟩ := Nat.exists_eq_succ_of_ne_zero (show m ≠ 0 by omega)
    simp only [readItems, hs]
  · rename_i s₁ hs
    simp only [Option.bind_eq_bind, Option.bind_eq_some_iff, Option.pure_def] at h
    obtain ⟨⟨v, s₂⟩, hv', ⟨vs, s₃⟩, hvs, h⟩ := h
    obtain ⟨rfl, rfl⟩ := Prod.mk.inj (Option.some.inj h)
    obtain ⟨hlen, hread⟩ := hv _ _ _ hv'
    obtain ⟨hlen', hread'⟩ := hi _ _ _ hvs
    rw [hs, List.length_cons] at hskip
    dsimp only at hlen' hread' ⊢
    refine ⟨by omega, fun m hm ↦ ?_⟩
    obtain ⟨m, rfl⟩ := Nat.exists_eq_succ_of_ne_zero (show m ≠ 0 by omega)
    simp only [readItems, hs, Option.bind_eq_bind, hread m (by omega), Option.bind_some, hread' m (by omega),
      Option.pure_def]
  · cases h

theorem Settles.members (hv : Settles readValue n) (hm : Settles readMembers n) :
    Settles readMembers (n + 1) := by
  intro s ms rest h
  have hskip := length_skipSpace s
  rw [readMembers] at h
  split at h
  · rename_i s₁ hs
    obtain ⟨rfl, rfl⟩ := Prod.mk.inj (Option.some.inj h)
    rw [hs, List.length_cons] at hskip
    refine ⟨by omega, fun m hm ↦ ?_⟩
    obtain ⟨m, rfl⟩ := Nat.exists_eq_succ_of_ne_zero (show m ≠ 0 by omega)
    simp only [readMembers, hs]
  · rename_i s₁ hs
    simp only [Option.bind_eq_bind, Option.bind_eq_some_iff, Option.pure_def] at h
    obtain ⟨⟨k, s₂⟩, hk, ⟨v, s₃⟩, hv', ⟨ms, s₄⟩, hms, h⟩ := h
    obtain ⟨rfl, rfl⟩ := Prod.mk.inj (Option.some.inj h)
    have hskip₁ := length_skipSpace s₁
    have hlenk := readKey_length hk
    obtain ⟨hlen, hread⟩ := hv _ _ _ hv'
    obtain ⟨hlen', hread'⟩ := hm _ _ _ hms
    rw [hs, List.length_cons] at hskip
    dsimp only at hlen hlen' hread hread' ⊢
    refine ⟨by omega, fun m hm ↦ ?_⟩
    obtain ⟨m, rfl⟩ := Nat.exists_eq_succ_of_ne_zero (show m ≠ 0 by omega)
    simp only [readMembers, hs, hk, Option.bind_eq_bind, hread m (by omega), Option.bind_some,
      hread' m (by omega), Option.pure_def]
  · cases h

theorem settles (n : ℕ) : Settles readValue n ∧ Settles readItems n ∧ Settles readMembers n := by
  induction n with
  | zero =>
    refine ⟨?_, ?_, ?_⟩
    all_goals
      intro s a rest h
      cases h
  | succ n ih => exact ⟨ih.1.value ih.2.1 ih.2.2, ih.1.items ih.2.1, ih.1.members ih.2.2⟩

/-- Reading, however many steps it takes. -/
def Reads {α : Type} (read : ℕ → List Char → Option (α × List Char)) (s : List Char) (a : α)
    (rest : List Char) : Prop :=
  ∃ n, read n s = some (a, rest)

theorem reads_iff {α : Type} {read : ℕ → List Char → Option (α × List Char)} {a : α}
    (hr : ∀ n, Settles read n) (hn : s.length ≤ n) :
    Reads read s a rest ↔ read n s = some (a, rest) := by
  constructor
  · rintro ⟨m, hm⟩
    exact (hr m s a rest hm).2 n hn
  · intro h
    exact ⟨n, h⟩

theorem readValue_iff (hn : s.length ≤ n) :
    Reads readValue s v rest ↔ readValue n s = some (v, rest) :=
  reads_iff (fun n ↦ (settles n).1) hn

/-- Spaces in front of a value are skipped. -/
theorem Reads.space (hl : ∀ c ∈ s', isSpace c = true) (h : Reads readValue s v rest) :
    Reads readValue (s' ++ s) v rest := by
  obtain ⟨n, hn⟩ := h
  cases n with
  | zero => cases hn
  | succ n =>
    have hskip : skipSpace (s' ++ s) = skipSpace s := List.dropWhile_append_of_pos hl
    exact ⟨n + 1, by rw [readValue, hskip, ← readValue, hn]⟩

theorem text_escape (hn : n < 0xD800) : text (.escape n :: us) = (text us).map (.ofNat n :: ·) := by
  conv_lhs => unfold text
  rw [if_pos (.inl hn)]

/-- An escaped character is read as one code unit, which stands for it. -/
theorem readUnits_escape (h : readUnits s = some (us, rest)) :
    ∃ u, readUnits (escape c ++ s) = some (u :: us, rest) ∧
      text (u :: us) = (text us).map (c :: ·) := by
  unfold escape
  split_ifs with h₁ h₂ h₃ h₄ h₅ h₆ h₇ h₈
  case pos | pos | pos | pos | pos | pos | pos =>
    subst c
    refine ⟨.char _, ?_, rfl⟩
    simp [readUnits, unescape, h]
  case pos =>
    have hhex : ∀ n < 32, hex4 '0' '0' (Nat.digitChar (n / 16)) (Nat.digitChar (n % 16)) = some n := by
      decide
    refine ⟨.escape c.toNat, ?_, ?_⟩
    · simp [readUnits, hhex c.toNat h₈, h]
    · rw [text_escape (by omega), Char.ofNat_toNat]
  case neg =>
    refine ⟨.char c, ?_, rfl⟩
    have hread : readUnits ([c] ++ s) = if c.toNat < 32 then none else do
        let (us, s) ← readUnits s
        return (.char c :: us, s) := by
      rw [List.singleton_append, readUnits]
      · exact h₁
      · intro _ _ _ _ _ hc
        exact absurd hc h₂
      · intro _ _ hc
        exact absurd hc h₂
    rw [hread, if_neg h₈, h]
    rfl

theorem readUnits_string (l rest : List Char) :
    ∃ us, readUnits (l.flatMap escape ++ '"' :: rest) = some (us, rest) ∧ text us = some l := by
  induction l with
  | nil => exact ⟨[], rfl, rfl⟩
  | cons c l ih =>
    obtain ⟨us, hus, htext⟩ := ih
    obtain ⟨u, hu, hc⟩ := readUnits_escape (c := c) hus
    refine ⟨u :: us, ?_, ?_⟩
    · rw [List.flatMap_cons, List.append_assoc]
      exact hu
    · rw [hc, htext, Option.map_some]

theorem readKey_write (k : String) (pretty : Bool) (s : List Char) :
    readKey (writeString k ++ (colon pretty ++ s)) =
      some (k, (if pretty then [' '] else []) ++ s) := by
  obtain ⟨us, hus, htext⟩ := readUnits_string k.toList (colon pretty ++ s)
  have happ : writeString k ++ (colon pretty ++ s) =
      '"' :: (k.toList.flatMap escape ++ '"' :: (colon pretty ++ s)) := by
    simp [writeString]
  rw [happ]
  simp only [readKey, hus, htext, Option.bind_eq_bind, Option.bind_some]
  cases pretty
  all_goals simp [colon, skipSpace, isSpace]

/-- Nothing that a number could go on with. -/
def Ends (rest : List Char) : Prop :=
  ∀ c ∈ rest.head?, c.isDigit = false ∧ c ≠ '.' ∧ c ≠ 'e' ∧ c ≠ 'E'

theorem isDigit_decimal (hc : c ∈ decimal n) : c.isDigit = true :=
  Nat.isDigit_of_mem_toDigits (by decide) (by decide) hc

theorem Ends.readFraction (h : Ends rest) : readFraction rest = some ([], rest) := by
  unfold Json.readFraction
  split
  · exact absurd rfl (h '.' rfl).2.1
  · rfl

theorem Ends.readExponent (h : Ends rest) : readExponent rest = some ([], rest) := by
  unfold Json.readExponent
  split
  · rename_i e s
    have he := h e rfl
    rw [if_neg (not_or.mpr he.2.2)]
  · rfl

theorem takeDigits_append {ds : List Char} (hne : ds ≠ []) (hd : ∀ c ∈ ds, c.isDigit = true)
    (h : Ends rest) : takeDigits (ds ++ rest) = some (ds, rest) := by
  have hrest : rest.takeWhile Char.isDigit = [] ∧ rest.dropWhile Char.isDigit = rest := by
    cases rest with
    | nil => exact ⟨rfl, rfl⟩
    | cons c s => simp [(h c rfl).1]
  simp only [takeDigits]
  rw [List.takeWhile_append_of_pos hd, List.dropWhile_append_of_pos hd, hrest.1, hrest.2,
    List.append_nil, if_neg hne]

theorem readInt_decimal (h : Ends rest) : readInt (decimal n ++ rest) = some (decimal n, rest) := by
  have hne : decimal n ≠ [] := Nat.toDigits_ne_nil
  by_cases hn : n = 0
  · subst hn
    rfl
  · have hhead := head?_decimal (Nat.pos_of_ne_zero hn)
    unfold readInt
    split
    · rename_i s hs
      obtain ⟨c, l, hcl⟩ := List.exists_cons_of_ne_nil hne
      rw [hcl, List.cons_append, List.cons.injEq] at hs
      rw [hcl, hs.1] at hhead
      exact absurd rfl hhead
    · exact takeDigits_append hne (fun c hc ↦ isDigit_decimal hc) h

theorem readUnsigned_decimal (h : Ends rest) :
    readUnsigned (decimal n ++ rest) = some (decimal n, rest) := by
  simp only [readUnsigned, readInt_decimal h, Option.bind_eq_bind, Option.bind_some,
    h.readFraction, h.readExponent, Option.pure_def, List.append_nil]

theorem readNumber_decimal (h : Ends rest) :
    readNumber (decimal n ++ rest) = some (decimal n, rest) := by
  unfold Json.readNumber
  split
  · rename_i s hs
    have hne : decimal n ≠ [] := Nat.toDigits_ne_nil
    obtain ⟨c, l, hcl⟩ := List.exists_cons_of_ne_nil hne
    rw [hcl, List.cons_append, List.cons.injEq] at hs
    have hc := isDigit_decimal (n := n) (hcl ▸ List.mem_cons_self)
    rw [hs.1] at hc
    cases hc
  · exact readUnsigned_decimal h

theorem reads_decimal (h : Ends rest) :
    Reads readValue (decimal n ++ rest) (.number (decimal n)) rest := by
  have hne : decimal n ≠ [] := Nat.toDigits_ne_nil
  obtain ⟨c, l, hcl⟩ := List.exists_cons_of_ne_nil hne
  have hc : c.isDigit = true := isDigit_decimal (n := n) (hcl ▸ List.mem_cons_self)
  have hspace : isSpace c = false := by
    by_contra hs
    simp only [isSpace, Bool.not_eq_false, Bool.or_eq_true, decide_eq_true_eq] at hs
    obtain ((rfl | rfl) | rfl) | rfl := hs
    all_goals cases hc
  refine ⟨1, ?_⟩
  have hskip : skipSpace (decimal n ++ rest) = decimal n ++ rest := by
    rw [hcl, List.cons_append, skipSpace_cons hspace]
  rw [readValue, hskip]
  split
  case h_7 => rw [readNumber_decimal h]; rfl
  all_goals
    rename_i hs
    rw [hcl, List.cons_append, List.cons.injEq] at hs
    rw [hs.1] at hc
    cases hc

theorem reads_string (t : String) :
    Reads readValue (writeString t ++ rest) (.string (some t)) rest := by
  obtain ⟨us, hus, htext⟩ := readUnits_string t.toList rest
  have happ : writeString t ++ rest = '"' :: (t.toList.flatMap escape ++ '"' :: rest) := by
    simp [writeString]
  refine ⟨1, ?_⟩
  rw [happ]
  simp only [readValue, skipSpace_cons (show isSpace '"' = false from rfl), hus,
    Option.bind_eq_bind, Option.bind_some, htext, Option.map_some, String.ofList_toList,
    Option.pure_def]

theorem isSpace_newline {pretty : Bool} {level : ℕ} :
    ∀ c ∈ newline pretty level, isSpace c = true := by
  intro c hc
  cases pretty with
  | false => cases hc
  | true =>
    obtain rfl | hc := List.mem_cons.mp hc
    · rfl
    · rw [List.eq_of_mem_replicate hc]
      rfl

theorem skipSpace_newline {pretty : Bool} {level : ℕ} (hc : isSpace c = false) :
    skipSpace (newline pretty level ++ c :: s) = c :: s := by
  rw [skipSpace, List.dropWhile_append_of_pos isSpace_newline]
  exact skipSpace_cons hc

theorem ends_newline {pretty : Bool} {level : ℕ} (hc : c.isDigit = false ∧ c ≠ '.' ∧ c ≠ 'e' ∧ c ≠ 'E') :
    Ends (newline pretty level ++ c :: s) := by
  cases pretty with
  | false =>
    intro d hd
    obtain rfl := Option.some.inj hd
    exact hc
  | true =>
    intro d hd
    obtain rfl := Option.some.inj hd
    decide

theorem ends_writeItems (pretty : Bool) (level : ℕ) (vs : List Value) (rest : List Char) :
    Ends (writeItems pretty level vs ++ rest) := by
  cases vs with
  | nil =>
    rw [writeItems, List.append_assoc]
    exact ends_newline (by decide)
  | cons v vs =>
    intro d hd
    rw [writeItems] at hd
    obtain rfl := Option.some.inj hd
    decide

theorem ends_writeMembers (pretty : Bool) (level : ℕ) (ms : List (String × Value))
    (rest : List Char) : Ends (writeMembers pretty level ms ++ rest) := by
  cases ms with
  | nil =>
    rw [writeMembers, List.append_assoc]
    exact ends_newline (by decide)
  | cons m ms =>
    intro d hd
    rw [writeMembers] at hd
    obtain rfl := Option.some.inj hd
    decide

/-- The text of a value is read as that value, whatever follows it. -/
def Written (v : Value) : Prop :=
  ∀ pretty level rest, Ends rest → Reads readValue (write pretty level v ++ rest) v rest

theorem Written.entry (hv : Written v) (pretty : Bool) (level : ℕ) (h : Ends rest) :
    Reads readValue (newline pretty level ++ (write pretty level v ++ rest)) v rest :=
  (hv pretty level rest h).space isSpace_newline

theorem Written.member (hv : Written v) (pretty : Bool) (level : ℕ) (h : Ends rest) :
    Reads readValue ((if pretty then [' '] else []) ++ (write pretty level v ++ rest)) v rest := by
  refine (hv pretty level rest h).space ?_
  intro c hc
  cases pretty with
  | false => cases hc
  | true =>
    rw [List.mem_singleton.mp hc]
    rfl

theorem reads_items (pretty : Bool) (level : ℕ) {vs : List Value} (rest : List Char) (h : ∀ v ∈ vs, Written v) :
    Reads readItems (writeItems pretty level vs ++ rest) vs rest := by
  induction vs with
  | nil =>
    refine ⟨1, ?_⟩
    rw [writeItems, List.append_assoc, List.singleton_append]
    simp only [readItems, skipSpace_newline (show isSpace ']' = false from rfl)]
  | cons v vs ih =>
    have hends := ends_writeItems pretty level vs rest
    have hv := (h v List.mem_cons_self).entry pretty (level + 1) hends
    have hvs := ih fun w hw ↦ h w (List.mem_cons_of_mem v hw)
    have happ : writeItems pretty level (v :: vs) ++ rest =
        ',' :: (newline pretty (level + 1) ++
          (write pretty (level + 1) v ++ (writeItems pretty level vs ++ rest))) := by
      simp only [writeItems, List.cons_append, List.append_assoc]
    generalize hs : newline pretty (level + 1) ++
      (write pretty (level + 1) v ++ (writeItems pretty level vs ++ rest)) = s at happ hv
    have hlen : (writeItems pretty level vs ++ rest).length ≤ s.length := by
      simp only [← hs, List.length_append]
      omega
    refine ⟨s.length + 1, ?_⟩
    rw [happ]
    simp only [readItems, skipSpace_cons (show isSpace ',' = false from rfl),
      (readValue_iff le_rfl).mp hv, Option.bind_eq_bind, Option.bind_some,
      (reads_iff (fun n ↦ (settles n).2.1) hlen).mp hvs, Option.pure_def]

theorem skipSpace_key (pretty : Bool) (level : ℕ) (k : String) (s : List Char) :
    skipSpace (newline pretty level ++ (writeString k ++ s)) = writeString k ++ s :=
  skipSpace_newline rfl

theorem reads_members (pretty : Bool) (level : ℕ) {ms : List (String × Value)} (rest : List Char)
    (h : ∀ m ∈ ms, Written m.2) :
    Reads readMembers (writeMembers pretty level ms ++ rest) ms rest := by
  induction ms with
  | nil =>
    refine ⟨1, ?_⟩
    rw [writeMembers, List.append_assoc, List.singleton_append]
    simp only [readMembers, skipSpace_newline (show isSpace '}' = false from rfl)]
  | cons m ms ih =>
    obtain ⟨k, v⟩ := m
    have hends := ends_writeMembers pretty level ms rest
    have hv := (h (k, v) List.mem_cons_self).member pretty (level + 1) hends
    have hms := ih fun w hw ↦ h w (List.mem_cons_of_mem _ hw)
    have happ : writeMembers pretty level ((k, v) :: ms) ++ rest =
        ',' :: (newline pretty (level + 1) ++ (writeString k ++ (colon pretty ++
          (write pretty (level + 1) v ++ (writeMembers pretty level ms ++ rest))))) := by
      simp only [writeMembers, List.cons_append, List.append_assoc]
    have hkey := readKey_write k pretty
      (write pretty (level + 1) v ++ (writeMembers pretty level ms ++ rest))
    generalize hs : (if pretty then [' '] else []) ++
      (write pretty (level + 1) v ++ (writeMembers pretty level ms ++ rest)) = s at hkey hv
    have hlen : (writeMembers pretty level ms ++ rest).length ≤ s.length := by
      simp only [← hs, List.length_append]
      omega
    refine ⟨s.length + 1, ?_⟩
    rw [happ]
    simp only [readMembers, skipSpace_cons (show isSpace ',' = false from rfl), skipSpace_key, hkey,
      (readValue_iff le_rfl).mp hv, Option.bind_eq_bind, Option.bind_some,
      (reads_iff (fun n ↦ (settles n).2.2) hlen).mp hms, Option.pure_def]

theorem skipSpace_skipSpace (s : List Char) : skipSpace (skipSpace s) = skipSpace s :=
  List.dropWhile_idempotent isSpace s

theorem Reads.skip (h : Reads readValue s v rest) : Reads readValue (skipSpace s) v rest := by
  obtain ⟨n, hn⟩ := h
  cases n with
  | zero =>
    rw [readValue_zero] at hn
    cases hn
  | succ n => exact ⟨n + 1, by rw [readValue, skipSpace_skipSpace, ← readValue, hn]⟩

/-- No value begins with the end of an array. -/
theorem Reads.ne_close (h : Reads readValue s v rest) (l : List Char) : skipSpace s ≠ ']' :: l := by
  intro hs
  obtain ⟨n, hn⟩ := h
  cases n with
  | zero =>
    rw [readValue_zero] at hn
    cases hn
  | succ n => simp [readValue, hs, readNumber, readUnsigned, readInt, takeDigits] at hn

theorem written_array {items : List Value} (h : ∀ v ∈ items, Written v) : Written (.array items) := by
  intro pretty level rest _
  cases items with
  | nil =>
    refine ⟨1, ?_⟩
    simp only [write, List.cons_append, List.nil_append, readValue,
      skipSpace_cons (show isSpace '[' = false from rfl),
      skipSpace_cons (show isSpace ']' = false from rfl)]
  | cons v vs =>
    have hends := ends_writeItems pretty level vs rest
    have hv := (h v List.mem_cons_self).entry pretty (level + 1) hends
    have hvs := reads_items pretty level rest fun w hw ↦ h w (List.mem_cons_of_mem v hw)
    have happ : write pretty level (.array (v :: vs)) ++ rest =
        '[' :: (newline pretty (level + 1) ++
          (write pretty (level + 1) v ++ (writeItems pretty level vs ++ rest))) := by
      simp only [write, List.cons_append, List.append_assoc]
    generalize hs : newline pretty (level + 1) ++
      (write pretty (level + 1) v ++ (writeItems pretty level vs ++ rest)) = s at happ hv
    have hlen : (writeItems pretty level vs ++ rest).length ≤ s.length := by
      simp only [← hs, List.length_append]
      omega
    have hne := hv.ne_close
    refine ⟨s.length + 1, ?_⟩
    rw [happ]
    simp only [readValue, skipSpace_cons (show isSpace '[' = false from rfl),
      (readValue_iff (length_skipSpace s)).mp hv.skip, Option.bind_eq_bind, Option.bind_some,
      (reads_iff (fun n ↦ (settles n).2.1) hlen).mp hvs, Option.pure_def]

theorem written_object {members : List (String × Value)} (h : ∀ m ∈ members, Written m.2) :
    Written (.object members) := by
  intro pretty level rest _
  cases members with
  | nil =>
    refine ⟨1, ?_⟩
    simp only [write, List.cons_append, List.nil_append, readValue,
      skipSpace_cons (show isSpace '{' = false from rfl),
      skipSpace_cons (show isSpace '}' = false from rfl)]
  | cons m ms =>
    obtain ⟨k, v⟩ := m
    have hends := ends_writeMembers pretty level ms rest
    have hv := (h (k, v) List.mem_cons_self).member pretty (level + 1) hends
    have hms := reads_members pretty level rest fun w hw ↦ h w (List.mem_cons_of_mem _ hw)
    have happ : write pretty level (.object ((k, v) :: ms)) ++ rest =
        '{' :: (newline pretty (level + 1) ++ (writeString k ++ (colon pretty ++
          (write pretty (level + 1) v ++ (writeMembers pretty level ms ++ rest))))) := by
      simp only [write, List.cons_append, List.append_assoc]
    have hkey := readKey_write k pretty
      (write pretty (level + 1) v ++ (writeMembers pretty level ms ++ rest))
    rw [← skipSpace_key pretty (level + 1)] at hkey
    generalize newline pretty (level + 1) ++ (writeString k ++ (colon pretty ++
      (write pretty (level + 1) v ++ (writeMembers pretty level ms ++ rest)))) = s₁ at happ hkey
    generalize hs : (if pretty then [' '] else []) ++
      (write pretty (level + 1) v ++ (writeMembers pretty level ms ++ rest)) = s at hkey hv
    have hlen : (writeMembers pretty level ms ++ rest).length ≤ s.length := by
      simp only [← hs, List.length_append]
      omega
    have hne : ∀ s', skipSpace s₁ ≠ '}' :: s' := by
      intro s' hs'
      rw [hs'] at hkey
      cases hkey
    refine ⟨s.length + 1, ?_⟩
    rw [happ]
    simp only [readValue, skipSpace_cons (show isSpace '{' = false from rfl), hkey,
      (readValue_iff le_rfl).mp hv, Option.bind_eq_bind, Option.bind_some,
      (reads_iff (fun n ↦ (settles n).2.2) hlen).mp hms, Option.pure_def]

/-- What is written is read again. -/
theorem Plain.written (h : Plain v) : Written v := by
  induction h with
  | null => exact fun _ _ _ _ ↦ ⟨1, rfl⟩
  | bool b =>
    intro pretty level rest _
    cases b
    all_goals exact ⟨1, rfl⟩
  | number n => exact fun _ _ _ h ↦ reads_decimal h
  | string t => exact fun _ _ _ _ ↦ reads_string t
  | array _ ih => exact written_array ih
  | object _ ih => exact written_object ih

theorem parse_write (pretty : Bool) (h : Plain v) : parse (write pretty 0 v) = some v := by
  have hr := h.written pretty 0 [] (by intro c hc; cases hc)
  rw [List.append_nil] at hr
  rw [parse, (readValue_iff le_rfl).mp hr]
  rfl

end FluxSync.Json
