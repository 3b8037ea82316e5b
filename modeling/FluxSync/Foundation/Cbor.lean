import Mathlib.Data.List.Basic
import Mathlib.Tactic.Ring

namespace FluxSync.Cbor

/-- A data item. Numbers below zero are `-1 - n`. -/
inductive Value
  | uint (n : UInt64)
  | nint (n : UInt64)
  | bytes (b : List UInt8)
  | text (s : String)
  | array (items : List Value)
  | map (entries : List (Value × Value))
  | bool (b : Bool)
  | null

/-- The lowest `width` bytes of `n`, the highest one first. -/
def bigEndian : ℕ → ℕ → List UInt8
  | 0, _ => []
  | width + 1, n => .ofNat (n / 256 ^ width) :: bigEndian width n

def ofBigEndian (b : List UInt8) : ℕ := b.foldl (fun n x ↦ 256 * n + x.toNat) 0

/-- A major type and its argument in the shortest form. -/
def head (major n : ℕ) : List UInt8 :=
  if n < 24 then [.ofNat (32 * major + n)]
  else if n < 256 then .ofNat (32 * major + 24) :: bigEndian 1 n
  else if n < 256 ^ 2 then .ofNat (32 * major + 25) :: bigEndian 2 n
  else if n < 256 ^ 4 then .ofNat (32 * major + 26) :: bigEndian 4 n
  else .ofNat (32 * major + 27) :: bigEndian 8 n

def readHead : List UInt8 → Option (ℕ × ℕ × List UInt8)
  | [] => none
  | b :: rest =>
    let major := b.toNat / 32
    let info := b.toNat % 32
    if info < 24 then some (major, info, rest)
    else if info < 28 then
      let width := 2 ^ (info - 24)
      if rest.length < width then none
      else some (major, ofBigEndian (rest.take width), rest.drop width)
    else none

mutual

def Value.write : Value → List UInt8
  | .uint n => head 0 n.toNat
  | .nint n => head 1 n.toNat
  | .bytes b => head 2 b.length ++ b
  | .text s => head 3 s.utf8ByteSize ++ s.toByteArray.data.toList
  | .array items => head 4 items.length ++ writeItems items
  | .map entries => head 5 entries.length ++ writeEntries entries
  | .bool b => head 7 (if b then 21 else 20)
  | .null => head 7 22

def writeItems : List Value → List UInt8
  | [] => []
  | v :: items => v.write ++ writeItems items

def writeEntries : List (Value × Value) → List UInt8
  | [] => []
  | (k, v) :: entries => k.write ++ v.write ++ writeEntries entries

end

def readMany {α : Type} (read : List UInt8 → Option (α × List UInt8)) :
    ℕ → List UInt8 → Option (List α × List UInt8)
  | 0, bs => some ([], bs)
  | n + 1, bs => do
    let (a, bs) ← read bs
    let (as, bs) ← readMany read n bs
    return (a :: as, bs)

def readPair {α : Type} (read : List UInt8 → Option (α × List UInt8)) (bs : List UInt8) :
    Option ((α × α) × List UInt8) := do
  let (k, bs) ← read bs
  let (v, bs) ← read bs
  return ((k, v), bs)

/-- The first `n` bytes and the rest. -/
def split (n : ℕ) (bs : List UInt8) : Option (List UInt8 × List UInt8) :=
  if bs.length < n then none else some (bs.take n, bs.drop n)

/-- Reads an item nested at most `depth` deep, and leaves what follows it. -/
def readValue : ℕ → List UInt8 → Option (Value × List UInt8)
  | 0, _ => none
  | depth + 1, bs => do
    let (major, n, bs) ← readHead bs
    match major with
    | 0 => return (.uint (.ofNat n), bs)
    | 1 => return (.nint (.ofNat n), bs)
    | 2 => do
      let (b, bs) ← split n bs
      return (.bytes b, bs)
    | 3 => do
      let (b, bs) ← split n bs
      let s ← String.fromUTF8? ⟨b.toArray⟩
      return (.text s, bs)
    | 4 => do
      let (items, bs) ← readMany (readValue depth) n bs
      return (.array items, bs)
    | 5 => do
      let (entries, bs) ← readMany (readPair (readValue depth)) n bs
      return (.map entries, bs)
    | 7 =>
      if n = 20 then return (.bool false, bs)
      else if n = 21 then return (.bool true, bs)
      else if n = 22 then return (.null, bs)
      else none
    | _ => none

/-- Lengths that a head can hold, and items nested at most so deep. -/
def Value.Fits : ℕ → Value → Prop
  | 0, _ => False
  | _ + 1, .bytes b => b.length < 2 ^ 64
  | _ + 1, .text s => s.utf8ByteSize < 2 ^ 64
  | depth + 1, .array items => items.length < 2 ^ 64 ∧ ∀ v ∈ items, Value.Fits depth v
  | depth + 1, .map entries => entries.length < 2 ^ 64 ∧
      ∀ e ∈ entries, Value.Fits depth e.1 ∧ Value.Fits depth e.2
  | _ + 1, _ => True

variable {n width major depth : ℕ} {bs rest : List UInt8} {v : Value}

@[simp] theorem length_bigEndian : (bigEndian width n).length = width := by
  induction width with
  | zero => rfl
  | succ w ih => simp [bigEndian, ih]

theorem foldl_bigEndian (acc : ℕ) : (bigEndian width n).foldl (fun n x ↦ 256 * n + x.toNat) acc =
    256 ^ width * acc + n % 256 ^ width := by
  induction width generalizing acc with
  | zero => simp [bigEndian, Nat.mod_one]
  | succ w ih =>
    have hbyte : (UInt8.ofNat (n / 256 ^ w)).toNat = n / 256 ^ w % 256 := UInt8.toNat_ofNat'
    have hmod : n % 256 ^ (w + 1) = 256 ^ w * (n / 256 ^ w % 256) + n % 256 ^ w := by
      rw [pow_succ, Nat.mod_mul, add_comm]
    rw [bigEndian, List.foldl_cons, ih, hbyte, hmod]
    ring

theorem ofBigEndian_bigEndian (hn : n < 256 ^ width) : ofBigEndian (bigEndian width n) = n := by
  rw [ofBigEndian, foldl_bigEndian, Nat.mul_zero, Nat.zero_add, Nat.mod_eq_of_lt hn]

/-- A head whose argument stands in the `2 ^ k` bytes after it. -/
theorem readHead_wide {k : ℕ} (hm : major < 8) (hk : k < 4) (hn : n < 256 ^ 2 ^ k) :
    readHead (.ofNat (32 * major + (24 + k)) :: bigEndian (2 ^ k) n ++ rest) =
      some (major, n, rest) := by
  have hb : (UInt8.ofNat (32 * major + (24 + k))).toNat = 32 * major + (24 + k) :=
    UInt8.toNat_ofNat_of_lt' (by simp only [UInt8.size]; omega)
  have hmajor : (32 * major + (24 + k)) / 32 = major := by omega
  have hinfo : (32 * major + (24 + k)) % 32 = 24 + k := by omega
  have hw : 24 + k - 24 = k := by omega
  have hlen : ¬ (bigEndian (2 ^ k) n ++ rest).length < 2 ^ k := by simp
  have htake : (bigEndian (2 ^ k) n ++ rest).take (2 ^ k) = bigEndian (2 ^ k) n :=
    List.take_left' length_bigEndian
  have hdrop : (bigEndian (2 ^ k) n ++ rest).drop (2 ^ k) = rest :=
    List.drop_left' length_bigEndian
  rw [List.cons_append, readHead]
  simp only [hb, hmajor, hinfo, hw, if_neg hlen, htake, hdrop, ofBigEndian_bigEndian hn]
  rw [if_neg (by omega), if_pos (by omega)]

theorem readHead_head (hm : major < 8) (hn : n < 2 ^ 64) :
    readHead (head major n ++ rest) = some (major, n, rest) := by
  rw [head]
  split
  case isTrue h =>
    have hb : (UInt8.ofNat (32 * major + n)).toNat = 32 * major + n :=
      UInt8.toNat_ofNat_of_lt' (by simp only [UInt8.size]; omega)
    have hmajor : (32 * major + n) / 32 = major := by omega
    have hinfo : (32 * major + n) % 32 = n := by omega
    simp only [List.singleton_append, readHead, hb, hmajor, hinfo, if_pos h]
  split
  case isTrue h => exact readHead_wide (k := 0) hm (by decide) h
  split
  case isTrue h => exact readHead_wide (k := 1) hm (by decide) h
  split
  case isTrue h => exact readHead_wide (k := 2) hm (by decide) h
  exact readHead_wide (k := 3) hm (by decide) (by simpa using hn)

theorem split_append (hn : bs.length = n) : split n (bs ++ rest) = some (bs, rest) := by
  subst hn
  simp [split]

theorem readMany_writeItems {items : List Value}
    (h : ∀ v ∈ items, ∀ rest, readValue depth (v.write ++ rest) = some (v, rest)) :
    readMany (readValue depth) items.length (writeItems items ++ rest) = some (items, rest) := by
  induction items with
  | nil => rfl
  | cons v items ih =>
    have hv := h v List.mem_cons_self (writeItems items ++ rest)
    have hrest := ih fun w hw ↦ h w (List.mem_cons_of_mem _ hw)
    rw [List.length_cons, readMany, writeItems, List.append_assoc, hv]
    simp only [Option.bind_eq_bind, Option.bind_some, hrest, Option.pure_def]

theorem readMany_writeEntries {entries : List (Value × Value)}
    (h : ∀ e ∈ entries, ∀ rest, readValue depth (e.1.write ++ rest) = some (e.1, rest) ∧
      readValue depth (e.2.write ++ rest) = some (e.2, rest)) :
    readMany (readPair (readValue depth)) entries.length (writeEntries entries ++ rest) =
      some (entries, rest) := by
  induction entries with
  | nil => rfl
  | cons e entries ih =>
    obtain ⟨k, v⟩ := e
    have hk := (h (k, v) List.mem_cons_self (v.write ++ (writeEntries entries ++ rest))).1
    have hv := (h (k, v) List.mem_cons_self (writeEntries entries ++ rest)).2
    have hrest := ih fun e he ↦ h e (List.mem_cons_of_mem _ he)
    rw [List.length_cons, readMany, writeEntries, List.append_assoc, List.append_assoc, readPair,
      hk]
    simp only [Option.bind_eq_bind, Option.bind_some, hv, hrest, Option.pure_def]

/-- What is written reads back, whatever follows it. -/
theorem readValue_write (h : v.Fits depth) : readValue depth (v.write ++ rest) = some (v, rest) := by
  induction depth generalizing v rest with
  | zero => exact h.elim
  | succ depth ih =>
    rw [readValue]
    cases v with
    | uint n =>
      rw [Value.write, readHead_head (by decide) n.toNat_lt]
      simp
    | nint n =>
      rw [Value.write, readHead_head (by decide) n.toNat_lt]
      simp
    | bytes b =>
      rw [Value.write, List.append_assoc, readHead_head (by decide) h]
      simp [split_append]
    | text s =>
      have hlen : s.toByteArray.data.toList.length = s.utf8ByteSize := rfl
      have hs : String.fromUTF8? ⟨s.toByteArray.data.toList.toArray⟩ = some s := by
        rw [Array.toArray_toList, String.fromUTF8?, dif_pos s.isValidUTF8]
        rfl
      rw [Value.write, List.append_assoc, readHead_head (by decide) h]
      simp [split_append hlen, hs]
    | array items =>
      rw [Value.write, List.append_assoc, readHead_head (by decide) h.1]
      simp [readMany_writeItems fun v hv rest ↦ ih (h.2 v hv)]
    | map entries =>
      rw [Value.write, List.append_assoc, readHead_head (by decide) h.1]
      simp [readMany_writeEntries fun e he rest ↦ ⟨ih (h.2 e he).1, ih (h.2 e he).2⟩]
    | bool b =>
      rw [Value.write, readHead_head (by decide) (by split <;> decide)]
      cases b <;> simp
    | null =>
      rw [Value.write, readHead_head (by decide) (by decide)]
      simp

end FluxSync.Cbor
