import Mathlib.Data.List.Nodup
import FluxSync.Foundation.Json

/-! ## Data as JSON

Structs, options and unit variants are written and read as derived code does it. -/

namespace FluxSync.Json

variable {α β : Type} {v : Value} {ms : List (String × Value)} {names : List String} {k : String}

def u64 (n : UInt64) : Value := .number (NetText.decimal n.toNat)

def ofString (s : String) : Value := .string (some s)

def ofOption (ser : α → Value) : Option α → Value
  | none => .null
  | some a => ser a

def ofList (ser : α → Value) (l : List α) : Value := .array (l.map ser)

/-- The fields of a struct, each under its name. An array has them in their order,
an object in any; no field may be there twice. -/
def fields (names : List String) : Value → Option (String → Option Value)
  | .object ms =>
    if names.all fun k ↦ (ms.filter (·.1 == k)).length ≤ 1 then some fun k ↦ ms.lookup k else none
  | .array items =>
    if items.length ≤ names.length then some fun k ↦ (names.zip items).lookup k else none
  | _ => none

def required (de : Value → Option α) : Option Value → Option α
  | some v => de v
  | none => none

def defaulted (a : α) (de : Value → Option α) : Option Value → Option α
  | some v => de v
  | none => some a

def asU64 : Value → Option UInt64
  | .number t => (NetText.whole (NetText.readNumber 10 (2 ^ 64) none true) t).map .ofNat
  | _ => none

/-- A number of 32 bits is read as one of 64 first. -/
def asU32 (v : Value) : Option UInt32 :=
  (asU64 v).bind fun n ↦ if n.toNat < 2 ^ 32 then some n.toUInt32 else none

def asBool : Value → Option Bool
  | .bool b => some b
  | _ => none

def asString : Value → Option String
  | .string s => s
  | _ => none

def asOption (de : Value → Option α) : Value → Option (Option α)
  | .null => some none
  | v => (de v).map some

def asList (de : Value → Option α) : Value → Option (List α)
  | .array items => items.mapM de
  | _ => none

/-- A variant without data is its name, or an object of its name and `null`. -/
def asUnit (variants : List (String × α)) : Value → Option α
  | .string (some s) => variants.lookup s
  | .object [(s, .null)] => variants.lookup s
  | _ => none

/-- The bytes of a text file. -/
def toBytes (s : List Char) : List UInt8 := (String.ofList s).toByteArray.data.toList

def ofBytes (b : List UInt8) : Option String := String.fromUTF8? ⟨b.toArray⟩

theorem ofBytes_toBytes (s : List Char) : ofBytes (toBytes s) = some (.ofList s) := by
  rw [ofBytes, toBytes, Array.toArray_toList]
  rw [String.fromUTF8?, dif_pos (String.ofList s).isValidUTF8]
  rfl

theorem asU64_u64 (n : UInt64) : asU64 (u64 n) = some n := by
  have hread : NetText.readNumber 10 (2 ^ 64) none true (NetText.decimal n.toNat ++ []) =
      some (n.toNat, []) :=
    NetText.readNumber_decimal n.toNat_lt (fun k hk ↦ by cases hk) fun c hc ↦ by cases hc
  rw [List.append_nil] at hread
  simp only [asU64, u64, NetText.whole, hread]
  simp

theorem asU32_u64 (n : UInt32) : asU32 (u64 n.toUInt64) = some n := by
  have hlt : n.toUInt64.toNat < 2 ^ 32 := by
    rw [UInt32.toNat_toUInt64]
    exact n.toNat_lt
  rw [asU32, asU64_u64, Option.bind_some, if_pos hlt, UInt32.toUInt32_toUInt64]

theorem asOption_ofOption {ser : α → Value} {de : Value → Option α} (h : ∀ a, de (ser a) = some a)
    (hnull : ∀ a, ser a ≠ .null) (o : Option α) : asOption de (ofOption ser o) = some o := by
  cases o with
  | none => rfl
  | some a =>
    rw [ofOption, asOption.eq_2 _ _ (hnull a), h]
    rfl

theorem asList_ofList {ser : α → Value} {de : Value → Option β} {f : α → β}
    (h : ∀ a, de (ser a) = some (f a)) (l : List α) : asList de (ofList ser l) = some (l.map f) := by
  simp only [asList, ofList]
  induction l with
  | nil => rfl
  | cons a l ih =>
    rw [List.map_cons, List.mapM_cons, h, ih]
    rfl

/-- The fields of a struct that was written. -/
theorem fields_object (hms : ms.map (·.1) = names) (h : names.Nodup) :
    fields names (.object ms) = some fun k ↦ ms.lookup k := by
  refine if_pos (List.all_eq_true.mpr fun k _ ↦ decide_eq_true ?_)
  have hcount : (ms.filter (·.1 == k)).length = (ms.map (·.1)).count k := by
    rw [List.count, List.countP_map, List.countP_eq_length_filter]
    rfl
  rw [hcount, hms]
  exact List.nodup_iff_count_le_one.mp h k

theorem exists_fields (hms : ms.map (·.1) = names) (h : names.Nodup) :
    ∃ get, fields names (.object ms) = some get ∧ ∀ m ∈ ms, get m.1 = some m.2 := by
  refine ⟨_, fields_object hms h, ?_⟩
  have hkeys : (ms.map (·.1)).Nodup := hms ▸ h
  clear hms
  induction ms with
  | nil => exact fun m hm ↦ by cases hm
  | cons a ms ih =>
    obtain ⟨hnew, hrest⟩ := List.nodup_cons.mp hkeys
    intro m hm
    rw [List.lookup_cons]
    rcases List.mem_cons.mp hm with rfl | hm
    · rw [beq_self_eq_true]
    · have hne : m.1 ≠ a.1 := fun he ↦ hnew (List.mem_map.mpr ⟨m, hm, he⟩)
      rw [beq_false_of_ne hne]
      exact ih hrest m hm

theorem plain_ofString (s : String) : Plain (ofString s) := .string s

theorem plain_u64 (n : UInt64) : Plain (u64 n) := .number n.toNat

theorem plain_ofOption {ser : α → Value} (h : ∀ a, Plain (ser a)) (o : Option α) :
    Plain (ofOption ser o) := by
  cases o with
  | none => exact .null
  | some a => exact h a

theorem plain_object (h : ∀ v ∈ ms.map (·.2), Plain v) : Plain (.object ms) :=
  .object fun _ hm ↦ h _ (List.mem_map_of_mem hm)

theorem plain_ofList {ser : α → Value} (h : ∀ a, Plain (ser a)) (l : List α) :
    Plain (ofList ser l) := by
  refine .array fun v hv ↦ ?_
  obtain ⟨a, -, rfl⟩ := List.mem_map.mp hv
  exact h a

end FluxSync.Json
