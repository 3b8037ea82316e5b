import FluxSync.Foundation.Cbor

namespace FluxSync.Cbor

/-- The bytes that a head with this argument takes. -/
def headSize (n : ℕ) : ℕ :=
  if n < 24 then 1 else if n < 256 then 2 else if n < 256 ^ 2 then 3 else if n < 256 ^ 4 then 5 else 9

mutual

def Value.size : Value → ℕ
  | .uint n => headSize n.toNat
  | .nint n => headSize n.toNat
  | .bytes b => headSize b.length + b.length
  | .text s => headSize s.utf8ByteSize + s.utf8ByteSize
  | .array items => headSize items.length + itemsSize items
  | .map entries => headSize entries.length + entriesSize entries
  | .bool _ => 1
  | .null => 1

def itemsSize : List Value → ℕ
  | [] => 0
  | v :: items => v.size + itemsSize items

def entriesSize : List (Value × Value) → ℕ
  | [] => 0
  | (k, v) :: entries => k.size + v.size + entriesSize entries

end

variable {n major bound : ℕ}

theorem length_head : (head major n).length = headSize n := by
  rw [head, headSize]
  split
  · rfl
  · split
    · simp
    · split
      · simp
      · split <;> simp

mutual

theorem length_write (v : Value) : v.write.length = v.size := by
  cases v with
  | uint | nint => rw [Value.write, Value.size, length_head]
  | bytes b => rw [Value.write, Value.size, List.length_append, length_head]
  | text s =>
    rw [Value.write, Value.size, List.length_append, length_head, Array.length_toList]
    rfl
  | array items => rw [Value.write, Value.size, List.length_append, length_head, length_writeItems]
  | map entries =>
    rw [Value.write, Value.size, List.length_append, length_head, length_writeEntries]
  | bool b =>
    rw [Value.write, Value.size, length_head]
    cases b <;> rfl
  | null => rw [Value.write, Value.size, length_head]; rfl

theorem length_writeItems (items : List Value) : (writeItems items).length = itemsSize items := by
  cases items with
  | nil => rfl
  | cons v items =>
    rw [writeItems, itemsSize, List.length_append, length_write, length_writeItems]

theorem length_writeEntries (entries : List (Value × Value)) :
    (writeEntries entries).length = entriesSize entries := by
  match entries with
  | [] => rfl
  | (k, v) :: entries =>
    rw [writeEntries, entriesSize, List.length_append, List.length_append, length_write,
      length_write, length_writeEntries]

end

theorem itemsSize_map {α : Type} {f : α → Value} {l : List α} :
    itemsSize (l.map f) = (l.map fun a ↦ (f a).size).sum := by
  induction l with
  | nil => rfl
  | cons a l ih => rw [List.map_cons, itemsSize, ih, List.map_cons, List.sum_cons]

theorem headSize_short (h : n < 24) : headSize n = 1 := if_pos h

theorem headSize_byte (h : 24 ≤ n) (h' : n < 256) : headSize n = 2 := by
  rw [headSize, if_neg (by omega), if_pos h']

theorem headSize_two (h : 256 ≤ n) (h' : n < 256 ^ 2) : headSize n = 3 := by
  rw [headSize, if_neg (by omega), if_neg (by omega), if_pos h']

theorem headSize_le : headSize n ≤ 9 := by
  rw [headSize]
  split_ifs <;> decide

theorem headSize_word (h : n < 256 ^ 2) : headSize n ≤ 3 := by
  rw [headSize]
  split_ifs <;> decide

end FluxSync.Cbor
