import Mathlib.Data.Nat.Notation
import FluxSync.Types

namespace FluxSync

/-- Unicode `White_Space`, as `char::is_whitespace` tests it. -/
def isWhitespace (c : Char) : Bool :=
  let n := c.toNat
  (9 ≤ n && n ≤ 13) || n == 32 || n == 0x85 || n == 0xA0 || n == 0x1680
    || (0x2000 ≤ n && n ≤ 0x200A) || n == 0x2028 || n == 0x2029 || n == 0x202F || n == 0x205F
    || n == 0x3000

def trimChars (l : List Char) : List Char :=
  ((l.dropWhile isWhitespace).reverse.dropWhile isWhitespace).reverse

def trim (s : String) : String := .ofList (trimChars s.toList)

def crlfToLf : List Char → List Char
  | '\r' :: '\n' :: l => '\n' :: crlfToLf l
  | c :: l => c :: crlfToLf l
  | [] => []

def canonChars (l : List Char) : List Char :=
  trimChars ((crlfToLf l).map fun c ↦ if c = '\r' then '\n' else c)

def canonText (s : String) : String := .ofList (canonChars s.toList)

/-- Lowercase hex, the high nibble of the first byte first. -/
def hex32 (bytes : BitVec 256) : String :=
  .ofList ((List.range 64).map fun i ↦ Nat.digitChar (bytes.toNat >>> (4 * (63 - i)) % 16))

/-- `char::to_digit(16)` takes both cases. -/
def hexDigit (c : Char) : Option ℕ :=
  if '0' ≤ c ∧ c ≤ '9' then some (c.toNat - '0'.toNat)
  else if 'a' ≤ c ∧ c ≤ 'f' then some (c.toNat - 'a'.toNat + 10)
  else if 'A' ≤ c ∧ c ≤ 'F' then some (c.toNat - 'A'.toNat + 10)
  else none

/-- The length the source tests is in bytes; a byte of a longer character is no digit. -/
def hex32Decode (s : String) : Option (BitVec 256) :=
  if s.utf8ByteSize ≠ 64 then none
  else
    s.toList.foldlM (fun acc c ↦ (hexDigit c).map fun d ↦ acc * 16 + BitVec.ofNat 256 d) 0

end FluxSync
