import Mathlib.Algebra.Ring.Nat

/-! ## The text forms of internet addresses

They are read and written as the standard library of Rust does it. -/

namespace FluxSync.NetText

abbrev Parser (α : Type) := List Char → Option (α × List Char)

def readChar (c : Char) : Parser Unit
  | d :: s => if d = c then some ((), s) else none
  | [] => none

/-- `char::to_digit`. -/
def toDigit (radix : ℕ) (c : Char) : Option ℕ :=
  let value :=
    if '0' ≤ c ∧ c ≤ '9' then some (c.toNat - '0'.toNat)
    else if 'a' ≤ c ∧ c ≤ 'z' then some (c.toNat - 'a'.toNat + 10)
    else if 'A' ≤ c ∧ c ≤ 'Z' then some (c.toNat - 'A'.toNat + 10)
    else none
  value.filter (· < radix)

/-- The digits at the head, and what comes behind them. -/
def digits (radix : ℕ) : Parser (List ℕ)
  | [] => some ([], [])
  | c :: s =>
    match toDigit radix c with
    | some d => (digits radix s).map fun x ↦ (d :: x.1, x.2)
    | none => some ([], c :: s)

def ofDigits (radix : ℕ) (ds : List ℕ) : ℕ := ds.foldl (fun n d ↦ n * radix + d) 0

def readNumber (radix bound : ℕ) (maxDigits : Option ℕ) (allowZeroPrefix : Bool) : Parser ℕ :=
  fun s ↦ do
    let (ds, rest) ← digits radix s
    if ds = [] ∨ maxDigits.any (· < ds.length) then none
    else if !allowZeroPrefix && s.head? == some '0' && 1 < ds.length then none
    else if ofDigits radix ds < bound then some (ofDigits radix ds, rest)
    else none

def ofOctets (a b c d : ℕ) : BitVec 32 := .ofNat 32 (((a * 256 + b) * 256 + c) * 256 + d)

def readOctet : Parser ℕ := readNumber 10 256 (some 3) false

def readIpv4 : Parser (BitVec 32) := fun s ↦ do
  let (a, s) ← readOctet s
  let (_, s) ← readChar '.' s
  let (b, s) ← readOctet s
  let (_, s) ← readChar '.' s
  let (c, s) ← readOctet s
  let (_, s) ← readChar '.' s
  let (d, s) ← readOctet s
  return (ofOctets a b c d, s)

/-- `read_separator` for the colon. -/
def separated {α : Type} (first : Bool) (p : Parser α) : Parser α := fun s ↦
  if first then p s else (readChar ':' s).bind fun x ↦ p x.2

/-- Up to `limit` groups, the last two of which may be an IPv4 address. -/
def readGroups : (limit : ℕ) → (first : Bool) → List Char → (List ℕ × Bool) × List Char
  | 0, _, s => (([], false), s)
  | limit + 1, first, s =>
    let v4 := if 1 ≤ limit then separated first readIpv4 s else none
    match v4 with
    | some (ip, s) => (([ip.toNat / 65536, ip.toNat % 65536], true), s)
    | none =>
      match separated first (readNumber 16 65536 (some 4) true) s with
      | some (group, s) =>
        let ((groups, v4), s) := readGroups limit false s
        ((group :: groups, v4), s)
      | none => (([], false), s)

def ofGroups (groups : List ℕ) : BitVec 128 := .ofNat 128 (ofDigits 65536 groups)

def readIpv6 : Parser (BitVec 128) := fun s ↦
  let ((head, headIpv4), s) := readGroups 8 true s
  if head.length = 8 then some (ofGroups head, s)
  else if headIpv4 then none
  else do
    let (_, s) ← readChar ':' s
    let (_, s) ← readChar ':' s
    let ((tail, _), s) := readGroups (7 - head.length) true s
    return (ofGroups (head ++ List.replicate (8 - head.length - tail.length) 0 ++ tail), s)

def readPort : Parser (BitVec 16) := fun s ↦ do
  let (_, s) ← readChar ':' s
  let (port, s) ← readNumber 10 65536 none true s
  return (.ofNat 16 port, s)

def readScopeId : Parser (BitVec 32) := fun s ↦ do
  let (_, s) ← readChar '%' s
  let (scope, s) ← readNumber 10 (2 ^ 32) none true s
  return (.ofNat 32 scope, s)

def readSocketAddrV4 : Parser (BitVec 32 × BitVec 16) := fun s ↦ do
  let (ip, s) ← readIpv4 s
  let (port, s) ← readPort s
  return ((ip, port), s)

/-- The address, the port and the scope. -/
def readSocketAddrV6 : Parser (BitVec 128 × BitVec 16 × BitVec 32) := fun s ↦ do
  let (_, s) ← readChar '[' s
  let (ip, s) ← readIpv6 s
  let (scope, s) := (readScopeId s).getD (0, s)
  let (_, s) ← readChar ']' s
  let (port, s) ← readPort s
  return ((ip, port, scope), s)

inductive IpAddr
  | v4 (ip : BitVec 32)
  | v6 (ip : BitVec 128)
  deriving DecidableEq

def readIpAddr : Parser IpAddr := fun s ↦
  match readIpv4 s with
  | some (ip, s) => some (.v4 ip, s)
  | none => (readIpv6 s).map fun x ↦ (.v6 x.1, x.2)

/-- An IPv6 address comes with its scope. -/
def readSocketAddr : Parser ((BitVec 32 ⊕ BitVec 128 × BitVec 32) × BitVec 16) := fun s ↦
  match readSocketAddrV4 s with
  | some ((ip, port), s) => some ((.inl ip, port), s)
  | none => (readSocketAddrV6 s).map fun x ↦ ((.inr (x.1.1, x.1.2.2), x.1.2.1), x.2)

/-- `parse_with`: nothing may be left over. -/
def whole {α : Type} (p : Parser α) (s : List Char) : Option α :=
  (p s).bind fun x ↦ if x.2 = [] then some x.1 else none

def decimal (n : ℕ) : List Char := Nat.toDigits 10 n

def octets (ip : BitVec 32) : List ℕ :=
  [ip.toNat / 256 ^ 3, ip.toNat / 256 ^ 2 % 256, ip.toNat / 256 % 256, ip.toNat % 256]

def displayIpv4 (ip : BitVec 32) : List Char := ['.'].intercalate ((octets ip).map decimal)

def segments (ip : BitVec 128) : List ℕ :=
  (List.range 8).map fun i ↦ ip.toNat / 65536 ^ (7 - i) % 65536

/-- The start and the length of the first longest run of zeros. -/
def zeroSpan (groups : List ℕ) : ℕ × ℕ :=
  (groups.zipIdx.foldl (fun (longest, current) (g, i) ↦
    if g = 0 then
      let current := if current.2 = 0 then (i, 1) else (current.1, current.2 + 1)
      (if longest.2 < current.2 then current else longest, current)
    else (longest, (0, 0))) ((0, 0), (0, 0))).1

def displayGroups (groups : List ℕ) : List Char :=
  [':'].intercalate (groups.map (Nat.toDigits 16))

def displayIpv6 (ip : BitVec 128) : List Char :=
  let groups := segments ip
  if groups.take 6 = [0, 0, 0, 0, 0, 65535] then
    ("::ffff:".toList ++ displayIpv4 (ip.truncate 32))
  else
    let (start, len) := zeroSpan groups
    if 1 < len then
      displayGroups (groups.take start) ++ "::".toList ++ displayGroups (groups.drop (start + len))
    else displayGroups groups

def IpAddr.display : IpAddr → List Char
  | .v4 ip => displayIpv4 ip
  | .v6 ip => displayIpv6 ip

def displaySocketAddr (ip : IpAddr) (port : BitVec 16) : List Char :=
  ip.display ++ ':' :: decimal port.toNat

example : whole readIpv6 "2001:db8::1".toList = some 0x20010db8000000000000000000000001 := by
  decide +kernel

example : displayIpv6 0x20010db8000000000000000000000001 = "2001:db8::1".toList := by decide +kernel

variable {radix bound n : ℕ} {rest l g : List Char} {ds : List ℕ} {ip : BitVec 32} {c : Char}

theorem toDigit_digitChar (h : n < 10) : toDigit 10 (Nat.digitChar n) = some n := by
  have hall : ∀ n < 10, toDigit 10 (Nat.digitChar n) = some n := by decide
  exact hall n h

theorem digits_append (hl : l.map (toDigit radix) = ds.map some)
    (hrest : ∀ c ∈ rest.head?, toDigit radix c = none) : digits radix (l ++ rest) = some (ds, rest) := by
  induction l generalizing ds with
  | nil =>
    obtain rfl : ds = [] := by simpa using hl.symm
    cases rest with
    | nil => rfl
    | cons c rest => rw [List.nil_append, digits, hrest c rfl]
  | cons c l ih =>
    cases ds with
    | nil => cases hl
    | cons d ds =>
      rw [List.map_cons, List.map_cons, List.cons.injEq] at hl
      rw [List.cons_append, digits, hl.1, ih hl.2]
      rfl

/-- The digits of a number, read again. -/
theorem exists_digits_decimal (n : ℕ) :
    ∃ ds, (decimal n).map (toDigit 10) = ds.map some ∧ ofDigits 10 ds = n := by
  induction n using Nat.strongRecOn with
  | _ n ih =>
    by_cases hn : n < 10
    · refine ⟨[n], ?_, by simp [ofDigits]⟩
      rw [decimal, Nat.toDigits_of_lt_base hn, List.map_singleton, toDigit_digitChar hn]
      rfl
    · obtain ⟨ds, hds, hvalue⟩ := ih (n / 10) (by omega)
      refine ⟨ds ++ [n % 10], ?_, ?_⟩
      · rw [decimal, Nat.toDigits_of_base_le (by omega) (by omega), List.map_append, List.map_append]
        rw [decimal] at hds
        rw [hds, List.map_singleton, toDigit_digitChar (by omega)]
        rfl
      · rw [ofDigits, List.foldl_append]
        rw [ofDigits] at hvalue
        rw [hvalue, List.foldl_cons, List.foldl_nil]
        omega

theorem head?_decimal (hn : 0 < n) : (decimal n).head? ≠ some '0' := by
  induction n using Nat.strongRecOn with
  | _ n ih =>
    by_cases hlt : n < 10
    · rw [decimal, Nat.toDigits_of_lt_base hlt]
      have hall : ∀ n < 10, 0 < n → [Nat.digitChar n].head? ≠ some '0' := by decide
      exact hall n hlt hn
    · have hne : decimal (n / 10) ≠ [] := Nat.toDigits_ne_nil
      have hhead := ih (n / 10) (by omega) (by omega)
      rw [decimal, Nat.toDigits_of_base_le (by omega) (by omega)]
      rw [decimal] at hne hhead
      obtain ⟨c, l, hcons⟩ := List.exists_cons_of_ne_nil hne
      rw [hcons] at hhead ⊢
      exact hhead

/-- A number that is written out is read again, up to the end of its digits. -/
theorem readNumber_decimal {maxDigits : Option ℕ} {zero : Bool} (hn : n < bound)
    (hmax : ∀ k ∈ maxDigits, n < 10 ^ k ∧ 0 < k) (hrest : ∀ c ∈ rest.head?, toDigit 10 c = none) :
    readNumber 10 bound maxDigits zero (decimal n ++ rest) = some (n, rest) := by
  obtain ⟨ds, hds, hvalue⟩ := exists_digits_decimal n
  have hlen : ds.length = (decimal n).length := by
    simpa using (congrArg List.length hds).symm
  have hne : ds ≠ [] := by
    intro hnil
    rw [hnil] at hlen
    exact Nat.toDigits_ne_nil (List.length_eq_zero_iff.mp hlen.symm)
  have hshort : maxDigits.any (· < ds.length) = false := by
    cases hk : maxDigits with
    | none => rfl
    | some k =>
      obtain ⟨hlt, hpos⟩ := hmax k hk
      have : (decimal n).length ≤ k := (Nat.length_toDigits_le_iff (by omega) hpos).mpr hlt
      simp only [Option.any_some, decide_eq_false_iff_not]
      omega
  have hzero : (!zero && (decimal n ++ rest).head? == some '0' && decide (1 < ds.length)) = false := by
    by_cases hn0 : n = 0
    · have : ds.length = 1 := by
        rw [hlen, hn0]
        rfl
      simp [this]
    · have hhead := head?_decimal (Nat.pos_of_ne_zero hn0)
      have hnil : decimal n ≠ [] := Nat.toDigits_ne_nil
      obtain ⟨c, l, hcons⟩ := List.exists_cons_of_ne_nil hnil
      rw [hcons] at hhead ⊢
      have hc : c ≠ '0' := fun h ↦ hhead (by rw [h]; rfl)
      simp [hc]
  simp only [readNumber, digits_append hds hrest, Option.bind_eq_bind, Option.bind_some, hne,
    hshort, hzero, hvalue, hn, Bool.false_eq_true, or_self, if_false, if_true]

theorem readOctet_decimal (hn : n < 256) (hrest : ∀ c ∈ rest.head?, toDigit 10 c = none) :
    readOctet (decimal n ++ rest) = some (n, rest) := by
  apply readNumber_decimal hn _ hrest
  intro k hk
  obtain rfl := Option.some.inj hk
  omega

theorem ofOctets_octets : ofOctets (ip.toNat / 256 ^ 3) (ip.toNat / 256 ^ 2 % 256)
    (ip.toNat / 256 % 256) (ip.toNat % 256) = ip := by
  have hvalue : ((ip.toNat / 256 ^ 3 * 256 + ip.toNat / 256 ^ 2 % 256) * 256 +
      ip.toNat / 256 % 256) * 256 + ip.toNat % 256 = ip.toNat := by omega
  rw [ofOctets, hvalue, BitVec.ofNat_toNat]
  exact BitVec.setWidth_eq ip

theorem displayIpv4_append : displayIpv4 ip ++ rest =
    decimal (ip.toNat / 256 ^ 3) ++ '.' :: (decimal (ip.toNat / 256 ^ 2 % 256) ++
      '.' :: (decimal (ip.toNat / 256 % 256) ++ '.' :: (decimal (ip.toNat % 256) ++ rest))) := by
  simp [displayIpv4, octets, List.intercalate_cons_cons]

theorem readChar_self {s : List Char} : readChar c (c :: s) = some ((), s) := if_pos rfl

/-- An IPv4 address that is written out is read again. -/
theorem readIpv4_display (hrest : ∀ c ∈ rest.head?, toDigit 10 c = none) :
    readIpv4 (displayIpv4 ip ++ rest) = some (ip, rest) := by
  have hdot : ∀ s : List Char, ∀ c ∈ ('.' :: s).head?, toDigit 10 c = none := by
    intro s c hc
    obtain rfl := Option.some.inj hc
    decide
  have hlt := ip.isLt
  rw [displayIpv4_append]
  simp only [readIpv4, readOctet_decimal (by omega : ip.toNat / 256 ^ 3 < 256) (hdot _),
    readOctet_decimal (by omega : ip.toNat / 256 ^ 2 % 256 < 256) (hdot _),
    readOctet_decimal (by omega : ip.toNat / 256 % 256 < 256) (hdot _),
    readOctet_decimal (by omega : ip.toNat % 256 < 256) hrest, readChar_self,
    Option.bind_eq_bind, Option.bind_some, ofOctets_octets]
  rfl

theorem readPort_decimal {port : BitVec 16} :
    readPort (':' :: decimal port.toNat) = some (port, []) := by
  have hport : readNumber 10 65536 none true (decimal port.toNat ++ []) = some (port.toNat, []) :=
    readNumber_decimal port.isLt (fun k hk ↦ by cases hk) fun c hc ↦ by cases hc
  rw [List.append_nil] at hport
  simp only [readPort, readChar_self, Option.bind_eq_bind, Option.bind_some, hport,
    BitVec.ofNat_toNat, BitVec.setWidth_eq]
  rfl

/-- An IPv4 address and a port are read back from `ip:port`. -/
theorem read_socketAddr_v4 {port : BitVec 16} :
    whole readSocketAddr (displayIpv4 ip ++ ':' :: decimal port.toNat) = some (.inl ip, port) := by
  have hcolon : ∀ c ∈ (':' :: decimal port.toNat).head?, toDigit 10 c = none := by
    intro c hc
    obtain rfl := Option.some.inj hc
    decide
  simp only [whole, readSocketAddr, readSocketAddrV4, readIpv4_display hcolon, readPort_decimal,
    Option.bind_eq_bind, Option.bind_some, Option.pure_def, if_true]

/-! ### IPv6 addresses without brackets -/

/-- No dot follows the digits of a text that has a colon before its first dot. -/
theorem digits_rest {x : List ℕ × List Char} (hg : '.' ∉ g)
    (h : digits 10 (g ++ ':' :: l) = some x) : x.2.head? ≠ some '.' := by
  induction g generalizing x with
  | nil =>
    obtain rfl : ([], ':' :: l) = x := Option.some.inj h
    simp
  | cons c g ih =>
    rw [List.cons_append, digits] at h
    split at h
    case h_1 d hd =>
      obtain ⟨y, hy, rfl⟩ := Option.map_eq_some_iff.mp h
      have hrest : y.2.head? ≠ some '.' := ih (fun hmem ↦ hg (List.mem_cons_of_mem c hmem)) hy
      exact hrest
    case h_2 =>
      obtain rfl := Option.some.inj h
      intro hdot
      obtain rfl := Option.some.inj hdot
      exact hg List.mem_cons_self

theorem readOctet_rest {x : ℕ × List Char} (hg : '.' ∉ g)
    (h : readOctet (g ++ ':' :: l) = some x) : x.2.head? ≠ some '.' := by
  rw [readOctet, readNumber, Option.bind_eq_bind, Option.bind_eq_some_iff] at h
  obtain ⟨⟨ds, rest⟩, hdigits, h⟩ := h
  dsimp only at h
  split at h
  case isTrue => cases h
  case isFalse =>
    split at h
    case isTrue => cases h
    case isFalse =>
      obtain ⟨-, h⟩ := Option.ite_none_right_eq_some.mp h
      obtain rfl := Option.some.inj h
      exact digits_rest hg hdigits

theorem readChar_of_head? {s : List Char} (h : s.head? ≠ some c) : readChar c s = none := by
  cases s with
  | nil => rfl
  | cons d s => exact if_neg fun hd ↦ h (congrArg some hd)

/-- What has a colon before its first dot is no IPv4 address. -/
theorem readIpv4_eq_none (hg : '.' ∉ g) : readIpv4 (g ++ ':' :: l) = none := by
  rw [readIpv4]
  cases h : readOctet (g ++ ':' :: l) with
  | none => rfl
  | some x =>
    simp only [Option.bind_eq_bind, Option.bind_some, readChar_of_head? (readOctet_rest hg h),
      Option.bind_none]

theorem not_mem_toDigits (hradix : 1 < radix) (hc : ∀ d < radix, Nat.digitChar d ≠ c) :
    c ∉ Nat.toDigits radix n := by
  induction n using Nat.strongRecOn with
  | _ n ih =>
    by_cases hn : n < radix
    · rw [Nat.toDigits_of_lt_base hn, List.mem_singleton]
      exact (hc n hn).symm
    · have hdiv : n / radix < n := Nat.div_lt_self (by omega) hradix
      have hmod : n % radix < radix := Nat.mod_lt n (by omega)
      rw [Nat.toDigits_of_base_le hradix (by omega), List.mem_append, List.mem_singleton]
      exact not_or.mpr ⟨ih _ hdiv, (hc _ hmod).symm⟩

/-- An address in its colon form: a group or nothing, and then a colon. -/
def Colonized (l : List Char) : Prop := ∃ g r, l = g ++ ':' :: r ∧ '.' ∉ g ∧ '[' ∉ g

theorem Colonized.append (h : Colonized l) : Colonized (l ++ rest) := by
  obtain ⟨g, r, rfl, hg⟩ := h
  exact ⟨g, r ++ rest, by simp, hg⟩

theorem colonized_digits (n : ℕ) : Colonized (Nat.toDigits 16 n ++ ':' :: l) :=
  ⟨_, l, rfl, not_mem_toDigits (by decide) (by decide), not_mem_toDigits (by decide) (by decide)⟩

theorem colonized_nil : Colonized (':' :: l) := ⟨[], l, rfl, by simp, by simp⟩

theorem displayGroups_cons {m : ℕ} {groups : List ℕ} :
    displayGroups (n :: m :: groups) = Nat.toDigits 16 n ++ ':' :: displayGroups (m :: groups) := by
  rw [displayGroups, List.map_cons, List.map_cons, List.intercalate_cons_cons]
  simp [displayGroups]

theorem colonized_groups {groups : List ℕ} (h : 2 ≤ groups.length) :
    Colonized (displayGroups groups) := by
  match groups with
  | n :: m :: groups =>
    rw [displayGroups_cons]
    exact colonized_digits n

theorem colonized_group (n : ℕ) (groups : List ℕ) :
    Colonized (displayGroups (n :: groups) ++ ':' :: l) := by
  cases groups with
  | nil =>
    have hone : displayGroups [n] = Nat.toDigits 16 n := by simp [displayGroups]
    rw [hone]
    exact colonized_digits n
  | cons m groups => exact (colonized_groups (by simp)).append

theorem colonized_displayIpv6 (ip : BitVec 128) : Colonized (displayIpv6 ip) := by
  rw [displayIpv6]
  dsimp only
  split
  · exact colonized_nil
  · split
    · rw [List.append_assoc]
      cases (segments ip).take (zeroSpan (segments ip)).1 with
      | nil => exact colonized_nil
      | cons n groups => exact colonized_group n groups
    · exact colonized_groups (by simp [segments])

theorem Colonized.unread (h : Colonized l) : readSocketAddr l = none := by
  obtain ⟨g, r, rfl, hdot, hbracket⟩ := h
  have hhead : (g ++ ':' :: r).head? ≠ some '[' := by
    cases g with
    | nil => simp
    | cons c g =>
      intro hc
      obtain rfl := Option.some.inj hc
      exact hbracket List.mem_cons_self
  simp only [readSocketAddr, readSocketAddrV4, readSocketAddrV6, readIpv4_eq_none hdot,
    readChar_of_head? hhead, Option.bind_eq_bind, Option.bind_none, Option.map_none]

/-- Without its brackets an IPv6 address and a port are no socket address. -/
theorem read_socketAddr_v6 {ip : BitVec 128} {port : BitVec 16} :
    whole readSocketAddr (displayIpv6 ip ++ ':' :: decimal port.toNat) = none := by
  rw [whole, (colonized_displayIpv6 ip).append.unread]
  rfl

/-! ### Characters that no address has -/

theorem mem_intercalate {x : Char} {ls : List (List Char)} (h : c ∈ [x].intercalate ls) :
    c = x ∨ ∃ l ∈ ls, c ∈ l := by
  induction ls with
  | nil => simp at h
  | cons l ls ih =>
    cases ls with
    | nil => exact .inr ⟨l, List.mem_cons_self, by simpa using h⟩
    | cons m ls =>
      rw [List.intercalate_cons_cons, List.append_assoc, List.mem_append, List.mem_append,
        List.mem_singleton] at h
      rcases h with h | h | h
      · exact .inr ⟨l, List.mem_cons_self, h⟩
      · exact .inl h
      · obtain h | ⟨k, hk, hc⟩ := ih h
        · exact .inl h
        · exact .inr ⟨k, List.mem_cons_of_mem l hk, hc⟩

/-- Neither a hex digit nor a separator. -/
def Foreign (c : Char) : Prop := (∀ d < 16, Nat.digitChar d ≠ c) ∧ c ≠ '.' ∧ c ≠ ':'

instance : Decidable (Foreign c) := inferInstanceAs (Decidable (_ ∧ _))

theorem Foreign.decimal (hc : Foreign c) : c ∉ decimal n :=
  not_mem_toDigits (by decide) fun d hd ↦ hc.1 d (by omega)

theorem Foreign.displayIpv4 (hc : Foreign c) : c ∉ displayIpv4 ip := by
  intro h
  obtain h | ⟨l, hl, h⟩ := mem_intercalate h
  · exact hc.2.1 h
  · obtain ⟨n, -, rfl⟩ := List.mem_map.mp hl
    exact hc.decimal h

theorem Foreign.displayGroups {groups : List ℕ} (hc : Foreign c) : c ∉ displayGroups groups := by
  intro h
  obtain h | ⟨l, hl, h⟩ := mem_intercalate h
  · exact hc.2.2 h
  · obtain ⟨n, -, rfl⟩ := List.mem_map.mp hl
    exact not_mem_toDigits (by decide) hc.1 h

theorem Foreign.displayIpv6 {ip : BitVec 128} (hc : Foreign c) : c ∉ displayIpv6 ip := by
  have hsep : c ∉ "::".toList := by simp [hc.2.2]
  have hf : c ≠ 'f' := (hc.1 15 (by decide)).symm
  have hmapped : c ∉ "::ffff:".toList := by simp [hc.2.2, hf]
  rw [NetText.displayIpv6]
  dsimp only
  split
  · exact fun h ↦ (List.mem_append.mp h).elim hmapped hc.displayIpv4
  · split
    · rw [List.mem_append, List.mem_append]
      exact not_or.mpr ⟨not_or.mpr ⟨hc.displayGroups, hsep⟩, hc.displayGroups⟩
    · exact hc.displayGroups

theorem Foreign.displaySocketAddr {ip : IpAddr} {port : BitVec 16} (hc : Foreign c) :
    c ∉ displaySocketAddr ip port := by
  rw [NetText.displaySocketAddr, List.mem_append, List.mem_cons]
  refine not_or.mpr ⟨?_, not_or.mpr ⟨hc.2.2, hc.decimal⟩⟩
  cases ip with
  | v4 ip => exact hc.displayIpv4
  | v6 ip => exact hc.displayIpv6

end FluxSync.NetText
