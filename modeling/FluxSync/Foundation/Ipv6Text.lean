import Mathlib.Data.List.Induction
import FluxSync.Foundation.NetText

/-! ## IPv6 addresses that are written out are read again -/

namespace FluxSync.NetText

variable {radix n : ℕ} {rest l g : List Char} {gs hs : List ℕ} {ip : BitVec 128} {c : Char}

theorem toDigit_digitChar_of_lt (hr : radix ≤ 16) (h : n < radix) :
    toDigit radix (Nat.digitChar n) = some n := by
  have hall : ∀ n < 16, toDigit 16 (Nat.digitChar n) = some n := by decide
  have h16 := hall n (by omega)
  simp only [toDigit, Option.filter_eq_some_iff] at h16 ⊢
  exact ⟨h16.1, decide_eq_true h⟩

/-- The digits of a number in any base, read again. -/
theorem exists_digits (h2 : 2 ≤ radix) (hr : radix ≤ 16) (n : ℕ) :
    ∃ ds, (Nat.toDigits radix n).map (toDigit radix) = ds.map some ∧ ofDigits radix ds = n := by
  induction n using Nat.strongRecOn with
  | _ n ih =>
    by_cases hn : n < radix
    · refine ⟨[n], ?_, by simp [ofDigits]⟩
      rw [Nat.toDigits_of_lt_base hn, List.map_singleton, toDigit_digitChar_of_lt hr hn]
      rfl
    · obtain ⟨ds, hds, hvalue⟩ := ih (n / radix) (Nat.div_lt_self (by omega) (by omega))
      refine ⟨ds ++ [n % radix], ?_, ?_⟩
      · rw [Nat.toDigits_of_base_le (by omega) (by omega), List.map_append, List.map_append, hds,
          List.map_singleton, toDigit_digitChar_of_lt hr (Nat.mod_lt n (by omega))]
        rfl
      · rw [ofDigits, List.foldl_append]
        rw [ofDigits] at hvalue
        rw [hvalue, List.foldl_cons, List.foldl_nil]
        exact Nat.div_add_mod' n radix

theorem readNumber_group (hn : n < 65536) (hrest : ∀ c ∈ rest.head?, toDigit 16 c = none) :
    readNumber 16 65536 (some 4) true (Nat.toDigits 16 n ++ rest) = some (n, rest) := by
  obtain ⟨ds, hds, hvalue⟩ := exists_digits (by decide : 2 ≤ 16) le_rfl n
  have hlen : ds.length = (Nat.toDigits 16 n).length := by
    simpa using (congrArg List.length hds).symm
  have hne : ds ≠ [] := by
    intro hnil
    rw [hnil] at hlen
    exact Nat.toDigits_ne_nil (List.length_eq_zero_iff.mp hlen.symm)
  have hshort : (some 4).any (· < ds.length) = false := by
    have : (Nat.toDigits 16 n).length ≤ 4 := (Nat.length_toDigits_le_iff (by omega) (by omega)).mpr hn
    simp only [Option.any_some, decide_eq_false_iff_not]
    omega
  simp only [readNumber, digits_append hds hrest, Option.bind_eq_bind, Option.bind_some, hne,
    hshort, hvalue, hn, Bool.not_true, Bool.false_and, Bool.false_eq_true, or_self, if_false, if_true]

/-- Groups without an IPv4 address among them. -/
theorem readNumber_colon : readNumber 16 65536 (some 4) true (':' :: l) = none := by
  have hc : toDigit 16 ':' = none := by decide
  simp [readNumber, digits, hc]

theorem readIpv4_colon : readIpv4 (':' :: l) = none := readIpv4_eq_none (g := []) (by simp)

/-- What may follow the groups: no digit, no dot, and a colon only before another. -/
def Stops : List Char → Prop
  | [] => True
  | [c] => toDigit 16 c = none ∧ c ≠ '.' ∧ c ≠ ':'
  | c :: d :: _ => toDigit 16 c = none ∧ c ≠ '.' ∧ (c = ':' → d = ':')

theorem Stops.head (h : Stops rest) (hc : c ∈ rest.head?) : toDigit 16 c = none ∧ c ≠ '.' := by
  cases rest with
  | nil => cases hc
  | cons d l =>
    obtain rfl := Option.some.inj hc
    cases l with
    | nil => exact ⟨h.1, h.2.1⟩
    | cons e l => exact ⟨h.1, h.2.1⟩

theorem toDigit_ten (h : toDigit 16 c = none) : toDigit 10 c = none := by
  simp only [toDigit, Option.filter_eq_none_iff, decide_eq_true_eq] at h ⊢
  intro a ha hlt
  exact h a ha (by omega)

/-- Nothing goes on after the groups. -/
theorem Stops.separated (h : Stops rest) {α : Type} {p : Parser α}
    (hp : ∀ l, p (':' :: l) = none) : separated false p rest = none := by
  simp only [NetText.separated, Bool.false_eq_true, if_false]
  cases rest with
  | nil => rfl
  | cons c l =>
    by_cases hc : c = ':'
    · subst hc
      cases l with
      | nil => exact absurd rfl h.2.2
      | cons d l =>
        obtain rfl := h.2.2 rfl
        rw [readChar_self]
        exact hp l
    · rw [readChar, if_neg hc]
      rfl

/-- No dot follows the digits of a group. -/
theorem digits_group {x : List ℕ × List Char} (hg : '.' ∉ g)
    (hrest : ∀ c ∈ rest.head?, toDigit 10 c = none ∧ c ≠ '.')
    (h : digits 10 (g ++ rest) = some x) : x.2.head? ≠ some '.' := by
  induction g generalizing x with
  | nil =>
    rw [List.nil_append] at h
    cases rest with
    | nil =>
      obtain rfl := Option.some.inj h
      intro hdot
      cases hdot
    | cons c l =>
      rw [digits, (hrest c rfl).1] at h
      obtain rfl := Option.some.inj h
      intro hdot
      exact (hrest c rfl).2 (Option.some.inj hdot)
  | cons c g ih =>
    rw [List.cons_append, digits] at h
    split at h
    case h_1 d hd =>
      obtain ⟨y, hy, rfl⟩ := Option.map_eq_some_iff.mp h
      have hrest : y.2.head? ≠ some '.' := ih (fun hmem ↦ hg (List.mem_cons_of_mem c hmem)) hy
      exact hrest
    case h_2 =>
      obtain rfl := Option.some.inj h
      intro hdot
      obtain rfl := Option.some.inj hdot
      exact hg List.mem_cons_self

/-- A group is no IPv4 address, unless a dot follows it. -/
theorem readIpv4_group (hrest : ∀ c ∈ rest.head?, toDigit 16 c = none ∧ c ≠ '.') :
    readIpv4 (Nat.toDigits 16 n ++ rest) = none := by
  have hdot : '.' ∉ Nat.toDigits 16 n :=
    not_mem_toDigits (by decide) (by decide)
  have hrest' : ∀ c ∈ rest.head?, toDigit 10 c = none ∧ c ≠ '.' :=
    fun c hc ↦ ⟨toDigit_ten (hrest c hc).1, (hrest c hc).2⟩
  rw [readIpv4, Option.bind_eq_bind, Option.bind_eq_none_iff]
  rintro ⟨a, s⟩ ha
  rw [readOctet, readNumber, Option.bind_eq_bind, Option.bind_eq_some_iff] at ha
  obtain ⟨⟨ds, s'⟩, hdigits, ha⟩ := ha
  have hhead := digits_group hdot hrest' hdigits
  have hs : s' = s := by
    dsimp only at ha
    split_ifs at ha
    exact (Prod.mk.inj (Option.some.inj ha)).2
  subst hs
  dsimp only
  rw [readChar_of_head? hhead]
  rfl

/-- The groups after the first, each behind a colon. -/
def colonGroups (gs : List ℕ) : List Char := gs.flatMap fun g ↦ ':' :: Nat.toDigits 16 g

theorem displayGroups_eq (n : ℕ) (gs : List ℕ) :
    displayGroups (n :: gs) = Nat.toDigits 16 n ++ colonGroups gs := by
  induction gs generalizing n with
  | nil => simp [displayGroups, colonGroups]
  | cons m gs ih =>
    rw [displayGroups_cons, ih]
    rfl

theorem head_colonGroups (gs : List ℕ) (h : Stops rest) :
    ∀ c ∈ (colonGroups gs ++ rest).head?, toDigit 16 c = none ∧ c ≠ '.' := by
  intro c hc
  cases gs with
  | nil => exact h.head hc
  | cons g gs =>
    obtain rfl := Option.some.inj hc
    decide

theorem readGroups_colonGroups {limit : ℕ} (hlen : gs.length ≤ limit) (hlt : ∀ g ∈ gs, g < 65536)
    (h : Stops rest) : readGroups limit false (colonGroups gs ++ rest) = ((gs, false), rest) := by
  induction gs generalizing limit with
  | nil =>
    cases limit with
    | zero => rfl
    | succ limit =>
      have h4 := h.separated (p := readIpv4) fun l ↦ readIpv4_colon
      have h6 := h.separated (p := readNumber 16 65536 (some 4) true) fun l ↦ readNumber_colon
      simp only [colonGroups, List.flatMap_nil, List.nil_append, readGroups, h4, h6, ite_self]
  | cons g gs ih =>
    cases limit with
    | zero => cases hlen
    | succ limit =>
      have hhead := head_colonGroups gs h
      have happ : colonGroups (g :: gs) ++ rest =
          ':' :: (Nat.toDigits 16 g ++ (colonGroups gs ++ rest)) := by
        simp [colonGroups]
      have h4 := readIpv4_group (n := g) hhead
      have h6 := readNumber_group (hlt g List.mem_cons_self) fun c hc ↦ (hhead c hc).1
      have ih := ih (Nat.le_of_succ_le_succ hlen) fun a ha ↦ hlt a (List.mem_cons_of_mem g ha)
      rw [happ]
      simp only [readGroups, separated, Bool.false_eq_true, if_false, readChar_self,
        Option.bind_some, h4, h6, ih, ite_self]

/-- No group and no address begins there. -/
theorem readGroups_stop (limit : ℕ) (h : ∀ c ∈ rest.head?, toDigit 16 c = none) :
    readGroups limit true rest = (([], false), rest) := by
  have hdigits : ∀ radix, (∀ c ∈ rest.head?, toDigit radix c = none) →
      digits radix rest = some ([], rest) := by
    intro radix hr
    have hnil : digits radix ([] ++ rest) = some ([], rest) := digits_append rfl hr
    rwa [List.nil_append] at hnil
  have h6 : readNumber 16 65536 (some 4) true rest = none := by
    simp [readNumber, hdigits 16 h]
  have h4 : readIpv4 rest = none := by
    simp [readIpv4, readOctet, readNumber, hdigits 10 fun c hc ↦ toDigit_ten (h c hc)]
  cases limit with
  | zero => rfl
  | succ limit => simp only [readGroups, separated, if_true, h4, h6, ite_self]

theorem readGroups_displayGroups (limit : ℕ) (gs : List ℕ) (hlen : gs.length ≤ limit)
    (hlt : ∀ g ∈ gs, g < 65536) (h : Stops rest) :
    readGroups limit true (displayGroups gs ++ rest) = ((gs, false), rest) := by
  cases gs with
  | nil => exact readGroups_stop _ fun c hc ↦ (h.head hc).1
  | cons g gs =>
    cases limit with
    | zero => cases hlen
    | succ limit =>
      have hhead := head_colonGroups gs h
      have h4 := readIpv4_group (n := g) hhead
      have h6 := readNumber_group (hlt g List.mem_cons_self) fun c hc ↦ (hhead c hc).1
      have hgs := readGroups_colonGroups (Nat.le_of_succ_le_succ hlen)
        (fun a ha ↦ hlt a (List.mem_cons_of_mem g ha)) h
      rw [displayGroups_eq, List.append_assoc]
      simp only [readGroups, separated, if_true, h4, h6, hgs, ite_self]

/-- The groups from `a` on are zero, `n` of them. -/
def Zeros (gs : List ℕ) (a n : ℕ) : Prop := ∀ i, a ≤ i → i < a + n → gs[i]? = some 0

theorem Zeros.append {a n : ℕ} (h : Zeros gs a n) : Zeros (gs ++ hs) a n := by
  intro i hi hlt
  have hz := h i hi hlt
  rw [List.getElem?_append_left (List.getElem?_eq_some_iff.mp hz).1]
  exact hz

/-- One group more: the longest run of zeros so far and the one at the end. -/
def spanStep (r : (ℕ × ℕ) × (ℕ × ℕ)) (x : ℕ × ℕ) : (ℕ × ℕ) × (ℕ × ℕ) :=
  if x.1 = 0 then
    let current := if r.2.2 = 0 then (x.2, 1) else (r.2.1, r.2.2 + 1)
    (if r.1.2 < current.2 then current else r.1, current)
  else (r.1, (0, 0))

theorem zeroSpan_eq (gs : List ℕ) : zeroSpan gs = (gs.zipIdx.foldl spanStep ((0, 0), (0, 0))).1 := rfl

/-- Both runs hold zeros only, and the second ends where the groups do. -/
structure Spans (gs : List ℕ) (r : (ℕ × ℕ) × (ℕ × ℕ)) : Prop where
  longest : Zeros gs r.1.1 r.1.2
  current : Zeros gs r.2.1 r.2.2
  ends : r.2.2 ≠ 0 → r.2.1 + r.2.2 = gs.length

theorem zeros_nil (gs : List ℕ) (a : ℕ) : Zeros gs a 0 := by
  intro i hi hlt
  omega

theorem Spans.step {r : (ℕ × ℕ) × (ℕ × ℕ)} (h : Spans gs r) (g : ℕ) :
    Spans (gs ++ [g]) (spanStep r (g, gs.length)) := by
  obtain ⟨⟨ls, ll⟩, ⟨cs, cl⟩⟩ := r
  obtain ⟨hl, hc, hend⟩ := h
  dsimp only at hl hc hend
  by_cases hg : g = 0
  · subst hg
    have hone : Zeros (gs ++ [0]) gs.length 1 := by
      intro i hi hlt
      obtain rfl : i = gs.length := by omega
      simp
    by_cases hcl : cl = 0
    · subst hcl
      have hstep : spanStep ((ls, ll), (cs, 0)) (0, gs.length) =
          (if ll < 1 then (gs.length, 1) else (ls, ll), (gs.length, 1)) := rfl
      rw [hstep]
      refine ⟨?_, hone, fun _ ↦ by simp⟩
      split
      · exact hone
      · exact hl.append
    · have hsum := hend hcl
      have hmore : Zeros (gs ++ [0]) cs (cl + 1) := by
        intro i hi hlt
        by_cases hi' : i < cs + cl
        · exact hc.append i hi hi'
        · exact hone i (by omega) (by omega)
      have hstep : spanStep ((ls, ll), (cs, cl)) (0, gs.length) =
          (if ll < cl + 1 then (cs, cl + 1) else (ls, ll), (cs, cl + 1)) := by
        simp [spanStep, hcl]
      rw [hstep]
      refine ⟨?_, hmore, fun _ ↦ ?_⟩
      · split
        · exact hmore
        · exact hl.append
      · rw [List.length_append, List.length_singleton, ← hsum]
        rfl
  · have hstep : spanStep ((ls, ll), (cs, cl)) (g, gs.length) = ((ls, ll), (0, 0)) := if_neg hg
    rw [hstep]
    exact ⟨hl.append, zeros_nil _ 0, fun h ↦ absurd rfl h⟩

theorem spans_foldl (gs : List ℕ) : Spans gs (gs.zipIdx.foldl spanStep ((0, 0), (0, 0))) := by
  induction gs using List.reverseRecOn with
  | nil => exact ⟨zeros_nil _ 0, zeros_nil _ 0, fun h ↦ absurd rfl h⟩
  | append_singleton gs g ih =>
    rw [List.zipIdx_append, List.foldl_append]
    simpa using ih.step g

theorem zeros_zeroSpan (gs : List ℕ) : Zeros gs (zeroSpan gs).1 (zeroSpan gs).2 := by
  rw [zeroSpan_eq]
  exact (spans_foldl gs).longest

theorem Zeros.split {a n : ℕ} (h : Zeros gs a n) :
    gs.drop a = List.replicate n 0 ++ gs.drop (a + n) := by
  induction n generalizing a with
  | zero => rfl
  | succ n ih =>
    have hzero := h a le_rfl (by omega)
    have hlt := (List.getElem?_eq_some_iff.mp hzero).1
    have hget := (List.getElem?_eq_some_iff.mp hzero).2
    have htail : Zeros gs (a + 1) n := fun i hi hlt' ↦ h i (by omega) (by omega)
    rw [List.drop_eq_getElem_cons hlt, hget, ih htail, List.replicate_succ, List.cons_append]
    congr 3
    omega

theorem foldl_digits (radix n k m : ℕ) :
    ((List.range k).map fun i ↦ n / radix ^ (k - 1 - i) % radix).foldl (fun m d ↦ m * radix + d) m =
      m * radix ^ k + n % radix ^ k := by
  induction k generalizing m with
  | zero => simp [Nat.mod_one]
  | succ k ih =>
    have hexp : ∀ i, k + 1 - 1 - (i + 1) = k - 1 - i := by omega
    rw [List.range_succ_eq_map, List.map_cons, List.map_map, List.foldl_cons]
    simp only [Function.comp_def, Nat.succ_eq_add_one, hexp, ih, Nat.mod_pow_succ]
    rw [Nat.add_sub_cancel, Nat.sub_zero, Nat.add_mul, pow_succ, Nat.mul_assoc,
      Nat.mul_comm radix (radix ^ k), Nat.mul_comm (n / radix ^ k % radix), Nat.add_assoc,
      Nat.add_comm (radix ^ k * (n / radix ^ k % radix))]

theorem ofGroups_segments : ofGroups (segments ip) = ip := by
  have hfold : ofDigits 65536 (segments ip) = 0 * 65536 ^ 8 + ip.toNat % 65536 ^ 8 :=
    foldl_digits 65536 ip.toNat 8 0
  have hnat : ofDigits 65536 (segments ip) = ip.toNat := by
    rw [hfold, Nat.zero_mul, Nat.zero_add]
    exact Nat.mod_eq_of_lt ip.isLt
  rw [ofGroups, hnat, BitVec.ofNat_toNat, BitVec.setWidth_eq]

theorem length_segments : (segments ip).length = 8 := by simp [segments]

theorem lt_of_mem_segments {g : ℕ} (h : g ∈ segments ip) : g < 65536 := by
  obtain ⟨i, -, rfl⟩ := List.mem_map.mp h
  exact Nat.mod_lt _ (by decide)

theorem length_of_segments_drop {a n : ℕ} (h : Zeros (segments ip) a n) (hn : 0 < n) :
    a + n ≤ 8 := by
  have hlast := h (a + n - 1) (by omega) (by omega)
  have hlt := (List.getElem?_eq_some_iff.mp hlast).1
  rw [length_segments] at hlt
  omega

theorem stops_colons : Stops (':' :: ':' :: l) := ⟨by decide, by decide, fun _ ↦ rfl⟩

theorem take_drop_segments {a n : ℕ} (h : Zeros (segments ip) a n) (hn : 0 < n) :
    (segments ip).take a ++ List.replicate (8 - ((segments ip).take a).length -
      ((segments ip).drop (a + n)).length) 0 ++ (segments ip).drop (a + n) = segments ip := by
  have hsum := length_of_segments_drop h hn
  have hcount : 8 - ((segments ip).take a).length - ((segments ip).drop (a + n)).length = n := by
    rw [List.length_take, List.length_drop, length_segments]
    omega
  rw [hcount, List.append_assoc, ← h.split, List.take_append_drop]

/-- The zeros that were left out are counted when the text is read. -/
theorem readIpv6_compressed {a n : ℕ} (hz : Zeros (segments ip) a n) (hn : 1 < n) (h : Stops rest) :
    readIpv6 (displayGroups ((segments ip).take a) ++ ':' :: ':' ::
      (displayGroups ((segments ip).drop (a + n)) ++ rest)) = some (ip, rest) := by
  have hsum := length_of_segments_drop hz (by omega)
  have hlt : ∀ g ∈ segments ip, g < 65536 := fun g hg ↦ lt_of_mem_segments hg
  have hhead : ((segments ip).take a).length = a := by
    rw [List.length_take, length_segments]
    omega
  have htail : ((segments ip).drop (a + n)).length = 8 - (a + n) := by
    rw [List.length_drop, length_segments]
  have h1 := readGroups_displayGroups 8 ((segments ip).take a) (by omega)
    (fun g hg ↦ hlt g (List.mem_of_mem_take hg))
    (stops_colons (l := displayGroups ((segments ip).drop (a + n)) ++ rest))
  have h2 := readGroups_displayGroups (7 - ((segments ip).take a).length)
    ((segments ip).drop (a + n)) (by omega) (fun g hg ↦ hlt g (List.mem_of_mem_drop hg)) h
  have hne : ((segments ip).take a).length ≠ 8 := by omega
  simp only [readIpv6, h1, hne, if_false, readChar_self, Option.bind_eq_bind,
    Option.bind_some, h2, take_drop_segments hz (by omega), ofGroups_segments, Bool.false_eq_true]
  rfl

/-- The groups of an address that stands for an IPv4 one. -/
theorem segments_mapped (h : (segments ip).take 6 = [0, 0, 0, 0, 0, 65535]) :
    ofGroups [0, 0, 0, 0, 0, 65535, (ip.truncate 32 : BitVec 32).toNat / 65536,
      (ip.truncate 32 : BitVec 32).toNat % 65536] = ip := by
  have hlt := ip.isLt
  simp only [segments, List.range, List.range.loop, List.map_cons, List.map_nil, List.take_succ_cons,
    List.take_zero, List.cons.injEq, and_true] at h
  have hnat : ofDigits 65536 [0, 0, 0, 0, 0, 65535, (ip.truncate 32 : BitVec 32).toNat / 65536,
      (ip.truncate 32 : BitVec 32).toNat % 65536] = ip.toNat := by
    simp only [ofDigits, List.foldl_cons, List.foldl_nil, BitVec.truncate_eq_setWidth,
      BitVec.toNat_setWidth]
    omega
  rw [ofGroups, hnat, BitVec.ofNat_toNat, BitVec.setWidth_eq]

theorem readIpv6_mapped (hm : (segments ip).take 6 = [0, 0, 0, 0, 0, 65535]) (h : Stops rest) :
    readIpv6 ("::ffff:".toList ++ (displayIpv4 (ip.truncate 32) ++ rest)) = some (ip, rest) := by
  have hdigit : ∀ c ∈ rest.head?, toDigit 10 c = none := fun c hc ↦ toDigit_ten (h.head hc).1
  have hcolon : ∀ l : List Char, ∀ c ∈ (':' :: l).head?, toDigit 16 c = none := by
    intro l c hc
    obtain rfl := Option.some.inj hc
    decide
  have htext : "::ffff:".toList ++ (displayIpv4 (ip.truncate 32) ++ rest) =
      ':' :: ':' :: (Nat.toDigits 16 65535 ++ ':' :: (displayIpv4 (ip.truncate 32) ++ rest)) := rfl
  have hstop := readGroups_stop 8 (hcolon (':' :: (Nat.toDigits 16 65535 ++
    ':' :: (displayIpv4 (ip.truncate 32) ++ rest))))
  have hfour : readIpv4 (Nat.toDigits 16 65535 ++ ':' :: (displayIpv4 (ip.truncate 32) ++ rest)) =
      none := readIpv4_eq_none (not_mem_toDigits (by decide) (by decide))
  have hgroup := readNumber_group (n := 65535) (by decide)
    (hcolon (displayIpv4 (ip.truncate 32) ++ rest))
  have hip : readIpv4 (displayIpv4 (ip.truncate 32) ++ rest) = some (ip.truncate 32, rest) :=
    readIpv4_display hdigit
  have htail : readGroups 7 true (Nat.toDigits 16 65535 ++
      ':' :: (displayIpv4 (ip.truncate 32) ++ rest)) =
      (([65535, (ip.truncate 32 : BitVec 32).toNat / 65536,
        (ip.truncate 32 : BitVec 32).toNat % 65536], true), rest) := by
    simp only [readGroups, separated, if_true, hfour, hgroup, Bool.false_eq_true, if_false,
      readChar_self, Option.bind_some, hip, Nat.reduceLeDiff]
  rw [htext]
  simp only [readIpv6, hstop, readChar_self, Option.bind_eq_bind, Option.bind_some, List.length_nil,
    Nat.sub_zero, htail, Bool.false_eq_true, if_false, OfNat.zero_ne_ofNat]
  exact congrArg (fun x ↦ some (x, rest)) (segments_mapped hm)

/-- An address that is written out is read again, unless a digit, a dot or a colon follows. -/
theorem readIpv6_display (h : Stops rest) : readIpv6 (displayIpv6 ip ++ rest) = some (ip, rest) := by
  rw [displayIpv6]
  dsimp only
  split_ifs with hmapped hspan
  · rw [List.append_assoc]
    exact readIpv6_mapped hmapped h
  · rw [List.append_assoc, List.append_assoc]
    exact readIpv6_compressed (zeros_zeroSpan _) hspan h
  · have hread := readGroups_displayGroups 8 (segments ip) (Nat.le_of_eq length_segments)
      (fun g hg ↦ lt_of_mem_segments hg) h
    simp only [readIpv6, hread, length_segments, if_true, ofGroups_segments]

/-! ### A socket address with its brackets -/

/-- `Display` of a `SocketAddrV6`: the scope unless it is zero, and never the flow label. -/
def displaySocketAddrV6 (ip : BitVec 128) (port : BitVec 16) (scope : BitVec 32) : List Char :=
  '[' :: (displayIpv6 ip ++ ((if scope = 0 then [] else '%' :: decimal scope.toNat) ++
    ']' :: ':' :: decimal port.toNat))

theorem read_displaySocketAddrV6 {port : BitVec 16} {scope : BitVec 32} :
    whole readSocketAddr (displaySocketAddrV6 ip port scope) = some (.inr (ip, scope), port) := by
  have hfour : readSocketAddrV4 (displaySocketAddrV6 ip port scope) = none := by
    have hdigits : digits 10 (displaySocketAddrV6 ip port scope) =
        some ([], displaySocketAddrV6 ip port scope) := rfl
    simp [readSocketAddrV4, readIpv4, readOctet, readNumber, hdigits]
  have hstops : Stops ((if scope = 0 then [] else '%' :: decimal scope.toNat) ++
      ']' :: ':' :: decimal port.toNat) := by
    split
    · exact ⟨by decide, by decide, fun h ↦ absurd h (by decide)⟩
    · cases hd : decimal scope.toNat with
      | nil => exact absurd hd Nat.toDigits_ne_nil
      | cons d l => exact ⟨by decide, by decide, fun h ↦ absurd h (by decide)⟩
  have hscope : (readScopeId ((if scope = 0 then [] else '%' :: decimal scope.toNat) ++
      ']' :: ':' :: decimal port.toNat)).getD (0, (if scope = 0 then [] else
        '%' :: decimal scope.toNat) ++ ']' :: ':' :: decimal port.toNat) =
      (scope, ']' :: ':' :: decimal port.toNat) := by
    have hbracket : ∀ c ∈ (']' :: ':' :: decimal port.toNat).head?, toDigit 10 c = none := by
      intro c hc
      obtain rfl := Option.some.inj hc
      decide
    split_ifs with hs
    · subst hs
      rfl
    · have hnumber : readNumber 10 (2 ^ 32) none true
          (decimal scope.toNat ++ ']' :: ':' :: decimal port.toNat) =
            some (scope.toNat, ']' :: ':' :: decimal port.toNat) :=
        readNumber_decimal scope.isLt (fun k hk ↦ by cases hk) hbracket
      simp only [readScopeId, List.cons_append, readChar_self, Option.bind_eq_bind,
        Option.bind_some, hnumber, BitVec.ofNat_toNat, BitVec.setWidth_eq]
      rfl
  simp only [whole, readSocketAddr, hfour]
  simp only [readSocketAddrV6, displaySocketAddrV6, readChar_self, Option.bind_eq_bind,
    Option.bind_some, readIpv6_display hstops, hscope, readPort_decimal]
  rfl

end FluxSync.NetText
