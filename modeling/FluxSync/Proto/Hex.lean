import FluxSync.Proto.File
import FluxSync.Proto.Codec

namespace FluxSync.Proto

/-- The number a list of hex digits writes, the highest first. -/
def hexValue (l : List ℕ) : ℕ := l.foldl (fun acc d ↦ acc * 16 + d) 0

variable {l : List ℕ} {cs : List Char} {d : ℕ} {c : Char} {s : String} {b : BitVec 256}

theorem hexValue_snoc : hexValue (l ++ [d]) = hexValue l * 16 + d := by
  simp [hexValue]

theorem hexValue_lt (h : ∀ d ∈ l, d < 16) : hexValue l < 16 ^ l.length := by
  induction l using List.reverseRecOn with
  | nil => decide
  | append_singleton l d ih =>
    have hd : d < 16 := h d (by simp)
    have hl := ih fun a ha ↦ h a (List.mem_append_left _ ha)
    rw [hexValue_snoc, List.length_append, List.length_singleton, Nat.pow_succ]
    omega

theorem hexValue_digit (h : ∀ d ∈ l, d < 16) {i : ℕ} (hi : i < l.length) :
    hexValue l >>> (4 * (l.length - 1 - i)) % 16 = l[i] := by
  induction l using List.reverseRecOn with
  | nil => cases hi
  | append_singleton l d ih =>
    have hd : d < 16 := h d (by simp)
    have hl : ∀ d ∈ l, d < 16 := fun a ha ↦ h a (List.mem_append_left _ ha)
    rw [List.length_append, List.length_singleton] at hi
    rw [hexValue_snoc, List.length_append, List.length_singleton]
    by_cases hlast : i = l.length
    · subst hlast
      rw [List.getElem_concat_length rfl]
      simp
      omega
    · have hlt : i < l.length := by omega
      have hshift : 4 * (l.length + 1 - 1 - i) = 4 + 4 * (l.length - 1 - i) := by omega
      have hquot : (hexValue l * 16 + d) / 2 ^ 4 = hexValue l := by omega
      rw [List.getElem_append_left hlt, ← ih hl hlt, hshift, Nat.shiftRight_add,
        Nat.shiftRight_eq_div_pow _ 4, hquot]

/-- A lowercase hex digit is written back as it was read. -/
theorem hexDigit_lowercase (hc : c.isDigit ∨ 'a' ≤ c ∧ c ≤ 'f') :
    ∃ d, hexDigit c = some d ∧ d < 16 ∧ Nat.digitChar d = c := by
  have hrange : 48 ≤ c.toNat ∧ c.toNat ≤ 57 ∨ 97 ≤ c.toNat ∧ c.toNat ≤ 102 := by
    refine hc.imp (fun h ↦ ?_) id
    simpa [Char.isDigit, UInt32.le_iff_toNat_le] using h
  have hdigits : ∀ n ∈ List.range' 48 10 ++ List.range' 97 6,
      ∃ d < 16, hexDigit (.ofNat n) = some d ∧ Nat.digitChar d = .ofNat n := by decide
  obtain ⟨d, hlt, hd, hchar⟩ := hdigits c.toNat (by simp; omega)
  rw [Char.ofNat_toNat] at hd hchar
  exact ⟨d, hd, hlt, hchar⟩

theorem decode_digits (hcs : ∀ c ∈ cs, c.isDigit ∨ 'a' ≤ c ∧ c ≤ 'f') :
    ∃ l : List ℕ, (∀ d ∈ l, d < 16) ∧ l.map Nat.digitChar = cs ∧
      cs.foldlM (fun acc c ↦ (hexDigit c).map fun d ↦ acc * 16 + BitVec.ofNat 256 d) 0 =
        some (BitVec.ofNat 256 (hexValue l)) := by
  induction cs using List.reverseRecOn with
  | nil => exact ⟨[], by simp, rfl, rfl⟩
  | append_singleton cs c ih =>
    obtain ⟨l, hl, rfl, hfold⟩ := ih fun a ha ↦ hcs a (List.mem_append_left _ ha)
    obtain ⟨d, hd, hlt, rfl⟩ := hexDigit_lowercase (hcs c (by simp))
    refine ⟨l ++ [d], ?_, by simp, ?_⟩
    · intro a ha
      obtain ha | ha := List.mem_append.mp ha
      · exact hl a ha
      · rw [List.mem_singleton.mp ha]
        exact hlt
    · rw [List.foldlM_append, hfold]
      simp [hd, hexValue_snoc, BitVec.ofNat_add, BitVec.ofNat_mul]

theorem utf8Size_lowercase (hc : c.isDigit ∨ 'a' ≤ c ∧ c ≤ 'f') : c.utf8Size = 1 := by
  obtain ⟨d, -, hlt, rfl⟩ := hexDigit_lowercase hc
  have hall : ∀ d < 16, (Nat.digitChar d).utf8Size = 1 := by decide
  exact hall d hlt

/-- A hash as the wire has it is the text of what it decodes to. -/
theorem hex32_of_decode (hs : isValidResyncHash s) (h : hex32Decode s = some b) : hex32 b = s := by
  simp only [isValidResyncHash, Bool.and_eq_true, beq_iff_eq, List.all_eq_true, Bool.or_eq_true,
    decide_eq_true_eq] at hs
  obtain ⟨hsize, hchars⟩ := hs
  obtain ⟨l, hl, hmap, hfold⟩ := decode_digits hchars
  have hlen : l.length = 64 := by
    rw [← String.ofList_toList (s := s), File.utf8ByteSize_ofList,
      List.map_congr_left fun c hc ↦ utf8Size_lowercase (hchars c hc)] at hsize
    rwa [List.map_const', List.sum_replicate, smul_eq_mul, mul_one, ← hmap, List.length_map] at hsize
  rw [hex32Decode, if_neg (not_not.mpr hsize), hfold] at h
  obtain rfl := Option.some.inj h
  have hlt : hexValue l < 2 ^ 256 := by
    have h := hexValue_lt hl
    rwa [hlen] at h
  rw [hex32, BitVec.toNat_ofNat, Nat.mod_eq_of_lt hlt, ← String.ofList_toList (s := s), ← hmap]
  apply congrArg String.ofList
  apply List.ext_getElem
  · simp [hlen]
  · intro i hi _
    have hi : i < l.length := by simpa [hlen] using hi
    have hdigit := hexValue_digit hl hi
    rw [hlen] at hdigit
    simp [hdigit]

end FluxSync.Proto
