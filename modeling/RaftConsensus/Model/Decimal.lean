import Mathlib.Data.Nat.Digits.Lemmas
import RaftConsensus.Model.ByteString

/-!
# Reading and writing decimal numbers

What `std::to_string` writes is read back by the `strtol` family (`parseInteger_toDecimal`). That
family also reads a number at the front of a text that goes on with something else, or that begins
with white space. `wholeInteger` is the number that makes up a whole text.
-/

set_option autoImplicit false
set_option relaxedAutoImplicit false

namespace RaftConsensus

variable {text digits : ByteString} {value : ℤ}

/-! ### Digits -/

/-- The character of a digit. -/
theorem toNat_digit {d : ℕ} (hd : d < 10) : (UInt8.ofNat (48 + d)).toNat = 48 + d := by
  rw [UInt8.toNat_ofNat']
  omega

theorem isDigit_digit {d : ℕ} (hd : d < 10) : isDigit (UInt8.ofNat (48 + d)) = true := by
  simp only [isDigit, Bool.and_eq_true, decide_eq_true_eq, UInt8.le_iff_toNat_le, toNat_digit hd]
  constructor
  · exact Nat.le_add_right 48 d
  · exact Nat.add_le_add_left (Nat.lt_succ_iff.mp hd) 48

/-- A last digit is added to ten times the value of the others. -/
theorem digitsValue_snoc (c : UInt8) :
    digitsValue (digits ++ [c]) = 10 * digitsValue digits + (c.toNat - 48) := by
  simp [digitsValue]

/-- The value of digits written most significant first. -/
theorem digitsValue_map_reverse {l : List ℕ} (hl : ∀ d ∈ l, d < 10) :
    digitsValue (l.reverse.map fun d ↦ UInt8.ofNat (48 + d)) = Nat.ofDigits 10 l := by
  induction l with
  | nil => rfl
  | cons d l ih =>
    obtain ⟨hd, hl⟩ := List.forall_mem_cons.mp hl
    rw [List.reverse_cons, List.map_append, List.map_singleton, digitsValue_snoc, ih hl,
      toNat_digit hd, Nat.ofDigits_cons]
    omega

/-- The decimal digits of a number are digits. -/
theorem isDigit_of_mem_natDecimal {n : ℕ} {c : UInt8} (h : c ∈ natDecimal n) :
    isDigit c = true := by
  unfold natDecimal at h
  split_ifs at h with hn
  · obtain rfl := List.mem_singleton.mp h
    rfl
  · obtain ⟨d, hd, rfl⟩ := List.mem_map.mp h
    exact isDigit_digit (Nat.digits_lt_base (by decide) (List.mem_reverse.mp hd))

/-- A number has at least one digit. -/
theorem natDecimal_ne_nil (n : ℕ) : natDecimal n ≠ [] := by
  unfold natDecimal
  split_ifs with hn
  · exact List.cons_ne_nil _ _
  · simpa [Nat.digits_eq_nil_iff_eq_zero] using hn

/-- The decimal digits of a number have its value. -/
theorem digitsValue_natDecimal (n : ℕ) : digitsValue (natDecimal n) = n := by
  unfold natDecimal
  split_ifs with hn
  · rw [hn]
    rfl
  · rw [digitsValue_map_reverse fun d hd ↦ Nat.digits_lt_base (by decide) hd, Nat.ofDigits_digits]

/-! ### Whole numbers -/

/-- The number that makes up a whole text: an optional sign and decimal digits, at least one. -/
def wholeInteger (text : ByteString) : Option ℤ :=
  let negative := text.head? = some 45
  let unsigned := if negative ∨ text.head? = some 43 then text.tail else text
  if unsigned ≠ [] ∧ unsigned.all isDigit then
    if negative then some (-(digitsValue unsigned : ℤ)) else some (digitsValue unsigned)
  else none

/-- A digit is no white space. -/
theorem isSpace_eq_false_of_isDigit {c : UInt8} (h : isDigit c = true) : isSpace c = false := by
  simp only [isDigit, Bool.and_eq_true, decide_eq_true_eq, UInt8.le_iff_toNat_le] at h
  by_contra hspace
  simp only [isSpace, Bool.not_eq_false, Bool.or_eq_true, Bool.and_eq_true, decide_eq_true_eq,
    UInt8.le_iff_toNat_le] at hspace
  rcases hspace with rfl | ⟨-, hle⟩
  · exact absurd h.1 (by decide)
  · exact absurd (h.1.trans hle) (by decide)

/-- A whole number is not the empty text. -/
theorem ne_nil_of_wholeInteger (h : wholeInteger text = some value) : text ≠ [] := by
  rintro rfl
  simp [wholeInteger] at h

/-- A whole number does not begin with white space. -/
theorem dropWhile_of_wholeInteger (h : wholeInteger text = some value) :
    text.dropWhile isSpace = text := by
  cases text with
  | nil => rfl
  | cons c rest =>
    refine List.dropWhile_cons_of_neg ?_
    rw [Bool.not_eq_true]
    by_cases hsign : c = 45 ∨ c = 43
    · rcases hsign with rfl | rfl <;> rfl
    · obtain ⟨hminus, hplus⟩ := not_or.mp hsign
      simp only [wholeInteger, List.head?_cons, Option.some.injEq, hminus, hplus, or_self,
        ↓reduceIte] at h
      split_ifs at h with hdigits
      exact isSpace_eq_false_of_isDigit (List.all_eq_true.mp hdigits.2 c List.mem_cons_self)

/-- A whole number has only a sign and digits. -/
theorem not_mem_of_wholeInteger {c : UInt8} (hdigit : isDigit c = false) (hminus : c ≠ 45)
    (hplus : c ≠ 43) (h : wholeInteger text = some value) : c ∉ text := by
  intro hc
  have hunsigned :
      c ∈ (if text.head? = some 45 ∨ text.head? = some 43 then text.tail else text) := by
    split_ifs with hsign
    · cases text with
      | nil => exact absurd hc List.not_mem_nil
      | cons first rest =>
        rcases List.mem_cons.mp hc with rfl | hrest
        · simp [hminus, hplus] at hsign
        · exact hrest
    · exact hc
  unfold wholeInteger at h
  dsimp only at h
  generalize (if text.head? = some 45 ∨ text.head? = some 43 then text.tail else text) = unsigned
    at h hunsigned
  by_cases hdigits : unsigned ≠ [] ∧ unsigned.all isDigit
  · have htrue := List.all_eq_true.mp hdigits.2 c hunsigned
    rw [hdigit] at htrue
    exact Bool.false_ne_true htrue
  · rw [if_neg hdigits] at h
    cases h

/-- The `strtol` family reads a whole number. -/
theorem parseInteger_of_wholeInteger (h : wholeInteger text = some value) :
    parseInteger text = some value := by
  have hspace := dropWhile_of_wholeInteger h
  unfold wholeInteger at h
  unfold parseInteger
  simp only [hspace]
  dsimp only at h
  generalize (if text.head? = some 45 ∨ text.head? = some 43 then text.tail else text) = unsigned
    at h ⊢
  split_ifs at h with hdigits hnegative
  · have htake : unsigned.takeWhile isDigit = unsigned :=
      List.takeWhile_eq_self_iff.mpr (List.all_eq_true.mp hdigits.2)
    rw [htake, if_neg hdigits.1, if_pos hnegative, h]
  · have htake : unsigned.takeWhile isDigit = unsigned :=
      List.takeWhile_eq_self_iff.mpr (List.all_eq_true.mp hdigits.2)
    rw [htake, if_neg hdigits.1, if_neg hnegative, h]

/-- `std::to_string` writes a whole number. -/
theorem wholeInteger_toDecimal (z : ℤ) : wholeInteger (toDecimal z) = some z := by
  have hdigits : (natDecimal z.natAbs).all isDigit = true :=
    List.all_eq_true.mpr fun c hc ↦ isDigit_of_mem_natDecimal hc
  have hne := natDecimal_ne_nil z.natAbs
  unfold toDecimal
  split_ifs with hneg
  · have hminus : bytes "-" = [45] := rfl
    rw [hminus, List.singleton_append, wholeInteger]
    simp only [List.head?_cons, true_or, ↓reduceIte, List.tail_cons, hne, hdigits,
      digitsValue_natDecimal, ne_eq, not_false_eq_true, and_self]
    rw [Int.ofNat_natAbs_of_nonpos hneg.le, neg_neg]
  · have hsign : ∀ c, isDigit c = false → (natDecimal z.natAbs).head? ≠ some c := by
      intro c hc hhead
      have hdigit := isDigit_of_mem_natDecimal (List.mem_of_head? hhead)
      simp [hc] at hdigit
    rw [wholeInteger]
    simp only [hsign 45 rfl, hsign 43 rfl, or_self, ↓reduceIte, hne, hdigits,
      digitsValue_natDecimal, ne_eq, not_false_eq_true, and_self]
    rw [Int.natAbs_of_nonneg (not_lt.mp hneg)]

/-- What `std::to_string` writes is read back. -/
theorem parseInteger_toDecimal (z : ℤ) : parseInteger (toDecimal z) = some z :=
  parseInteger_of_wholeInteger (wholeInteger_toDecimal z)

/-- `std::to_string` writes no character but a minus sign and digits. -/
theorem not_mem_toDecimal {c : UInt8} (hdigit : isDigit c = false) (hminus : c ≠ 45) (z : ℤ) :
    c ∉ toDecimal z := by
  have hnat : c ∉ natDecimal z.natAbs := by
    intro hc
    have htrue := isDigit_of_mem_natDecimal hc
    simp [hdigit] at htrue
  unfold toDecimal
  split_ifs
  · rw [List.mem_append, not_or]
    exact ⟨by simpa [bytes] using hminus, hnat⟩
  · exact hnat

end RaftConsensus
