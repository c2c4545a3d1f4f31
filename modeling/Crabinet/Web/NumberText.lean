import Crabinet.Library.PercentEncoding
import Crabinet.Web.MarkdownTree
import Mathlib.Data.Int.Log
import Mathlib.Data.Rat.Floor

/-!
# Numbers of the browser

The value of `Number` on a text, and the nearest number with 53 binary digits. An integer in
decimal digits is its own value.
-/

namespace Crabinet.Web

open Crabinet.Library Crabinet.Library.PercentEncoding

/-- Whether a text starts with a minus sign, and what follows its sign. -/
def readSign : List Char → Bool × List Char
  | '-' :: rest => (true, rest)
  | '+' :: rest => (false, rest)
  | rest => (false, rest)

/-- Digits in a base of at most sixteen. -/
def radixNumber (base : ℕ) (digits : List Char) : Option ℕ :=
  if digits = [] then none
  else digits.foldlM (fun value c => (hexValue c).bind fun digit =>
    if digit < base then some (value * base + digit) else none) 0

/-- The exponent of a decimal literal. -/
def readExponent : List Char → Option ℤ
  | [] => some 0
  | mark :: rest =>
    let (negative, digits) := readSign rest
    if (mark = 'e' ∨ mark = 'E') ∧ digits ≠ [] ∧ digits.all isAsciiDigit then
      let size : ℤ := (Nat.ofDigitChars 10 digits 0 : ℕ)
      some (if negative then -size else size)
    else none

/-- A decimal literal, other than that of infinity. -/
def decimalNumber (text : List Char) : Option ℚ :=
  let (negative, unsigned) := readSign text
  let whole := unsigned.takeWhile isAsciiDigit
  let (fraction, rest) := match unsigned.dropWhile isAsciiDigit with
    | '.' :: rest => (rest.takeWhile isAsciiDigit, rest.dropWhile isAsciiDigit)
    | rest => ([], rest)
  if whole = [] ∧ fraction = [] then none
  else (readExponent rest).map fun exponent =>
    let scale : ℤ := exponent - fraction.length
    let size : ℚ := (Nat.ofDigitChars 10 (whole ++ fraction) 0 : ℕ) * (10 : ℚ) ^ scale
    if negative then -size else size

/-- What `Number` rounds; `none` where there is nothing finite to round. -/
def stringToNumber (text : List Char) : Option ℚ :=
  match (text.dropWhile isSpace).rdropWhile isSpace with
  | [] => some 0
  | '0' :: mark :: digits =>
    if mark = 'x' ∨ mark = 'X' then (radixNumber 16 digits).map Nat.cast
    else if mark = 'o' ∨ mark = 'O' then (radixNumber 8 digits).map Nat.cast
    else if mark = 'b' ∨ mark = 'B' then (radixNumber 2 digits).map Nat.cast
    else decimalNumber ('0' :: mark :: digits)
  | literal => decimalNumber literal

/-- The nearest integer, and the even one of two. -/
def roundEven (value : ℚ) : ℤ :=
  let below := ⌊value⌋
  if value - below < 1 / 2 ∨ (value - below = 1 / 2 ∧ below % 2 = 0) then below else below + 1

/-- The nearest number of 53 binary digits with any exponent. Where the exponent of a number is out
of bounds, its value is infinite or less than one. -/
def nearestNumber (value : ℚ) : ℚ :=
  let unit : ℚ := 2 ^ (Int.log 2 |value| - 52)
  roundEven (value / unit) * unit

/-- The safe integers from 1 to a bound. -/
def readPositive (bound : ℕ) (text : List Char) : Option ℕ :=
  (stringToNumber text).bind fun value =>
    let number := nearestNumber value
    if number.den = 1 ∧ 0 < number.num ∧ number.num ≤ bound then some number.num.toNat else none

theorem roundEven_intCast (value : ℤ) : roundEven value = value := by
  rw [roundEven, Int.floor_intCast, sub_self, if_pos (.inl one_half_pos)]

/-- A number of 53 binary digits is the nearest to itself. -/
theorem nearestNumber_natCast {value : ℕ} (hpos : 0 < value) (h : value < 2 ^ 53) :
    nearestNumber value = value := by
  have hlog : Nat.log 2 value ≤ 52 := Nat.lt_succ_iff.mp (Nat.log_lt_of_lt_pow hpos.ne' h)
  obtain ⟨shift, hshift⟩ := Nat.exists_eq_add_of_le hlog
  have hunit : (2 : ℚ) ^ (Int.log 2 |(value : ℚ)| - 52) = ((2 : ℚ) ^ shift)⁻¹ := by
    rw [Nat.abs_cast, Int.log_natCast, ← zpow_natCast, ← zpow_neg]
    congr 1
    omega
  have hscaled : (value : ℚ) / ((2 : ℚ) ^ shift)⁻¹ = ((value * 2 ^ shift : ℕ) : ℤ) := by
    rw [div_inv_eq_mul]
    push_cast
    rfl
  rw [nearestNumber, hunit, hscaled, roundEven_intCast]
  push_cast
  exact mul_inv_cancel_right₀ (pow_ne_zero _ two_ne_zero) _

/-! ### Decimal digits -/

variable {text : List Char}

theorem toNat_of_isAsciiDigit {c : Char} (h : isAsciiDigit c = true) : 48 ≤ c.toNat ∧ c.toNat ≤ 57 := by
  simp only [isAsciiDigit, Bool.and_eq_true, decide_eq_true_eq, Char.le_def, UInt32.le_iff_toNat_le] at h
  exact h

theorem isSpace_of_isAsciiDigit {c : Char} (h : isAsciiDigit c = true) : isSpace c = false := by
  obtain ⟨hlow, hhigh⟩ := toNat_of_isAsciiDigit h
  simp only [isSpace, Bool.or_eq_false_iff, decide_eq_false_iff_not, Bool.and_eq_false_iff, List.mem_cons,
    List.not_mem_nil, or_false]
  omega

theorem readSign_of_digits (h : ∀ c ∈ text, isAsciiDigit c = true) : readSign text = (false, text) := by
  unfold readSign
  split
  · exact absurd (h _ List.mem_cons_self) (by decide)
  · exact absurd (h _ List.mem_cons_self) (by decide)
  · rfl

/-- The value of a literal that is all digits. -/
theorem decimalNumber_of_digits (h : ∀ c ∈ text, isAsciiDigit c = true) (hne : text ≠ []) :
    decimalNumber text = some ((Nat.ofDigitChars 10 text 0 : ℕ) : ℚ) := by
  have hwhole : text.takeWhile isAsciiDigit = text := List.takeWhile_eq_self_iff.mpr h
  have hrest : text.dropWhile isAsciiDigit = [] := List.dropWhile_eq_nil_iff.mpr h
  simp [decimalNumber, readSign_of_digits h, hwhole, hrest, hne, readExponent]

theorem stringToNumber_of_digits (h : ∀ c ∈ text, isAsciiDigit c = true) (hne : text ≠ []) :
    stringToNumber text = some ((Nat.ofDigitChars 10 text 0 : ℕ) : ℚ) := by
  have hfront : text.dropWhile isSpace = text := by
    cases text with
    | nil => rfl
    | cons c rest =>
      exact List.dropWhile_cons_of_neg (by rw [isSpace_of_isAsciiDigit (h c List.mem_cons_self)]; decide)
  have hback : text.rdropWhile isSpace = text := by
    rw [List.rdropWhile_eq_self_iff]
    intro hne
    rw [isSpace_of_isAsciiDigit (h _ (List.getLast_mem hne))]
    decide
  rw [← decimalNumber_of_digits h hne, stringToNumber, hfront, hback]
  split
  · exact absurd rfl hne
  · rename_i mark digits
    have hmark := toNat_of_isAsciiDigit (h mark (List.mem_cons_of_mem _ List.mem_cons_self))
    have hletter {letter : Char} (hletter : 57 < letter.toNat) : mark ≠ letter := by
      rintro rfl
      omega
    rw [if_neg (not_or.mpr ⟨hletter (by decide), hletter (by decide)⟩),
      if_neg (not_or.mpr ⟨hletter (by decide), hletter (by decide)⟩),
      if_neg (not_or.mpr ⟨hletter (by decide), hletter (by decide)⟩)]
  · rfl

/-- A positive integer in decimal digits is read as it was written. -/
theorem readPositive_toDigits {bound value : ℕ} (hpos : 0 < value) (hvalue : value ≤ bound)
    (hbound : bound < 2 ^ 53) : readPositive bound (Nat.toDigits 10 value) = some value := by
  rw [readPositive, stringToNumber_of_digits (fun c hc => isAsciiDigit_of_mem_toDigits hc) Nat.toDigits_ne_nil,
    Nat.ofDigitChars_ten_toDigits, Option.bind_some]
  dsimp only
  rw [nearestNumber_natCast hpos (hvalue.trans_lt hbound), Rat.den_natCast, Rat.num_natCast,
    if_pos ⟨rfl, Int.natCast_pos.mpr hpos, Int.ofNat_le.mpr hvalue⟩, Int.toNat_natCast]

end Crabinet.Web
