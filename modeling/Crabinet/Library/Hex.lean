import Mathlib.Data.List.Basic
import Mathlib.Tactic.Common

/-!
# Hexadecimal text

Two lower-case digits for every byte. Such a text is read back byte by byte, and printing what
was read gives the text again.
-/

namespace Crabinet.Library

/-- A lower-case digit. -/
def lowerHexDigit (value : ℕ) : Char :=
  if value < 10 then Char.ofNat (48 + value) else Char.ofNat (87 + value)

/-- The two digits of every byte. -/
def lowerHex (bytes : List UInt8) : List Char :=
  bytes.flatMap fun byte => [lowerHexDigit (byte.toNat / 16), lowerHexDigit (byte.toNat % 16)]

/-- A digit, or a letter from `a` to `f`. -/
def isLowerHex (c : Char) : Bool := ('0' ≤ c && c ≤ '9') || ('a' ≤ c && c ≤ 'f')

/-- The value of a lower-case digit. -/
def lowerHexValue (c : Char) : ℕ := if c ≤ '9' then c.toNat - 48 else c.toNat - 87

/-- The bytes of a text of lower-case digits. -/
def ofLowerHex : List Char → Option (List UInt8)
  | [] => some []
  | [_] => none
  | high :: low :: rest =>
    if isLowerHex high && isLowerHex low then
      (ofLowerHex rest).map (UInt8.ofNat (16 * lowerHexValue high + lowerHexValue low) :: ·)
    else none

theorem lowerHexDigit_value {value : ℕ} (h : value < 16) :
    isLowerHex (lowerHexDigit value) = true ∧ lowerHexValue (lowerHexDigit value) = value := by
  have hall : ∀ value : Fin 16, isLowerHex (lowerHexDigit value) = true ∧
      lowerHexValue (lowerHexDigit value) = value := by decide
  exact hall ⟨value, h⟩

/-- A lower-case digit is the digit of its value. -/
theorem lowerHexValue_digit {c : Char} (h : isLowerHex c = true) :
    lowerHexValue c < 16 ∧ lowerHexDigit (lowerHexValue c) = c := by
  simp only [isLowerHex, Bool.or_eq_true, Bool.and_eq_true, decide_eq_true_eq, Char.le_def,
    UInt32.le_iff_toNat_le] at h
  have hlow : ('0' : Char).val.toNat = 48 := rfl
  have hnine : ('9' : Char).val.toNat = 57 := rfl
  have ha : ('a' : Char).val.toNat = 97 := rfl
  have hf : ('f' : Char).val.toNat = 102 := rfl
  have hcode : c.toNat = c.val.toNat := rfl
  have hdecimal : c ≤ '9' ↔ c.toNat ≤ 57 := by
    rw [Char.le_def, UInt32.le_iff_toNat_le, hnine, hcode]
  rw [lowerHexValue]
  rcases h with h | h
  · rw [if_pos (hdecimal.mpr (by omega)), lowerHexDigit, if_pos (by omega)]
    refine ⟨by omega, ?_⟩
    have hcancel : 48 + (c.toNat - 48) = c.toNat := by omega
    rw [hcancel, Char.ofNat_toNat]
  · rw [if_neg (fun hle => by have := hdecimal.mp hle; omega), lowerHexDigit, if_neg (by omega)]
    refine ⟨by omega, ?_⟩
    have hcancel : 87 + (c.toNat - 87) = c.toNat := by omega
    rw [hcancel, Char.ofNat_toNat]

theorem length_lowerHex (bytes : List UInt8) : (lowerHex bytes).length = 2 * bytes.length := by
  induction bytes with
  | nil => rfl
  | cons byte rest ih =>
    rw [lowerHex, List.flatMap_cons, List.length_append, List.length_cons]
    rw [lowerHex] at ih
    rw [ih]
    simp
    omega

theorem all_isLowerHex_lowerHex (bytes : List UInt8) : (lowerHex bytes).all isLowerHex = true := by
  rw [List.all_eq_true]
  intro c hc
  obtain ⟨byte, -, hc⟩ := List.mem_flatMap.mp hc
  have hbyte := byte.toNat_lt
  simp only [List.mem_cons, List.not_mem_nil, or_false] at hc
  rcases hc with rfl | rfl
  · exact (lowerHexDigit_value (by omega)).1
  · exact (lowerHexDigit_value (by omega)).1

/-- What is printed is read again. -/
theorem ofLowerHex_lowerHex (bytes : List UInt8) : ofLowerHex (lowerHex bytes) = some bytes := by
  induction bytes with
  | nil => rfl
  | cons byte rest ih =>
    have hbyte := byte.toNat_lt
    obtain ⟨hhigh, hhighValue⟩ := @lowerHexDigit_value (byte.toNat / 16) (by omega)
    obtain ⟨hlow, hlowValue⟩ := @lowerHexDigit_value (byte.toNat % 16) (by omega)
    have hcons : lowerHex (byte :: rest) = lowerHexDigit (byte.toNat / 16) ::
        lowerHexDigit (byte.toNat % 16) :: lowerHex rest := rfl
    rw [hcons, ofLowerHex, hhigh, hlow, ih, hhighValue, hlowValue]
    have hvalue : 16 * (byte.toNat / 16) + byte.toNat % 16 = byte.toNat := Nat.div_add_mod _ _
    simp [hvalue]

/-- What is read is printed again, and was all digits, two for every byte. -/
theorem ofLowerHex_eq_some {text : List Char} {bytes : List UInt8} (h : ofLowerHex text = some bytes) :
    text = lowerHex bytes := by
  induction text using ofLowerHex.induct generalizing bytes with
  | case1 => obtain rfl := Option.some.inj h; rfl
  | case2 c => cases h
  | case3 high low rest hdigits ih =>
    rw [ofLowerHex, if_pos hdigits, Option.map_eq_some_iff] at h
    obtain ⟨more, hmore, rfl⟩ := h
    obtain ⟨hhigh, hlow⟩ := Bool.and_eq_true_iff.mp hdigits
    obtain ⟨hhighLt, hhighDigit⟩ := lowerHexValue_digit hhigh
    obtain ⟨hlowLt, hlowDigit⟩ := lowerHexValue_digit hlow
    have hvalue : (UInt8.ofNat (16 * lowerHexValue high + lowerHexValue low)).toNat =
        16 * lowerHexValue high + lowerHexValue low := by
      rw [UInt8.toNat_ofNat', Nat.mod_eq_of_lt (by omega)]
    have hcons : lowerHex (UInt8.ofNat (16 * lowerHexValue high + lowerHexValue low) :: more) =
        lowerHexDigit ((16 * lowerHexValue high + lowerHexValue low) / 16) ::
          lowerHexDigit ((16 * lowerHexValue high + lowerHexValue low) % 16) :: lowerHex more := by
      rw [lowerHex, List.flatMap_cons, hvalue]
      rfl
    rw [hcons, ih hmore]
    have hdiv : (16 * lowerHexValue high + lowerHexValue low) / 16 = lowerHexValue high := by omega
    have hmod : (16 * lowerHexValue high + lowerHexValue low) % 16 = lowerHexValue low := by omega
    rw [hdiv, hmod, hhighDigit, hlowDigit]
  | case4 high low rest hdigits =>
    rw [ofLowerHex, if_neg hdigits] at h
    cases h

end Crabinet.Library
