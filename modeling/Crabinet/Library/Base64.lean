import Mathlib.Algebra.Ring.Nat
import Mathlib.Data.List.Basic
import Mathlib.Data.Nat.Basic

/-!
# Base64 without padding

The URL-safe alphabet. Three bytes are four digits; one or two bytes at the end are two or
three digits, whose unused low bits are zero. The decoder accepts nothing but what the
encoder writes.
-/

namespace Crabinet.Library.Base64

/-- The digit of a value below 64. -/
def digit (value : ℕ) : Char :=
  if value < 26 then Char.ofNat (65 + value)
  else if value < 52 then Char.ofNat (71 + value)
  else if value < 62 then Char.ofNat (value - 4)
  else if value = 62 then '-'
  else '_'

/-- The value of a digit. -/
def digitValue (c : Char) : Option ℕ :=
  if 'A' ≤ c ∧ c ≤ 'Z' then some (c.toNat - 65)
  else if 'a' ≤ c ∧ c ≤ 'z' then some (c.toNat - 71)
  else if '0' ≤ c ∧ c ≤ '9' then some (c.toNat + 4)
  else if c = '-' then some 62
  else if c = '_' then some 63
  else none

/-- Encode a byte string. -/
def encode : List UInt8 → List Char
  | first :: second :: third :: rest =>
    let value := (first.toNat * 256 + second.toNat) * 256 + third.toNat
    digit (value / 262144) :: digit (value / 4096 % 64) :: digit (value / 64 % 64) ::
      digit (value % 64) :: encode rest
  | [first, second] =>
    let value := (first.toNat * 256 + second.toNat) * 4
    [digit (value / 4096), digit (value / 64 % 64), digit (value % 64)]
  | [first] =>
    let value := first.toNat * 16
    [digit (value / 64), digit (value % 64)]
  | [] => []

/-- Decode a text; the low bits of an incomplete group must be zero. -/
def decode : List Char → Option (List UInt8)
  | a :: b :: c :: d :: rest => do
    let a ← digitValue a
    let b ← digitValue b
    let c ← digitValue c
    let d ← digitValue d
    let rest ← decode rest
    let value := ((a * 64 + b) * 64 + c) * 64 + d
    return UInt8.ofNat (value / 65536) :: UInt8.ofNat (value / 256) :: UInt8.ofNat value :: rest
  | [a, b, c] => do
    let a ← digitValue a
    let b ← digitValue b
    let c ← digitValue c
    let value := (a * 64 + b) * 64 + c
    if value % 4 = 0 then some [UInt8.ofNat (value / 1024), UInt8.ofNat (value / 4)] else none
  | [a, b] => do
    let a ← digitValue a
    let b ← digitValue b
    let value := a * 64 + b
    if value % 16 = 0 then some [UInt8.ofNat (value / 16)] else none
  | [_] => none
  | [] => some []

theorem digitValue_digit {value : ℕ} (h : value < 64) : digitValue (digit value) = some value := by
  have hall : ∀ value : Fin 64, digitValue (digit value) = some value.val := by decide
  exact hall ⟨value, h⟩

theorem digit_digitValue {c : Char} {value : ℕ} (h : digitValue c = some value) :
    digit value = c ∧ value < 64 := by
  have hchar : Char.ofNat c.toNat = c := Char.ofNat_toNat c
  unfold digitValue at h
  simp only [Char.le_def, UInt32.le_iff_toNat_le] at h
  split at h
  · rename_i hrange
    obtain rfl := Option.some.inj h
    obtain ⟨hlow, hhigh⟩ := hrange
    change 65 ≤ c.toNat at hlow
    change c.toNat ≤ 90 at hhigh
    refine ⟨?_, by omega⟩
    rw [digit, if_pos (by omega), show 65 + (c.toNat - 65) = c.toNat by omega, hchar]
  · split at h
    · rename_i hrange
      obtain rfl := Option.some.inj h
      obtain ⟨hlow, hhigh⟩ := hrange
      change 97 ≤ c.toNat at hlow
      change c.toNat ≤ 122 at hhigh
      refine ⟨?_, by omega⟩
      rw [digit, if_neg (by omega), if_pos (by omega), show 71 + (c.toNat - 71) = c.toNat by omega, hchar]
    · split at h
      · rename_i hrange
        obtain rfl := Option.some.inj h
        obtain ⟨hlow, hhigh⟩ := hrange
        change 48 ≤ c.toNat at hlow
        change c.toNat ≤ 57 at hhigh
        refine ⟨?_, by omega⟩
        rw [digit, if_neg (by omega), if_neg (by omega), if_pos (by omega), Nat.add_sub_cancel, hchar]
      · split at h
        · rename_i hdash
          obtain rfl := Option.some.inj h
          exact ⟨hdash.symm, by omega⟩
        · split at h
          · rename_i hunderscore
            obtain rfl := Option.some.inj h
            exact ⟨hunderscore.symm, by omega⟩
          · cases h

/-- What is encoded is decoded. -/
theorem decode_encode (bytes : List UInt8) : decode (encode bytes) = some bytes := by
  induction bytes using encode.induct with
  | case1 first second third rest ih =>
    have hfirst := first.toNat_lt
    have hsecond := second.toNat_lt
    have hthird := third.toNat_lt
    simp only [encode, decode, ih]
    rw [digitValue_digit (by omega), digitValue_digit (by omega), digitValue_digit (by omega),
      digitValue_digit (by omega)]
    simp only [Option.bind_eq_bind, Option.bind_some, Option.pure_def, Option.some.injEq,
      List.cons.injEq, ← UInt8.toNat_inj, UInt8.toNat_ofNat', and_true]
    omega
  | case2 first second =>
    have hfirst := first.toNat_lt
    have hsecond := second.toNat_lt
    simp only [encode, decode]
    rw [digitValue_digit (by omega), digitValue_digit (by omega), digitValue_digit (by omega)]
    simp only [Option.bind_eq_bind, Option.bind_some]
    rw [if_pos (by omega)]
    simp only [Option.some.injEq, List.cons.injEq, ← UInt8.toNat_inj, UInt8.toNat_ofNat', and_true]
    omega
  | case3 first =>
    have hfirst := first.toNat_lt
    simp only [encode, decode]
    rw [digitValue_digit (by omega), digitValue_digit (by omega)]
    simp only [Option.bind_eq_bind, Option.bind_some]
    rw [if_pos (by omega)]
    simp only [Option.some.injEq, List.cons.injEq, ← UInt8.toNat_inj, UInt8.toNat_ofNat', and_true]
    omega
  | case4 => rfl

/-- Nothing else decodes to a byte string than its encoding. -/
theorem encode_of_decode {text : List Char} {bytes : List UInt8} (h : decode text = some bytes) :
    encode bytes = text := by
  induction text using decode.induct generalizing bytes with
  | case1 a b c d rest ih =>
    simp only [decode, Option.bind_eq_bind, Option.bind_eq_some_iff, Option.pure_def] at h
    obtain ⟨a', ha, b', hb, c', hc, d', hd, tail, htail, h⟩ := h
    obtain ⟨rfl, ha⟩ := digit_digitValue ha
    obtain ⟨rfl, hb⟩ := digit_digitValue hb
    obtain ⟨rfl, hc⟩ := digit_digitValue hc
    obtain ⟨rfl, hd⟩ := digit_digitValue hd
    obtain rfl := Option.some.inj h
    simp only [encode, ih htail, UInt8.toNat_ofNat', List.cons.injEq, and_true]
    refine ⟨congrArg digit ?_, congrArg digit ?_, congrArg digit ?_, congrArg digit ?_⟩ <;> omega
  | case2 a b c =>
    simp only [decode, Option.bind_eq_bind, Option.bind_eq_some_iff] at h
    obtain ⟨a', ha, b', hb, c', hc, h⟩ := h
    obtain ⟨rfl, ha⟩ := digit_digitValue ha
    obtain ⟨rfl, hb⟩ := digit_digitValue hb
    obtain ⟨rfl, hc⟩ := digit_digitValue hc
    split at h
    · obtain rfl := Option.some.inj h
      simp only [encode, UInt8.toNat_ofNat', List.cons.injEq, and_true]
      refine ⟨congrArg digit ?_, congrArg digit ?_, congrArg digit ?_⟩ <;> omega
    · cases h
  | case3 a b =>
    simp only [decode, Option.bind_eq_bind, Option.bind_eq_some_iff] at h
    obtain ⟨a', ha, b', hb, h⟩ := h
    obtain ⟨rfl, ha⟩ := digit_digitValue ha
    obtain ⟨rfl, hb⟩ := digit_digitValue hb
    split at h
    · obtain rfl := Option.some.inj h
      simp only [encode, UInt8.toNat_ofNat', List.cons.injEq, and_true]
      refine ⟨congrArg digit ?_, congrArg digit ?_⟩ <;> omega
    · cases h
  | case4 => cases h
  | case5 =>
    obtain rfl := Option.some.inj h
    rfl

theorem encode_injective : Function.Injective encode := by
  intro first second h
  have hfirst := decode_encode first
  rw [h, decode_encode] at hfirst
  exact (Option.some.inj hfirst).symm

/-- The length of an encoding. -/
theorem length_encode (bytes : List UInt8) : (encode bytes).length = (bytes.length * 4 + 2) / 3 := by
  induction bytes using encode.induct with
  | case1 first second third rest ih =>
    simp only [encode, List.length_cons, ih]
    omega
  | case2 first second => simp [encode]
  | case3 first => simp [encode]
  | case4 => rfl

theorem utf8Size_digit {value : ℕ} (h : value < 64) : (digit value).utf8Size = 1 := by
  have hall : ∀ value : Fin 64, (digit value).utf8Size = 1 := by decide
  exact hall ⟨value, h⟩

/-- A text of digits has as many bytes as digits. -/
theorem sum_utf8Size_encode (bytes : List UInt8) :
    ((encode bytes).map Char.utf8Size).sum = (encode bytes).length := by
  induction bytes using encode.induct with
  | case1 first second third rest ih =>
    have hfirst := first.toNat_lt
    have hsecond := second.toNat_lt
    have hthird := third.toNat_lt
    simp only [encode, List.map_cons, List.sum_cons, List.length_cons, ih]
    rw [utf8Size_digit (by omega), utf8Size_digit (by omega), utf8Size_digit (by omega),
      utf8Size_digit (by omega)]
    omega
  | case2 first second =>
    have hfirst := first.toNat_lt
    have hsecond := second.toNat_lt
    simp only [encode, List.map_cons, List.sum_cons, List.length_cons, List.map_nil]
    rw [utf8Size_digit (by omega), utf8Size_digit (by omega), utf8Size_digit (by omega)]
    rfl
  | case3 first =>
    have hfirst := first.toNat_lt
    simp only [encode, List.map_cons, List.sum_cons, List.length_cons, List.map_nil]
    rw [utf8Size_digit (by omega), utf8Size_digit (by omega)]
    rfl
  | case4 => rfl

end Crabinet.Library.Base64
