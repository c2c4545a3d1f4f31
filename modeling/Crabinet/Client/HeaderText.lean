import Mathlib.Data.List.Basic
import Mathlib.Tactic.Common

/-!
# Header values as text

A header value is a list of bytes; it becomes text where it is visible ASCII.
-/

namespace Crabinet.Client

/-- `HeaderValue::to_str`: visible ASCII and tabs only. -/
def toStr (value : List UInt8) : Option (List Char) :=
  if value.all fun byte => (32 ≤ byte && byte < 127) || byte == 9 then
    some (value.map fun byte => Char.ofNat byte.toNat)
  else none

/-- The characters of a header value. -/
def chars (value : List UInt8) : List Char := value.map fun byte => Char.ofNat byte.toNat

theorem toStr_eq_some {value : List UInt8} {text : List Char} (h : toStr value = some text) :
    text = chars value := by
  rw [toStr, Option.ite_none_right_eq_some] at h
  exact (Option.some.inj h.2).symm

/-- The bytes of an ASCII text. -/
def bytesOf (text : List Char) : List UInt8 := text.map fun c => UInt8.ofNat c.toNat

/-- Visible ASCII. -/
def IsVisible (text : List Char) : Prop := ∀ c ∈ text, 32 ≤ c.toNat ∧ c.toNat < 127

theorem chars_bytesOf {text : List Char} (h : IsVisible text) : chars (bytesOf text) = text := by
  rw [chars, bytesOf, List.map_map]
  refine (List.map_congr_left fun c hc => ?_).trans (List.map_id text)
  have hbound := (h c hc).2
  simp only [Function.comp_apply, id_eq]
  rw [UInt8.toNat_ofNat', Nat.mod_eq_of_lt (by omega), Char.ofNat_toNat]

theorem toStr_bytesOf {text : List Char} (h : IsVisible text) : toStr (bytesOf text) = some text := by
  have hall : (bytesOf text).all (fun byte => (32 ≤ byte && byte < 127) || byte == 9) = true := by
    rw [List.all_eq_true]
    intro byte hbyte
    obtain ⟨c, hc, rfl⟩ := List.mem_map.mp hbyte
    obtain ⟨hlow, hhigh⟩ := h c hc
    have hnat : (UInt8.ofNat c.toNat).toNat = c.toNat := by
      rw [UInt8.toNat_ofNat', Nat.mod_eq_of_lt (by omega)]
    simp [UInt8.le_iff_toNat_le, UInt8.lt_iff_toNat_lt, hnat, hlow, hhigh]
  rw [toStr, if_pos hall]
  exact congrArg some (chars_bytesOf h)

/-- A header value is what its text is made of. -/
theorem eq_bytesOf_of_toStr {value : List UInt8} {text : List Char} (h : toStr value = some text) :
    value = bytesOf text := by
  rw [toStr_eq_some h, chars, bytesOf, List.map_map]
  rw [toStr, Option.ite_none_right_eq_some, List.all_eq_true] at h
  refine (List.map_id value).symm.trans (List.map_congr_left fun byte hbyte => ?_)
  have hvalid : byte.toNat.isValidChar := .inl (by have := byte.toNat_lt; omega)
  have hchar : (Char.ofNat byte.toNat).toNat = byte.toNat := by
    rw [Char.ofNat, dif_pos hvalid]
    rfl
  simp only [Function.comp_apply, id_eq, hchar, UInt8.ofNat_toNat]

end Crabinet.Client
