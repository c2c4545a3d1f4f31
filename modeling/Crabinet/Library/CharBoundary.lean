import Mathlib.Algebra.Ring.Nat
import Mathlib.Data.List.Infix
import Mathlib.Tactic.Common

/-!
# Cutting a text at a byte

A text is cut at the last character boundary up to a byte. What is left is the longest
beginning of the text that has no more bytes.
-/

namespace Crabinet.Library

/-- The number of bytes of a text. -/
def utf8Length (text : List Char) : ℕ := (text.map Char.utf8Size).sum

/-- `str::is_char_boundary`. -/
def isCharBoundary : List Char → ℕ → Bool
  | _, 0 => true
  | [], _ + 1 => false
  | c :: rest, index + 1 => c.utf8Size ≤ index + 1 && isCharBoundary rest (index + 1 - c.utf8Size)

/-- Step back to a character boundary. -/
def floorCharBoundary (text : List Char) : ℕ → ℕ
  | 0 => 0
  | stop + 1 => if isCharBoundary text (stop + 1) then stop + 1 else floorCharBoundary text stop

/-- The characters of the first bytes. -/
def sliceTo : List Char → ℕ → List Char
  | [], _ => []
  | c :: rest, stop => if c.utf8Size ≤ stop then c :: sliceTo rest (stop - c.utf8Size) else []

@[simp] theorem utf8Length_nil : utf8Length [] = 0 := rfl

@[simp] theorem utf8Length_cons (c : Char) (rest : List Char) :
    utf8Length (c :: rest) = c.utf8Size + utf8Length rest := by
  simp [utf8Length]

@[simp] theorem utf8Length_append (first second : List Char) :
    utf8Length (first ++ second) = utf8Length first + utf8Length second := by
  simp [utf8Length]

/-- A text in ASCII has a byte for every character. -/
theorem utf8Length_eq_length {text : List Char} (h : ∀ c ∈ text, c.toNat < 0x80) :
    utf8Length text = text.length := by
  induction text with
  | nil => rfl
  | cons c rest ih =>
    have hcode := h c List.mem_cons_self
    have hone : c.utf8Size = 1 :=
      Char.utf8Size_eq_one_iff.mpr (UInt32.le_iff_toNat_le.mpr (Nat.le_of_lt_succ hcode))
    rw [utf8Length_cons, hone, ih fun c hc => h c (List.mem_cons_of_mem _ hc), List.length_cons,
      Nat.add_comm]

theorem utf8Length_le_of_isPrefix {front text : List Char} (h : front <+: text) :
    utf8Length front ≤ utf8Length text := by
  obtain ⟨rest, rfl⟩ := h
  rw [utf8Length_append]
  exact Nat.le_add_right _ _

/-- Stepping back stops at a boundary. -/
theorem isCharBoundary_floorCharBoundary (text : List Char) (stop : ℕ) :
    isCharBoundary text (floorCharBoundary text stop) = true := by
  induction stop with
  | zero => cases text <;> rfl
  | succ stop ih =>
    rw [floorCharBoundary]
    split
    · assumption
    · exact ih

variable {front text : List Char} {stop : ℕ}

/-- The slice begins with just those beginnings of the text that fit. -/
theorem isPrefix_sliceTo_iff :
    front <+: sliceTo text stop ↔ front <+: text ∧ utf8Length front ≤ stop := by
  induction text generalizing front stop with
  | nil =>
    rw [sliceTo, List.prefix_nil]
    refine (and_iff_left_of_imp ?_).symm
    rintro rfl
    exact Nat.zero_le _
  | cons c rest ih =>
    cases front with
    | nil => simp
    | cons first front =>
      rw [sliceTo]
      split
      · rename_i hfits
        rw [List.cons_prefix_cons, List.cons_prefix_cons, ih, and_assoc]
        refine and_congr_right ?_
        rintro rfl
        rw [utf8Length_cons]
        exact and_congr_right fun _ => by omega
      · rename_i hlong
        refine iff_of_false (by simp) ?_
        rintro ⟨hbegin, hfits⟩
        obtain ⟨rfl, -⟩ := List.cons_prefix_cons.mp hbegin
        rw [utf8Length_cons] at hfits
        omega

theorem sliceTo_isPrefix (text : List Char) (stop : ℕ) : sliceTo text stop <+: text :=
  (isPrefix_sliceTo_iff.mp (List.prefix_refl _)).1

theorem utf8Length_sliceTo_le (text : List Char) (stop : ℕ) : utf8Length (sliceTo text stop) ≤ stop :=
  (isPrefix_sliceTo_iff.mp (List.prefix_refl _)).2

/-- A beginning that fits, and that every beginning that fits begins, is the slice. -/
theorem eq_sliceTo_iff : front = sliceTo text stop ↔ (front <+: text ∧ utf8Length front ≤ stop) ∧
    ∀ other, other <+: text → utf8Length other ≤ stop → other <+: front := by
  constructor
  · rintro rfl
    exact ⟨isPrefix_sliceTo_iff.mp (List.prefix_refl _), fun other hbegin hfits =>
      isPrefix_sliceTo_iff.mpr ⟨hbegin, hfits⟩⟩
  · rintro ⟨hfront, hlongest⟩
    have hback := hlongest _ (sliceTo_isPrefix text stop) (utf8Length_sliceTo_le text stop)
    exact (isPrefix_sliceTo_iff.mpr hfront).eq_of_length_le hback.length_le

/-- A byte inside a character cuts where the byte before it does. -/
theorem sliceTo_succ (h : isCharBoundary text (stop + 1) = false) :
    sliceTo text (stop + 1) = sliceTo text stop := by
  induction text generalizing stop with
  | nil => rfl
  | cons c rest ih =>
    rw [isCharBoundary] at h
    rw [sliceTo, sliceTo]
    by_cases hfits : c.utf8Size ≤ stop + 1
    · rw [decide_eq_true hfits, Bool.true_and] at h
      rw [if_pos hfits]
      by_cases hlast : c.utf8Size = stop + 1
      · rw [hlast, Nat.sub_self] at h
        simp [isCharBoundary] at h
      · have hsub : stop + 1 - c.utf8Size = stop - c.utf8Size + 1 := by omega
        rw [hsub] at h ⊢
        rw [if_pos (by omega), ih h]
    · rw [if_neg hfits, if_neg (by omega)]

/-- Stepping back to a boundary first does not change the slice. -/
theorem sliceTo_floorCharBoundary (text : List Char) (stop : ℕ) :
    sliceTo text (floorCharBoundary text stop) = sliceTo text stop := by
  induction stop with
  | zero => rfl
  | succ stop ih =>
    rw [floorCharBoundary]
    cases hboundary : isCharBoundary text (stop + 1) with
    | true => rw [if_pos rfl]
    | false => rw [if_neg Bool.false_ne_true, ih, sliceTo_succ hboundary]

/-- No more than the whole text is cut. -/
theorem sliceTo_min (text : List Char) (stop : ℕ) :
    sliceTo text (min (utf8Length text) stop) = sliceTo text stop := by
  refine (eq_sliceTo_iff.mpr ⟨?_, fun other hbegin hfits => ?_⟩).symm
  · exact ⟨sliceTo_isPrefix text stop, (Nat.le_min).mpr
      ⟨utf8Length_le_of_isPrefix (sliceTo_isPrefix text stop), utf8Length_sliceTo_le text stop⟩⟩
  · exact isPrefix_sliceTo_iff.mpr ⟨hbegin, hfits.trans (Nat.min_le_right _ _)⟩

end Crabinet.Library
