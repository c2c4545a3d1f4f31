import Crabinet.Thumbnail.Downscale
import Mathlib.Algebra.BigOperators.Group.Finset.Basic
import Mathlib.Algebra.BigOperators.Intervals
import Mathlib.Algebra.BigOperators.Ring.Finset
import Mathlib.Data.List.GetD

/-!
# The box filter

What the downscaler computes: every source pixel belongs to one box, found by an integer mapping
of each axis, and an output pixel is the rounded mean of its box, colours being weighted by alpha.
-/

namespace Crabinet.Thumbnail

open Crabinet.Library

/-! ### Boxes -/

/-- The output index of a source index, on one axis. -/
def bin (length out index : ℕ) : ℕ := index * out / length

section Bins

variable {length out index : ℕ}

theorem bin_lt (hout : 1 ≤ out) (hindex : index < length) : bin length out index < out :=
  Nat.div_lt_of_lt_mul (Nat.mul_lt_mul_of_pos_right hindex hout)

theorem bin_mono {other : ℕ} (h : index ≤ other) : bin length out index ≤ bin length out other :=
  Nat.div_le_div_right (Nat.mul_le_mul_right out h)

theorem bin_zero : bin length out 0 = 0 := by
  rw [bin, Nat.zero_mul, Nat.zero_div]

/-- One index further is at most one output index further. -/
theorem bin_succ_le (hout : out ≤ length) (hlength : 0 < length) :
    bin length out (index + 1) ≤ bin length out index + 1 := by
  rw [bin, bin, ← Nat.add_div_right _ hlength]
  refine Nat.div_le_div_right ?_
  rw [Nat.succ_mul]
  omega

/-- Every output index is that of a source index. -/
theorem exists_bin_eq (hout : out ≤ length) {target : ℕ} (htarget : target < out) :
    ∃ index < length, bin length out index = target := by
  have hpos : 0 < out := Nat.zero_lt_of_lt htarget
  have hmul : (target + 1) * length ≤ out * length := Nat.mul_le_mul_right length htarget
  have hdivide := Nat.div_add_mod (target * length + (out - 1)) out
  have hmod := Nat.mod_lt (target * length + (out - 1)) hpos
  rw [Nat.succ_mul] at hmul
  refine ⟨(target * length + (out - 1)) / out, ?_, ?_⟩
  · refine Nat.div_lt_of_lt_mul ?_
    omega
  · rw [bin, Nat.mul_comm _ out, Nat.div_eq_iff (by omega)]
    omega

end Bins

instance : Add Sums := ⟨Sums.add⟩

instance : Zero Sums := ⟨Sums.zero⟩

namespace Sums

@[simp] theorem add_red (first second : Sums) : (first + second).red = first.red + second.red := rfl

@[simp] theorem add_green (first second : Sums) :
    (first + second).green = first.green + second.green := rfl

@[simp] theorem add_blue (first second : Sums) :
    (first + second).blue = first.blue + second.blue := rfl

@[simp] theorem add_alpha (first second : Sums) :
    (first + second).alpha = first.alpha + second.alpha := rfl

instance : AddCommMonoid Sums where
  add_assoc a b c := by ext <;> simp [Nat.add_assoc]
  zero_add a := by
    ext
    · exact Nat.zero_add a.red
    · exact Nat.zero_add a.green
    · exact Nat.zero_add a.blue
    · exact Nat.zero_add a.alpha
  add_zero a := rfl
  add_comm a b := by ext <;> simp [Nat.add_comm]
  nsmul := nsmulRec

end Sums

/-- Sizes of images that are scaled: an output axis is not empty and no longer than the source axis,
and the number of source pixels leaves room for their sums. -/
structure Scalable (width height outWidth outHeight : ℕ) : Prop where
  outWidth_pos : 1 ≤ outWidth
  outWidth_le : outWidth ≤ width
  outHeight_pos : 1 ≤ outHeight
  outHeight_le : outHeight ≤ height
  width_le : width ≤ maxOfBits 32
  height_le : height ≤ maxOfBits 32
  area_le : width * height ≤ 2 ^ 48

/-- A row of an image and the layout of its pixels. -/
abbrev Row := List UInt8 × Layout

/-- The row is long enough. -/
def Row.Sufficient (row : Row) (width : ℕ) : Prop := width * row.2.channels ≤ row.1.length

instance (row : Row) (width : ℕ) : Decidable (row.Sufficient width) := Nat.decLe _ _

/-- The pixel in a column of a row. -/
def Row.pixelAt (row : Row) (x : ℕ) : Rgba :=
  (row.2.pixel (block row.2.channels row.1 x)).getD ⟨0, 0, 0, 0⟩

section Spec

variable (width height outWidth outHeight : ℕ) (rows : List Row)

/-- What a row adds to an output column. -/
def rowSums (row : Row) (column : ℕ) : Sums :=
  ∑ x ∈ Finset.range width, if bin width outWidth x = column then (row.pixelAt x).weighted else 0

/-- The sums of the part of a box that lies in the rows so far. -/
def boxSums (column target : ℕ) : Sums :=
  ∑ y ∈ Finset.range rows.length,
    if bin height outHeight y = target then rowSums width outWidth (rows.getD y ([], .gray)) column else 0

/-- The number of indices below a bound with an output index. -/
def binCount (length out bound target : ℕ) : ℕ :=
  ∑ index ∈ Finset.range bound, if bin length out index = target then 1 else 0

/-- The number of pixels of the part of a box that lies in the rows so far. -/
def boxCount (column target : ℕ) : ℕ :=
  binCount width outWidth width column * binCount height outHeight rows.length target

end Spec

/-- A quotient rounded to the nearest number, and up in the middle. -/
def roundedMean (total count : ℕ) : ℕ := (total + count / 2) / count

theorem roundedMean_spec {total count : ℕ} (h : 0 < count) :
    2 * roundedMean total count * count ≤ 2 * total + count ∧
      2 * total + count < 2 * (roundedMean total count + 1) * count := by
  have hdivide := Nat.div_add_mod (total + count / 2) count
  have hmod := Nat.mod_lt (total + count / 2) h
  rw [roundedMean, Nat.mul_assoc, Nat.mul_assoc, Nat.succ_mul ((total + count / 2) / count),
    Nat.mul_comm _ count]
  omega

/-- The pixel of a box with these sums: its mean, and transparent black where nothing is opaque. -/
def meanPixel (sums : Sums) (count : ℕ) : Rgba :=
  if sums.alpha = 0 then ⟨0, 0, 0, 0⟩
  else
    ⟨UInt8.ofNat (roundedMean sums.red sums.alpha), UInt8.ofNat (roundedMean sums.green sums.alpha),
      UInt8.ofNat (roundedMean sums.blue sums.alpha), UInt8.ofNat (roundedMean sums.alpha count)⟩

namespace Sums

/-- Sums that so many pixels can have. -/
structure Within (sums : Sums) (count : ℕ) : Prop where
  red_le : sums.red ≤ 255 * sums.alpha
  green_le : sums.green ≤ 255 * sums.alpha
  blue_le : sums.blue ≤ 255 * sums.alpha
  alpha_le : sums.alpha ≤ 255 * count

variable {first second : Sums} {n m : ℕ}

theorem within_zero (n : ℕ) : Within 0 n := ⟨le_rfl, le_rfl, le_rfl, Nat.zero_le _⟩

theorem Within.add (hfirst : first.Within n) (hsecond : second.Within m) :
    (first + second).Within (n + m) := by
  obtain ⟨hred, hgreen, hblue, halpha⟩ := hfirst
  obtain ⟨hred', hgreen', hblue', halpha'⟩ := hsecond
  constructor <;> simp only [add_red, add_green, add_blue, add_alpha] <;> omega

theorem Within.mono (h : first.Within n) (hle : n ≤ m) : first.Within m :=
  ⟨h.red_le, h.green_le, h.blue_le, h.alpha_le.trans (Nat.mul_le_mul_left 255 hle)⟩

/-- The sums of several sets of pixels. -/
theorem within_sum {f : ℕ → Sums} {n : ℕ → ℕ} {bound : ℕ}
    (h : ∀ index < bound, (f index).Within (n index)) :
    (∑ index ∈ Finset.range bound, f index).Within (∑ index ∈ Finset.range bound, n index) := by
  induction bound with
  | zero => exact within_zero _
  | succ bound ih =>
    rw [Finset.sum_range_succ, Finset.sum_range_succ]
    exact (ih fun index hindex => h index (Nat.lt_succ_of_lt hindex)).add
      (h bound (Nat.lt_succ_self bound))

theorem within_weighted (pixel : Rgba) : pixel.weighted.Within 1 := by
  have hbound (value : UInt8) : value.toNat ≤ 255 := Nat.le_of_lt_succ value.toNat_lt
  exact ⟨Nat.mul_le_mul_right _ (hbound _), Nat.mul_le_mul_right _ (hbound _),
    Nat.mul_le_mul_right _ (hbound _), hbound _⟩

/-- The sums of so many pixels fit 64 bits. -/
theorem Within.checkedAdd (h : (first + second).Within n) (hn : n ≤ 2 ^ 48) :
    first.checkedAdd second = some (first + second) := by
  obtain ⟨hred, hgreen, hblue, halpha⟩ := h
  simp only [add_red, add_green, add_blue, add_alpha] at hred hgreen hblue halpha
  have hmax : maxOfBits 64 = 18446744073709551615 := rfl
  rw [Sums.checkedAdd, checked_of_le (by omega), checked_of_le (by omega),
    checked_of_le (by omega), checked_of_le (by omega)]
  rfl

end Sums

/-! ### Boxes row by row -/

section Boxes

variable {width height outWidth outHeight : ℕ} {rows : List Row} {row : Row} {column target : ℕ}

theorem binCount_succ {length out bound : ℕ} : binCount length out (bound + 1) target =
    binCount length out bound target + if bin length out bound = target then 1 else 0 :=
  Finset.sum_range_succ _ _

theorem binCount_le (length out bound target : ℕ) : binCount length out bound target ≤ bound := by
  induction bound with
  | zero => exact le_rfl
  | succ bound ih =>
    rw [binCount_succ]
    split <;> omega

theorem binCount_pos {length out bound index : ℕ} (hindex : index < bound)
    (htarget : bin length out index = target) : 0 < binCount length out bound target := by
  induction bound with
  | zero => cases hindex
  | succ bound ih =>
    rw [binCount_succ]
    rcases Nat.lt_succ_iff_lt_or_eq.mp hindex with hlt | rfl
    · exact Nat.add_pos_left (ih hlt) _
    · rw [if_pos htarget]
      exact Nat.succ_pos _

/-- An output index beyond all of them has none. -/
theorem binCount_eq_zero {length out bound : ℕ} (h : ∀ index < bound, bin length out index < target) :
    binCount length out bound target = 0 :=
  Finset.sum_eq_zero fun index hindex => if_neg (h index (Finset.mem_range.mp hindex)).ne

/-- One more row adds to the box of its output row. -/
theorem boxSums_append : boxSums width height outWidth outHeight (rows ++ [row]) column target =
    boxSums width height outWidth outHeight rows column target +
      if bin height outHeight rows.length = target then rowSums width outWidth row column else 0 := by
  unfold boxSums
  rw [List.length_append, List.length_singleton, Finset.sum_range_succ]
  congr 1
  · refine Finset.sum_congr rfl fun y hy => ?_
    rw [List.getD_append _ _ _ _ (Finset.mem_range.mp hy)]
  · rw [List.getD_append_right _ _ _ _ le_rfl, Nat.sub_self]
    rfl

theorem boxSums_eq_zero (h : ∀ y < rows.length, bin height outHeight y < target) :
    boxSums width height outWidth outHeight rows column target = 0 :=
  Finset.sum_eq_zero fun y hy => if_neg (h y (Finset.mem_range.mp hy)).ne

theorem within_rowSums : (rowSums width outWidth row column).Within
    (binCount width outWidth width column) := by
  refine Sums.within_sum fun x _ => ?_
  split
  · exact Sums.within_weighted _
  · exact Sums.within_zero _

/-- The sums of a box are those of its pixels. -/
theorem within_boxSums : (boxSums width height outWidth outHeight rows column target).Within
    (boxCount width height outWidth outHeight rows column target) := by
  rw [boxCount, binCount.eq_1 height, Finset.mul_sum]
  refine Sums.within_sum fun y _ => ?_
  split
  · rw [Nat.mul_one]
    exact within_rowSums
  · exact Sums.within_zero _

theorem boxCount_le (h : Scalable width height outWidth outHeight) (hrows : rows.length ≤ height) :
    boxCount width height outWidth outHeight rows column target ≤ width * rows.length ∧
      width * rows.length ≤ 2 ^ 48 :=
  ⟨Nat.mul_le_mul (binCount_le _ _ _ _) (binCount_le _ _ _ _),
    (Nat.mul_le_mul_left width hrows).trans h.area_le⟩

end Boxes

end Crabinet.Thumbnail
