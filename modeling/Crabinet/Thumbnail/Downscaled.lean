import Crabinet.Thumbnail.DownscaleRuns
import Mathlib.Data.Finset.Prod

/-!
# The image of a downscaler

What a run of the downscaler ends with, in terms of the boxes of source pixels. The number of
source pixels is bounded because sums of 64 bits hold no more: without a bound, a white image
overflows them.
-/

namespace Crabinet.Thumbnail

open Crabinet.Library

/-! ### The box of an output pixel -/

section Box

variable (width height outWidth outHeight : ℕ) (rows : List Row)

/-- The source pixels that belong to an output pixel. -/
def box (column target : ℕ) : Finset (ℕ × ℕ) :=
  (Finset.range width ×ˢ Finset.range height).filter fun source =>
    bin width outWidth source.1 = column ∧ bin height outHeight source.2 = target

/-- The sums of the source pixels of a box. -/
def sumsOfBox (column target : ℕ) : Sums :=
  ∑ source ∈ box width height outWidth outHeight column target,
    (Row.pixelAt (rows.getD source.2 ([], .gray)) source.1).weighted

end Box

variable {width height outWidth outHeight : ℕ} {rows : List Row} {row : Row} {column target : ℕ}

theorem mem_box {source : ℕ × ℕ} : source ∈ box width height outWidth outHeight column target ↔
    (source.1 < width ∧ source.2 < height) ∧
      bin width outWidth source.1 = column ∧ bin height outHeight source.2 = target := by
  rw [box, Finset.mem_filter, Finset.mem_product, Finset.mem_range, Finset.mem_range]

/-- Every source pixel belongs to one output pixel. -/
theorem existsUnique_mem_box (h : Scalable width height outWidth outHeight) {x y : ℕ}
    (hx : x < width) (hy : y < height) :
    ∃! out : ℕ × ℕ, (out.1 < outWidth ∧ out.2 < outHeight) ∧
      (x, y) ∈ box width height outWidth outHeight out.1 out.2 := by
  refine ⟨(bin width outWidth x, bin height outHeight y), ⟨⟨bin_lt h.outWidth_pos hx,
    bin_lt h.outHeight_pos hy⟩, mem_box.mpr ⟨⟨hx, hy⟩, rfl, rfl⟩⟩, ?_⟩
  rintro ⟨column, target⟩ ⟨-, hmem⟩
  obtain ⟨-, hcolumn, htarget⟩ := mem_box.mp hmem
  exact Prod.ext hcolumn.symm htarget.symm

/-- Every output pixel receives a source pixel. -/
theorem box_nonempty (h : Scalable width height outWidth outHeight) (hcolumn : column < outWidth)
    (htarget : target < outHeight) :
    (box width height outWidth outHeight column target).Nonempty := by
  obtain ⟨x, hx, hbinX⟩ := exists_bin_eq h.outWidth_le hcolumn
  obtain ⟨y, hy, hbinY⟩ := exists_bin_eq h.outHeight_le htarget
  exact ⟨(x, y), mem_box.mpr ⟨⟨hx, hy⟩, hbinX, hbinY⟩⟩

/-- What is added row by row is what lies in the box. -/
theorem sumsOfBox_eq (hrows : rows.length = height) :
    sumsOfBox width height outWidth outHeight rows column target =
      boxSums width height outWidth outHeight rows column target := by
  rw [sumsOfBox, box, Finset.sum_filter, Finset.sum_product_right, boxSums, hrows]
  refine Finset.sum_congr rfl fun y _ => ?_
  by_cases htarget : bin height outHeight y = target
  · rw [if_pos htarget, rowSums]
    refine Finset.sum_congr rfl fun x _ => ?_
    simp only [htarget, and_true]
  · rw [if_neg htarget]
    exact Finset.sum_eq_zero fun x _ => if_neg fun h => htarget h.2

theorem card_box (hrows : rows.length = height) :
    (box width height outWidth outHeight column target).card =
      boxCount width height outWidth outHeight rows column target := by
  rw [box, Finset.filter_product (fun x => bin width outWidth x = column)
    (fun y => bin height outHeight y = target), Finset.card_product, boxCount, binCount, binCount,
    hrows, Finset.card_filter, Finset.card_filter]

/-! ### Means -/

/-- The pixel is the mean of pixels with these sums: its alpha is the rounded mean alpha, its
colour the rounded mean colour weighted by alpha, and it is transparent black where the alphas are
all zero. -/
structure Rgba.IsMean (sums : Sums) (count : ℕ) (pixel : Rgba) : Prop where
  alpha : pixel.alpha.toNat = roundedMean sums.alpha count
  red : sums.alpha ≠ 0 → pixel.red.toNat = roundedMean sums.red sums.alpha
  green : sums.alpha ≠ 0 → pixel.green.toNat = roundedMean sums.green sums.alpha
  blue : sums.alpha ≠ 0 → pixel.blue.toNat = roundedMean sums.blue sums.alpha
  black : sums.alpha = 0 → pixel = ⟨0, 0, 0, 0⟩

/-- A rounded mean of bytes is a byte. -/
theorem toNat_roundedMean {total count : ℕ} (hcount : 0 < count) (htotal : total ≤ 255 * count) :
    (UInt8.ofNat (roundedMean total count)).toNat = roundedMean total count := by
  refine UInt8.toNat_ofNat_of_lt (Nat.div_lt_of_lt_mul ?_)
  change _ < count * 256
  omega

theorem isMean_meanPixel {sums : Sums} {count : ℕ} (h : sums.Within count) (hcount : 0 < count) :
    (meanPixel sums count).IsMean sums count := by
  unfold meanPixel
  by_cases hzero : sums.alpha = 0
  · rw [if_pos hzero]
    refine ⟨?_, fun h => absurd hzero h, fun h => absurd hzero h, fun h => absurd hzero h,
      fun _ => rfl⟩
    rw [hzero, roundedMean, Nat.zero_add, Nat.div_eq_of_lt (Nat.div_lt_self hcount Nat.one_lt_two)]
    rfl
  · rw [if_neg hzero]
    have hpos := Nat.pos_of_ne_zero hzero
    exact ⟨toNat_roundedMean hcount h.alpha_le, fun _ => toNat_roundedMean hpos h.red_le,
      fun _ => toNat_roundedMean hpos h.green_le, fun _ => toNat_roundedMean hpos h.blue_le,
      fun h => absurd h hzero⟩

/-- Every pixel of the image is the mean of its box. -/
theorem boxImage_isMean (h : Scalable width height outWidth outHeight) (hrows : rows.length = height)
    (hcolumn : column < outWidth) (htarget : target < outHeight) :
    ∃ pixel, (boxImage width height outWidth outHeight rows)[target * outWidth + column]? =
        some pixel ∧
      pixel.IsMean (sumsOfBox width height outWidth outHeight rows column target)
        (box width height outWidth outHeight column target).card := by
  have hindex : target * outWidth + column < outWidth * outHeight :=
    calc target * outWidth + column < target * outWidth + outWidth :=
          Nat.add_lt_add_left hcolumn _
      _ = (target + 1) * outWidth := (Nat.succ_mul _ _).symm
      _ ≤ outHeight * outWidth := Nat.mul_le_mul_right _ htarget
      _ = outWidth * outHeight := Nat.mul_comm _ _
  obtain ⟨hdiv, hmod⟩ := (index_eq_iff hcolumn).mp (rfl : target * outWidth + column = _)
  refine ⟨_, getElem?_table hindex, ?_⟩
  have hpos := (box_nonempty h hcolumn htarget).card_pos
  rw [hdiv, hmod, sumsOfBox_eq hrows, boxPixel]
  rw [card_box hrows] at hpos ⊢
  exact isMean_meanPixel within_boxSums hpos

/-- The streaming downscaler is the box filter. Nothing in a run overflows, is divided by zero or
loses bits; the rows that count are those that are long enough, until there are as many as the
image has, and any other row is refused and changes nothing; and the image is complete exactly when
all rows are there, its pixels being the means of their boxes. -/
theorem downscale_is_box_filter (h : Scalable width height outWidth outHeight) (pushed : List Row) :
    (∀ x < width, ∀ y < height, ∃! out : ℕ × ℕ, (out.1 < outWidth ∧ out.2 < outHeight) ∧
      (x, y) ∈ box width height outWidth outHeight out.1 out.2) ∧
    (∀ column < outWidth, ∀ target < outHeight,
      (box width height outWidth outHeight column target).Nonempty) ∧
    ∃ start last results, Downscaler.new width height outWidth outHeight = some start ∧
      start.pushAll pushed = some (last, results) ∧
      (∀ row : Row, height ≤ (addedRows width height pushed).length ∨ ¬row.Sufficient width →
        last.push row.1 row.2 = some (last, .error .corrupt)) ∧
      (∀ row : Row, (addedRows width height pushed).length < height → row.Sufficient width →
        ∃ next, last.push row.1 row.2 = some (next, .ok ())) ∧
      ((addedRows width height pushed).length ≠ height → last.finish = some (.error .corrupt)) ∧
      ((addedRows width height pushed).length = height →
        ∃ image isOpaque, last.finish = some (.ok (image, isOpaque)) ∧
          image.length = outWidth * outHeight ∧
          (isOpaque = true ↔ ∀ pixel ∈ image, pixel.alpha = 255) ∧
          ∀ column < outWidth, ∀ target < outHeight,
            ∃ pixel, image[target * outWidth + column]? = some pixel ∧
              pixel.IsMean
                (sumsOfBox width height outWidth outHeight (addedRows width height pushed) column
                  target)
                (box width height outWidth outHeight column target).card) := by
  refine ⟨fun x hx y hy => existsUnique_mem_box h hx hy,
    fun column hcolumn target htarget => box_nonempty h hcolumn htarget, ?_⟩
  obtain ⟨start, hnew, hstart⟩ := new_progress h
  have hzero : bin height outHeight (([] : List Row).length - 1) = 0 := bin_zero
  rw [← hzero] at hstart
  obtain ⟨last, results, hrun, hlast⟩ := pushAll_progress h pushed hstart (Nat.zero_le height)
  rw [List.nil_append, List.length_nil, Nat.sub_zero] at hlast
  have hadded : (addedRows width height pushed).length ≤ height := List.length_take_le _ _
  have hfinish := hlast.finish h hadded
  refine ⟨start, last, results, hnew, hrun, fun row => hlast.push_refused,
    fun row hlt hrow => ?_, fun hne => ?_, fun hcomplete => ?_⟩
  · obtain ⟨next, hpush, -⟩ := hlast.push h hlt hrow
    exact ⟨next, hpush⟩
  · rwa [if_neg hne] at hfinish
  · rw [if_pos hcomplete] at hfinish
    exact ⟨_, _, hfinish, length_table _ _, decide_eq_true_iff,
      fun column hcolumn target htarget => boxImage_isMean h hcomplete hcolumn htarget⟩

/-- A run with a short row and a row too many. -/
theorem downscale_is_box_filter_gray :
    Scalable 2 2 1 1 ∧ ∃ start last results image isOpaque,
      Downscaler.new 2 2 1 1 = some start ∧
      start.pushAll [([10, 20], .gray), ([30], .gray), ([30, 40], .gray), ([1, 1], .gray)] =
        some (last, results) ∧
      last.finish = some (.ok (image, isOpaque)) ∧ image.length = 1 := by
  have hsizes : Scalable 2 2 1 1 := by constructor <;> decide
  obtain ⟨-, -, start, last, results, hnew, hrun, -, -, -, hfinish⟩ :=
    downscale_is_box_filter hsizes
      [([10, 20], .gray), ([30], .gray), ([30, 40], .gray), ([1, 1], .gray)]
  obtain ⟨image, isOpaque, hfinish, hlength, -⟩ := hfinish (by decide)
  exact ⟨hsizes, start, last, results, image, isOpaque, hnew, hrun, hfinish, hlength⟩

/-! ### White images -/

/-- The row of a white image. -/
def whiteRow (width : ℕ) : Row := (List.replicate width 255, .gray)

/-- The only sums of a one-pixel output after some white rows. -/
structure Downscaler.White (width height rows : ℕ) (state : Downscaler) : Prop where
  sourceWidth : state.sourceWidth = width
  sourceHeight : state.sourceHeight = height
  outHeight : state.outHeight = 1
  column : state.column = List.replicate width 0
  currentRow : state.currentRow = 0
  rowsSeen : state.rowsSeen = rows
  sums : ∃ sums : Sums, state.sums = [sums] ∧ sums.red = 255 * 255 * (width * rows) ∧
    sums.red ≤ maxOfBits 64

/-- A white pixel that is added adds to the red sum, which fits 64 bits. -/
theorem addPixel_white {before : Sums} {next : List Sums}
    (h : Downscaler.addPixel .gray [before] ([255], 0) = some next) :
    ∃ after : Sums, next = [after] ∧ after.red = before.red + 255 * 255 ∧
      after.red ≤ maxOfBits 64 := by
  have hweight : (Rgba.weighted ⟨255, 255, 255, 255⟩).red = 255 * 255 := by
    rw [Rgba.weighted, show (255 : UInt8).toNat = 255 from rfl]
  unfold Downscaler.addPixel at h
  obtain ⟨pixel, hpixel, h⟩ := Option.bind_eq_some_iff.mp h
  obtain rfl := Option.some.inj hpixel
  obtain ⟨read, hread, h⟩ := Option.bind_eq_some_iff.mp h
  obtain rfl := Option.some.inj hread
  obtain ⟨after, hadd, hnext⟩ := Option.bind_eq_some_iff.mp h
  unfold Sums.checkedAdd at hadd
  obtain ⟨red, hred, hrest⟩ := Option.bind_eq_some_iff.mp hadd
  obtain ⟨hle, rfl⟩ := checked_eq_some_iff.mp hred
  obtain ⟨green, -, hrest⟩ := Option.bind_eq_some_iff.mp hrest
  obtain ⟨blue, -, hrest⟩ := Option.bind_eq_some_iff.mp hrest
  obtain ⟨alpha, -, hrest⟩ := Option.bind_eq_some_iff.mp hrest
  obtain rfl := Option.some.inj hrest
  rw [hweight] at hle
  exact ⟨_, (Option.some.inj hnext).symm, congrArg (before.red + ·) hweight, by rwa [hweight]⟩

theorem foldlM_white {n : ℕ} {before : Sums} {next : List Sums} (hfits : before.red ≤ maxOfBits 64)
    (h : (List.replicate n (([255] : List UInt8), 0)).foldlM (Downscaler.addPixel .gray) [before] =
      some next) :
    ∃ after : Sums, next = [after] ∧ after.red = before.red + 255 * 255 * n ∧
      after.red ≤ maxOfBits 64 := by
  induction n generalizing before with
  | zero => exact ⟨before, (Option.some.inj h).symm, rfl, hfits⟩
  | succ n ih =>
    rw [List.replicate_succ, List.foldlM_cons] at h
    obtain ⟨middle, hmiddle, hrest⟩ := Option.bind_eq_some_iff.mp h
    obtain ⟨sums, rfl, hred, hle⟩ := addPixel_white hmiddle
    obtain ⟨after, rfl, hafter, hfits⟩ := ih hle hrest
    exact ⟨after, rfl, by omega, hfits⟩

/-- The chunks of a white row and their columns. -/
theorem zip_whiteRow (width : ℕ) :
    (table ((whiteRow width).1.length / 1) (block 1 (whiteRow width).1)).zip
      (List.replicate width 0) = List.replicate width (([255] : List UInt8), 0) := by
  rw [whiteRow, List.length_replicate, Nat.div_one, replicate_eq_table (0 : ℕ), zip_table, Nat.min_self,
    replicate_eq_table (([255] : List UInt8), 0)]
  refine table_congr fun x hx => ?_
  rw [block, List.drop_replicate, List.take_replicate, min_eq_left (by omega)]
  rfl

/-- A white row that is added. -/
theorem Downscaler.White.push {width height rows : ℕ} {self next : Downscaler}
    {result : Except ThumbnailError Unit} (hself : self.White width height rows)
    (hrows : rows < height) (h : self.push (whiteRow width).1 (whiteRow width).2 = some (next, result)) :
    next.White width height (rows + 1) := by
  obtain ⟨sums, hsums, hred, hfits⟩ := hself.sums
  have haccepted : ¬(self.rowsSeen ≥ self.sourceHeight ∨
      (whiteRow width).1.length < self.sourceWidth * (whiteRow width).2.channels) := by
    rw [hself.rowsSeen, hself.sourceHeight, hself.sourceWidth, whiteRow, List.length_replicate]
    change ¬(rows ≥ height ∨ width < width * 1)
    omega
  rw [Downscaler.push, if_neg haccepted, hself.rowsSeen, hself.outHeight, hself.sourceHeight] at h
  obtain ⟨product, hproduct, h⟩ := Option.bind_eq_some_iff.mp h
  obtain ⟨-, rfl⟩ := checked_eq_some_iff.mp hproduct
  rw [checkedDiv_of_pos (by omega), Nat.mul_one, Nat.div_eq_of_lt hrows] at h
  change self.moveTo 0 >>= _ = _ at h
  rw [Downscaler.moveTo, if_neg (not_not.mpr hself.currentRow.symm)] at h
  change List.foldlM (m := Option) _ _ _ >>= _ = _ at h
  obtain ⟨all, hall, h⟩ := Option.bind_eq_some_iff.mp h
  rw [hself.column, hsums] at hall
  change List.foldlM (Downscaler.addPixel .gray) [sums]
    ((table ((whiteRow width).1.length / 1) (block 1 (whiteRow width).1)).zip _) = _ at hall
  rw [zip_whiteRow] at hall
  obtain ⟨after, rfl, hafter, hle⟩ := foldlM_white hfits hall
  obtain ⟨rowsInCurrent, -, h⟩ := Option.bind_eq_some_iff.mp h
  obtain ⟨rowsSeen, hseen, h⟩ := Option.bind_eq_some_iff.mp h
  obtain ⟨-, rfl⟩ := checked_eq_some_iff.mp hseen
  obtain ⟨rfl, -⟩ := Prod.mk.inj (Option.some.inj h)
  exact ⟨hself.sourceWidth, hself.sourceHeight, hself.outHeight, hself.column, hself.currentRow,
    congrArg (· + 1) hself.rowsSeen, after, rfl, by rw [hafter, hred, Nat.mul_succ width, Nat.mul_add], hle⟩

theorem pushAll_white {width height rows n : ℕ} {self last : Downscaler}
    {results : List (Except ThumbnailError Unit)} (hself : self.White width height rows)
    (hrows : rows + n ≤ height)
    (h : self.pushAll (List.replicate n (whiteRow width)) = some (last, results)) :
    last.White width height (rows + n) := by
  induction n generalizing self rows results with
  | zero =>
    obtain ⟨rfl, -⟩ := Prod.mk.inj (Option.some.inj h)
    exact hself
  | succ n ih =>
    rw [List.replicate_succ] at h
    obtain ⟨⟨next, result⟩, hpush, h⟩ := Option.bind_eq_some_iff.mp h
    obtain ⟨⟨final, rest⟩, hrest, h⟩ := Option.bind_eq_some_iff.mp h
    obtain ⟨rfl, -⟩ := Prod.mk.inj (Option.some.inj h)
    have := ih (hself.push (by omega) hpush) (by omega) hrest
    rwa [Nat.add_assoc, Nat.add_comm 1] at this

/-- A white image with more pixels than the sums can hold does not get through. -/
theorem white_overflows {width height : ℕ} (hwidth : 1 ≤ width) (hwidthMax : width ≤ maxOfBits 32)
    (hsum : maxOfBits 64 < 255 * 255 * (width * height)) :
    ((Downscaler.new width height 1 1).bind fun start =>
      start.pushAll (List.replicate height (whiteRow width))) = none := by
  refine Option.eq_none_iff_forall_ne_some.mpr fun outcome houtcome => ?_
  obtain ⟨start, hnew, hpush⟩ := Option.bind_eq_some_iff.mp houtcome
  have hstart : start.White width height 0 := by
    have hmax : maxOfBits 64 = 18446744073709551615 := rfl
    have hmax32 : maxOfBits 32 = 4294967295 := rfl
    have hcolumn : ((List.range width).mapM fun x => do
        let product ← checked (maxOfBits 64) (x * 1)
        let target ← checkedDiv product width
        checked (maxOfBits 32) target) = some (table width fun _ => 0) := by
      refine mapM_range fun x hx => ?_
      rw [Nat.mul_one, checked_of_le (by omega)]
      change (checkedDiv x width >>= _) = _
      rw [checkedDiv_of_pos hwidth, Nat.div_eq_of_lt hx]
      rfl
    rw [Downscaler.new, hcolumn] at hnew
    obtain ⟨column, hread, hnew⟩ := Option.bind_eq_some_iff.mp hnew
    obtain rfl := Option.some.inj hread
    obtain ⟨columnCount, -, hnew⟩ := Option.bind_eq_some_iff.mp hnew
    obtain ⟨stride, -, hnew⟩ := Option.bind_eq_some_iff.mp hnew
    obtain ⟨area, -, hnew⟩ := Option.bind_eq_some_iff.mp hnew
    obtain ⟨bytes, -, hnew⟩ := Option.bind_eq_some_iff.mp hnew
    obtain rfl := Option.some.inj hnew
    exact ⟨rfl, rfl, rfl, (replicate_eq_table 0).symm, rfl, rfl, Sums.zero, rfl, rfl, Nat.zero_le _⟩
  obtain ⟨sums, -, hred, hfits⟩ := (pushAll_white hstart (by omega) hpush).sums
  rw [Nat.zero_add] at hred
  omega

/-- The largest sizes do not get through, however small the output is. -/
theorem downscale_overflows :
    (∀ row ∈ List.replicate (maxOfBits 32) (whiteRow (maxOfBits 32)),
      Row.Sufficient row (maxOfBits 32)) ∧
    ((Downscaler.new (maxOfBits 32) (maxOfBits 32) 1 1).bind fun start =>
      start.pushAll (List.replicate (maxOfBits 32) (whiteRow (maxOfBits 32)))) = none := by
  refine ⟨fun row hrow => ?_, white_overflows (by decide) le_rfl (by decide)⟩
  rw [List.eq_of_mem_replicate hrow, Row.Sufficient, whiteRow, List.length_replicate]
  exact (Nat.mul_one _).le

end Crabinet.Thumbnail
