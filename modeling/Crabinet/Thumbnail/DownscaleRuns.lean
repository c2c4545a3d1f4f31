import Crabinet.Thumbnail.BoxFilter

/-!
# Runs of the downscaler

After any rows, the sums are those of the part of the current output row that the rows cover, the
output rows before it are means of their boxes, and nothing has overflowed.
-/

namespace Crabinet.Thumbnail

open Crabinet.Library

variable {width height outWidth outHeight : ℕ}

/-! ### Pixels -/

theorem inkChannel_isSome (value key : UInt8) : ∃ channel, inkChannel value key = some channel := by
  have hproduct : value.toNat * key.toNat ≤ 255 * 255 :=
    Nat.mul_le_mul (Nat.le_of_lt_succ value.toNat_lt) (Nat.le_of_lt_succ key.toNat_lt)
  have hmax : maxOfBits 16 = 65535 := rfl
  refine ⟨UInt8.ofNat ((value.toNat * key.toNat + 127) / 255), ?_⟩
  rw [inkChannel, checked_of_le (by omega)]
  exact checkedByte_of_lt (by omega)

/-- A chunk of as many bytes as the layout has channels is a pixel. -/
theorem Layout.pixel_isSome {layout : Layout} {chunk : List UInt8}
    (h : chunk.length = layout.channels) : ∃ pixel, layout.pixel chunk = some pixel := by
  cases layout with
  | gray =>
    obtain ⟨value, rfl⟩ := List.length_eq_one_iff.mp h
    exact ⟨_, rfl⟩
  | grayAlpha =>
    obtain ⟨value, alpha, rfl⟩ := List.length_eq_two.mp h
    exact ⟨_, rfl⟩
  | rgb =>
    obtain ⟨red, green, blue, rfl⟩ := List.length_eq_three.mp h
    exact ⟨_, rfl⟩
  | rgba =>
    match chunk, h with
    | [red, green, blue, alpha], _ => exact ⟨_, rfl⟩
  | cmyk =>
    match chunk, h with
    | [cyan, magenta, yellow, key], _ =>
      obtain ⟨red, hred⟩ := inkChannel_isSome cyan key
      obtain ⟨green, hgreen⟩ := inkChannel_isSome magenta key
      obtain ⟨blue, hblue⟩ := inkChannel_isSome yellow key
      refine ⟨⟨red, green, blue, 255⟩, ?_⟩
      rw [pixel, hred, hgreen, hblue]
      rfl

/-- Every column of a row that is long enough has its pixel. -/
theorem Row.pixel_eq {row : Row} (h : row.Sufficient width) {x : ℕ} (hx : x < width) :
    row.2.pixel (block row.2.channels row.1 x) = some (row.pixelAt x) := by
  have hend : x * row.2.channels + row.2.channels ≤ row.1.length := by
    refine le_trans ?_ h
    rw [← Nat.succ_mul]
    exact Nat.mul_le_mul_right _ hx
  obtain ⟨pixel, hpixel⟩ := Layout.pixel_isSome (length_block hend)
  rw [Row.pixelAt, hpixel]
  rfl

/-! ### Adding a row -/

/-- A row adds to each sum what lies in its column. -/
theorem foldlM_addPixel (h : Scalable width height outWidth outHeight) {row : Row}
    (hrow : row.Sufficient width) (before : ℕ → Sums) {n : ℕ}
    (hbefore : ∀ column < outWidth, (before column).Within n) (hn : n + width ≤ 2 ^ 48) :
    ((table (row.1.length / row.2.channels) (block row.2.channels row.1)).zip
        (table width (bin width outWidth))).foldlM (Downscaler.addPixel row.2)
        (table outWidth before) =
      some (table outWidth fun column => before column + rowSums width outWidth row column) := by
  have hchannels : 0 < row.2.channels := by cases row.2 <;> decide
  have hcount : width ≤ row.1.length / row.2.channels := (Nat.le_div_iff_mul_le hchannels).mpr hrow
  rw [zip_table, min_eq_right hcount]
  have hloop := foldlM_table (n := width)
    (fun x => (block row.2.channels row.1 x, bin width outWidth x)) (Downscaler.addPixel row.2)
    (fun count sums => sums = table outWidth fun column => before column +
      ∑ x ∈ Finset.range count,
        if bin width outWidth x = column then (row.pixelAt x).weighted else 0)
    (table outWidth before) ?_ ?_
  · obtain ⟨last, hlast, rfl⟩ := hloop
    exact hlast
  · refine table_congr fun column _ => ?_
    rw [Finset.sum_range_zero, add_zero]
  · rintro count _ hcount rfl
    have htarget := bin_lt h.outWidth_pos hcount
    have hwithin : (before (bin width outWidth count) + (∑ x ∈ Finset.range count,
        if bin width outWidth x = bin width outWidth count then (row.pixelAt x).weighted else 0) +
          (row.pixelAt count).weighted).Within (n + width) := by
      refine (((hbefore _ htarget).add (Sums.within_sum (n := fun _ => 1) fun x _ => ?_)).add
        (Sums.within_weighted _)).mono ?_
      · split
        · exact Sums.within_weighted _
        · exact Sums.within_zero _
      · rw [← Finset.card_eq_sum_ones, Finset.card_range]
        omega
    refine ⟨_, ?_, rfl⟩
    rw [Downscaler.addPixel, Row.pixel_eq hrow hcount]
    change ((table outWidth _)[bin width outWidth count]? >>= _) = _
    rw [getElem?_table htarget]
    change ((Sums.checkedAdd _ _) >>= _) = _
    rw [hwithin.checkedAdd hn]
    change some (List.set _ _ _) = _
    rw [set_table]
    refine congrArg some (table_congr fun column _ => ?_)
    rw [Finset.sum_range_succ]
    by_cases heq : column = bin width outWidth count
    · subst heq
      rw [Function.update_self, if_pos rfl, add_assoc]
    · rw [Function.update_of_ne heq, if_neg (Ne.symm heq), add_zero]

/-! ### Dividing the sums -/

theorem roundedByte_eq {total count : ℕ} (hcount : 0 < count) (htotal : total ≤ 255 * count)
    (hfits : 256 * count ≤ 2 ^ 64) :
    roundedByte total count = some (UInt8.ofNat (roundedMean total count)) := by
  have hmax : maxOfBits 64 = 18446744073709551615 := rfl
  rw [roundedByte, checked_of_le (by omega)]
  change (checkedDiv _ count >>= _) = _
  rw [checkedDiv_of_pos hcount]
  refine checkedByte_of_lt (Nat.div_lt_of_lt_mul ?_)
  omega

/-- The sums of so many pixels are divided without a loss. -/
theorem Sums.pixel_eq {sums : Sums} {count : ℕ} (h : sums.Within count) (hcount : count ≤ 2 ^ 48) :
    sums.pixel count = some (meanPixel sums count) := by
  obtain ⟨hred, hgreen, hblue, halpha⟩ := h
  unfold Sums.pixel meanPixel
  by_cases hzero : sums.alpha = 0
  · rw [if_pos (.inl hzero), if_pos hzero]
  · have hpos : 0 < sums.alpha := Nat.pos_of_ne_zero hzero
    have hfits : 256 * sums.alpha ≤ 2 ^ 64 := by omega
    rw [if_neg (by omega), if_neg hzero, roundedByte_eq hpos hred hfits,
      roundedByte_eq hpos hgreen hfits, roundedByte_eq hpos hblue hfits,
      roundedByte_eq (by omega) halpha (by omega)]
    rfl

/-- The index of a pixel tells its row and its column. -/
theorem index_eq_iff {w index row column : ℕ} (hcolumn : column < w) :
    row * w + column = index ↔ index / w = row ∧ index % w = column := by
  have hdivide := Nat.div_add_mod index w
  constructor
  · rintro rfl
    rw [Nat.mul_comm, Nat.mul_add_div (Nat.zero_lt_of_lt hcolumn), Nat.div_eq_of_lt hcolumn,
      Nat.mul_add_mod, Nat.mod_eq_of_lt hcolumn]
    exact ⟨rfl, rfl⟩
  · rintro ⟨rfl, rfl⟩
    rwa [Nat.mul_comm]

section Flush

variable {self : Downscaler} {sums : ℕ → Sums} {counts : ℕ → ℕ} {pixels : ℕ → Rgba}

/-- The state of `flush` after some columns. -/
def flushed (self : Downscaler) (sums : ℕ → Sums) (mean pixels : ℕ → Rgba) (area bound : ℕ) :
    Downscaler :=
  { self with
    sums := table self.outWidth fun column => if column < bound then 0 else sums column
    output := table area fun index =>
      if index / self.outWidth = self.currentRow ∧ index % self.outWidth < bound then
        mean (index % self.outWidth)
      else pixels index
    opaqueSoFar := self.opaqueSoFar && decide (∀ column < bound, (mean column).alpha = 255) }

/-- One column of `flush`. -/
theorem flushColumn_flushed {mean : ℕ → Rgba} {area column : ℕ}
    (hmean : mean column = meanPixel (sums column) (counts column * self.rowsInCurrent))
    (hcounts : self.columnCount = table self.outWidth counts)
    (harea : self.currentRow * self.outWidth + column < area) (hcolumn : column < self.outWidth)
    (hwithin : (sums column).Within (counts column * self.rowsInCurrent))
    (hfits : counts column * self.rowsInCurrent ≤ 2 ^ 48) :
    (flushed self sums mean pixels area column).flushColumn column =
      some (flushed self sums mean pixels area (column + 1)) := by
  have hmax : maxOfBits 64 = 18446744073709551615 := rfl
  have hread : (flushed self sums mean pixels area column).sums[column]? = some (sums column) := by
    refine (getElem?_table hcolumn).trans ?_
    rw [if_neg (Nat.lt_irrefl column)]
  unfold Downscaler.flushColumn
  rw [hread]
  change (self.columnCount[column]? >>= _) = _
  rw [hcounts, getElem?_table hcolumn]
  change (checked _ (counts column * self.rowsInCurrent) >>= _) = _
  rw [checked_of_le (by omega)]
  change ((table area _)[self.currentRow * self.outWidth + column]? >>= _) = _
  rw [getElem?_table harea]
  change ((sums column).pixel (counts column * self.rowsInCurrent) >>= _) = _
  rw [Sums.pixel_eq hwithin hfits, ← hmean]
  have hsums : (table self.outWidth fun other => if other < column then 0 else sums other).set column
      Sums.zero = table self.outWidth fun other => if other < column + 1 then 0 else sums other := by
    rw [set_table]
    refine table_congr fun other _ => ?_
    by_cases heq : other = column
    · rw [heq, Function.update_self, if_pos (Nat.lt_succ_self column)]
      rfl
    · rw [Function.update_of_ne heq]
      exact if_congr (by omega) rfl rfl
  have houtput : (table area fun index =>
      if index / self.outWidth = self.currentRow ∧ index % self.outWidth < column then
        mean (index % self.outWidth)
      else pixels index).set (self.currentRow * self.outWidth + column) (mean column) =
        table area fun index =>
          if index / self.outWidth = self.currentRow ∧ index % self.outWidth < column + 1 then
            mean (index % self.outWidth)
          else pixels index := by
    rw [set_table]
    refine table_congr fun index _ => ?_
    by_cases heq : index = self.currentRow * self.outWidth + column
    · obtain ⟨hrow, hindex⟩ := (index_eq_iff hcolumn).mp heq.symm
      rw [heq, Function.update_self, ← heq, if_pos ⟨hrow, by omega⟩, hindex]
    · have hne : ¬(index / self.outWidth = self.currentRow ∧ index % self.outWidth = column) :=
        fun h => heq ((index_eq_iff hcolumn).mpr h).symm
      rw [Function.update_of_ne heq]
      exact if_congr (by omega) rfl rfl
  have hopaque :
      (if (sums column).alpha = 0 ∨ counts column * self.rowsInCurrent = 0 then false
        else (self.opaqueSoFar && decide (∀ other < column, (mean other).alpha = 255)) &&
          (mean column).alpha == 255) =
        (self.opaqueSoFar && decide (∀ other < column + 1, (mean other).alpha = 255)) := by
    have hsplit : (∀ other < column + 1, (mean other).alpha = 255) ↔
        (∀ other < column, (mean other).alpha = 255) ∧ (mean column).alpha = 255 :=
      Nat.forall_lt_succ_right
    split
    · rename_i hzero
      have hnone : (sums column).alpha = 0 := by
        have := hwithin.alpha_le
        rcases hzero with hzero | hzero
        · exact hzero
        · rw [hzero] at this
          omega
      have hmean : (mean column).alpha ≠ 255 := by
        rw [hmean, meanPixel, if_pos hnone]
        decide
      rw [decide_eq_false fun h => hmean (hsplit.mp h).2, Bool.and_false]
    · rw [Bool.and_assoc]
      congr 1
      rw [Bool.eq_iff_iff, Bool.and_eq_true, decide_eq_true_eq, decide_eq_true_eq, beq_iff_eq, hsplit]
  unfold flushed
  dsimp only
  rw [← hsums, ← houtput, ← hopaque]
  rfl

/-- `flush` divides every sum of the current row and starts again. -/
theorem flush_eq {area : ℕ} (hrows : self.rowsInCurrent ≠ 0)
    (hsums : self.sums = table self.outWidth sums)
    (hcounts : self.columnCount = table self.outWidth counts)
    (houtput : self.output = table area pixels)
    (harea : self.currentRow * self.outWidth + self.outWidth ≤ area)
    (hwithin : ∀ column < self.outWidth,
      (sums column).Within (counts column * self.rowsInCurrent))
    (hfits : ∀ column < self.outWidth, counts column * self.rowsInCurrent ≤ 2 ^ 48) :
    self.flush =
      some { flushed self sums
          (fun column => meanPixel (sums column) (counts column * self.rowsInCurrent)) pixels area
          self.outWidth with rowsInCurrent := 0 } := by
  have hloop := foldlM_table (n := self.outWidth) id Downscaler.flushColumn
    (fun count state => state = flushed self sums
      (fun column => meanPixel (sums column) (counts column * self.rowsInCurrent)) pixels area count)
    self ?_ ?_
  · obtain ⟨last, hlast, rfl⟩ := hloop
    rw [table, List.map_id] at hlast
    rw [Downscaler.flush, if_neg hrows, hlast]
    rfl
  · have hstart : flushed self sums
        (fun column => meanPixel (sums column) (counts column * self.rowsInCurrent)) pixels area 0 =
          { self with
            sums := table self.outWidth sums
            output := table area pixels
            opaqueSoFar := self.opaqueSoFar && true } := by
      unfold flushed
      simp only [Nat.not_lt_zero, and_false, if_false, false_implies, implies_true, decide_true]
    rw [hstart, Bool.and_true, ← hsums, ← houtput]
  · rintro count _ hcount rfl
    exact ⟨_, flushColumn_flushed rfl hcounts (by omega) hcount (hwithin count hcount)
      (hfits count hcount), rfl⟩

end Flush

/-! ### Progress -/

section Spec

variable (width height outWidth outHeight : ℕ) (rows : List Row)

/-- The output pixel of a box, as far as the rows cover it. -/
def boxPixel (column target : ℕ) : Rgba :=
  meanPixel (boxSums width height outWidth outHeight rows column target)
    (boxCount width height outWidth outHeight rows column target)

/-- The output pixels of the rows before one. -/
def doneUntil (current index : ℕ) : Rgba :=
  if index / outWidth < current then
    boxPixel width height outWidth outHeight rows (index % outWidth) (index / outWidth)
  else ⟨0, 0, 0, 0⟩

/-- Every pixel before a row is opaque. -/
def OpaqueUntil (current : ℕ) : Prop :=
  ∀ target < current, ∀ column < outWidth,
    (boxPixel width height outWidth outHeight rows column target).alpha = 255

instance (current : ℕ) : Decidable (OpaqueUntil width height outWidth outHeight rows current) :=
  inferInstanceAs (Decidable (∀ target < current, ∀ column < outWidth, _ = _))

/-- The downscaler has added these rows and is at a row of the output. -/
structure Downscaler.Progress (current : ℕ) (state : Downscaler) : Prop where
  sourceWidth_eq : state.sourceWidth = width
  sourceHeight_eq : state.sourceHeight = height
  outWidth_eq : state.outWidth = outWidth
  outHeight_eq : state.outHeight = outHeight
  column : state.column = table width (bin width outWidth)
  columnCount : state.columnCount = table outWidth (binCount width outWidth width)
  rowsSeen : state.rowsSeen = rows.length
  currentRow : state.currentRow = current
  rowsInCurrent : state.rowsInCurrent = binCount height outHeight rows.length current
  sums : state.sums = table outWidth fun column =>
    boxSums width height outWidth outHeight rows column current
  output : state.output =
    table (outWidth * outHeight) (doneUntil width height outWidth outHeight rows current)
  opaqueSoFar : state.opaqueSoFar = decide (OpaqueUntil width height outWidth outHeight rows current)

end Spec

variable {rows : List Row} {row : Row} {self : Downscaler} {current : ℕ}

/-- Rows of later boxes leave a box as it is. -/
theorem boxPixel_append {column target : ℕ}
    (h : target < bin height outHeight rows.length) :
    boxPixel width height outWidth outHeight (rows ++ [row]) column target =
      boxPixel width height outWidth outHeight rows column target := by
  unfold boxPixel boxCount
  rw [boxSums_append, if_neg h.ne', add_zero, List.length_append, List.length_singleton,
    binCount_succ, if_neg h.ne', Nat.add_zero]

/-- Nothing is added yet. -/
theorem new_progress (h : Scalable width height outWidth outHeight) :
    ∃ start, Downscaler.new width height outWidth outHeight = some start ∧
      start.Progress width height outWidth outHeight [] 0 := by
  have hwidth := h.outWidth_le
  have hheight := h.outHeight_le
  have hwidthMax := h.width_le
  have hmax : maxOfBits 64 = 18446744073709551615 := rfl
  have hmax32 : maxOfBits 32 = 4294967295 := rfl
  have harea : outWidth * outHeight ≤ 2 ^ 48 := (Nat.mul_le_mul hwidth hheight).trans h.area_le
  have hcolumn : ((List.range width).mapM fun x => do
      let product ← checked (maxOfBits 64) (x * outWidth)
      let target ← checkedDiv product width
      checked (maxOfBits 32) target) = some (table width (bin width outWidth)) := by
    refine mapM_range fun x hx => ?_
    have hproduct : x * outWidth ≤ 4294967295 * 4294967295 := Nat.mul_le_mul (by omega) (by omega)
    rw [checked_of_le (by omega)]
    change (checkedDiv _ width >>= _) = _
    rw [checkedDiv_of_pos (Nat.zero_lt_of_lt hx)]
    exact checked_of_le (((bin_lt h.outWidth_pos hx).le.trans hwidth).trans hwidthMax)
  have hloop := foldlM_table (n := width) (bin width outWidth)
    (fun (counts : List ℕ) target => do
      let count ← counts[target]?
      let count ← checked (maxOfBits 32) (count + 1)
      return counts.set target count)
    (fun count counts => counts = table outWidth (binCount width outWidth count))
    (List.replicate outWidth 0) (replicate_eq_table 0) ?_
  · obtain ⟨columnCount, hcounts, rfl⟩ := hloop
    refine ⟨.start width height outWidth outHeight (table width (bin width outWidth))
      (table outWidth (binCount width outWidth width)) (outWidth * outHeight), ?_, ?_⟩
    · rw [Downscaler.new, hcolumn]
      change (List.foldlM (m := Option) _ _ _ >>= _) = _
      rw [hcounts]
      change (checked _ (outWidth * 4) >>= _) = _
      rw [checked_of_le (by omega)]
      change (checked _ (outWidth * outHeight) >>= _) = _
      rw [checked_of_le (by omega)]
      change (checked _ (outWidth * outHeight * 4) >>= _) = _
      rw [checked_of_le (by omega)]
      rfl
    · refine ⟨rfl, rfl, rfl, rfl, rfl, rfl, rfl, rfl, rfl, replicate_eq_table _, ?_, rfl⟩
      refine (replicate_eq_table _).trans (table_congr fun index _ => ?_)
      exact (if_neg (Nat.not_lt_zero _)).symm
  · rintro count _ hcount rfl
    have hlt := bin_lt h.outWidth_pos hcount
    have hle := binCount_le width outWidth count (bin width outWidth count)
    refine ⟨_, ?_, rfl⟩
    rw [getElem?_table hlt]
    change (checked _ (binCount width outWidth count (bin width outWidth count) + 1) >>= _) = _
    rw [checked_of_le (by omega)]
    change some (List.set _ _ _) = _
    rw [set_table]
    refine congrArg some (table_congr fun column _ => ?_)
    rw [binCount_succ]
    by_cases heq : column = bin width outWidth count
    · rw [heq, Function.update_self, if_pos rfl]
    · rw [Function.update_of_ne heq, if_neg (Ne.symm heq), Nat.add_zero]

/-- The boxes of a row are done once it is divided. -/
theorem doneUntil_succ (current index : ℕ) :
    doneUntil width height outWidth outHeight rows (current + 1) index =
      if index / outWidth = current then
        boxPixel width height outWidth outHeight rows (index % outWidth) current
      else doneUntil width height outWidth outHeight rows current index := by
  unfold doneUntil
  by_cases heq : index / outWidth = current
  · rw [if_pos heq, if_pos (by omega), heq]
  · rw [if_neg heq]
    exact if_congr (by omega) rfl rfl

theorem opaqueUntil_succ (current : ℕ) :
    OpaqueUntil width height outWidth outHeight rows (current + 1) ↔
      OpaqueUntil width height outWidth outHeight rows current ∧ ∀ column < outWidth,
        (boxPixel width height outWidth outHeight rows column current).alpha = 255 :=
  Nat.forall_lt_succ_right

/-- `flush` finishes the current row. -/
theorem Downscaler.Progress.flush (h : Scalable width height outWidth outHeight)
    (hself : self.Progress width height outWidth outHeight rows current)
    (hrows : rows.length ≤ height) (hcurrent : current < outHeight)
    (hnonempty : 0 < binCount height outHeight rows.length current)
    (hlast : ∀ y < rows.length, bin height outHeight y ≤ current) :
    ∃ next, self.flush = some next ∧
      { next with currentRow := current + 1 }.Progress width height outWidth outHeight rows
        (current + 1) := by
  obtain ⟨hsourceWidth, hsourceHeight, hwidth, hheight, hcolumn, hcount, hseen, hrow, hin, hsums,
    houtput, hopaque⟩ := hself
  subst hwidth
  have harea : self.currentRow * self.outWidth + self.outWidth ≤ self.outWidth * outHeight := by
    rw [hrow, ← Nat.succ_mul, Nat.mul_comm]
    exact Nat.mul_le_mul_left _ hcurrent
  have hboxes (column : ℕ) : binCount width self.outWidth width column * self.rowsInCurrent =
      boxCount width height self.outWidth outHeight rows column current := by
    rw [hin, boxCount]
  have hflush := flush_eq (by omega) hsums hcount houtput harea
    (fun column _ => by rw [hboxes]; exact within_boxSums)
    (fun column _ => by
      rw [hboxes]
      obtain ⟨hcount, hfits⟩ :
        boxCount width height self.outWidth outHeight rows column current ≤ width * rows.length ∧ _ :=
        boxCount_le h hrows
      exact hcount.trans hfits)
  refine ⟨_, hflush, hsourceWidth, hsourceHeight, rfl, hheight, hcolumn, hcount, hseen, rfl, ?_, ?_,
    ?_, ?_⟩
  · exact (binCount_eq_zero fun y hy => Nat.lt_succ_of_le (hlast y hy)).symm
  · refine table_congr fun column hindex => ?_
    rw [if_pos hindex, boxSums_eq_zero fun y hy => Nat.lt_succ_of_le (hlast y hy)]
  · refine table_congr fun index hindex => ?_
    have hmod : index % self.outWidth < self.outWidth :=
      Nat.mod_lt _ (Nat.pos_of_mul_pos_right (Nat.zero_lt_of_lt hindex))
    rw [doneUntil_succ, hrow]
    simp only [hmod, and_true, hboxes]
    rfl
  · refine (congrArg₂ (· && ·) hopaque rfl).trans ?_
    rw [← Bool.decide_and]
    refine decide_eq_decide.mpr ?_
    rw [opaqueUntil_succ]
    simp only [hboxes]
    exact Iff.rfl

/-- The rows so far do not reach beyond the output row of the last one. -/
theorem bin_le_last {y : ℕ} (hy : y < rows.length) :
    bin height outHeight y ≤ bin height outHeight (rows.length - 1) :=
  bin_mono (Nat.le_sub_one_of_lt hy)

/-- Before a row is added, the downscaler goes to its output row. -/
theorem Downscaler.Progress.moveTo (h : Scalable width height outWidth outHeight)
    (hself : self.Progress width height outWidth outHeight rows
      (bin height outHeight (rows.length - 1)))
    (hrows : rows.length < height) :
    ∃ next, self.moveTo (bin height outHeight rows.length) = some next ∧
      next.Progress width height outWidth outHeight rows (bin height outHeight rows.length) := by
  have hrow := hself.currentRow
  unfold Downscaler.moveTo
  by_cases heq : bin height outHeight rows.length = self.currentRow
  · rw [if_neg (not_not.mpr heq)]
    refine ⟨self, rfl, ?_⟩
    rwa [heq, hrow]
  · rw [if_pos heq]
    have hpos : 0 < rows.length := by
      refine Nat.pos_of_ne_zero fun hzero => heq ?_
      rw [hrow, hzero]
    have hle : bin height outHeight (rows.length - 1) ≤ bin height outHeight rows.length :=
      bin_mono (Nat.sub_le rows.length 1)
    have hsucc : bin height outHeight (rows.length - 1 + 1) ≤
        bin height outHeight (rows.length - 1) + 1 := bin_succ_le h.outHeight_le (by omega)
    rw [Nat.sub_add_cancel hpos] at hsucc
    have hnext : bin height outHeight rows.length =
        bin height outHeight (rows.length - 1) + 1 := by omega
    obtain ⟨next, hflush, hprogress⟩ := hself.flush h hrows.le
      (bin_lt h.outHeight_pos (by omega)) (binCount_pos (Nat.sub_lt hpos Nat.one_pos) rfl)
      fun y hy => bin_le_last hy
    refine ⟨_, ?_, hnext ▸ hprogress⟩
    rw [hflush, hnext]
    rfl

/-- A row that is long enough is added. -/
theorem Downscaler.Progress.push (h : Scalable width height outWidth outHeight)
    (hself : self.Progress width height outWidth outHeight rows
      (bin height outHeight (rows.length - 1)))
    (hrows : rows.length < height) (hrow : row.Sufficient width) :
    ∃ next, self.push row.1 row.2 = some (next, .ok ()) ∧
      next.Progress width height outWidth outHeight (rows ++ [row])
        (bin height outHeight rows.length) := by
  have hmax : maxOfBits 64 = 18446744073709551615 := rfl
  have hmax32 : maxOfBits 32 = 4294967295 := rfl
  have hheight := h.height_le
  have hout := h.outHeight_le
  have hproduct : rows.length * outHeight ≤ 4294967295 * 4294967295 :=
    Nat.mul_le_mul (by omega) (by omega)
  have htarget := bin_lt h.outHeight_pos hrows
  obtain ⟨next, hmove, hnext⟩ := hself.moveTo h hrows
  have hcount := binCount_le height outHeight rows.length (bin height outHeight rows.length)
  have hadd := foldlM_addPixel h hrow
    (fun column => boxSums width height outWidth outHeight rows column
      (bin height outHeight rows.length)) (n := width * rows.length)
    (fun column _ => within_boxSums.mono (boxCount_le h hrows.le).1) (by
      rw [← Nat.mul_succ]
      exact (Nat.mul_le_mul_left width hrows).trans h.area_le)
  have hrefused : ¬(self.rowsSeen ≥ self.sourceHeight ∨
      row.1.length < self.sourceWidth * row.2.channels) := by
    rw [hself.rowsSeen, hself.sourceHeight_eq, hself.sourceWidth_eq, not_or]
    exact ⟨Nat.not_le.mpr hrows, Nat.not_lt.mpr hrow⟩
  refine ⟨{ next with
    sums := table outWidth fun column =>
      boxSums width height outWidth outHeight rows column (bin height outHeight rows.length) +
        rowSums width outWidth row column
    rowsInCurrent := next.rowsInCurrent + 1
    rowsSeen := next.rowsSeen + 1 }, ?_, ?_⟩
  · rw [Downscaler.push, if_neg hrefused, hself.rowsSeen, hself.outHeight_eq, hself.sourceHeight_eq,
      checked_of_le (by omega)]
    change (checkedDiv _ height >>= _) = _
    rw [checkedDiv_of_pos (by omega)]
    change (checked _ (bin height outHeight rows.length) >>= _) = _
    rw [checked_of_le (by omega)]
    change (self.moveTo (bin height outHeight rows.length) >>= _) = _
    rw [hmove]
    change (List.foldlM (m := Option) _ _ _ >>= _) = _
    rw [hnext.column, hnext.sums, hadd]
    change (checked _ (next.rowsInCurrent + 1) >>= _) = _
    rw [checked_of_le (by rw [hnext.rowsInCurrent]; omega)]
    change (checked _ (next.rowsSeen + 1) >>= _) = _
    rw [checked_of_le (by rw [hnext.rowsSeen]; omega)]
    rfl
  · have hlength : (rows ++ [row]).length = rows.length + 1 := by simp
    refine ⟨hnext.sourceWidth_eq, hnext.sourceHeight_eq, hnext.outWidth_eq, hnext.outHeight_eq,
      hnext.column, hnext.columnCount, ?_, hnext.currentRow, ?_, ?_, ?_, ?_⟩
    · rw [hlength]
      exact congrArg (· + 1) hnext.rowsSeen
    · rw [hlength, binCount_succ, if_pos rfl]
      exact congrArg (· + 1) hnext.rowsInCurrent
    · refine table_congr fun column _ => ?_
      rw [boxSums_append, if_pos rfl]
    · refine hnext.output.trans (table_congr fun index _ => ?_)
      unfold doneUntil
      split
      · rename_i hbefore
        rw [boxPixel_append hbefore]
      · rfl
    · refine hnext.opaqueSoFar.trans (decide_eq_decide.mpr ?_)
      refine forall₂_congr fun target hbefore => ?_
      rw [forall₂_congr]
      intro column _
      rw [boxPixel_append hbefore]

/-- A row that is too short, or comes after the last one, leaves the downscaler as it is. -/
theorem Downscaler.Progress.push_refused
    (hself : self.Progress width height outWidth outHeight rows current)
    (hrow : height ≤ rows.length ∨ ¬row.Sufficient width) :
    self.push row.1 row.2 = some (self, .error .corrupt) := by
  rw [Downscaler.push, hself.rowsSeen, hself.sourceHeight_eq, hself.sourceWidth_eq, if_pos]
  exact hrow.imp_right Nat.lt_of_not_le

/-- Going on after the last row of an output ends the output. -/
theorem bin_last (h : Scalable width height outWidth outHeight) :
    bin height outHeight (height - 1) + 1 = outHeight := by
  have hpos := h.outHeight_pos
  have hheight := h.outHeight_le
  obtain ⟨y, hy, htarget⟩ := exists_bin_eq hheight (Nat.sub_lt hpos Nat.one_pos)
  have hle : bin height outHeight y ≤ bin height outHeight (height - 1) :=
    bin_mono (Nat.le_sub_one_of_lt hy)
  have hlt : bin height outHeight (height - 1) < outHeight := bin_lt hpos (by omega)
  omega

/-! ### Runs -/

/-- The rows of a run that are added: those that are long enough, until the image is complete. -/
def addedRows (width height : ℕ) (pushed : List Row) : List Row :=
  (pushed.filter fun row => decide (row.Sufficient width)).take height

/-- A run adds the rows that it should. -/
theorem pushAll_progress (h : Scalable width height outWidth outHeight) (pushed : List Row)
    (hself : self.Progress width height outWidth outHeight rows
      (bin height outHeight (rows.length - 1)))
    (hrows : rows.length ≤ height) :
    ∃ last results, self.pushAll pushed = some (last, results) ∧
      last.Progress width height outWidth outHeight
        (rows ++ addedRows width (height - rows.length) pushed)
        (bin height outHeight ((rows ++ addedRows width (height - rows.length) pushed).length - 1)) := by
  induction pushed generalizing self rows with
  | nil =>
    rw [addedRows, List.filter_nil, List.take_nil, List.append_nil]
    exact ⟨self, [], rfl, hself⟩
  | cons row rest ih =>
    by_cases hadd : rows.length < height ∧ row.Sufficient width
    · obtain ⟨hlt, hrow⟩ := hadd
      obtain ⟨next, hpush, hnext⟩ := hself.push h hlt hrow
      have hlength : (rows ++ [row]).length = rows.length + 1 := by simp
      replace hnext : next.Progress width height outWidth outHeight (rows ++ [row])
          (bin height outHeight ((rows ++ [row]).length - 1)) := by rwa [hlength]
      obtain ⟨last, results, hrun, hlast⟩ := ih hnext (by omega)
      have hadded : addedRows width (height - rows.length) (row :: rest) =
          row :: addedRows width (height - (rows ++ [row]).length) rest := by
        rw [addedRows, List.filter_cons_of_pos
          (p := fun row : Row => decide (row.Sufficient width)) (decide_eq_true hrow), hlength,
          show height - rows.length = height - (rows.length + 1) + 1 by omega]
        rfl
      rw [hadded, List.append_cons]
      refine ⟨last, .ok () :: results, ?_, hlast⟩
      rw [Downscaler.pushAll, hpush]
      change (next.pushAll rest >>= _) = _
      rw [hrun]
      rfl
    · have hrefused : height ≤ rows.length ∨ ¬row.Sufficient width := by
        rw [not_and_or, Nat.not_lt] at hadd
        exact hadd
      obtain ⟨last, results, hrun, hlast⟩ := ih hself hrows
      have hadded : addedRows width (height - rows.length) (row :: rest) =
          addedRows width (height - rows.length) rest := by
        rcases hrefused with hfull | hshort
        · rw [addedRows, addedRows, Nat.sub_eq_zero_of_le hfull, List.take_zero, List.take_zero]
        · rw [addedRows, List.filter_cons_of_neg
            (p := fun row : Row => decide (row.Sufficient width)) (by rwa [decide_eq_true_eq])]
          rfl
      rw [hadded]
      refine ⟨last, .error .corrupt :: results, ?_, hlast⟩
      rw [Downscaler.pushAll, hself.push_refused hrefused]
      change (self.pushAll rest >>= _) = _
      rw [hrun]
      rfl

/-- The image that a complete run ends with. -/
def boxImage (width height outWidth outHeight : ℕ) (rows : List Row) : List Rgba :=
  table (outWidth * outHeight) fun index =>
    boxPixel width height outWidth outHeight rows (index % outWidth) (index / outWidth)

theorem opaqueUntil_iff (houtWidth : 1 ≤ outWidth) :
    OpaqueUntil width height outWidth outHeight rows outHeight ↔
      ∀ pixel ∈ boxImage width height outWidth outHeight rows, pixel.alpha = 255 := by
  unfold boxImage table
  rw [List.forall_mem_map]
  constructor
  · intro hopaque index hindex
    exact hopaque _ (Nat.div_lt_of_lt_mul (List.mem_range.mp hindex)) _ (Nat.mod_lt _ houtWidth)
  · intro hopaque target htarget column hcolumn
    have hindex : target * outWidth + column < outWidth * outHeight := by
      rw [Nat.mul_comm outWidth]
      exact Nat.lt_of_lt_of_le (Nat.add_lt_add_left hcolumn _)
        (by rw [← Nat.succ_mul]; exact Nat.mul_le_mul_right _ htarget)
    obtain ⟨hdiv, hmod⟩ := (index_eq_iff hcolumn).mp (rfl : target * outWidth + column = _)
    have := hopaque _ (List.mem_range.mpr hindex)
    rwa [hdiv, hmod] at this

/-- `finish` divides what is left, and wants all rows. -/
theorem Downscaler.Progress.finish (h : Scalable width height outWidth outHeight)
    (hself : self.Progress width height outWidth outHeight rows
      (bin height outHeight (rows.length - 1)))
    (hrows : rows.length ≤ height) :
    self.finish = some (if rows.length = height then
      .ok (boxImage width height outWidth outHeight rows,
        decide (∀ pixel ∈ boxImage width height outWidth outHeight rows, pixel.alpha = 255))
      else .error .corrupt) := by
  have hheight : 0 < height := h.outHeight_pos.trans h.outHeight_le
  rcases Nat.eq_zero_or_pos rows.length with hzero | hpos
  · have hin : self.rowsInCurrent = 0 := by
      rw [hself.rowsInCurrent, hzero]
      rfl
    rw [Downscaler.finish, Downscaler.flush, if_pos hin, if_neg (by omega)]
    change some (if self.rowsSeen ≠ self.sourceHeight then _ else _) = _
    rw [if_pos (by rw [hself.rowsSeen, hself.sourceHeight_eq]; omega)]
  · obtain ⟨next, hflush, hnext⟩ := hself.flush h hrows (bin_lt h.outHeight_pos (by omega))
      (binCount_pos (Nat.sub_lt hpos Nat.one_pos) rfl) fun y hy => bin_le_last hy
    have hseen : next.rowsSeen = rows.length := hnext.rowsSeen
    have hsource : next.sourceHeight = height := hnext.sourceHeight_eq
    rw [Downscaler.finish, hflush]
    change some (if next.rowsSeen ≠ next.sourceHeight then _ else _) = _
    rw [hseen, hsource]
    by_cases hcomplete : rows.length = height
    · rw [if_neg (not_not.mpr hcomplete), if_pos hcomplete]
      have hout : bin height outHeight (rows.length - 1) + 1 = outHeight := by
        rw [hcomplete, bin_last h]
      rw [hout] at hnext
      have houtput : next.output = boxImage width height outWidth outHeight rows := by
        refine hnext.output.trans (table_congr fun index hindex => ?_)
        exact if_pos (Nat.div_lt_of_lt_mul hindex)
      have hopaque : next.opaqueSoFar = decide (∀ pixel ∈ boxImage width height outWidth outHeight
          rows, pixel.alpha = 255) :=
        hnext.opaqueSoFar.trans (decide_eq_decide.mpr (opaqueUntil_iff h.outWidth_pos))
      rw [houtput, hopaque]
    · rw [if_pos hcomplete, if_neg hcomplete]

end Crabinet.Thumbnail
