import Crabinet.Library.Blocks
import Mathlib.GroupTheory.SpecificGroups.Dihedral
import Mathlib.Order.Interval.Finset.Nat
import Mathlib.Data.List.Range

/-!
# EXIF orientations

An orientation says at which sides of the picture the first row and the first column of the
stored image lie. The eight of them are the symmetries of a rectangle and its transpose: a choice
whether the axes are swapped, and which axes are then mirrored.
-/

namespace Crabinet.Thumbnail

open Crabinet.Library

/-! ### The code -/

/-- The destination of a pixel, for the orientations 2 to 8. -/
def destination (w h orientation : ℕ) (x y : ℕ) : ℕ × ℕ :=
  match orientation with
  | 2 => (w - 1 - x, y)
  | 3 => (w - 1 - x, h - 1 - y)
  | 4 => (x, h - 1 - y)
  | 5 => (y, x)
  | 6 => (h - 1 - y, x)
  | 7 => (h - 1 - y, w - 1 - x)
  | _ => (y, w - 1 - x)

/-- The positions of an image, in the order of the two loops. -/
def positions (w h : ℕ) : List (ℕ × ℕ) :=
  (List.range h).flatMap fun y => (List.range w).map fun x => (x, y)

/-- `orient`, of an image of four bytes a pixel; `none` where a slice would be out of range. -/
def orient (rgba : List UInt8) (width height orientation : ℕ) : Option (List UInt8 × ℕ × ℕ) :=
  if ¬(2 ≤ orientation ∧ orientation ≤ 8) then some (rgba, width, height)
  else do
    let (newWidth, newHeight) := if orientation ≥ 5 then (height, width) else (width, height)
    let moves := (positions width height).map fun (x, y) =>
      let (dx, dy) := destination width height orientation x y
      (y * width + x, dy * newWidth + dx)
    let output ← moves.foldlM (copyBlock 4 rgba) (List.replicate rgba.length 0)
    return (output, newWidth, newHeight)

/-- The pixel in a column of a row of an image. -/
def pixel (rgba : List UInt8) (width x y : ℕ) : List UInt8 := block 4 rgba (y * width + x)

/-! ### What EXIF prescribes -/

/-- A side of a picture. -/
inductive Side where
  | top | bottom | left | right
deriving DecidableEq, Repr

/-- The sides of the picture at which the first row and the first column of the stored image are,
for the orientations 1 to 8. -/
def exifSides : ℕ → Side × Side
  | 1 => (.top, .left)
  | 2 => (.top, .right)
  | 3 => (.bottom, .right)
  | 4 => (.bottom, .left)
  | 5 => (.left, .top)
  | 6 => (.right, .top)
  | 7 => (.right, .bottom)
  | _ => (.left, .bottom)

namespace Side

/-- Whether a side is the left or the right one. -/
def isLateral : Side → Bool
  | top | bottom => false
  | left | right => true

/-- Whether positions are counted from the far end when they are counted from this side. -/
def isFar : Side → Bool
  | top | left => false
  | bottom | right => true

end Side

/-- A position counted from the other end. -/
def mirror (far : Bool) (length index : ℕ) : ℕ := if far then length - 1 - index else index

/-- The size of the picture of a stored image. -/
def exifSize (w h orientation : ℕ) : ℕ × ℕ :=
  if (exifSides orientation).1.isLateral then (h, w) else (w, h)

/-- The place in the picture of the pixel in column `x` of row `y` of the stored image: rows lie
beside each other where the first one is at a lateral side. -/
def exifPlace (w h orientation : ℕ) (x y : ℕ) : ℕ × ℕ :=
  let (rows, columns) := exifSides orientation
  if rows.isLateral then (mirror rows.isFar h y, mirror columns.isFar w x)
  else (mirror columns.isFar w x, mirror rows.isFar h y)

/-- The symmetry of a square that an orientation is: 6 is a quarter turn and 2 a reflection. -/
def symmetry : ℕ → DihedralGroup 4
  | 1 => .r 0
  | 6 => .r 1
  | 3 => .r 2
  | 8 => .r 3
  | 2 => .sr 0
  | 7 => .sr 1
  | 4 => .sr 2
  | _ => .sr 3

/-! ### Places -/

variable {w h x y a b c : ℕ} {first second : Bool}

theorem mirror_lt (hx : x < w) : mirror first w x < w := by
  unfold mirror
  split <;> omega

theorem mirror_mirror (hx : x < w) :
    mirror first w (mirror second w x) = mirror (first ^^ second) w x := by
  cases first <;> cases second <;> simp only [mirror, Bool.false_eq_true, if_false, if_true,
    Bool.xor_false, Bool.xor_true, Bool.not_false, Bool.not_true]
  omega

/-- What the product of two symmetries does to the rows and the columns. -/
theorem exifSides_mul : ∀ a ∈ Finset.Icc 1 8, ∀ b ∈ Finset.Icc 1 8, ∀ c ∈ Finset.Icc 1 8,
    symmetry a * symmetry b = symmetry c →
    (exifSides c).1.isLateral = ((exifSides a).1.isLateral ^^ (exifSides b).1.isLateral) ∧
      ((exifSides c).1.isFar, (exifSides c).2.isFar) =
        if (exifSides a).1.isLateral then
          ((exifSides b).2.isFar ^^ (exifSides a).1.isFar,
            (exifSides b).1.isFar ^^ (exifSides a).2.isFar)
        else
          ((exifSides b).1.isFar ^^ (exifSides a).1.isFar,
            (exifSides b).2.isFar ^^ (exifSides a).2.isFar) := by
  decide

/-- Every symmetry is that of exactly one orientation. -/
theorem symmetry_bijOn : Set.BijOn symmetry (Finset.Icc 1 8) Set.univ := by
  refine ⟨fun _ _ => trivial, ?_, fun g _ => ?_⟩
  · have h : ∀ a ∈ Finset.Icc 1 8, ∀ b ∈ Finset.Icc 1 8, symmetry a = symmetry b → a = b := by decide
    exact fun a ha b hb => h a ha b hb
  · have h : ∀ g : DihedralGroup 4, ∃ a ∈ Finset.Icc 1 8, symmetry a = g := by decide
    exact h g

/-- The places lie in the picture. -/
theorem exifPlace_lt (hx : x < w) (hy : y < h) :
    (exifPlace w h a x y).1 < (exifSize w h a).1 ∧ (exifPlace w h a x y).2 < (exifSize w h a).2 := by
  unfold exifPlace exifSize
  dsimp only
  split
  · exact ⟨mirror_lt hy, mirror_lt hx⟩
  · exact ⟨mirror_lt hx, mirror_lt hy⟩

/-- The size of a picture that is orientated twice. -/
theorem exifSize_mul (ha : a ∈ Finset.Icc 1 8) (hb : b ∈ Finset.Icc 1 8) (hc : c ∈ Finset.Icc 1 8)
    (hproduct : symmetry a * symmetry b = symmetry c) :
    exifSize (exifSize w h a).1 (exifSize w h a).2 b = exifSize w h c := by
  have hlateral := (exifSides_mul a ha b hb c hc hproduct).1
  unfold exifSize
  rw [hlateral]
  cases (exifSides a).1.isLateral <;> cases (exifSides b).1.isLateral <;> rfl

/-- Two orientations move a pixel as their product does. -/
theorem exifPlace_mul (ha : a ∈ Finset.Icc 1 8) (hb : b ∈ Finset.Icc 1 8)
    (hc : c ∈ Finset.Icc 1 8) (hproduct : symmetry a * symmetry b = symmetry c) (hx : x < w)
    (hy : y < h) :
    exifPlace (exifSize w h a).1 (exifSize w h a).2 b (exifPlace w h a x y).1
      (exifPlace w h a x y).2 = exifPlace w h c x y := by
  obtain ⟨hlateral, hfar⟩ := exifSides_mul a ha b hb c hc hproduct
  unfold exifPlace exifSize
  dsimp only
  cases hfirst : (exifSides a).1.isLateral with
  | false =>
    rw [hfirst, Bool.false_xor] at hlateral
    rw [hfirst, if_neg Bool.false_ne_true] at hfar
    obtain ⟨hrows, hcolumns⟩ := Prod.mk.inj hfar
    cases hsecond : (exifSides b).1.isLateral with
    | false =>
      rw [hlateral, hsecond, hrows, hcolumns]
      simp only [Bool.false_eq_true, if_false, mirror_mirror hx, mirror_mirror hy]
    | true =>
      rw [hlateral, hsecond, hrows, hcolumns]
      simp only [Bool.false_eq_true, if_false, if_true, mirror_mirror hx, mirror_mirror hy]
  | true =>
    rw [hfirst, Bool.true_xor] at hlateral
    rw [hfirst, if_pos rfl] at hfar
    obtain ⟨hrows, hcolumns⟩ := Prod.mk.inj hfar
    cases hsecond : (exifSides b).1.isLateral with
    | false =>
      rw [hlateral, hsecond, hrows, hcolumns]
      simp only [Bool.not_false, Bool.false_eq_true, if_false, if_true, mirror_mirror hx,
        mirror_mirror hy]
    | true =>
      rw [hlateral, hsecond, hrows, hcolumns]
      simp only [Bool.not_true, Bool.false_eq_true, if_false, if_true, mirror_mirror hx,
        mirror_mirror hy]

theorem exifPlace_one : exifPlace w h 1 x y = (x, y) := rfl

/-- Every orientation has an inverse one. -/
theorem exists_inverse : ∀ a ∈ Finset.Icc 1 8, ∃ b ∈ Finset.Icc 1 8,
    symmetry a * symmetry b = symmetry 1 ∧ symmetry b * symmetry a = symmetry 1 := by
  decide

/-- No two pixels have the same place. -/
theorem exifPlace_injective (ha : a ∈ Finset.Icc 1 8) {x' y' : ℕ} (hx : x < w) (hy : y < h)
    (hx' : x' < w) (hy' : y' < h) (heq : exifPlace w h a x y = exifPlace w h a x' y') :
    (x, y) = (x', y') := by
  obtain ⟨b, hb, hinverse, -⟩ := exists_inverse a ha
  have hone : 1 ∈ Finset.Icc 1 8 := by decide
  rw [← exifPlace_one (w := w) (h := h), ← exifPlace_mul ha hb hone hinverse hx hy, heq,
    exifPlace_mul ha hb hone hinverse hx' hy', exifPlace_one]

/-- Every place in the picture is that of a pixel. -/
theorem exifPlace_surjective (ha : a ∈ Finset.Icc 1 8) {x' y' : ℕ} (hx : x' < (exifSize w h a).1)
    (hy : y' < (exifSize w h a).2) : ∃ x y, x < w ∧ y < h ∧ exifPlace w h a x y = (x', y') := by
  obtain ⟨b, hb, hinverse, hinverse'⟩ := exists_inverse a ha
  have hone : 1 ∈ Finset.Icc 1 8 := by decide
  have hback := exifPlace_mul hb ha hone hinverse' hx hy
  have hsize : exifSize (exifSize w h a).1 (exifSize w h a).2 b = (w, h) :=
    exifSize_mul ha hb hone hinverse
  have hplace := exifPlace_lt (a := b) hx hy
  rw [hsize] at hback hplace
  exact ⟨_, _, hplace.1, hplace.2, hback⟩

/-! ### Pixels -/

variable {rgba : List UInt8}

theorem destination_eq (ha : 2 ≤ a ∧ a ≤ 8) : destination w h a x y = exifPlace w h a x y := by
  obtain ⟨hlow, hhigh⟩ := ha
  interval_cases a <;> rfl

theorem newSize_eq (ha : 2 ≤ a ∧ a ≤ 8) : (if a ≥ 5 then (h, w) else (w, h)) = exifSize w h a := by
  obtain ⟨hlow, hhigh⟩ := ha
  interval_cases a <;> rfl

theorem mem_positions : (x, y) ∈ positions w h ↔ x < w ∧ y < h := by
  simp only [positions, List.mem_flatMap, List.mem_range, List.mem_map, Prod.mk.injEq]
  constructor
  · rintro ⟨y', hy, x', hx, rfl, rfl⟩
    exact ⟨hx, hy⟩
  · rintro ⟨hx, hy⟩
    exact ⟨y, hy, x, hx, rfl, rfl⟩

theorem nodup_positions (w h : ℕ) : (positions w h).Nodup := by
  refine List.nodup_flatMap.mpr ⟨fun y _ => ?_, ?_⟩
  · exact List.nodup_range.map fun x x' heq => (Prod.mk.inj heq).1
  · refine List.nodup_range.imp fun {y y'} hne => ?_
    intro position hfirst hsecond
    obtain ⟨x, -, rfl⟩ := List.mem_map.mp hfirst
    obtain ⟨x', -, heq⟩ := List.mem_map.mp hsecond
    exact hne (Prod.mk.inj heq).2.symm

/-- The index of a pixel is below their number. -/
theorem index_lt (hx : x < w) (hy : y < h) : y * w + x < w * h := by
  have hrow : (y + 1) * w ≤ h * w := Nat.mul_le_mul_right w hy
  rw [Nat.succ_mul, Nat.mul_comm h] at hrow
  omega

/-- An index tells the column and the row. -/
theorem index_injective {x' y' : ℕ} (hx : x < w) (hx' : x' < w) (heq : y * w + x = y' * w + x') :
    (x, y) = (x', y') := by
  have hcolumn := congrArg (· % w) heq
  have hrow := congrArg (· / w) heq
  simp only [Nat.mul_add_mod', Nat.mod_eq_of_lt hx, Nat.mod_eq_of_lt hx'] at hcolumn
  simp only [Nat.mul_comm _ w, Nat.mul_add_div (Nat.zero_lt_of_lt hx), Nat.div_eq_of_lt hx,
    Nat.div_eq_of_lt hx', Nat.add_zero] at hrow
  rw [hcolumn, hrow]

/-- Images of one size with the same pixels are the same. -/
theorem eq_of_pixels {first second : List UInt8} (hfirst : first.length = w * h * 4)
    (hsecond : second.length = w * h * 4)
    (heq : ∀ x y, x < w → y < h → pixel first w x y = pixel second w x y) : first = second := by
  refine eq_of_blocks hfirst hsecond fun index hindex => ?_
  have hw : 0 < w := Nat.pos_of_mul_pos_right (Nat.zero_lt_of_lt hindex)
  have hpixel := heq (index % w) (index / w) (Nat.mod_lt index hw)
    (Nat.div_lt_of_lt_mul hindex)
  unfold pixel at hpixel
  rwa [Nat.mul_comm, Nat.div_add_mod] at hpixel

/-- The copies of `orient`: each from a pixel of the stored image to its place. -/
def moves (w h orientation : ℕ) : List (ℕ × ℕ) :=
  (positions w h).map fun position =>
    (position.2 * w + position.1,
      (exifPlace w h orientation position.1 position.2).2 * (exifSize w h orientation).1 +
        (exifPlace w h orientation position.1 position.2).1)

theorem exifSize_area : (exifSize w h a).1 * (exifSize w h a).2 = w * h := by
  unfold exifSize
  split
  · exact Nat.mul_comm h w
  · rfl

/-- The loops copy every pixel to its place. -/
theorem orient_eq (ha : 2 ≤ a ∧ a ≤ 8) : orient rgba w h a =
    ((moves w h a).foldlM (copyBlock 4 rgba) (List.replicate rgba.length 0)).map
      fun output => (output, exifSize w h a) := by
  unfold orient moves
  rw [if_neg (not_not.mpr ha), newSize_eq ha]
  simp only [destination_eq ha]
  generalize List.foldlM (copyBlock 4 rgba) _ _ = result
  cases result <;> rfl

/-- An orientated image has every pixel at its place. -/
theorem orient_spec (ha : a ∈ Finset.Icc 1 8) (hlength : rgba.length = w * h * 4) :
    ∃ output, orient rgba w h a = some (output, exifSize w h a) ∧
      output.length = (exifSize w h a).1 * (exifSize w h a).2 * 4 ∧
      ∀ x y, x < w → y < h →
        pixel output (exifSize w h a).1 (exifPlace w h a x y).1 (exifPlace w h a x y).2 =
          pixel rgba w x y := by
  by_cases hrange : 2 ≤ a ∧ a ≤ 8
  · have hmoves : ∀ move ∈ moves w h a,
        move.1 < w * h ∧ move.2 < (exifSize w h a).1 * (exifSize w h a).2 := by
      intro move hmove
      obtain ⟨⟨x, y⟩, hposition, rfl⟩ := List.mem_map.mp hmove
      obtain ⟨hx, hy⟩ := mem_positions.mp hposition
      obtain ⟨hcolumn, hrow⟩ := exifPlace_lt (a := a) hx hy
      exact ⟨index_lt hx hy, index_lt hcolumn hrow⟩
    have hdistinct : ((moves w h a).map Prod.snd).Nodup := by
      rw [moves, List.map_map]
      refine (nodup_positions w h).map_on fun position hposition other hother heq => ?_
      obtain ⟨hx, hy⟩ := mem_positions.mp hposition
      obtain ⟨hx', hy'⟩ := mem_positions.mp hother
      have hplace := index_injective (exifPlace_lt hx hy).1 (exifPlace_lt hx' hy').1 heq
      exact exifPlace_injective ha hx hy hx' hy' hplace
    have htarget : (List.replicate rgba.length (0 : UInt8)).length =
        (exifSize w h a).1 * (exifSize w h a).2 * 4 := by
      rw [List.length_replicate, hlength, exifSize_area]
    obtain ⟨output, houtput, hsize, hcopied, -⟩ :=
      foldlM_copyBlock hlength htarget hmoves hdistinct
    refine ⟨output, ?_, hsize, fun x y hx hy => ?_⟩
    · rw [orient_eq hrange, houtput]
      rfl
    · exact hcopied _ (List.mem_map.mpr ⟨(x, y), mem_positions.mpr ⟨hx, hy⟩, rfl⟩)
  · obtain rfl : a = 1 := by
      rw [Finset.mem_Icc] at ha
      omega
    exact ⟨rgba, if_pos hrange, hlength, fun x y _ _ => rfl⟩

/-- Orientate an image and then what that gives. -/
def orientTwice (rgba : List UInt8) (width height first second : ℕ) :
    Option (List UInt8 × ℕ × ℕ) := do
  let (output, newWidth, newHeight) ← orient rgba width height first
  orient output newWidth newHeight second

/-- An image is orientated twice as by the product. -/
theorem orient_mul (ha : a ∈ Finset.Icc 1 8) (hb : b ∈ Finset.Icc 1 8) (hc : c ∈ Finset.Icc 1 8)
    (hproduct : symmetry a * symmetry b = symmetry c) (hlength : rgba.length = w * h * 4) :
    orientTwice rgba w h a b = orient rgba w h c := by
  obtain ⟨first, hfirst, hsize, hpixels⟩ := orient_spec ha hlength
  obtain ⟨second, hsecond, hsize', hpixels'⟩ := orient_spec hb hsize
  obtain ⟨output, houtput, hsize'', hpixels''⟩ := orient_spec hc hlength
  have hmul := exifSize_mul (w := w) (h := h) ha hb hc hproduct
  rw [hmul] at hsecond hsize' hpixels'
  have htwice : orientTwice rgba w h a b = some (second, exifSize w h c) := by
    rw [orientTwice, hfirst]
    exact hsecond
  rw [htwice, houtput]
  congr 2
  refine eq_of_pixels hsize' hsize'' fun x' y' hx' hy' => ?_
  obtain ⟨x, y, hx, hy, hplace⟩ := exifPlace_surjective hc hx' hy'
  obtain ⟨hcolumn, hrow⟩ := exifPlace_lt (a := a) hx hy
  have htwice := hpixels' _ _ hcolumn hrow
  rw [exifPlace_mul ha hb hc hproduct hx hy, hpixels x y hx hy] at htwice
  have honce := hpixels'' x y hx hy
  rw [hplace] at htwice honce
  exact htwice.trans honce.symm

/-- `orient` is the action of the symmetries of a square on images: it is total, moves every pixel
to the one place that EXIF prescribes, and composes as the symmetries do. -/
theorem orient_is_symmetry (rgba : List UInt8) (width height : ℕ)
    (hlength : rgba.length = width * height * 4) :
    (∀ a ∈ Finset.Icc 1 8, ∃ output,
      orient rgba width height a = some (output, exifSize width height a) ∧
      output.length = (exifSize width height a).1 * (exifSize width height a).2 * 4 ∧
      (∀ x y, x < width → y < height →
        (exifPlace width height a x y).1 < (exifSize width height a).1 ∧
        (exifPlace width height a x y).2 < (exifSize width height a).2 ∧
        pixel output (exifSize width height a).1 (exifPlace width height a x y).1
          (exifPlace width height a x y).2 = pixel rgba width x y) ∧
      ∀ x' y', x' < (exifSize width height a).1 → y' < (exifSize width height a).2 →
        ∃! position : ℕ × ℕ, position.1 < width ∧ position.2 < height ∧
          exifPlace width height a position.1 position.2 = (x', y')) ∧
    Set.BijOn symmetry (Finset.Icc 1 8) Set.univ ∧
    (∀ a ∈ Finset.Icc 1 8, ∀ b ∈ Finset.Icc 1 8, ∀ c ∈ Finset.Icc 1 8,
      symmetry a * symmetry b = symmetry c →
      orientTwice rgba width height a b = orient rgba width height c) ∧
    ∀ a ∈ Finset.Icc 1 8, ∀ b ∈ Finset.Icc 1 8, symmetry b = (symmetry a)⁻¹ →
      orientTwice rgba width height a b = some (rgba, width, height) := by
  refine ⟨fun a ha => ?_, symmetry_bijOn, fun a ha b hb c hc hproduct =>
    orient_mul ha hb hc hproduct hlength, fun a ha b hb hinverse => ?_⟩
  · obtain ⟨output, houtput, hsize, hpixels⟩ := orient_spec ha hlength
    refine ⟨output, houtput, hsize, fun x y hx hy => ?_, fun x' y' hx' hy' => ?_⟩
    · obtain ⟨hcolumn, hrow⟩ := exifPlace_lt (a := a) hx hy
      exact ⟨hcolumn, hrow, hpixels x y hx hy⟩
    · obtain ⟨x, y, hx, hy, hplace⟩ := exifPlace_surjective ha hx' hy'
      refine ⟨(x, y), ⟨hx, hy, hplace⟩, fun other hother => ?_⟩
      obtain ⟨hx'', hy'', hplace''⟩ := hother
      exact exifPlace_injective ha hx'' hy'' hx hy (hplace''.trans hplace.symm)
  · have hone : 1 ∈ Finset.Icc 1 8 := by decide
    have hproduct : symmetry a * symmetry b = symmetry 1 := by
      rw [hinverse, mul_inv_cancel]
      rfl
    exact orient_mul ha hb hone hproduct hlength

/-- An image of three pixels in a row. -/
theorem orient_is_symmetry_row :
    let row : List UInt8 := [1, 1, 1, 1, 2, 2, 2, 2, 3, 3, 3, 3]
    row.length = 3 * 1 * 4 ∧ orientTwice row 3 1 8 6 = some (row, 3, 1) :=
  ⟨rfl, (orient_is_symmetry [1, 1, 1, 1, 2, 2, 2, 2, 3, 3, 3, 3] 3 1 rfl).2.2.2 8 (by decide) 6
    (by decide) (by decide)⟩

end Crabinet.Thumbnail
