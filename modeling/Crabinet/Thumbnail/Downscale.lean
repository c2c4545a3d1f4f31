import Crabinet.Library.Blocks
import Crabinet.Library.Checked
import Crabinet.Library.Table

/-!
# The streaming downscaler

Rows of a source image are added, one at a time, to the sums of one row of output pixels. When a
row belongs to the next output row, the sums are divided and start again. Every operation that
could overflow, lose bits, divide by zero or leave a vector is checked here; a failed check is
`none`.
-/

namespace Crabinet.Thumbnail

open Crabinet.Library

/-- `ThumbnailError`. -/
inductive ThumbnailError where
  | unsupported | tooLarge | corrupt | unavailable
deriving DecidableEq, Repr

/-- `Layout`. -/
inductive Layout where
  | gray | grayAlpha | rgb | rgba | cmyk
deriving DecidableEq, Repr

/-- `channels`. -/
def Layout.channels : Layout → ℕ
  | gray => 1
  | grayAlpha => 2
  | rgb => 3
  | rgba | cmyk => 4

/-- The four bytes of a pixel. -/
structure Rgba where
  red : UInt8
  green : UInt8
  blue : UInt8
  alpha : UInt8
deriving DecidableEq, Repr

/-- The four sums of an output pixel: colours weighted by alpha, and alpha. -/
@[ext]
structure Sums where
  red : ℕ
  green : ℕ
  blue : ℕ
  alpha : ℕ
deriving DecidableEq, Repr

/-- `Downscaler`. -/
structure Downscaler where
  sourceWidth : ℕ
  sourceHeight : ℕ
  outWidth : ℕ
  outHeight : ℕ
  column : List ℕ
  columnCount : List ℕ
  sums : List Sums
  rowsInCurrent : ℕ
  currentRow : ℕ
  rowsSeen : ℕ
  output : List Rgba
  opaqueSoFar : Bool

/-- The channel of a CMYK pixel, computed with 16 bits. -/
def inkChannel (value key : UInt8) : Option UInt8 := do
  let product ← checked (maxOfBits 16) (value.toNat * key.toNat + 127)
  checkedByte (product / 255)

/-- The pixel that a chunk of a row stands for. -/
def Layout.pixel : Layout → List UInt8 → Option Rgba
  | gray, [value] => some ⟨value, value, value, 255⟩
  | grayAlpha, [value, alpha] => some ⟨value, value, value, alpha⟩
  | rgb, [red, green, blue] => some ⟨red, green, blue, 255⟩
  | rgba, [red, green, blue, alpha] => some ⟨red, green, blue, alpha⟩
  | cmyk, [cyan, magenta, yellow, key] => do
    let red ← inkChannel cyan key
    let green ← inkChannel magenta key
    let blue ← inkChannel yellow key
    return ⟨red, green, blue, 255⟩
  | _, _ => none

/-- What a pixel adds to the sums. -/
def Rgba.weighted (pixel : Rgba) : Sums where
  red := pixel.red.toNat * pixel.alpha.toNat
  green := pixel.green.toNat * pixel.alpha.toNat
  blue := pixel.blue.toNat * pixel.alpha.toNat
  alpha := pixel.alpha.toNat

namespace Sums

/-- No pixel. -/
def zero : Sums := ⟨0, 0, 0, 0⟩

/-- The sums of two sets of pixels. -/
def add (first second : Sums) : Sums :=
  ⟨first.red + second.red, first.green + second.green, first.blue + second.blue,
    first.alpha + second.alpha⟩

/-- Add with 64 bits. -/
def checkedAdd (first second : Sums) : Option Sums := do
  let red ← checked (maxOfBits 64) (first.red + second.red)
  let green ← checked (maxOfBits 64) (first.green + second.green)
  let blue ← checked (maxOfBits 64) (first.blue + second.blue)
  let alpha ← checked (maxOfBits 64) (first.alpha + second.alpha)
  return ⟨red, green, blue, alpha⟩

end Sums

/-- A rounded quotient, computed with 64 bits and cast to a byte. -/
def roundedByte (total count : ℕ) : Option UInt8 := do
  let dividend ← checked (maxOfBits 64) (total + count / 2)
  let quotient ← checkedDiv dividend count
  checkedByte quotient

/-- The output pixel of the sums over so many pixels. -/
def Sums.pixel (sums : Sums) (count : ℕ) : Option Rgba :=
  if sums.alpha = 0 ∨ count = 0 then some ⟨0, 0, 0, 0⟩
  else do
    let red ← roundedByte sums.red sums.alpha
    let green ← roundedByte sums.green sums.alpha
    let blue ← roundedByte sums.blue sums.alpha
    let alpha ← roundedByte sums.alpha count
    return ⟨red, green, blue, alpha⟩

namespace Downscaler

/-- The state that `new` ends with. -/
def start (sourceWidth sourceHeight outWidth outHeight : ℕ) (column columnCount : List ℕ)
    (area : ℕ) : Downscaler where
  sourceWidth
  sourceHeight
  outWidth
  outHeight
  column
  columnCount
  sums := List.replicate outWidth Sums.zero
  rowsInCurrent := 0
  currentRow := 0
  rowsSeen := 0
  output := List.replicate area ⟨0, 0, 0, 0⟩
  opaqueSoFar := true

/-- `new`. -/
def new (sourceWidth sourceHeight outWidth outHeight : ℕ) : Option Downscaler := do
  let column ← (List.range sourceWidth).mapM fun x => do
    let product ← checked (maxOfBits 64) (x * outWidth)
    let target ← checkedDiv product sourceWidth
    checked (maxOfBits 32) target
  let columnCount ← column.foldlM (fun (counts : List ℕ) target => do
    let count ← counts[target]?
    let count ← checked (maxOfBits 32) (count + 1)
    return counts.set target count) (List.replicate outWidth 0)
  let _ ← checked (maxOfBits 64) (outWidth * 4)
  let area ← checked (maxOfBits 64) (outWidth * outHeight)
  let _ ← checked (maxOfBits 64) (area * 4)
  return start sourceWidth sourceHeight outWidth outHeight column columnCount area

/-- The loop of `flush` for a column. -/
def flushColumn (self : Downscaler) (column : ℕ) : Option Downscaler := do
  let sums ← self.sums[column]?
  let columns ← self.columnCount[column]?
  let count ← checked (maxOfBits 64) (columns * self.rowsInCurrent)
  let index := self.currentRow * self.outWidth + column
  let _ ← self.output[index]?
  let pixel ← sums.pixel count
  return { self with
    output := self.output.set index pixel
    opaqueSoFar :=
      if sums.alpha = 0 ∨ count = 0 then false else self.opaqueSoFar && pixel.alpha == 255
    sums := self.sums.set column Sums.zero }

/-- `flush`. -/
def flush (self : Downscaler) : Option Downscaler :=
  if self.rowsInCurrent = 0 then some self
  else do
    let self ← (List.range self.outWidth).foldlM flushColumn self
    return { self with rowsInCurrent := 0 }

/-- Go on to an output row. -/
def moveTo (self : Downscaler) (target : ℕ) : Option Downscaler :=
  if target ≠ self.currentRow then do
    let self ← self.flush
    return { self with currentRow := target }
  else some self

/-- The loop of `push` for a pixel and its column. -/
def addPixel (layout : Layout) (sums : List Sums) (entry : List UInt8 × ℕ) :
    Option (List Sums) := do
  let pixel ← layout.pixel entry.1
  let before ← sums[entry.2]?
  let after ← before.checkedAdd pixel.weighted
  return sums.set entry.2 after

/-- `push`. -/
def push (self : Downscaler) (row : List UInt8) (layout : Layout) :
    Option (Downscaler × Except ThumbnailError Unit) :=
  if self.rowsSeen ≥ self.sourceHeight ∨ row.length < self.sourceWidth * layout.channels then
    some (self, .error .corrupt)
  else do
    let product ← checked (maxOfBits 64) (self.rowsSeen * self.outHeight)
    let target ← checkedDiv product self.sourceHeight
    let target ← checked (maxOfBits 32) target
    let self ← self.moveTo target
    let chunks := table (row.length / layout.channels) (block layout.channels row)
    let sums ← (chunks.zip self.column).foldlM (addPixel layout) self.sums
    let rowsInCurrent ← checked (maxOfBits 64) (self.rowsInCurrent + 1)
    let rowsSeen ← checked (maxOfBits 32) (self.rowsSeen + 1)
    return ({ self with sums, rowsInCurrent, rowsSeen }, .ok ())

/-- `finish`. -/
def finish (self : Downscaler) : Option (Except ThumbnailError (List Rgba × Bool)) := do
  let self ← self.flush
  return if self.rowsSeen ≠ self.sourceHeight then .error .corrupt
    else .ok (self.output, self.opaqueSoFar)

/-- The rows pushed in order, and what became of each. -/
def pushAll (self : Downscaler) :
    List (List UInt8 × Layout) → Option (Downscaler × List (Except ThumbnailError Unit))
  | [] => some (self, [])
  | (row, layout) :: rest => do
    let (self, result) ← self.push row layout
    let (self, results) ← self.pushAll rest
    return (self, result :: results)

end Downscaler

end Crabinet.Thumbnail
