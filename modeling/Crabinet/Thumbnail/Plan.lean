import Crabinet.Library.Checked
import Crabinet.Thumbnail.WebpDimensions

/-!
# The plan of a thumbnail

A plan is made from headers alone. It says which decoder reads which range of the file, what size its
image has and what size it is scaled to, how it is turned, and how much memory all this takes at most.
An operation that overflows, or divides by zero, is a panic.
-/

namespace Crabinet.Thumbnail

open Crabinet.Library Crabinet.Library.Traced

/-- `MAX_IMAGE_PIXELS`. -/
def maxImagePixels : ℕ := 100000000

/-- `FIXED_OVERHEAD`. -/
def fixedOverhead : ℕ := 2 * 1024 * 1024

/-- `PNG_ANCILLARY_LIMIT`. -/
def pngAncillaryLimit : ℕ := 1024 * 1024

/-- `WEBP_METADATA_LIMIT`. -/
def webpMetadataLimit : ℕ := 1024 * 1024

/-- `SourceKind`. -/
inductive SourceKind where
  | jpeg | png | gif | webP | raw
deriving DecidableEq, Repr

/-- `PngHeader`. -/
structure PngHeader where
  width : ℕ
  height : ℕ
  bitsPerPixel : ℕ
  interlaced : Bool
deriving DecidableEq, Repr

/-- `Codec`. -/
inductive Codec where
  | jpeg (header : JpegHeader) (scale : ℕ)
  | png (header : PngHeader)
  | gif
  | webP
deriving DecidableEq, Repr

/-- What the header of a file says: the first seven fields of a plan. -/
structure Source where
  kind : SourceKind
  codec : Codec
  windowStart : ℕ
  windowLen : ℕ
  width : ℕ
  height : ℕ
  orientation : ℕ
deriving DecidableEq, Repr

/-- `Plan`. -/
structure Plan extends Source where
  outWidth : ℕ
  outHeight : ℕ
  longEdge : ℕ
  estimate : ℕ
deriving DecidableEq, Repr

/-- `RawPreview`. -/
structure RawPreview where
  offset : ℕ
  length : ℕ
  header : JpegHeader
  orientation : ℕ
deriving DecidableEq, Repr

/-- A value of 64 bits. -/
def fit64 (value : ℕ) : Option ℕ := checked (maxOfBits 64) value

/-! ### Sizes -/

/-- `scale` of `output_size`. -/
def scaleSide (longest longEdge side : ℕ) : Option ℕ := do
  let dividend ← fit64 (side * longEdge + longest / 2)
  let scaled ← checkedDiv dividend longest
  return (checked (maxOfBits 32) (max scaled 1)).getD longEdge

/-- `output_size`. -/
def outputSize (width height longEdge : ℕ) : Option (ℕ × ℕ) :=
  let longest := max width height
  if longest ≤ longEdge then some (width, height)
  else do
    let outWidth ← scaleSide longest longEdge width
    let outHeight ← scaleSide longest longEdge height
    return (outWidth, outHeight)

/-- `check_pixels`. -/
def checkPixels (width height : ℕ) : Traced ThumbnailError Unit :=
  if width = 0 ∨ height = 0 then fail .corrupt
  else do
    let pixels ← require (fit64 (width * height))
    if pixels > maxImagePixels then fail .tooLarge else pure ()

/-- Whether an image that is decoded at a fraction of its size still covers the output. -/
def coversAt (width height outWidth outHeight scale : ℕ) : Bool :=
  (width + scale - 1) / scale ≥ outWidth && (height + scale - 1) / scale ≥ outHeight

/-- `jpeg_scale`. -/
def jpegScale (width height outWidth outHeight : ℕ) : ℕ :=
  ([8, 4, 2].find? (coversAt width height outWidth outHeight)).getD 1

/-! ### Estimates -/

/-- `jpeg_decode_estimate`. -/
def jpegDecodeEstimate (header : JpegHeader) (scale streamLen : ℕ) : Option ℕ := do
  let paddedWidth := header.width + 64
  let paddedHeight := header.height + 64
  let scaledWidth ← checkedDivCeil paddedWidth scale
  let scaledHeight ← checkedDivCeil paddedHeight scale
  let scaled ← fit64 (scaledWidth * scaledHeight)
  let planes ← fit64 (header.components * scaled)
  let output ← fit64 (header.components * scaled)
  let coefficients ←
    fit64 (if header.progressive then header.components * paddedWidth * paddedHeight * 2 else 0)
  let mcuRows ← fit64 (header.components * paddedWidth * 32 * 2 * 2)
  fit64 (planes + output + coefficients + mcuRows + streamLen)

/-- `jpeg_output_reserve`. -/
def jpegOutputReserve (width height : ℕ) : Option ℕ := fit64 (width * height + 4096)

/-- `encode_estimate`. -/
def encodeEstimate (width height : ℕ) : Option ℕ := do
  let png ← fit64 (width * height * 4)
  let columns ← checkedDivCeil (max width height) 16
  let band ← fit64 (columns * 16 * 16 * 3)
  let reserve ← jpegOutputReserve width height
  let output ← fit64 (reserve * 3)
  let jpeg ← fit64 (band + output)
  return max png jpeg

/-- The memory of the decode, in `estimate`. -/
def decodeEstimate (source : Source) : Option ℕ := do
  let pixels ← fit64 (source.width * source.height)
  match source.codec with
  | .jpeg header scale => jpegDecodeEstimate header scale source.windowLen
  | .png header => do
    let bits ← fit64 (source.width * header.bitsPerPixel)
    let bytes ← checkedDivCeil bits 8
    let rawRow ← fit64 (bytes + 1)
    let stream ← fit64 (12 * rawRow)
    let rows ← fit64 (2 * source.width * 4)
    let frame ← fit64 (if header.interlaced then pixels * 4 else 0)
    fit64 (stream + rows + frame + pngAncillaryLimit)
  | .gif => fit64 (pixels * 5)
  | .webP => fit64 (pixels * 20 + webpMetadataLimit)

/-- `estimate`. -/
def estimate (source : Source) (outWidth outHeight : ℕ) : Option ℕ := do
  let decode ← decodeEstimate source
  let outPixels ← fit64 (outWidth * outHeight)
  let stage ← fit64 (outPixels * 4 * 2)
  let resize ← fit64 (outWidth * (4 * 8 + 4) + source.width * 4)
  let encode ← encodeEstimate outWidth outHeight
  let add := saturatingAdd (maxOfBits 64)
  return add (add (add (add decode stage) resize) encode) fixedOverhead

/-! ### Headers -/

/-- `png_header`. -/
def pngHeader (reader : List UInt8) (len : ℕ) : Traced ThumbnailError PngHeader := do
  let ihdr ← readAt reader 8 25 len
  let field (start : ℕ) : ℕ := beValue ((ihdr.drop start).take 4)
  if (ihdr.drop 4).take 4 ≠ Preview.ascii "IHDR" ∨ field 0 ≠ 13 then fail .corrupt
  else
    let depth := (ihdr.getD 16 0).toNat
    let channels : Option ℕ :=
      match (ihdr.getD 17 0).toNat with
      | 0 | 3 => some 1
      | 2 => some 3
      | 4 => some 2
      | 6 => some 4
      | _ => none
    match channels with
    | none => fail .corrupt
    | some channels =>
      if depth ∉ [1, 2, 4, 8, 16] then fail .corrupt
      else pure ⟨field 8, field 12, channels * depth, ihdr.getD 20 0 != 0⟩

/-- The loop of `raw_preview`, on the best preview so far. -/
def keepPreview (reader : List UInt8) (orientation : ℕ) (best : Option RawPreview)
    (candidate : Tiff.Candidate) : Traced ThumbnailError (Option RawPreview) := do
  let found ← attempt (jpegHeader reader candidate.offset candidate.length)
  match found with
  | none => pure best
  | some header => do
    let pixels ← require (fit64 (header.width * header.height))
    let preview : RawPreview := ⟨candidate.offset, candidate.length, header, orientation⟩
    match best with
    | none => pure (some preview)
    | some current => do
      let previous ← require (fit64 (current.header.width * current.header.height))
      pure (if pixels > previous then some preview else best)

/-- `raw_preview`. -/
def rawPreview (reader : List UInt8) (len : ℕ) : Traced ThumbnailError (Option RawPreview) := do
  let scan ← attempt (Tiff.scan reader len)
  match scan with
  | none => pure none
  | some scan => scan.candidates.foldlM (keepPreview reader (scan.orientation.getD 1)) none

/-- The header of a file by its signature, in `plan`. -/
def planSource (reader : List UInt8) (len : ℕ) (signature : List UInt8) :
    Traced ThumbnailError Source :=
  if (0x89 :: Preview.ascii "PNG\r\n" ++ [0x1a, 0x0a]).isPrefixOf signature then do
    let header ← pngHeader reader len
    pure ⟨.png, .png header, 0, len, header.width, header.height, 1⟩
  else if (Preview.ascii "GIF87a").isPrefixOf signature ||
      (Preview.ascii "GIF89a").isPrefixOf signature then do
    let screen ← readAt reader 6 4 len
    pure ⟨.gif, .gif, 0, len, leValue (screen.take 2), leValue (screen.drop 2), 1⟩
  else if [0xff, 0xd8, 0xff].isPrefixOf signature then do
    let header ← jpegHeader reader 0 len
    pure ⟨.jpeg, .jpeg header 1, 0, len, header.width, header.height, header.orientation.getD 1⟩
  else if signature.length ≥ 12 && (Preview.ascii "RIFF").isPrefixOf signature &&
      (signature.drop 8).take 4 == Preview.ascii "WEBP" then do
    let (width, height) ← webpDimensions reader len
    pure ⟨.webP, .webP, 0, len, width, height, 1⟩
  else if Tiff.isTiff signature then do
    let preview ← rawPreview reader len
    match preview with
    | none => fail .unsupported
    | some preview =>
      pure ⟨.raw, .jpeg preview.header 1, preview.offset, preview.length, preview.header.width,
        preview.header.height, preview.orientation⟩
  else fail .unsupported

/-- The codec of a plan: a JPEG stream is decoded at the scale of the output. -/
def Codec.scaled (codec : Codec) (scale : ℕ) : Codec :=
  match codec with
  | jpeg header _ => jpeg header scale
  | other => other

/-- `plan`. -/
def plan (reader : List UInt8) (len longEdge : ℕ) : Traced ThumbnailError Plan :=
  if len > maxSourceBytes then fail .tooLarge
  else do
    let signature ← readAt reader 0 (min len 16) len
    let source ← planSource reader len signature
    checkPixels source.width source.height
    let (outWidth, outHeight) ← require (outputSize source.width source.height longEdge)
    let scale := jpegScale source.width source.height outWidth outHeight
    let source := { source with codec := source.codec.scaled scale }
    let estimate ← require (estimate source outWidth outHeight)
    pure { source with outWidth, outHeight, longEdge, estimate }

end Crabinet.Thumbnail
