import Crabinet.Preview.Signature
import Crabinet.Thumbnail.Downscale
import Crabinet.Thumbnail.TiffBounds

/-!
# The frame header of a JPEG stream

The segments of a stream are walked up to its frame header. Only so many segments are read, with only
so many fill bytes before each marker, and nothing behind the end of the stream's range. The first
EXIF segment may state an orientation.
-/

namespace Crabinet.Thumbnail

open Crabinet.Library Crabinet.Library.Traced

/-- `MAX_SOURCE_BYTES`. -/
def maxSourceBytes : ℕ := 100 * 1024 * 1024

/-- `MAX_JPEG_SEGMENTS`. -/
def maxJpegSegments : ℕ := 256

/-- `MAX_JPEG_FILL`. -/
def maxJpegFill : ℕ := 64

/-- `JpegHeader`. -/
structure JpegHeader where
  width : ℕ
  height : ℕ
  components : ℕ
  progressive : Bool
  orientation : Option ℕ
deriving DecidableEq, Repr

/-- `read_at`. -/
def readAt (reader : List UInt8) (offset count limit : ℕ) : Traced ThumbnailError (List UInt8) :=
  if offset + count < 2 ^ 64 ∧ offset + count ≤ limit then read reader offset count .corrupt
  else fail .corrupt

/-- `tiff::orientation`, which reads the bytes of a segment and none of the file. -/
def exifOrientation (exif : List UInt8) : Traced ThumbnailError (Option ℕ) :=
  match (Tiff.scan exif exif.length).outcome with
  | .ok scan => pure scan.orientation
  | .error (.error _) => pure none
  | .error .panic => panicked

/-- The loop over the fill bytes before a marker, with the number of them that is left. -/
def jpegFill (reader : List UInt8) (limit : ℕ) :
    ℕ → ℕ → UInt8 → Traced ThumbnailError (UInt8 × ℕ)
  | 0, position, marker => if marker = 0xff then fail .corrupt else pure (marker, position)
  | left + 1, position, marker =>
    if marker = 0xff then do
      let position ← add64 position 1
      let pair ← readAt reader position 2 limit
      jpegFill reader limit left position (pair.getD 1 0)
    else pure (marker, position)

/-- The frame header in the segment of a frame. -/
def jpegFrame (reader : List UInt8) (limit : ℕ) (marker : UInt8) (payload next : ℕ)
    (orientation : Option ℕ) : Traced ThumbnailError JpegHeader := do
  let frame ← readAt reader payload 6 limit
  let height := beValue ((frame.drop 1).take 2)
  let width := beValue ((frame.drop 3).take 2)
  let components := (frame.getD 5 0).toNat
  if frame.getD 0 0 ≠ 8 ∨ width = 0 ∨ height = 0 ∨ components ∉ [1, 3, 4] then fail .unsupported
  else do
    let start ← add64 payload 6
    let specs ← readAt reader start (components * 3) next
    let sampled (factor : ℕ) : Bool := 1 ≤ factor && factor ≤ 4
    if (Tiff.chunks 3 components specs).all fun spec =>
        sampled ((spec.getD 1 0).toNat / 16) && sampled ((spec.getD 1 0).toNat % 16) then
      pure ⟨width, height, components, marker == 0xc2, orientation⟩
    else fail .corrupt

/-- What a segment is: the frame, or one before it. -/
inductive Segment where
  | frame (header : JpegHeader)
  | next (position : ℕ) (orientation : Option ℕ)

/-- The second `match` of a segment's marker. -/
def jpegPayload (reader : List UInt8) (limit : ℕ) (marker : UInt8) (payload next length : ℕ)
    (orientation : Option ℕ) : Traced ThumbnailError Segment :=
  if 0xc0 ≤ marker ∧ marker ≤ 0xc2 then do
    let header ← jpegFrame reader limit marker payload next orientation
    pure (.frame header)
  -- Lossless, hierarchical, and arithmetic-coded frames.
  else if marker = 0xc3 ∨ (0xc5 ≤ marker ∧ marker ≤ 0xc7) ∨ (0xc9 ≤ marker ∧ marker ≤ 0xcb) ∨
      (0xcd ≤ marker ∧ marker ≤ 0xcf) then fail .unsupported
  else if marker = 0xe1 ∧ orientation = none ∧ length ≥ 2 + 6 + 8 then do
    let exif ← readAt reader payload (length - 2) next
    match exif.dropPrefix? (Preview.ascii "Exif" ++ [0, 0]) with
    | some tiff => do
      let orientation ← exifOrientation tiff
      pure (.next next orientation)
    | none => pure (.next next orientation)
  else pure (.next next orientation)

/-- One turn of the loop over the segments. -/
def jpegSegment (reader : List UInt8) (limit position : ℕ) (orientation : Option ℕ) :
    Traced ThumbnailError Segment := do
  let lead ← readAt reader position 2 limit
  if lead.getD 0 0 ≠ 0xff then fail .corrupt
  else do
    let (marker, position) ← jpegFill reader limit maxJpegFill position (lead.getD 1 0)
    if marker = 0x01 ∨ (0xd0 ≤ marker ∧ marker ≤ 0xd7) then do
      let position ← add64 position 2
      pure (.next position orientation)
    else if marker = 0x00 ∨ (0xd8 ≤ marker ∧ marker ≤ 0xda) then fail .corrupt
    else do
      let start ← add64 position 2
      let bytes ← readAt reader start 2 limit
      let length := beValue bytes
      if length < 2 then fail .corrupt
      else do
        let payload ← add64 position 4
        let next ← add64 start length
        if next > limit then fail .corrupt
        else jpegPayload reader limit marker payload next length orientation

/-- The loop over the segments, with the number of turns that is left. -/
def jpegSegments (reader : List UInt8) (limit : ℕ) :
    ℕ → ℕ → Option ℕ → Traced ThumbnailError JpegHeader
  | 0, _, _ => fail .corrupt
  | left + 1, position, orientation => do
    let segment ← jpegSegment reader limit position orientation
    match segment with
    | .frame header => pure header
    | .next position orientation => jpegSegments reader limit left position orientation

/-- `jpeg_header`. -/
def jpegHeader (reader : List UInt8) (start len : ℕ) : Traced ThumbnailError JpegHeader :=
  if start + len < 2 ^ 64 then do
    let limit := start + len
    let soi ← readAt reader start 2 limit
    if soi ≠ [0xff, 0xd8] then fail .corrupt
    else do
      let position ← add64 start 2
      jpegSegments reader limit maxJpegSegments position none
  else fail .corrupt

/-! ### Bounds -/

/-- What the decoder may rely on. -/
structure JpegHeader.Valid (header : JpegHeader) : Prop where
  width : 1 ≤ header.width ∧ header.width < 2 ^ 16
  height : 1 ≤ header.height ∧ header.height < 2 ^ 16
  components : header.components ∈ [1, 3, 4]
  orientation : ∀ value, header.orientation = some value → 1 ≤ value ∧ value ≤ 8

variable {size limit : ℕ} {fails : ThumbnailError → Prop}

theorem readAt_bounded (reader : List UInt8) (offset count : ℕ) (hlimit : limit ≤ size) :
    Bounded size count (fun _ => True) (fun bytes => bytes.length = count ∧ offset + count ≤ limit)
      (readAt reader offset count limit) := by
  unfold readAt
  split
  case isTrue h =>
    refine bounded_read (h.2.trans hlimit) le_rfl (fun _ => trivial) fun bytes hslice => ⟨?_, h.2⟩
    obtain ⟨hwithin, hbytes⟩ := Option.ite_none_right_eq_some.mp hslice
    rw [← Option.some.inj hbytes, List.length_take, List.length_drop]
    omega
  case isFalse => exact bounded_fail trivial

theorem exifOrientation_bounded (exif : List UInt8) :
    Bounded size 0 fails (fun found => ∀ value, found = some value → 1 ≤ value ∧ value ≤ 8)
      (exifOrientation exif) := by
  obtain ⟨hpanic, -, -, -, hsound, hresult⟩ := Tiff.scan_confined exif exif.length
  unfold exifOrientation
  split
  case h_1 scan hscan =>
    refine bounded_pure fun value hvalue => ?_
    obtain ⟨state, hreaches, rfl⟩ := hresult scan hscan
    exact ((hsound state hreaches).orientation value hvalue).1
  case h_2 => exact bounded_pure nofun
  case h_3 hscan => exact absurd hscan hpanic

theorem jpegFill_bounded (reader : List UInt8) (hlimit : limit ≤ size) (hsize : size ≤ maxSourceBytes)
    (left : ℕ) {position : ℕ} (marker : UInt8) (hposition : position + 2 ≤ limit) :
    Bounded size (left * 2) (fun _ => True) (fun found => found.2 + 2 ≤ limit)
      (jpegFill reader limit left position marker) := by
  unfold maxSourceBytes at hsize
  induction left generalizing position marker with
  | zero =>
    unfold jpegFill
    split
    · exact bounded_fail trivial
    · exact bounded_pure hposition
  | succ left ih =>
    unfold jpegFill
    split
    · rw [add64_eq (by omega), pure_bind, Nat.succ_mul, Nat.add_comm]
      exact (readAt_bounded reader _ 2 hlimit).bind _ _ fun pair hpair => ih _ hpair.2
    · exact bounded_pure hposition

/-- The bytes of the payload of the longest segment. -/
def payloadBudget : ℕ := 2 ^ 16 - 1 - 2

theorem beValue_lt_of_length {bytes : List UInt8} {n : ℕ} (h : bytes.length = n) :
    beValue bytes < 256 ^ n :=
  h ▸ beValue_lt bytes

theorem jpegFrame_bounded (reader : List UInt8) (hlimit : limit ≤ size) (hsize : size ≤ maxSourceBytes)
    (marker : UInt8) (payload : ℕ) {next : ℕ} (hnext : next ≤ limit) {orientation : Option ℕ}
    (horientation : ∀ value, orientation = some value → 1 ≤ value ∧ value ≤ 8) :
    Bounded size payloadBudget (fun _ => True) JpegHeader.Valid
      (jpegFrame reader limit marker payload next orientation) := by
  unfold maxSourceBytes at hsize
  unfold jpegFrame
  refine ((readAt_bounded reader payload 6 hlimit).bind 6 12 fun frame hframe => ?_).mono
    (by decide) (fun _ h => h) fun _ h => h
  obtain ⟨hlength, hinside⟩ := hframe
  have hheight : beValue ((frame.drop 1).take 2) < 256 ^ 2 := beValue_lt_of_length (by simp [hlength])
  have hwidth : beValue ((frame.drop 3).take 2) < 256 ^ 2 := beValue_lt_of_length (by simp [hlength])
  dsimp only
  split
  case isTrue => exact bounded_fail trivial
  case isFalse h =>
    simp only [not_or, ne_eq, not_not] at h
    obtain ⟨-, hwidth', hheight', hcomponents⟩ := h
    have hspecs : (frame.getD 5 0).toNat * 3 ≤ 12 := by
      simp only [List.mem_cons, List.not_mem_nil, or_false] at hcomponents
      omega
    rw [add64_eq (by omega), pure_bind]
    refine ((readAt_bounded reader _ _ (hnext.trans hlimit)).bind _ 0 fun specs _ => ?_).mono hspecs
      (fun _ h => h) fun _ h => h
    split
    · exact bounded_pure ⟨⟨Nat.pos_of_ne_zero hwidth', hwidth⟩, ⟨Nat.pos_of_ne_zero hheight', hheight⟩,
        hcomponents, horientation⟩
    · exact bounded_fail trivial

/-- What a turn of the loop leaves. -/
def Segment.Valid (limit : ℕ) : Segment → Prop
  | .frame header => header.Valid
  | .next position orientation =>
    position ≤ limit ∧ ∀ value, orientation = some value → 1 ≤ value ∧ value ≤ 8

theorem jpegPayload_bounded (reader : List UInt8) (hlimit : limit ≤ size)
    (hsize : size ≤ maxSourceBytes) (marker : UInt8) (payload : ℕ) {next length : ℕ}
    (hnext : next ≤ limit) (hlength : length < 2 ^ 16) {orientation : Option ℕ}
    (horientation : ∀ value, orientation = some value → 1 ≤ value ∧ value ≤ 8) :
    Bounded size payloadBudget (fun _ => True) (Segment.Valid limit)
      (jpegPayload reader limit marker payload next length orientation) := by
  unfold jpegPayload
  split
  · exact (jpegFrame_bounded reader hlimit hsize marker payload hnext horientation).bind _ 0
      fun header hheader => bounded_pure hheader
  · split
    · exact bounded_fail trivial
    · split
      · have hbudget : length - 2 ≤ payloadBudget := by
          unfold payloadBudget
          omega
        refine ((readAt_bounded reader payload _ (hnext.trans hlimit)).bind _ 0 fun exif _ => ?_).mono
          hbudget (fun _ h => h) fun _ h => h
        split
        · exact (exifOrientation_bounded _).bind 0 0 fun found hfound => bounded_pure ⟨hnext, hfound⟩
        · exact bounded_pure ⟨hnext, horientation⟩
      · exact bounded_pure ⟨hnext, horientation⟩

/-- The bytes that one turn of the loop may read. -/
def segmentBudget : ℕ := 2 + (maxJpegFill * 2 + (2 + payloadBudget))

theorem jpegSegment_bounded (reader : List UInt8) (hlimit : limit ≤ size)
    (hsize : size ≤ maxSourceBytes) (position : ℕ) {orientation : Option ℕ}
    (horientation : ∀ value, orientation = some value → 1 ≤ value ∧ value ≤ 8) :
    Bounded size segmentBudget (fun _ => True) (Segment.Valid limit)
      (jpegSegment reader limit position orientation) := by
  refine (readAt_bounded reader position 2 hlimit).bind _ _ fun lead hlead => ?_
  split
  · exact bounded_fail trivial
  · refine (jpegFill_bounded reader hlimit hsize maxJpegFill _ hlead.2).bind _ _ ?_
    rintro ⟨marker, position⟩ hposition
    have hroom : position + 2 ≤ 100 * 1024 * 1024 := (hposition.trans hlimit).trans hsize
    dsimp only at hposition ⊢
    rw [add64_eq (by omega), pure_bind, pure_bind]
    split
    · exact bounded_pure ⟨hposition, horientation⟩
    · split
      · exact bounded_fail trivial
      · refine (readAt_bounded reader _ 2 hlimit).bind _ _ fun bytes hbytes => ?_
        have hlength : beValue bytes < 256 ^ 2 := beValue_lt_of_length hbytes.1
        split
        · exact bounded_fail trivial
        · rw [add64_eq (by omega), pure_bind, add64_eq (by omega), pure_bind]
          split
          · exact bounded_fail trivial
          · exact jpegPayload_bounded reader hlimit hsize marker _ (by omega) hlength horientation

theorem jpegSegments_bounded (reader : List UInt8) (hlimit : limit ≤ size)
    (hsize : size ≤ maxSourceBytes) (left position : ℕ) {orientation : Option ℕ}
    (horientation : ∀ value, orientation = some value → 1 ≤ value ∧ value ≤ 8) :
    Bounded size (left * segmentBudget) (fun _ => True) JpegHeader.Valid
      (jpegSegments reader limit left position orientation) := by
  induction left generalizing position orientation with
  | zero => exact bounded_fail trivial
  | succ left ih =>
    rw [Nat.succ_mul, Nat.add_comm]
    refine (jpegSegment_bounded reader hlimit hsize position horientation).bind _ _ ?_
    intro segment hsegment
    cases segment with
    | frame header => exact bounded_pure hsegment
    | next position orientation => exact ih position hsegment.2

/-- The bytes that the walk of one stream may read. -/
def jpegBudget : ℕ := 2 + maxJpegSegments * segmentBudget

/-- The walk of a stream ends, reads only the stream's range, and finds a frame header of 16-bit
dimensions that are not zero. -/
theorem jpegHeader_bounded (reader : List UInt8) {start len : ℕ} (hinside : start + len ≤ size)
    (hsize : size ≤ maxSourceBytes) :
    Bounded size jpegBudget (fun _ => True) JpegHeader.Valid (jpegHeader reader start len) := by
  have hroom : start + len ≤ 100 * 1024 * 1024 := hinside.trans hsize
  rw [jpegHeader, if_pos (by omega)]
  refine (readAt_bounded reader start 2 hinside).bind _ _ fun soi hsoi => ?_
  split
  · exact bounded_fail trivial
  · rw [add64_eq (by omega), pure_bind]
    exact jpegSegments_bounded reader hinside hsize _ _ nofun

end Crabinet.Thumbnail
