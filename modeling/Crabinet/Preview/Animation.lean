import Crabinet.Library.ByteLayout
import Crabinet.Library.Checked
import Crabinet.Preview.Signature

/-!
# Animation detection

Whether a GIF holds a second image, found by skipping its blocks, and whether a WebP header
declares an animation. A reader that fails is one that ends: every step of the walk gives up either
way.
-/

namespace Crabinet.Preview

open Crabinet.Library

/-! ### GIF -/

/-- `GIF_ANIMATION_SCAN_BYTES`. -/
def gifAnimationScanBytes : ℕ := 8 * 1024 * 1024

/-- `skip`: what follows so many bytes. -/
def skip (length : ℕ) (bytes : List UInt8) : Option (List UInt8) :=
  if length ≤ bytes.length then some (bytes.drop length) else none

/-- `skip_sub_blocks`. -/
def skipSubBlocks : List UInt8 → Option (List UInt8)
  | [] => none
  | length :: rest =>
    if length = 0 then some rest
    else if length.toNat ≤ rest.length then skipSubBlocks (rest.drop length.toNat)
    else none
termination_by bytes => bytes.length
decreasing_by
  rw [List.length_drop, List.length_cons]
  omega

/-- `color_table`: the length of the table that a packed byte declares. -/
def colorTable (packed : UInt8) : ℕ :=
  if packed &&& 0x80 = 0 then 0 else 3 <<< ((packed &&& 0x07).toNat + 1)

/-- What follows an image descriptor: an optional table, the code size, and the image data. -/
def skipImage (bytes : List UInt8) : Option (List UInt8) := do
  let afterDescriptor ← skip 9 bytes
  let packed ← bytes[8]?
  let afterTable ← skip (colorTable packed) afterDescriptor
  let data ← skip 1 afterTable
  skipSubBlocks data

/-- What follows an extension: a label, then sub-blocks. -/
def skipExtension (bytes : List UInt8) : Option (List UInt8) := do
  let data ← skip 1 bytes
  skipSubBlocks data

theorem skip_append {length : ℕ} {bytes rest : List UInt8} (h : skip length bytes = some rest)
    (more : List UInt8) : skip length (bytes ++ more) = some (rest ++ more) := by
  unfold skip at h ⊢
  split at h
  · rename_i hle
    rw [← Option.some.inj h, if_pos (by rw [List.length_append]; omega), List.drop_append_of_le_length hle]
  · cases h

theorem length_skip {length : ℕ} {bytes rest : List UInt8} (h : skip length bytes = some rest) :
    rest.length ≤ bytes.length := by
  unfold skip at h
  split at h
  · rw [← Option.some.inj h, List.length_drop]
    omega
  · cases h

theorem skip_self (bytes rest : List UInt8) : skip bytes.length (bytes ++ rest) = some rest := by
  rw [skip, if_pos (by rw [List.length_append]; omega), List.drop_left]

theorem skipSubBlocks_append {bytes rest : List UInt8} (h : skipSubBlocks bytes = some rest)
    (more : List UInt8) : skipSubBlocks (bytes ++ more) = some (rest ++ more) := by
  fun_induction skipSubBlocks bytes with
  | case1 => cases h
  | case2 remaining =>
    rw [← Option.some.inj h, List.cons_append, skipSubBlocks, if_pos rfl]
  | case3 length remaining hzero hle ih =>
    rw [List.cons_append, skipSubBlocks, if_neg hzero, if_pos (by rw [List.length_append]; omega),
      List.drop_append_of_le_length hle]
    exact ih h
  | case4 => cases h

theorem length_skipSubBlocks {bytes rest : List UInt8} (h : skipSubBlocks bytes = some rest) :
    rest.length ≤ bytes.length := by
  fun_induction skipSubBlocks bytes with
  | case1 => cases h
  | case2 remaining =>
    rw [← Option.some.inj h]
    exact Nat.le_succ _
  | case3 length remaining hzero hle ih =>
    have := ih h
    rw [List.length_drop] at this
    rw [List.length_cons]
    omega
  | case4 => cases h

theorem skipImage_append {bytes rest : List UInt8} (h : skipImage bytes = some rest)
    (more : List UInt8) : skipImage (bytes ++ more) = some (rest ++ more) := by
  obtain ⟨afterDescriptor, hdescriptor, h⟩ := Option.bind_eq_some_iff.mp h
  obtain ⟨packed, hpacked, h⟩ := Option.bind_eq_some_iff.mp h
  obtain ⟨afterTable, htable, h⟩ := Option.bind_eq_some_iff.mp h
  obtain ⟨data, hdata, h⟩ := Option.bind_eq_some_iff.mp h
  obtain ⟨hlt, -⟩ := List.getElem?_eq_some_iff.mp hpacked
  rw [skipImage, skip_append hdescriptor, List.getElem?_append_left hlt, hpacked]
  change (skip _ (afterDescriptor ++ more) >>= _) = _
  rw [skip_append htable]
  change (skip _ (afterTable ++ more) >>= _) = _
  rw [skip_append hdata]
  exact skipSubBlocks_append h more

theorem length_skipImage {bytes rest : List UInt8} (h : skipImage bytes = some rest) :
    rest.length ≤ bytes.length := by
  obtain ⟨afterDescriptor, hdescriptor, h⟩ := Option.bind_eq_some_iff.mp h
  obtain ⟨packed, -, h⟩ := Option.bind_eq_some_iff.mp h
  obtain ⟨afterTable, htable, h⟩ := Option.bind_eq_some_iff.mp h
  obtain ⟨data, hdata, h⟩ := Option.bind_eq_some_iff.mp h
  exact (((length_skipSubBlocks h).trans (length_skip hdata)).trans (length_skip htable)).trans
    (length_skip hdescriptor)

theorem skipExtension_append {bytes rest : List UInt8} (h : skipExtension bytes = some rest)
    (more : List UInt8) : skipExtension (bytes ++ more) = some (rest ++ more) := by
  obtain ⟨data, hdata, h⟩ := Option.bind_eq_some_iff.mp h
  rw [skipExtension, skip_append hdata]
  exact skipSubBlocks_append h more

theorem length_skipExtension {bytes rest : List UInt8} (h : skipExtension bytes = some rest) :
    rest.length ≤ bytes.length := by
  obtain ⟨data, hdata, h⟩ := Option.bind_eq_some_iff.mp h
  exact (length_skipSubBlocks h).trans (length_skip hdata)

/-- The loop of `gif_image_count`: the images so far and those among the blocks that follow. -/
def countImages (stopAt images : ℕ) (bytes : List UInt8) : ℕ :=
  if images < stopAt then
    match bytes with
    | [] => images
    | introducer :: rest =>
      if introducer = 0x2c then
        if stopAt ≤ images + 1 then images + 1
        else
          match hnext : skipImage rest with
          | none => images + 1
          | some next => countImages stopAt (images + 1) next
      else if introducer = 0x21 then
        match hnext : skipExtension rest with
        | none => images
        | some next => countImages stopAt images next
      else images
  else images
termination_by bytes.length
decreasing_by
  · exact Nat.lt_succ_of_le (length_skipImage hnext)
  · exact Nat.lt_succ_of_le (length_skipExtension hnext)

/-- `gif_image_count`. -/
def gifImageCount (file : List UInt8) (stopAt : ℕ) : ℕ :=
  let bytes := file.take gifAnimationScanBytes
  match skip 13 bytes with
  | none => 0
  | some afterScreen =>
    if bytes.take 6 = ascii "GIF87a" ∨ bytes.take 6 = ascii "GIF89a" then
      match skip (colorTable (bytes.getD 10 0)) afterScreen with
      | none => 0
      | some blocks => countImages stopAt 0 blocks
    else 0

/-- `gif_is_animated`. -/
def gifIsAnimated (file : List UInt8) : Bool := decide (2 ≤ gifImageCount file 2)

/-! ### WebP -/

/-- The bytes of the header of a chunk, when it lies wholly in the file header. An addition that the
source does not check is `none` where it overflows. -/
def chunkHeader (header : List UInt8) (offset : ℕ) : Option (Option (List UInt8)) :=
  (checked (maxOfBits 64) (offset + 8)).map (slice header offset)

/-- The offset of the next chunk, by additions that are checked. -/
def nextChunk (offset : ℕ) (chunk : List UInt8) : Option ℕ := do
  let length := leValue (chunk.drop 4)
  let payload ← checked (maxOfBits 64) (offset + 8)
  let stop ← checked (maxOfBits 64) (payload + length)
  checked (maxOfBits 64) (stop + length % 2)

/-- The chunk is one of an animation. -/
def isAnimationChunk (chunk : List UInt8) : Bool :=
  chunk.take 4 == ascii "ANIM" || chunk.take 4 == ascii "ANMF"

theorem length_of_chunkHeader {header chunk : List UInt8} {offset : ℕ}
    (h : chunkHeader header offset = some (some chunk)) : offset + 8 ≤ header.length := by
  obtain ⟨stop, hstop, hslice⟩ := Option.map_eq_some_iff.mp h
  obtain ⟨-, rfl⟩ := checked_eq_some_iff.mp hstop
  unfold slice at hslice
  split at hslice
  · rename_i hle
    exact hle.2
  · cases hslice

theorem nextChunk_eq {offset next : ℕ} {chunk : List UInt8} (h : nextChunk offset chunk = some next) :
    next = offset + 8 + leValue (chunk.drop 4) + leValue (chunk.drop 4) % 2 := by
  obtain ⟨payload, hpayload, h⟩ := Option.bind_eq_some_iff.mp h
  obtain ⟨-, rfl⟩ := checked_eq_some_iff.mp hpayload
  obtain ⟨stop, hstop, h⟩ := Option.bind_eq_some_iff.mp h
  obtain ⟨-, rfl⟩ := checked_eq_some_iff.mp hstop
  exact (checked_eq_some_iff.mp h).2.symm

/-- The loop of `webp_is_animated`. -/
def hasAnimationChunk (header : List UInt8) (offset : ℕ) : Option Bool :=
  match hchunk : chunkHeader header offset with
  | none => none
  | some none => some false
  | some (some chunk) =>
    if isAnimationChunk chunk then some true
    else
      match hnext : nextChunk offset chunk with
      | none => some false
      | some next => hasAnimationChunk header next
termination_by header.length - offset
decreasing_by
  have hlength := length_of_chunkHeader hchunk
  have hstep := nextChunk_eq hnext
  omega

/-- `VP8X_ANIMATION_FLAG` is set. -/
def hasAnimationFlag (header : List UInt8) : Bool :=
  decide (21 ≤ header.length) && (header.drop 12).take 4 == ascii "VP8X" &&
    header.getD 20 0 &&& 0x02 != 0

/-- `webp_is_animated`. -/
def webpIsAnimated (header : List UInt8) : Option Bool :=
  if hasAnimationFlag header then some true else hasAnimationChunk header 12

end Crabinet.Preview
