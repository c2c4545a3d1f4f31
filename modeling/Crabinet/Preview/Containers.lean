import Crabinet.Preview.Animation
import Crabinet.Library.Framing
import Mathlib.Logic.Relation

/-!
# Animation detection follows the container grammar

The blocks of a GIF and the chunks of a WebP as their formats define them. Skipping a block of the
grammar leaves what follows it, whatever its data look like.
-/

namespace Crabinet.Preview

open Crabinet.Library

/-! ### GIF -/

/-- A sub-block: its length and as many bytes. -/
structure SubBlock where
  data : List UInt8
  nonempty : 1 ≤ data.length
  length_le : data.length ≤ 255

/-- An image: its place and size, an optional table of colours, the code size and the data. -/
structure ImageBlock where
  placement : List UInt8
  packed : UInt8
  table : List UInt8
  codeSize : UInt8
  data : List SubBlock
  length_placement : placement.length = 8
  length_table : table.length = colorTable packed

/-- A block. -/
inductive GifBlock where
  | image (block : ImageBlock)
  | extension (label : UInt8) (data : List SubBlock)

/-- A file: the signature, the screen, an optional table of colours, the blocks, and the trailer with
anything after it, unless the file ends before. -/
structure Gif where
  is87 : Bool
  size : List UInt8
  packed : UInt8
  background : UInt8
  aspect : UInt8
  table : List UInt8
  blocks : List GifBlock
  trailer : Option (List UInt8)
  length_size : size.length = 4
  length_table : table.length = colorTable packed

/-- Sub-blocks and their terminator. -/
def encodeSubBlocks (data : List SubBlock) : List UInt8 :=
  data.flatMap (fun block => UInt8.ofNat block.data.length :: block.data) ++ [0]

/-- An image after its introducer. -/
def ImageBlock.encode (block : ImageBlock) : List UInt8 :=
  block.placement ++ block.packed :: (block.table ++ block.codeSize :: encodeSubBlocks block.data)

/-- A block with its introducer. -/
def GifBlock.encode : GifBlock → List UInt8
  | image block => 0x2c :: block.encode
  | extension label data => 0x21 :: label :: encodeSubBlocks data

/-- How many images there are among blocks. -/
def imageCount (blocks : List GifBlock) : ℕ :=
  blocks.countP fun
    | .image _ => true
    | .extension _ _ => false

namespace Gif

variable (gif : Gif)

/-- What comes before the blocks. -/
def prologue : List UInt8 :=
  ascii (if gif.is87 then "GIF87a" else "GIF89a") ++
    (gif.size ++ [gif.packed, gif.background, gif.aspect] ++ gif.table)

/-- What comes after the blocks. -/
def epilogue : List UInt8 :=
  match gif.trailer with
  | none => []
  | some after => 0x3b :: after

/-- The file. -/
def encode : List UInt8 := gif.prologue ++ (gif.blocks.flatMap GifBlock.encode ++ gif.epilogue)

/-- If there is a second image, its introducer lies within the bound of the scan. -/
def SecondImageWithin : Prop :=
  ∀ before block after, gif.blocks = before ++ .image block :: after → imageCount before = 1 →
    (gif.prologue ++ before.flatMap GifBlock.encode).length < gifAnimationScanBytes

end Gif

theorem skipSubBlocks_encode (data : List SubBlock) (rest : List UInt8) :
    skipSubBlocks (encodeSubBlocks data ++ rest) = some rest := by
  induction data with
  | nil => rw [encodeSubBlocks, List.flatMap_nil, List.nil_append, List.singleton_append,
      skipSubBlocks, if_pos rfl]
  | cons block data ih =>
    have hlength : (UInt8.ofNat block.data.length).toNat = block.data.length :=
      UInt8.toNat_ofNat_of_lt (Nat.lt_succ_of_le block.length_le)
    have hzero : UInt8.ofNat block.data.length ≠ 0 := fun h => by
      have hnonempty := block.nonempty
      rw [← hlength, h] at hnonempty
      cases hnonempty
    have hsplit : encodeSubBlocks (block :: data) ++ rest =
        UInt8.ofNat block.data.length :: (block.data ++ (encodeSubBlocks data ++ rest)) := by
      simp [encodeSubBlocks]
    rw [hsplit, skipSubBlocks, if_neg hzero, hlength,
      if_pos (by rw [List.length_append]; exact Nat.le_add_right _ _), List.drop_left]
    exact ih

theorem skipImage_encode (block : ImageBlock) (rest : List UInt8) :
    skipImage (block.encode ++ rest) = some rest := by
  have hdescriptor : skip 9 (block.encode ++ rest) =
      some (block.table ++ (block.codeSize :: encodeSubBlocks block.data ++ rest)) := by
    have := skip_self (block.placement ++ [block.packed])
      (block.table ++ (block.codeSize :: encodeSubBlocks block.data ++ rest))
    rw [List.length_append, block.length_placement] at this
    simpa [ImageBlock.encode] using this
  have hpacked : (block.encode ++ rest)[8]? = some block.packed := by
    rw [ImageBlock.encode, List.append_assoc, List.getElem?_append_right block.length_placement.le,
      block.length_placement]
    rfl
  rw [skipImage, hdescriptor, hpacked]
  change (skip (colorTable block.packed) _ >>= _) = _
  rw [← block.length_table, skip_self]
  change (skip 1 (block.codeSize :: encodeSubBlocks block.data ++ rest) >>= _) = _
  exact skipSubBlocks_encode block.data rest

theorem skipExtension_encode (label : UInt8) (data : List SubBlock) (rest : List UInt8) :
    skipExtension (label :: encodeSubBlocks data ++ rest) = some rest := by
  exact skipSubBlocks_encode data rest

section Counting

variable {stopAt images : ℕ} {bytes rest : List UInt8} {blocks : List GifBlock}

theorem countImages_le (h : images ≤ stopAt) : images ≤ countImages stopAt images bytes := by
  fun_induction countImages stopAt images bytes <;> omega

/-- The image that the count stops at. -/
theorem countImages_last (h : images + 1 = stopAt) :
    countImages stopAt images (0x2c :: rest) = images + 1 := by
  rw [countImages, if_pos (by omega), if_pos rfl, if_pos h.ge]

theorem countImages_image (h : images + 1 < stopAt) {next : List UInt8}
    (hnext : skipImage rest = some next) :
    countImages stopAt images (0x2c :: rest) = countImages stopAt (images + 1) next := by
  rw [countImages, if_pos (by omega), if_pos rfl, if_neg (by omega)]
  split
  · rename_i hnone
    rw [hnext] at hnone
    cases hnone
  · rename_i found hfound
    rw [hnext] at hfound
    rw [Option.some.inj hfound]

theorem countImages_extension (h : images < stopAt) {next : List UInt8}
    (hnext : skipExtension rest = some next) :
    countImages stopAt images (0x21 :: rest) = countImages stopAt images next := by
  rw [countImages, if_pos h, if_neg (by decide), if_pos rfl]
  split
  · rename_i hnone
    rw [hnext] at hnone
    cases hnone
  · rename_i found hfound
    rw [hnext] at hfound
    rw [Option.some.inj hfound]

/-- More bytes do not hide an image. -/
theorem countImages_append (more : List UInt8) :
    countImages stopAt images bytes ≤ countImages stopAt images (bytes ++ more) := by
  fun_induction countImages stopAt images bytes with
  | case1 images hlt => exact countImages_le hlt.le
  | case2 images hlt rest hstop => rw [List.cons_append, countImages_last (by omega)]
  | case3 images hlt rest hstop hnone =>
    rw [List.cons_append, countImages, if_pos hlt, if_pos rfl, if_neg hstop]
    split
    · exact le_rfl
    · exact countImages_le (by omega)
  | case4 images hlt rest hstop next hnext ih =>
    rw [List.cons_append, countImages_image (by omega) (skipImage_append hnext more)]
    exact ih
  | case5 images hlt rest hne hnone => exact countImages_le hlt.le
  | case6 images hlt rest next hnext hne ih =>
    rw [List.cons_append, countImages_extension hlt (skipExtension_append hnext more)]
    exact ih
  | case7 images hlt => exact countImages_le hlt.le
  | case8 images bytes hge =>
    rw [countImages.eq_def, if_neg hge]

theorem imageCount_cons (block : GifBlock) (blocks : List GifBlock) :
    imageCount (block :: blocks) = imageCount [block] + imageCount blocks := by
  rw [imageCount, ← List.singleton_append, List.countP_append]
  rfl

/-- An image has its place among the blocks, with as many images before it. -/
theorem exists_image {index : ℕ} (h : index < imageCount blocks) :
    ∃ before block after, blocks = before ++ .image block :: after ∧ imageCount before = index := by
  induction blocks generalizing index with
  | nil => cases h
  | cons first blocks ih =>
    rw [imageCount_cons] at h
    cases first with
    | image block =>
      have hone : imageCount [.image block] = 1 := rfl
      cases index with
      | zero => exact ⟨[], block, blocks, rfl, rfl⟩
      | succ index =>
        obtain ⟨before, found, after, hblocks, hcount⟩ :=
          ih (show index < imageCount blocks by omega)
        refine ⟨.image block :: before, found, after, congrArg _ hblocks, ?_⟩
        rw [imageCount_cons, hone, hcount, Nat.add_comm]
    | extension label data =>
      have hzero : imageCount [.extension label data] = 0 := rfl
      obtain ⟨before, found, after, hblocks, hcount⟩ :=
        ih (show index < imageCount blocks by omega)
      refine ⟨.extension label data :: before, found, after, congrArg _ hblocks, ?_⟩
      rw [imageCount_cons, hzero, hcount, Nat.zero_add]

/-- Blocks are counted as what they are. -/
theorem countImages_encode (h : images + imageCount blocks < stopAt) :
    countImages stopAt images (blocks.flatMap GifBlock.encode ++ rest) =
      countImages stopAt (images + imageCount blocks) rest := by
  induction blocks generalizing images with
  | nil => rfl
  | cons block blocks ih =>
    rw [imageCount_cons, ← Nat.add_assoc] at h ⊢
    rw [List.flatMap_cons, List.append_assoc]
    cases block with
    | image block =>
      have hone : imageCount [.image block] = 1 := rfl
      rw [hone] at h ⊢
      rw [GifBlock.encode, List.cons_append,
        countImages_image (by omega) (skipImage_encode block _)]
      exact ih h
    | extension label data =>
      have hzero : imageCount [.extension label data] = 0 := rfl
      rw [hzero, Nat.add_zero] at h ⊢
      rw [GifBlock.encode, List.cons_append,
        countImages_extension (by omega) (skipExtension_encode label data _)]
      exact ih h

end Counting

namespace Gif

variable {gif : Gif}

/-- The signature. -/
def signature (gif : Gif) : List UInt8 := ascii (if gif.is87 then "GIF87a" else "GIF89a")

theorem signature_eq : gif.signature = ascii "GIF87a" ∨ gif.signature = ascii "GIF89a" := by
  unfold signature
  cases gif.is87 with
  | true => exact .inl rfl
  | false => exact .inr rfl

theorem length_signature : gif.signature.length = 6 := by
  rcases gif.signature_eq with h | h <;> rw [h] <;> rfl

/-- The part of the prologue before its table. -/
theorem prologue_eq : gif.prologue =
    (gif.signature ++ gif.size ++ [gif.packed, gif.background, gif.aspect]) ++ gif.table := by
  rw [prologue, List.append_assoc, List.append_assoc, List.append_assoc, signature]

theorem length_screen :
    (gif.signature ++ gif.size ++ [gif.packed, gif.background, gif.aspect]).length = 13 := by
  rw [List.length_append, List.length_append, length_signature, gif.length_size]
  rfl

theorem length_table_le : gif.table.length ≤ 768 := by
  have hmask : (gif.packed &&& 0x07).toNat ≤ 7 := by
    rw [UInt8.toNat_and]
    exact Nat.and_le_right
  rw [gif.length_table, colorTable]
  split
  · exact Nat.zero_le _
  · rw [Nat.shiftLeft_eq]
    exact Nat.mul_le_mul_left 3 (Nat.pow_le_pow_right (by decide) (Nat.succ_le_succ hmask))

theorem length_prologue_le : gif.prologue.length ≤ gifAnimationScanBytes := by
  have hscan : gifAnimationScanBytes = 8388608 := rfl
  have htable := gif.length_table_le
  rw [prologue_eq, List.length_append, length_screen]
  omega

/-- The count starts at the first block. -/
theorem gifImageCount_encode (stopAt : ℕ) : gifImageCount gif.encode stopAt =
    countImages stopAt 0 ((gif.blocks.flatMap GifBlock.encode ++ gif.epilogue).take
      (gifAnimationScanBytes - gif.prologue.length)) := by
  obtain ⟨tail, htail⟩ : ∃ tail, (gif.blocks.flatMap GifBlock.encode ++ gif.epilogue).take
    (gifAnimationScanBytes - gif.prologue.length) = tail := ⟨_, rfl⟩
  have htake : gif.encode.take gifAnimationScanBytes =
      (gif.signature ++ gif.size ++ [gif.packed, gif.background, gif.aspect]) ++
        (gif.table ++ tail) := by
    rw [encode, List.take_append, List.take_of_length_le gif.length_prologue_le, htail, prologue_eq,
      List.append_assoc]
  have hscreen := skip_self (gif.signature ++ gif.size ++ [gif.packed, gif.background, gif.aspect])
    (gif.table ++ tail)
  rw [length_screen] at hscreen
  have hsignature : ((gif.signature ++ gif.size ++ [gif.packed, gif.background, gif.aspect]) ++
      (gif.table ++ tail)).take 6 = gif.signature := by
    rw [List.append_assoc, List.append_assoc, List.take_left' gif.length_signature]
  have hpacked : ((gif.signature ++ gif.size ++ [gif.packed, gif.background, gif.aspect]) ++
      (gif.table ++ tail)).getD 10 0 = gif.packed := by
    have hten : (gif.signature ++ gif.size).length = 10 := by
      rw [List.length_append, length_signature, gif.length_size]
    rw [List.append_assoc, List.getD_eq_getElem?_getD, List.getElem?_append_right hten.le, hten]
    rfl
  rw [gifImageCount, htake, hscreen]
  dsimp only
  rw [hsignature, if_pos gif.signature_eq, hpacked, ← gif.length_table, skip_self, htail]

/-- Where the blocks end, no image is counted. -/
theorem countImages_epilogue {stopAt images : ℕ} :
    countImages stopAt images gif.epilogue = images := by
  unfold epilogue
  split
  · unfold countImages
    exact ite_self _
  · rw [countImages.eq_def]
    split
    · dsimp only
      rw [if_neg (by decide), if_neg (by decide)]
    · rfl

/-- A GIF is animated exactly when it has a second image, if that one is within the bound. -/
theorem gifIsAnimated_iff (h : gif.SecondImageWithin) :
    gifIsAnimated gif.encode = true ↔ 2 ≤ imageCount gif.blocks := by
  rw [gifIsAnimated, decide_eq_true_iff, gifImageCount_encode]
  constructor
  · intro hcount
    by_contra hfew
    have hall : countImages 2 0 ((gif.blocks.flatMap GifBlock.encode ++ gif.epilogue).take
        (gifAnimationScanBytes - gif.prologue.length)) ≤ countImages 2 0 _ :=
      countImages_append ((gif.blocks.flatMap GifBlock.encode ++ gif.epilogue).drop
        (gifAnimationScanBytes - gif.prologue.length))
    rw [List.take_append_drop, countImages_encode (by omega), countImages_epilogue] at hall
    omega
  · intro htwo
    obtain ⟨before, block, after, hblocks, hone⟩ := exists_image htwo
    have hwithin := h before block after hblocks hone
    rw [List.length_append] at hwithin
    obtain ⟨more, hmore⟩ : ∃ more, gifAnimationScanBytes - gif.prologue.length =
        (before.flatMap GifBlock.encode).length + (more + 1) :=
      ⟨gifAnimationScanBytes - gif.prologue.length - (before.flatMap GifBlock.encode).length - 1,
        by omega⟩
    rw [hblocks, List.flatMap_append, List.flatMap_cons, List.append_assoc, hmore,
      List.take_length_add_append, GifBlock.encode, List.cons_append, List.cons_append,
      List.take_succ_cons, countImages_encode (by omega), hone, countImages_last rfl]

end Gif

/-! ### WebP -/

section Chunks

variable {header : List UInt8} {offset next : ℕ}

/-- The first eight bytes of a chunk. -/
def chunkAt (header : List UInt8) (offset : ℕ) : List UInt8 := (header.drop offset).take 8

/-- The length that a chunk declares. -/
def chunkLength (header : List UInt8) (offset : ℕ) : ℕ := leValue ((chunkAt header offset).drop 4)

/-- The chunk after one whose header lies wholly in the file header; payloads are padded to an even
length. -/
def NextChunk (header : List UInt8) (offset next : ℕ) : Prop :=
  offset + 8 ≤ header.length ∧
    next = offset + 8 + chunkLength header offset + chunkLength header offset % 2

/-- A top-level chunk of a file, the first of which follows the RIFF header. -/
def IsChunk (header : List UInt8) (offset : ℕ) : Prop :=
  Relation.ReflTransGen (NextChunk header) 12 offset

theorem chunkLength_lt (h : offset + 8 ≤ header.length) : chunkLength header offset < 2 ^ 32 := by
  have hlength : ((chunkAt header offset).drop 4).length = 4 := by
    rw [chunkAt, List.length_drop, List.length_take, List.length_drop]
    omega
  have hlt := leValue_lt ((chunkAt header offset).drop 4)
  rwa [hlength] at hlt

/-- Offsets increase, and fit 64 bits. -/
theorem NextChunk.lt (hheader : header.length < 2 ^ 63) (h : NextChunk header offset next) :
    offset < next ∧ next ≤ maxOfBits 64 := by
  obtain ⟨hle, rfl⟩ := h
  have hlength := chunkLength_lt hle
  have hmax : maxOfBits 64 = 18446744073709551615 := rfl
  omega

theorem chunkHeader_eq (hheader : header.length < 2 ^ 63)
    (hoffset : offset ≤ header.length + 2 ^ 33) : chunkHeader header offset =
      some (if offset + 8 ≤ header.length then some (chunkAt header offset) else none) := by
  have hmax : maxOfBits 64 = 18446744073709551615 := rfl
  rw [chunkHeader, checked_of_le (by omega), Option.map_some, slice]
  by_cases hle : offset + 8 ≤ header.length
  · rw [if_pos ⟨Nat.le_add_right _ _, hle⟩, if_pos hle, Nat.add_sub_cancel_left, chunkAt]
  · rw [if_neg fun h => hle h.2, if_neg hle]

theorem nextChunk_chunkAt (hheader : header.length < 2 ^ 63) (h : offset + 8 ≤ header.length) :
    nextChunk offset (chunkAt header offset) =
      some (offset + 8 + chunkLength header offset + chunkLength header offset % 2) := by
  have hlength := chunkLength_lt h
  have hmax : maxOfBits 64 = 18446744073709551615 := rfl
  unfold nextChunk
  change (checked (maxOfBits 64) (offset + 8) >>= _) = _
  rw [checked_of_le (by omega)]
  change (checked (maxOfBits 64) (offset + 8 + chunkLength header offset) >>= _) = _
  rw [checked_of_le (by omega)]
  exact checked_of_le (by omega)

/-- The walk from a chunk ends, and finds the chunks of an animation from there on. -/
theorem hasAnimationChunk_iff (hheader : header.length < 2 ^ 63)
    (hoffset : offset ≤ header.length + 2 ^ 33) :
    ∃ answer, hasAnimationChunk header offset = some answer ∧
      (answer = true ↔ ∃ chunk, Relation.ReflTransGen (NextChunk header) offset chunk ∧
        chunk + 8 ≤ header.length ∧ isAnimationChunk (chunkAt header chunk) = true) := by
  fun_induction hasAnimationChunk header offset with
  | case1 offset hchunk =>
    rw [chunkHeader_eq hheader hoffset] at hchunk
    cases hchunk
  | case2 offset hchunk =>
    rw [chunkHeader_eq hheader hoffset] at hchunk
    split at hchunk
    · cases hchunk
    · rename_i hend
      refine ⟨false, rfl, iff_of_false Bool.false_ne_true ?_⟩
      rintro ⟨chunk, hreach, hle, -⟩
      rcases Relation.ReflTransGen.cases_head hreach with rfl | ⟨next, hnext, -⟩
      · exact hend hle
      · exact hend hnext.1
  | case3 offset found hchunk hfound =>
    rw [chunkHeader_eq hheader hoffset] at hchunk
    split at hchunk
    · rename_i hle
      obtain rfl := Option.some.inj (Option.some.inj hchunk)
      exact ⟨true, rfl, iff_of_true rfl ⟨offset, .refl, hle, hfound⟩⟩
    · cases hchunk
  | case4 offset found hchunk hother hnext =>
    have hle := length_of_chunkHeader hchunk
    rw [chunkHeader_eq hheader hoffset, if_pos hle] at hchunk
    obtain rfl := Option.some.inj (Option.some.inj hchunk)
    rw [nextChunk_chunkAt hheader hle] at hnext
    cases hnext
  | case5 offset found hchunk hother next hnext ih =>
    have hle := length_of_chunkHeader hchunk
    rw [chunkHeader_eq hheader hoffset, if_pos hle] at hchunk
    obtain rfl := Option.some.inj (Option.some.inj hchunk)
    rw [nextChunk_chunkAt hheader hle] at hnext
    obtain rfl := Option.some.inj hnext
    have hlength := chunkLength_lt hle
    obtain ⟨answer, hanswer, hiff⟩ := ih (by omega)
    refine ⟨answer, hanswer, hiff.trans ⟨?_, ?_⟩⟩
    · rintro ⟨chunk, hreach, hrest⟩
      exact ⟨chunk, .head ⟨hle, rfl⟩ hreach, hrest⟩
    · rintro ⟨chunk, hreach, hrest⟩
      rcases Relation.ReflTransGen.cases_head hreach with rfl | ⟨next, ⟨-, rfl⟩, hreach⟩
      · exact absurd hrest.2 hother
      · exact ⟨chunk, hreach, hrest⟩

end Chunks

end Crabinet.Preview
