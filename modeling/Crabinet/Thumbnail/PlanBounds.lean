import Crabinet.Thumbnail.Plan
import Mathlib.Data.List.Infix
import Mathlib.Tactic.Linarith

/-!
# What a plan guarantees

The walks of the headers read only the file and leave dimensions in 32 bits; the check of the pixels
then bounds everything that is computed from them, so no operation overflows. The image is never
scaled up, and is decoded at the largest fraction that still covers the output.
-/

namespace Crabinet.Thumbnail

open Crabinet.Library Crabinet.Library.Traced

variable {width height longest longEdge side outWidth outHeight : ℕ}

theorem fit64_of_lt {value : ℕ} (h : value < 2 ^ 64) : fit64 value = some value :=
  checked_of_le (by unfold maxOfBits; omega)

/-! ### Sizes -/

/-- A side of an image that is scaled so that its longest side is the long edge, rounded, and at least
one pixel. -/
def scaledSide (longest longEdge side : ℕ) : ℕ := max ((side * longEdge + longest / 2) / longest) 1

theorem scaledSide_le_side (hedge : longEdge < longest) (hside : 1 ≤ side) :
    scaledSide longest longEdge side ≤ side := by
  have hshort : side * longEdge + side ≤ side * longest := by
    rw [← Nat.mul_succ]
    exact Nat.mul_le_mul_left side hedge
  refine Nat.max_le.mpr ⟨Nat.lt_succ_iff.mp ?_, hside⟩
  rw [Nat.div_lt_iff_lt_mul (by omega), Nat.succ_mul]
  omega

theorem scaledSide_le_edge (hedge : longEdge < longest) (hside : side ≤ longest) :
    scaledSide longest longEdge side ≤ max longEdge 1 := by
  have hlong : side * longEdge ≤ longEdge * longest := by
    rw [Nat.mul_comm longEdge]
    exact Nat.mul_le_mul_right longEdge hside
  refine Nat.max_le.mpr ⟨le_trans (Nat.lt_succ_iff.mp ?_) (Nat.le_max_left _ _), Nat.le_max_right _ _⟩
  rw [Nat.div_lt_iff_lt_mul (by omega), Nat.succ_mul]
  omega

theorem scaledSide_longest (hedge : longEdge < longest) :
    scaledSide longest longEdge longest = max longEdge 1 := by
  rw [scaledSide, Nat.mul_add_div (by omega), Nat.div_eq_of_lt (by omega : longest / 2 < longest),
    Nat.add_zero]

theorem scaleSide_eq (hedge : longEdge < longest) (hside : side ≤ longest) (hlongest : longest < 2 ^ 32) :
    scaleSide longest longEdge side = some (scaledSide longest longEdge side) := by
  have hproduct : side * longEdge ≤ (2 ^ 32 - 1) * (2 ^ 32 - 2) :=
    Nat.mul_le_mul (by omega) (by omega)
  have hfit := scaledSide_le_edge hedge hside
  unfold scaleSide
  rw [fit64_of_lt (by omega), Option.bind_eq_bind, Option.bind_some, checkedDiv_of_pos (by omega)]
  change some ((checked _ (scaledSide longest longEdge side)).getD longEdge) = _
  rw [checked_of_le (by unfold maxOfBits; omega), Option.getD_some]

/-- What the size of the output is: neither axis is scaled up, and an image that is too large is scaled
to the long edge. -/
structure OutputOk (width height longEdge outWidth outHeight : ℕ) : Prop where
  columns : 1 ≤ outWidth ∧ outWidth ≤ width
  rows : 1 ≤ outHeight ∧ outHeight ≤ height
  fits : max outWidth outHeight ≤ max longEdge 1
  reaches : longEdge < max width height → max outWidth outHeight = max longEdge 1

theorem outputSize_ok (hwidth : 1 ≤ width) (hheight : 1 ≤ height) (hfit : max width height < 2 ^ 32) :
    ∃ outWidth outHeight, outputSize width height longEdge = some (outWidth, outHeight) ∧
      OutputOk width height longEdge outWidth outHeight := by
  unfold outputSize
  by_cases hedge : max width height ≤ longEdge
  · refine ⟨width, height, if_pos hedge, ⟨hwidth, le_rfl⟩, ⟨hheight, le_rfl⟩, ?_, ?_⟩
    · exact hedge.trans (Nat.le_max_left _ _)
    · exact fun h => absurd hedge (Nat.not_le.mpr h)
  · rw [Nat.not_le] at hedge
    refine ⟨scaledSide (max width height) longEdge width,
      scaledSide (max width height) longEdge height, ?_, ?_⟩
    · dsimp only
      rw [if_neg (Nat.not_le.mpr hedge), scaleSide_eq hedge (Nat.le_max_left _ _) hfit,
        scaleSide_eq hedge (Nat.le_max_right _ _) hfit]
      rfl
    · have hboth := Nat.max_le.mpr ⟨scaledSide_le_edge hedge (Nat.le_max_left width height),
        scaledSide_le_edge hedge (Nat.le_max_right width height)⟩
      refine ⟨⟨Nat.le_max_right _ _, scaledSide_le_side hedge hwidth⟩,
        ⟨Nat.le_max_right _ _, scaledSide_le_side hedge hheight⟩, hboth, fun _ => ?_⟩
      refine le_antisymm hboth ?_
      rcases Nat.le_total width height with hle | hle
      · rw [Nat.max_eq_right hle] at hedge ⊢
        exact (scaledSide_longest hedge).ge.trans (Nat.le_max_right _ _)
      · rw [Nat.max_eq_left hle] at hedge ⊢
        exact (scaledSide_longest hedge).ge.trans (Nat.le_max_left _ _)

/-- The scale is the largest of those that a decoder has that covers the output. -/
structure ScaleOk (width height outWidth outHeight scale : ℕ) : Prop where
  offered : scale ∈ [1, 2, 4, 8]
  covers : coversAt width height outWidth outHeight scale = true
  largest : ∀ other ∈ [1, 2, 4, 8], coversAt width height outWidth outHeight other = true →
    other ≤ scale

theorem jpegScale_ok (hwidth : outWidth ≤ width) (hheight : outHeight ≤ height) :
    ScaleOk width height outWidth outHeight (jpegScale width height outWidth outHeight) := by
  have hfull : coversAt width height outWidth outHeight 1 = true := by
    simp [coversAt, hwidth, hheight]
  unfold jpegScale
  by_cases h8 : coversAt width height outWidth outHeight 8 = true
  · rw [List.find?_cons_of_pos h8, Option.getD_some]
    exact ⟨by decide, h8, fun other hother _ => by simp at hother; omega⟩
  · rw [List.find?_cons_of_neg h8]
    by_cases h4 : coversAt width height outWidth outHeight 4 = true
    · rw [List.find?_cons_of_pos h4, Option.getD_some]
      refine ⟨by decide, h4, fun other hother hcovers => ?_⟩
      simp only [List.mem_cons, List.not_mem_nil, or_false] at hother
      rcases hother with rfl | rfl | rfl | rfl
      exacts [by decide, by decide, le_rfl, absurd hcovers h8]
    · rw [List.find?_cons_of_neg h4]
      by_cases h2 : coversAt width height outWidth outHeight 2 = true
      · rw [List.find?_cons_of_pos h2, Option.getD_some]
        refine ⟨by decide, h2, fun other hother hcovers => ?_⟩
        simp only [List.mem_cons, List.not_mem_nil, or_false] at hother
        rcases hother with rfl | rfl | rfl | rfl
        exacts [by decide, le_rfl, absurd hcovers h4, absurd hcovers h8]
      · rw [List.find?_cons_of_neg h2, List.find?_nil, Option.getD_none]
        refine ⟨by decide, hfull, fun other hother hcovers => ?_⟩
        simp only [List.mem_cons, List.not_mem_nil, or_false] at hother
        rcases hother with rfl | rfl | rfl | rfl
        exacts [le_rfl, absurd hcovers h2, absurd hcovers h4, absurd hcovers h8]

/-! ### Estimates -/

theorem divCeil_le {value divisor : ℕ} (hvalue : 1 ≤ value) (hdivisor : 1 ≤ divisor) :
    (value + divisor - 1) / divisor ≤ value := by
  have hmul := Nat.le_mul_of_pos_right value hdivisor
  rw [← Nat.lt_succ_iff, Nat.div_lt_iff_lt_mul hdivisor, Nat.succ_mul]
  omega

theorem jpegDecodeEstimate_some {header : JpegHeader} {scale streamLen : ℕ} (h : header.Valid)
    (hscale : 1 ≤ scale) (hstream : streamLen ≤ maxSourceBytes) :
    ∃ bytes, jpegDecodeEstimate header scale streamLen = some bytes := by
  obtain ⟨⟨-, hwidth⟩, ⟨-, hheight⟩, hcomponents, -⟩ := h
  have hcomponents : header.components ≤ 4 := by
    simp only [List.mem_cons, List.not_mem_nil, or_false] at hcomponents
    omega
  have hstream : streamLen ≤ 100 * 1024 * 1024 := hstream
  let paddedWidth := header.width + 64
  let paddedHeight := header.height + 64
  let scaled := (paddedWidth + scale - 1) / scale * ((paddedHeight + scale - 1) / scale)
  have hpaddedWidth : paddedWidth ≤ 2 ^ 17 := by simp only [paddedWidth]; omega
  have hpaddedHeight : paddedHeight ≤ 2 ^ 17 := by simp only [paddedHeight]; omega
  have hscaled : scaled ≤ 2 ^ 17 * 2 ^ 17 :=
    Nat.mul_le_mul ((divCeil_le (Nat.succ_pos _) hscale).trans hpaddedWidth)
      ((divCeil_le (Nat.succ_pos _) hscale).trans hpaddedHeight)
  have hplanes : header.components * scaled ≤ 4 * (2 ^ 17 * 2 ^ 17) := Nat.mul_le_mul hcomponents hscaled
  have hrow : header.components * paddedWidth ≤ 4 * 2 ^ 17 := Nat.mul_le_mul hcomponents hpaddedWidth
  have hall : header.components * paddedWidth * paddedHeight ≤ 4 * 2 ^ 17 * 2 ^ 17 :=
    Nat.mul_le_mul hrow hpaddedHeight
  unfold jpegDecodeEstimate
  refine exists_bind_eq_some (checkedDivCeil_of_pos hscale) ?_
  refine exists_bind_eq_some (checkedDivCeil_of_pos hscale) ?_
  refine exists_bind_eq_some (fit64_of_lt (by change scaled < _; omega)) ?_
  refine exists_bind_eq_some (fit64_of_lt (by change header.components * scaled < _; omega)) ?_
  refine exists_bind_eq_some (fit64_of_lt (by change header.components * scaled < _; omega)) ?_
  have hcoefficients : (if header.progressive then
      header.components * paddedWidth * paddedHeight * 2 else 0) ≤ 4 * 2 ^ 17 * 2 ^ 17 * 2 := by
    split <;> omega
  refine exists_bind_eq_some (fit64_of_lt (hcoefficients.trans_lt (by decide))) ?_
  refine exists_bind_eq_some (fit64_of_lt ?_) ⟨_, fit64_of_lt ?_⟩
  · change header.components * paddedWidth * 32 * 2 * 2 < _
    omega
  · change header.components * scaled + header.components * scaled + (if header.progressive then
      header.components * paddedWidth * paddedHeight * 2 else 0) +
      header.components * paddedWidth * 32 * 2 * 2 + streamLen < _
    omega

theorem encodeEstimate_some (hpixels : outWidth * outHeight ≤ maxImagePixels)
    (hfit : max outWidth outHeight < 2 ^ 32) : ∃ bytes, encodeEstimate outWidth outHeight = some bytes := by
  unfold maxImagePixels at hpixels
  unfold encodeEstimate
  refine exists_bind_eq_some (fit64_of_lt (by omega)) ?_
  refine exists_bind_eq_some (checkedDivCeil_of_pos (by decide)) ?_
  refine exists_bind_eq_some (fit64_of_lt (by omega)) ?_
  refine exists_bind_eq_some (fit64_of_lt (by omega)) ?_
  refine exists_bind_eq_some (fit64_of_lt (by omega)) ?_
  exact exists_bind_eq_some (fit64_of_lt (by omega)) ⟨_, rfl⟩

/-- What the estimate relies on. -/
structure Source.Sized (source : Source) : Prop where
  pixels : source.width * source.height ≤ maxImagePixels
  fits : max source.width source.height < 2 ^ 32
  window : source.windowLen ≤ maxSourceBytes
  jpeg : ∀ header scale, source.codec = .jpeg header scale → header.Valid ∧ 1 ≤ scale
  png : ∀ header, source.codec = .png header → header.bitsPerPixel ≤ 64

theorem decodeEstimate_some {source : Source} (h : source.Sized) :
    ∃ bytes, decodeEstimate source = some bytes := by
  obtain ⟨hpixels, hfits, hwindow, hjpeg, hpng⟩ := h
  unfold maxImagePixels at hpixels
  unfold decodeEstimate
  refine exists_bind_eq_some (fit64_of_lt (by omega)) ?_
  cases hcodec : source.codec with
  | jpeg header scale =>
    obtain ⟨hvalid, hscale⟩ := hjpeg header scale hcodec
    exact jpegDecodeEstimate_some hvalid hscale hwindow
  | png header =>
    have hbits : source.width * header.bitsPerPixel ≤ 2 ^ 32 * 64 :=
      Nat.mul_le_mul (by omega) (hpng header hcodec)
    refine exists_bind_eq_some (fit64_of_lt (by omega)) ?_
    refine exists_bind_eq_some (checkedDivCeil_of_pos (by decide)) ?_
    refine exists_bind_eq_some (fit64_of_lt (by omega)) ?_
    refine exists_bind_eq_some (fit64_of_lt (by omega)) ?_
    refine exists_bind_eq_some (fit64_of_lt (by omega)) ?_
    have hframe : (if header.interlaced then source.width * source.height * 4 else 0) ≤
        100000000 * 4 := by
      split <;> omega
    refine exists_bind_eq_some (fit64_of_lt (hframe.trans_lt (by decide))) ?_
    exact ⟨_, fit64_of_lt (by unfold pngAncillaryLimit; omega)⟩
  | gif => exact ⟨_, fit64_of_lt (by omega)⟩
  | webP => exact ⟨_, fit64_of_lt (by unfold webpMetadataLimit; omega)⟩

theorem estimate_some {source : Source} (h : source.Sized) (hwidth : outWidth ≤ source.width)
    (hheight : outHeight ≤ source.height) : ∃ bytes, estimate source outWidth outHeight = some bytes := by
  have hout : outWidth * outHeight ≤ maxImagePixels := (Nat.mul_le_mul hwidth hheight).trans h.pixels
  have hfits := h.fits
  obtain ⟨decode, hdecode⟩ := decodeEstimate_some h
  obtain ⟨encode, hencode⟩ := encodeEstimate_some hout (by omega)
  unfold maxImagePixels at hout
  unfold estimate
  refine exists_bind_eq_some hdecode ?_
  refine exists_bind_eq_some (fit64_of_lt (by omega)) ?_
  refine exists_bind_eq_some (fit64_of_lt (by omega)) ?_
  refine exists_bind_eq_some (fit64_of_lt (by omega)) ?_
  exact exists_bind_eq_some hencode ⟨_, rfl⟩

/-! ### Headers -/

variable {reader : List UInt8} {len : ℕ}

theorem pngHeader_bounded (reader : List UInt8) (len : ℕ) :
    Bounded len 25 (fun _ => True)
      (fun header => max header.width header.height < 2 ^ 32 ∧ header.bitsPerPixel ≤ 64)
      (pngHeader reader len) := by
  refine (readAt_bounded reader 8 25 le_rfl).bind _ 0 fun ihdr hihdr => ?_
  have hfield (start : ℕ) : beValue ((ihdr.drop start).take 4) < 256 ^ 4 :=
    (beValue_lt _).trans_le (Nat.pow_le_pow_right (by decide) (List.length_take_le _ _))
  dsimp only
  split
  · exact bounded_fail trivial
  · split
    · exact bounded_fail trivial
    · rename_i channels hchannels
      split
      · exact bounded_fail trivial
      · rename_i hdepth
        have hchannels : channels ≤ 4 := by
          split at hchannels <;> cases hchannels <;> decide
        have hdepth : (ihdr.getD 16 0).toNat ≤ 16 := by
          simp only [List.mem_cons, List.not_mem_nil, or_false, not_not] at hdepth
          omega
        exact bounded_pure ⟨Nat.max_lt.mpr ⟨hfield 8, hfield 12⟩, Nat.mul_le_mul hchannels hdepth⟩

/-- What a preview that is kept guarantees. -/
structure RawPreview.Ok (len : ℕ) (preview : RawPreview) : Prop where
  window : preview.offset + preview.length ≤ len
  header : preview.header.Valid
  orientation : 1 ≤ preview.orientation ∧ preview.orientation ≤ 8

theorem keepPreview_bounded (reader : List UInt8) (hlen : len ≤ maxSourceBytes) {orientation : ℕ}
    (horientation : 1 ≤ orientation ∧ orientation ≤ 8) {best : Option RawPreview}
    (hbest : ∀ preview, best = some preview → preview.Ok len) {candidate : Tiff.Candidate}
    (hinside : candidate.offset + candidate.length ≤ len) :
    Bounded len jpegBudget (fun _ => True)
      (fun best => ∀ preview, best = some preview → RawPreview.Ok len preview)
      (keepPreview reader orientation best candidate) := by
  have hwalk := jpegHeader_bounded reader hinside hlen
  refine hwalk.attempt.bind _ 0 ?_
  rintro _ rfl
  cases hfound : (jpegHeader reader candidate.offset candidate.length).outcome.toOption with
  | none => exact bounded_pure hbest
  | some header =>
    have hheader : header.Valid := hwalk.post_of_ok (toOption_eq_some.mp hfound)
    have hpixels {header : JpegHeader} (h : header.Valid) : header.width * header.height < 2 ^ 64 := by
      refine (Nat.mul_le_mul h.width.2.le h.height.2.le).trans_lt ?_
      decide
    have hpreview : RawPreview.Ok len ⟨candidate.offset, candidate.length, header, orientation⟩ :=
      ⟨hinside, hheader, horientation⟩
    dsimp only
    rw [fit64_of_lt (hpixels hheader)]
    cases best with
    | none =>
      refine bounded_pure ?_
      rintro _ ⟨⟩
      exact hpreview
    | some current =>
      dsimp only
      rw [fit64_of_lt (hpixels (hbest current rfl).header)]
      refine bounded_pure ?_
      intro preview hkept
      split at hkept
      · cases hkept
        exact hpreview
      · exact hbest preview hkept

/-- The bytes that the search for a preview may read. -/
def rawBudget : ℕ := Tiff.scanBudget + Tiff.maxCandidates * jpegBudget

theorem rawPreview_bounded (reader : List UInt8) (hlen : len ≤ maxSourceBytes) :
    Bounded len rawBudget (fun _ => True)
      (fun best => ∀ preview, best = some preview → RawPreview.Ok len preview)
      (rawPreview reader len) := by
  have hscan := Tiff.scan_bounded reader len
  refine hscan.attempt.bind _ _ ?_
  rintro _ rfl
  cases hfound : (Tiff.scan reader len).outcome.toOption with
  | none => exact bounded_pure nofun
  | some scan =>
    obtain ⟨state, hreaches, rfl⟩ := hscan.post_of_ok (toOption_eq_some.mp hfound)
    have hsound := hreaches.sound
    have horientation : 1 ≤ state.result.orientation.getD 1 ∧ state.result.orientation.getD 1 ≤ 8 := by
      cases hsome : state.result.orientation with
      | none => decide
      | some value => exact (hsound.orientation value hsome).1
    have hstep (done : List Tiff.Candidate) (candidate : Tiff.Candidate) (rest : List Tiff.Candidate)
        (best : Option RawPreview) (hsplit : done ++ candidate :: rest = state.result.candidates)
        (hbest : ∀ preview, best = some preview → RawPreview.Ok len preview) :=
      keepPreview_bounded reader hlen horientation hbest
        (hsound.candidates.inside candidate (hsplit ▸ List.mem_append_right done List.mem_cons_self))
    have hnone : ∀ preview, (none : Option RawPreview) = some preview → RawPreview.Ok len preview :=
      nofun
    have hloop := bounded_foldlM
      (fun _ best => ∀ preview, best = some preview → RawPreview.Ok len preview) hstep
      [] state.result.candidates rfl hnone
    exact hloop.mono (Nat.mul_le_mul_right _ hsound.candidates.length_le) (fun _ _ => trivial)
      fun _ h => h

/-- What the header of a file guarantees. -/
structure Source.Ok (reader : List UInt8) (len : ℕ) (source : Source) : Prop where
  fits : max source.width source.height < 2 ^ 32
  window : source.windowStart + source.windowLen ≤ len
  orientation : 1 ≤ source.orientation ∧ source.orientation ≤ 8
  jpeg : ∀ header scale, source.codec = .jpeg header scale → header.Valid
  png : ∀ header, source.codec = .png header → header.bitsPerPixel ≤ 64
  webP : source.kind = .webP → CoversTree reader (source.width, source.height) (riffRange reader len)

theorem planSource_bounded (reader : List UInt8) (hlen : len ≤ maxSourceBytes) (signature : List UInt8) :
    Bounded len rawBudget (fun _ => True) (Source.Ok reader len) (planSource reader len signature) := by
  have hjpeg {header : JpegHeader} (h : header.Valid) : max header.width header.height < 2 ^ 32 := by
    have := h.width
    have := h.height
    omega
  have hone : 1 ≤ 1 ∧ 1 ≤ 8 := by decide
  unfold planSource
  split
  · refine Bounded.mono ((pngHeader_bounded reader len).bind _ 0 ?_) (by decide) (fun _ h => h)
      fun _ h => h
    rintro header ⟨hfits, hbits⟩
    refine bounded_pure ⟨hfits, (Nat.zero_add len).le, hone, nofun, ?_, nofun⟩
    rintro _ ⟨⟩
    exact hbits
  · split
    · refine Bounded.mono ((readAt_bounded reader 6 4 le_rfl).bind _ 0 ?_) (by decide) (fun _ h => h)
        fun _ h => h
      rintro screen ⟨hlength, -⟩
      have hwidth := leValue_lt (screen.take 2)
      have hheight := leValue_lt (screen.drop 2)
      rw [List.length_take, hlength] at hwidth
      rw [List.length_drop, hlength] at hheight
      refine bounded_pure ⟨?_, (Nat.zero_add len).le, hone, nofun, nofun, nofun⟩
      exact Nat.max_lt.mpr ⟨hwidth.trans (by decide), hheight.trans (by decide)⟩
    · split
      · have hwalk := jpegHeader_bounded reader (Nat.zero_add len).le hlen
        refine Bounded.mono (hwalk.bind _ 0 ?_) (by decide) (fun _ h => h) fun _ h => h
        intro header hheader
        refine bounded_pure ⟨hjpeg hheader, (Nat.zero_add len).le, ?_, ?_, nofun, nofun⟩
        · cases hsome : header.orientation with
          | none => exact hone
          | some value => exact hheader.orientation value hsome
        · rintro _ _ ⟨⟩
          exact hheader
      · split
        · refine Bounded.mono ((webpDimensions_bounded reader hlen).bind _ 0 ?_) (by decide)
            (fun _ h => h) fun _ h => h
          rintro ⟨width, height⟩ ⟨-, hfits, htree⟩
          exact bounded_pure ⟨Nat.max_lt.mpr hfits, (Nat.zero_add len).le, hone, nofun, nofun,
            fun _ => htree⟩
        · split
          · refine (rawPreview_bounded reader hlen).bind _ 0 ?_
            intro best hbest
            cases best with
            | none => exact bounded_fail trivial
            | some preview =>
              obtain ⟨hwindow, hheader, horientation⟩ := hbest preview rfl
              refine bounded_pure ⟨hjpeg hheader, hwindow, horientation, ?_, nofun, nofun⟩
              rintro _ _ ⟨⟩
              exact hheader
          · exact bounded_fail trivial

/-! ### The plan -/

theorem checkPixels_bounded {size : ℕ} (hfits : max width height < 2 ^ 32) :
    Bounded size 0 (fun _ => True)
      (fun _ => (1 ≤ width ∧ 1 ≤ height) ∧ width * height ≤ maxImagePixels) (checkPixels width height) := by
  unfold checkPixels
  split
  · exact bounded_fail trivial
  · rename_i hzero
    rw [not_or] at hzero
    have hpixels : width * height ≤ (2 ^ 32 - 1) * (2 ^ 32 - 1) :=
      Nat.mul_le_mul (by omega) (by omega)
    rw [fit64_of_lt (by omega)]
    change Bounded size 0 _ _
      (if width * height > maxImagePixels then fail ThumbnailError.tooLarge else pure ())
    split
    · exact bounded_fail trivial
    · exact bounded_pure ⟨⟨Nat.pos_of_ne_zero hzero.1, Nat.pos_of_ne_zero hzero.2⟩, by omega⟩

/-- What a plan promises to the render. -/
structure Plan.Ok (reader : List UInt8) (len longEdge : ℕ) (plan : Plan) : Prop where
  nonzero : 1 ≤ plan.width ∧ 1 ≤ plan.height
  pixels : plan.width * plan.height ≤ maxImagePixels
  output : OutputOk plan.width plan.height longEdge plan.outWidth plan.outHeight
  scale : ∀ header scale, plan.codec = .jpeg header scale →
    ScaleOk plan.width plan.height plan.outWidth plan.outHeight scale
  window : plan.windowStart + plan.windowLen ≤ len
  orientation : 1 ≤ plan.orientation ∧ plan.orientation ≤ 8
  webP : plan.kind = .webP → CoversTree reader (plan.width, plan.height) (riffRange reader len)

/-- The bytes that a plan may read. -/
def planBudget : ℕ := 16 + rawBudget

theorem plan_bounded (reader : List UInt8) (len longEdge : ℕ) :
    Bounded len planBudget (fun _ => True) (Plan.Ok reader len longEdge) (plan reader len longEdge) := by
  unfold plan
  split
  · exact bounded_fail trivial
  · rename_i hlen
    rw [Nat.not_lt] at hlen
    refine Bounded.bind 16 rawBudget ((readAt_bounded reader 0 _ le_rfl).mono (Nat.min_le_right _ _)
      (fun _ h => h) fun _ h => h) fun signature _ => ?_
    refine Bounded.bind rawBudget 0 (planSource_bounded reader hlen signature) fun source hsource => ?_
    refine Bounded.bind 0 0 (checkPixels_bounded hsource.fits) fun _ hpixels => ?_
    obtain ⟨hnonzero, hpixels⟩ := hpixels
    obtain ⟨outWidth, outHeight, hsize, hout⟩ :=
      @outputSize_ok source.width source.height longEdge hnonzero.1 hnonzero.2 hsource.fits
    have hscale := jpegScale_ok hout.columns.2 hout.rows.2
    let scale := jpegScale source.width source.height outWidth outHeight
    have hcodec (header : JpegHeader) (denominator : ℕ)
        (h : source.codec.scaled scale = .jpeg header denominator) :
        header.Valid ∧ denominator = scale := by
      cases hsaid : source.codec with
      | jpeg header' scale' =>
        rw [hsaid] at h
        obtain ⟨rfl, rfl⟩ := Codec.jpeg.inj h
        exact ⟨hsource.jpeg _ _ hsaid, rfl⟩
      | png header' | gif | webP =>
        rw [hsaid] at h
        cases h
    have hpng (header : PngHeader) (h : source.codec.scaled scale = .png header) :
        header.bitsPerPixel ≤ 64 := by
      cases hsaid : source.codec with
      | png header' =>
        rw [hsaid] at h
        exact Codec.png.inj h ▸ hsource.png _ hsaid
      | jpeg header' scale' | gif | webP =>
        rw [hsaid] at h
        cases h
    have hpositive : 1 ≤ scale := by
      have := hscale.largest 1 (by decide) (by simp [coversAt, hout.columns.2, hout.rows.2])
      exact this
    have hwindow := hsource.window
    obtain ⟨bytes, hbytes⟩ := @estimate_some outWidth outHeight
      { source with codec := source.codec.scaled scale }
      ⟨hpixels, hsource.fits, by dsimp only; omega,
        fun header denominator h => ⟨(hcodec header denominator h).1,
          (hcodec header denominator h).2 ▸ hpositive⟩, hpng⟩ hout.columns.2 hout.rows.2
    rw [hsize]
    change Bounded len 0 _ _ (require (estimate { source with codec := source.codec.scaled scale }
      outWidth outHeight) >>= _)
    rw [hbytes]
    refine bounded_pure ⟨hnonzero, hpixels, hout, fun header denominator h => ?_, hsource.window,
      hsource.orientation, hsource.webP⟩
    exact (hcodec header denominator h).2 ▸ hscale

/-- Every plan ends, without an overflow or a division by zero, after reading only the declared range
of the file and no more than its budget; and one that is made is sound. The output is scaled to the
long edge, of at least one pixel. -/
theorem plan_bounds_render (reader : List UInt8) (len longEdge : ℕ) :
    (plan reader len longEdge).outcome ≠ .error .panic ∧
      (∀ range ∈ (plan reader len longEdge).reads, range.1 + range.2 ≤ len) ∧
      (plan reader len longEdge).bytes ≤ planBudget ∧
      ∀ result, (plan reader len longEdge).outcome = .ok result → result.Ok reader len longEdge := by
  have hbounded := plan_bounded reader len longEdge
  exact ⟨hbounded.ne_panic, hbounded.inside, hbounded.bytes_le, fun _ h => hbounded.post_of_ok h⟩

/-- With a long edge of zero, the output still has a pixel. -/
theorem plan_keeps_a_pixel :
    ∃ result, (plan (Preview.ascii "GIF89a" ++ [2, 0, 3, 0]) 10 0).outcome = .ok result ∧
      ¬max result.outWidth result.outHeight ≤ 0 := by
  refine ⟨⟨⟨.gif, .gif, 0, 10, 2, 3, 1⟩, 1, 1, 0, 2110293⟩, ?_, by decide⟩
  decide +kernel

end Crabinet.Thumbnail
