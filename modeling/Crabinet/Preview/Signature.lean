import Mathlib.Data.List.Basic
import Mathlib.Data.Nat.Basic

/-!
# Signatures and text rules of a file's leading bytes

The parts of the preview classifier that archives consult: image, PDF, audio and video
signatures, compressed containers, and the bounded UTF-8 text rule. Byte offsets that
the source guards by a length check are read with a default here.
-/

namespace Crabinet.Preview

/-- `SIGNATURE_HEADER_BYTES`. -/
def signatureHeaderBytes : ℕ := 64 * 1024

/-- `PDF_SIGNATURE_WINDOW`. -/
def pdfSignatureWindow : ℕ := 1024

/-- The bytes of an ASCII literal. -/
def ascii (text : String) : List UInt8 := text.toList.map fun c => UInt8.ofNat c.toNat

/-- How a UTF-8 scan ended: `cut` when the bytes end inside a character that more bytes could
complete (`error_len` is `None`). -/
inductive Utf8End where
  | complete | cut | invalid
deriving DecidableEq, Repr

/-- Whether a byte continues a character. -/
def isContinuation (byte : UInt8) : Bool := byte &&& 0xC0 == 0x80

/-- The bytes that may follow a three-byte lead. -/
def validSecond3 (lead byte : UInt8) : Bool :=
  if lead == 0xE0 then 0xA0 ≤ byte && byte ≤ 0xBF
  else if lead == 0xED then 0x80 ≤ byte && byte ≤ 0x9F
  else isContinuation byte

/-- The bytes that may follow a four-byte lead. -/
def validSecond4 (lead byte : UInt8) : Bool :=
  if lead == 0xF0 then 0x90 ≤ byte && byte ≤ 0xBF
  else if lead == 0xF4 then 0x80 ≤ byte && byte ≤ 0x8F
  else isContinuation byte

/-- `str::from_utf8`: the code points before the first error, and how the scan ended. -/
def scanUtf8 : List UInt8 → List ℕ × Utf8End
  | [] => ([], .complete)
  | b0 :: rest =>
    if b0 < 0x80 then
      let (chars, stop) := scanUtf8 rest
      (b0.toNat :: chars, stop)
    else if 0xC2 ≤ b0 && b0 ≤ 0xDF then
      match rest with
      | [] => ([], .cut)
      | b1 :: rest =>
        if isContinuation b1 then
          let (chars, stop) := scanUtf8 rest
          (((b0.toNat - 0xC0) * 64 + (b1.toNat - 0x80)) :: chars, stop)
        else ([], .invalid)
    else if 0xE0 ≤ b0 && b0 ≤ 0xEF then
      match rest with
      | [] => ([], .cut)
      | b1 :: rest =>
        if !validSecond3 b0 b1 then ([], .invalid)
        else match rest with
          | [] => ([], .cut)
          | b2 :: rest =>
            if isContinuation b2 then
              let (chars, stop) := scanUtf8 rest
              ((((b0.toNat - 0xE0) * 64 + (b1.toNat - 0x80)) * 64 + (b2.toNat - 0x80)) :: chars, stop)
            else ([], .invalid)
    else if 0xF0 ≤ b0 && b0 ≤ 0xF4 then
      match rest with
      | [] => ([], .cut)
      | b1 :: rest =>
        if !validSecond4 b0 b1 then ([], .invalid)
        else match rest with
          | [] => ([], .cut)
          | b2 :: rest =>
            if !isContinuation b2 then ([], .invalid)
            else match rest with
              | [] => ([], .cut)
              | b3 :: rest =>
                if isContinuation b3 then
                  let (chars, stop) := scanUtf8 rest
                  (((((b0.toNat - 0xF0) * 64 + (b1.toNat - 0x80)) * 64 + (b2.toNat - 0x80)) * 64 +
                    (b3.toNat - 0x80)) :: chars, stop)
                else ([], .invalid)
    else ([], .invalid)

/-- `contains_binary_control`, on code points. -/
def containsBinaryControl (chars : List ℕ) : Bool :=
  chars.any fun c =>
    ((c < 0x20 || (0x7F ≤ c && c ≤ 0x9F)) && !(c == 0x0A || c == 0x0D || c == 0x09)) ||
      c == 0xFFFE || c == 0xFFFF

/-- `check_text_prefix`: the text of a bounded prefix, or `none` where the source fails. -/
def checkTextPrefix (header : List UInt8) (atEnd : Bool) : Option (List ℕ) :=
  let (chars, stop) := scanUtf8 header
  if stop == .complete || (stop == .cut && !atEnd) then
    if containsBinaryControl chars then none else some chars
  else none

/-- `is_text_prefix`. -/
def isTextPrefix (header : List UInt8) (atEnd : Bool) : Bool := (checkTextPrefix header atEnd).isSome

/-- `header_reached_end`. -/
def headerReachedEnd (header : List UInt8) : Bool := header.length < signatureHeaderBytes

/-- Whether `needle` occurs among the windows of `bytes`. -/
def hasWindow (needle : List UInt8) : List UInt8 → Bool
  | [] => needle.isEmpty
  | byte :: rest => needle.isPrefixOf (byte :: rest) || hasWindow needle rest

/-- `is_pdf`. -/
def isPdf (header : List UInt8) : Bool :=
  (ascii "%PDF-").isPrefixOf header ||
    (hasWindow (ascii "%PDF-") (header.take pdfSignatureWindow) &&
      (checkTextPrefix header (headerReachedEnd header)).isNone)

/-- `ImageInfo`. -/
structure ImageInfo where
  mimeType : String
  width : Option ℕ
  height : Option ℕ
deriving DecidableEq, Repr

/-- The byte at a guarded index. -/
def byteAt (bytes : List UInt8) (index : ℕ) : ℕ := (bytes.getD index 0).toNat

/-- A big-endian 16-bit field. -/
def be16 (bytes : List UInt8) (index : ℕ) : ℕ := byteAt bytes index * 256 + byteAt bytes (index + 1)

/-- A big-endian 32-bit field. -/
def be32 (bytes : List UInt8) (index : ℕ) : ℕ := be16 bytes index * 65536 + be16 bytes (index + 2)

/-- A little-endian 16-bit field. -/
def le16 (bytes : List UInt8) (index : ℕ) : ℕ := byteAt bytes index + byteAt bytes (index + 1) * 256

/-- A little-endian 24-bit field. -/
def le24 (bytes : List UInt8) (index : ℕ) : ℕ := le16 bytes index + byteAt bytes (index + 2) * 65536

/-- The marker walk of a JPEG header: height and width of the first frame header. Every step
moves the offset, so as many steps as bytes suffice. -/
def jpegFrame (bytes : List UInt8) : ℕ → ℕ → Option (ℕ × ℕ)
  | 0, _ => none
  | fuel + 1, offset =>
    if offset + 9 < bytes.length then
      if byteAt bytes offset ≠ 0xFF then jpegFrame bytes fuel (offset + 1)
      else
        let marker := byteAt bytes (offset + 1)
        if (0xC0 ≤ marker ∧ marker ≤ 0xC3) ∨ (0xC5 ≤ marker ∧ marker ≤ 0xC7) ∨
            (0xC9 ≤ marker ∧ marker ≤ 0xCB) ∨ (0xCD ≤ marker ∧ marker ≤ 0xCF) then
          some (be16 bytes (offset + 5), be16 bytes (offset + 7))
        else if marker = 0xD9 ∨ marker = 0xDA then none
        else
          let length := be16 bytes (offset + 2)
          if length < 2 then none else jpegFrame bytes fuel (offset + (length + 2))
    else none

/-- Four-byte groups, dropping an incomplete last one. -/
def groupsOfFour : List UInt8 → List (List UInt8)
  | a :: b :: c :: d :: rest => [a, b, c, d] :: groupsOfFour rest
  | _ => []

/-- `ftyp_brands`: the major and compatible brands of a complete leading `ftyp` box. -/
def ftypBrands (header : List UInt8) : Option (List (List UInt8)) :=
  if header.length < 16 || (header.drop 4).take 4 != ascii "ftyp" then none
  else
    let size := be32 header 0
    if size < 16 || size % 4 != 0 || size > header.length then none
    else some ((header.drop 8).take 4 :: groupsOfFour ((header.take size).drop 16))

/-- `AVIF_BRANDS`. -/
def avifBrands : List (List UInt8) := ["avif", "avis"].map ascii

/-- `HEIC_BRANDS`. -/
def heicBrands : List (List UInt8) := ["heic", "heix", "heim", "heis", "hevc", "hevx"].map ascii

/-- `HEIF_BRANDS`. -/
def heifBrands : List (List UInt8) := ["mif1", "mif2", "msf1", "miaf"].map ascii

/-- `classify_heif`. -/
def classifyHeif (bytes : List UInt8) : Option String :=
  if bytes.length < 12 || (bytes.drop 4).take 4 != ascii "ftyp" then none
  else if (bytes.drop 8).take 4 == ascii "avif" then some "image/avif"
  else do
    let brands ← ftypBrands bytes
    if brands.any avifBrands.contains then some "image/avif"
    else if brands.any heicBrands.contains then some "image/heic"
    else if brands.any heifBrands.contains then some "image/heif"
    else none

/-- `classify_image`. -/
def classifyImage (bytes : List UInt8) : Option ImageInfo :=
  if [0x89, 0x50, 0x4E, 0x47, 0x0D, 0x0A, 0x1A, 0x0A].isPrefixOf bytes && bytes.length ≥ 24 then
    let width := be32 bytes 16
    let height := be32 bytes 20
    if width == 0 || height == 0 then none else some ⟨"image/png", some width, some height⟩
  else if ((ascii "GIF87a").isPrefixOf bytes || (ascii "GIF89a").isPrefixOf bytes) &&
      bytes.length ≥ 10 then
    some ⟨"image/gif", some (le16 bytes 6), some (le16 bytes 8)⟩
  else if [0xFF, 0xD8, 0xFF].isPrefixOf bytes then
    match jpegFrame bytes bytes.length 2 with
    | some (height, width) => some ⟨"image/jpeg", some width, some height⟩
    | none => some ⟨"image/jpeg", none, none⟩
  else if bytes.length ≥ 12 && (ascii "RIFF").isPrefixOf bytes &&
      (bytes.drop 8).take 4 == ascii "WEBP" then
    if bytes.length ≥ 30 && (bytes.drop 12).take 4 == ascii "VP8X" then
      some ⟨"image/webp", some (1 + le24 bytes 24), some (1 + le24 bytes 27)⟩
    else some ⟨"image/webp", none, none⟩
  else (classifyHeif bytes).map fun mimeType => ⟨mimeType, none, none⟩

/-- The streamed audio and video types of `StreamedMedia`. -/
inductive StreamedAudioVideo where
  | audio (mimeType : String)
  | video (mimeType : String)
deriving DecidableEq, Repr

/-- `IMAGE_BRANDS`. -/
def imageBrands : List (List UInt8) :=
  ["avif", "avis", "mif1", "mif2", "msf1", "miaf", "heic", "heix", "heim", "heis", "hevc",
    "hevx"].map ascii

/-- `MP4_VIDEO_BRANDS`. -/
def mp4VideoBrands : List (List UInt8) :=
  ["isom", "iso2", "iso4", "iso5", "iso6", "mp41", "mp42", "avc1", "dash", "M4V ", "MSNV"].map ascii

/-- `MP4_AUDIO_BRANDS`. -/
def mp4AudioBrands : List (List UInt8) := ["M4A ", "M4B "].map ascii

/-- `classify_iso_bmff`. -/
def classifyIsoBmff (header : List UInt8) : Option StreamedAudioVideo := do
  let brands ← ftypBrands header
  if brands.any imageBrands.contains then none
  else
    let major ← brands.head?
    if mp4AudioBrands.contains major then some (.audio "audio/mp4")
    else if mp4VideoBrands.contains major then some (.video "video/mp4")
    else none

/-- `is_matroska`. -/
def isMatroska (header : List UInt8) : Bool :=
  [0x1A, 0x45, 0xDF, 0xA3].isPrefixOf header &&
    let ebml := (header.take 64).drop 4
    hasWindow ([0x42, 0x82, 0x84] ++ ascii "webm") ebml ||
      hasWindow ([0x42, 0x82, 0x88] ++ ascii "matroska") ebml

/-- `classify_ogg`. -/
def classifyOgg (header : List UInt8) : Option StreamedAudioVideo :=
  if header.length < 27 || !(ascii "OggS").isPrefixOf header || byteAt header 4 != 0 then none
  else
    let start := 27 + byteAt header 26
    if start > header.length then none
    else if ((0x80 : UInt8) :: ascii "theora").isPrefixOf (header.drop start) then
      some (.video "video/ogg")
    else some (.audio "audio/ogg")

/-- `is_flac`. -/
def isFlac (header : List UInt8) : Bool :=
  header.length ≥ 8 && (ascii "fLaC").isPrefixOf header && byteAt header 4 % 128 == 0 &&
    (header.drop 5).take 3 == [0, 0, 34]

/-- `mpeg_layer3_frame_len`. -/
def mpegLayer3FrameLen (header : List UInt8) : Option ℕ :=
  if header.length < 4 || byteAt header 0 != 0xFF || byteAt header 1 / 32 != 7 then none
  else
    let version := byteAt header 1 / 8 % 4
    let layer := byteAt header 1 / 2 % 4
    let bitrateIndex := byteAt header 2 / 16
    let rateIndex := byteAt header 2 / 4 % 4
    if version == 1 || layer != 1 || bitrateIndex == 0 || bitrateIndex == 15 || rateIndex == 3 then
      none
    else
      let padding := byteAt header 2 / 2 % 2
      let v1 := [0, 32, 40, 48, 56, 64, 80, 96, 112, 128, 160, 192, 224, 256, 320]
      let v2 := [0, 8, 16, 24, 32, 40, 48, 56, 64, 80, 96, 112, 128, 144, 160]
      let (kbps, rates, coefficient) :=
        if version == 3 then (v1.getD bitrateIndex 0, [44100, 48000, 32000], 144)
        else if version == 2 then (v2.getD bitrateIndex 0, [22050, 24000, 16000], 72)
        else (v2.getD bitrateIndex 0, [11025, 12000, 8000], 72)
      let length := coefficient * kbps * 1000 / rates.getD rateIndex 1 + padding
      if length ≥ 4 then some length else none

/-- `is_mp3`. -/
def isMp3 (header : List UInt8) : Bool :=
  if header.length ≥ 10 && (ascii "ID3").isPrefixOf header then
    (2 ≤ byteAt header 3 && byteAt header 3 ≤ 4) && byteAt header 4 != 0xFF &&
      ((header.drop 6).take 4).all fun byte => byte < 0x80
  else
    match mpegLayer3FrameLen header with
    | none => false
    | some first => first ≤ header.length && (mpegLayer3FrameLen (header.drop first)).isSome

/-- `classify_audio_video`. -/
def classifyAudioVideo (header : List UInt8) : Option StreamedAudioVideo :=
  if let some media := classifyIsoBmff header then some media
  else if isMatroska header then some (.video "video/webm")
  else if let some media := classifyOgg header then some media
  else if header.length ≥ 12 && (ascii "RIFF").isPrefixOf header &&
      (header.drop 8).take 4 == ascii "WAVE" then some (.audio "audio/wav")
  else if isFlac header then some (.audio "audio/flac")
  else if isMp3 header then some (.audio "audio/mpeg")
  else none

/-- `COMPRESSED_MAGIC`. -/
def compressedMagic : List (List UInt8) :=
  [[0x50, 0x4B, 0x03, 0x04], [0x50, 0x4B, 0x05, 0x06], [0x1F, 0x8B],
    [0xFD, 0x37, 0x7A, 0x58, 0x5A, 0x00], [0x28, 0xB5, 0x2F, 0xFD],
    [0x37, 0x7A, 0xBC, 0xAF, 0x27, 0x1C], ascii "Rar!" ++ [0x1A, 0x07], ascii "wOFF", ascii "wOF2",
    [0x04, 0x22, 0x4D, 0x18]]

/-- `has_compressed_signature`. -/
def hasCompressedSignature (header : List UInt8) : Bool :=
  let bzip2 := header.length ≥ 10 && (ascii "BZh").isPrefixOf header &&
    (0x30 ≤ byteAt header 3 && byteAt header 3 ≤ 0x39) &&
    (header.drop 4).take 6 == [0x31, 0x41, 0x59, 0x26, 0x53, 0x59]
  bzip2 || compressedMagic.any (fun magic => magic.isPrefixOf header) ||
    (classifyImage header).isSome || isPdf header ||
    match classifyAudioVideo header with
    | none => false
    | some media => media != .audio "audio/wav"

end Crabinet.Preview
