import Mathlib.Data.List.DropRight
import Crabinet.Library.Checked
import Crabinet.Library.Framing
import Crabinet.Library.Slices
import Crabinet.Preview.Signature

/-!
# The codecs of a media file

The walks over the elements of a Matroska file and over the boxes of an ISO base media file, which
name the codecs of the tracks. A function leaves the parts it takes of the slice it is given; what
is inside of them is walked by itself.
-/

namespace Crabinet.Preview

open Crabinet.Library Crabinet.Library.Parsed

/-! ### Names -/

/-- An upper-case hexadecimal digit. -/
def upperHexDigit (value : ℕ) : Char :=
  if value < 10 then Char.ofNat (48 + value) else Char.ofNat (55 + value)

/-- A number in upper-case hexadecimal digits. -/
def upperHex (value : ℕ) : List Char :=
  if value < 16 then [upperHexDigit value] else upperHex (value / 16) ++ [upperHexDigit (value % 16)]

/-- A number in decimal digits. -/
def decimal (value : ℕ) : List Char := Nat.toDigits 10 value

/-- At least two digits. -/
def padded (digits : List Char) : List Char := List.replicate (2 - digits.length) '0' ++ digits

/-- `MAX_MEDIA_CODECS`. -/
def maxMediaCodecs : ℕ := 8

/-- `CodecList`: distinct codecs in track order, and whether any track had a codec that cannot be
named. -/
structure CodecList where
  codecs : List (List Char)
  unknown : Bool

namespace CodecList

def empty : CodecList := ⟨[], false⟩

def push (list : CodecList) : Option (List Char) → CodecList
  | none => { list with unknown := true }
  | some codec =>
    if list.codecs.length < maxMediaCodecs ∧ codec ∉ list.codecs then
      { list with codecs := list.codecs ++ [codec] }
    else list

def finish (list : CodecList) : Parsed (List Char) :=
  if list.unknown = false ∧ list.codecs ≠ [] then .ok (", ".toList.intercalate list.codecs)
  else absent

end CodecList

/-! ### Matroska -/

def ebmlHeaderId : ℕ := 0x1a45dfa3

def matroskaSegmentId : ℕ := 0x18538067

def matroskaTracksId : ℕ := 0x1654ae6b

def matroskaClusterId : ℕ := 0x1f43b675

def matroskaTrackEntryId : ℕ := 0xae

def matroskaCodecIdId : ℕ := 0x86

def matroskaCodecPrivateId : ℕ := 0x63a2

/-- The zero bits before the first bit of a byte that is set. -/
def leadingZeros (byte : UInt8) : ℕ := if byte = 0 then 8 else 7 - Nat.log2 byte.toNat

/-- An EBML element: its ID, its data size, which is `none` when it is the reserved unknown value,
and the offset of its data. -/
structure EbmlElement where
  id : ℕ
  size : Option ℕ
  data : ℕ

/-- `ebml_element`. -/
def ebmlElement (bytes : List UInt8) (offset : ℕ) : Parsed EbmlElement := do
  let first ← present bytes[offset]?
  let idLen := leadingZeros first + 1
  if 4 < idLen then absent
  else
    let sizeOffset ← checkedAdd offset idLen
    let id ← present (slice bytes offset sizeOffset)
    let first ← present bytes[sizeOffset]?
    let sizeLen := leadingZeros first + 1
    if 8 < sizeLen then absent
    else
      let data ← checkedAdd sizeOffset sizeLen
      let next ← add sizeOffset 1
      let rest ← present (slice bytes next data)
      let size := beValue ((first &&& UInt8.ofNat (0xff >>> sizeLen)) :: rest)
      let unknown ← shiftOne (7 * sizeLen)
      .ok ⟨beValue id, if size = unknown - 1 then none else some size, data⟩

/-- The offset after the data of an element. -/
def EbmlElement.stop (element : EbmlElement) : Parsed ℕ := do
  let size ← present element.size
  checkedAdd element.data size

variable {bytes : List UInt8} {offset : ℕ}

theorem present_eq_ok {α : Type} {option : Option α} {value : α}
    (h : present option = .ok value) : option = some value := by
  cases option with
  | none => cases h
  | some other => exact congrArg some (Except.ok.inj h)

theorem checkedAdd_eq_ok {a b sum : ℕ} (h : checkedAdd a b = .ok sum) : sum = a + b := by
  unfold checkedAdd at h
  split_ifs at h
  · exact (Except.ok.inj h).symm
  · cases h

/-- An element lies in the bytes, and its data behind its offset. -/
theorem ebmlElement_bounds {element : EbmlElement} (h : ebmlElement bytes offset = .ok element) :
    offset < element.data ∧ element.data ≤ bytes.length := by
  obtain ⟨first, -, h⟩ := bind_eq_ok.mp h
  dsimp only at h
  split_ifs at h
  · cases h
  obtain ⟨sizeOffset, hsizeOffset, h⟩ := bind_eq_ok.mp h
  obtain ⟨id, -, h⟩ := bind_eq_ok.mp h
  obtain ⟨first, -, h⟩ := bind_eq_ok.mp h
  split_ifs at h
  · cases h
  obtain ⟨data, hdata, h⟩ := bind_eq_ok.mp h
  obtain ⟨next, -, h⟩ := bind_eq_ok.mp h
  obtain ⟨rest, hrest, h⟩ := bind_eq_ok.mp h
  obtain ⟨unknown, -, h⟩ := bind_eq_ok.mp h
  obtain rfl := Except.ok.inj h
  have hend := (length_of_slice (present_eq_ok hrest)).2.1
  have := checkedAdd_eq_ok hsizeOffset
  have := checkedAdd_eq_ok hdata
  exact ⟨by dsimp only; omega, hend⟩

theorem stop_bounds {element : EbmlElement} {stop : ℕ} (h : element.stop = .ok stop) :
    element.data ≤ stop := by
  obtain ⟨size, -, h⟩ := bind_eq_ok.mp h
  exact (checkedAdd_eq_ok h).symm ▸ Nat.le_add_right _ _

/-- `MatroskaTrack`. -/
structure MatroskaTrack where
  codecId : Option (List UInt8)
  codecPrivate : Option (List UInt8)

/-- The loop of `matroska_track_fields`. -/
def matroskaTrackFields (entry : List UInt8) (offset : ℕ) (track : MatroskaTrack) :
    Traced Unit MatroskaTrack :=
  if offset < entry.length then
    match helement : ebmlElement entry offset with
    | .error fault => .of (.error fault)
    | .ok element =>
      match hstop : element.stop with
      | .error fault => .of (.error fault)
      | .ok stop => do
        let value ← Traced.get entry element.data stop
        match value with
        | none => .of absent
        | some value =>
          if element.id = matroskaCodecIdId then
            matroskaTrackFields entry stop { track with codecId := some (value.rdropWhile (· = 0)) }
          else if element.id = matroskaCodecPrivateId then
            matroskaTrackFields entry stop { track with codecPrivate := some value }
          else matroskaTrackFields entry stop track
  else pure track
termination_by entry.length - offset
decreasing_by
  all_goals
    have := ebmlElement_bounds helement
    have := stop_bounds hstop
    omega

/-- `av1_codec`. -/
def av1Codec (config : List UInt8) : Parsed (List Char) :=
  match config with
  | 0x81 :: profileLevel :: flags :: _ =>
    let profile := profileLevel >>> 5
    let level := profileLevel &&& 0x1f
    let tier := if flags &&& 0x80 = 0 then 'M' else 'H'
    let depth := if flags &&& 0x40 ≠ 0 then if flags &&& 0x20 ≠ 0 then 12 else 10 else 8
    .ok ("av01.".toList ++ decimal profile.toNat ++ ['.'] ++ padded (decimal level.toNat) ++
      [tier, '.'] ++ padded (decimal depth))
  | _ => absent

/-- `matroska_codec`. -/
def matroskaCodec (codecId : List UInt8) (codecPrivate : Option (List UInt8)) :
    Parsed (List Char) :=
  if codecId = ascii "V_VP8" then .ok "vp8".toList
  else if codecId = ascii "V_VP9" then .ok "vp9".toList
  else if codecId = ascii "V_AV1" then do
    let config ← present codecPrivate
    av1Codec config
  else if codecId = ascii "A_OPUS" then .ok "opus".toList
  else if codecId = ascii "A_VORBIS" then .ok "vorbis".toList
  else absent

/-- The codecs with that of a track entry, which is named only for audio and video. -/
def pushTrack (codecs : CodecList) (track : Option MatroskaTrack) : Parsed CodecList :=
  match track with
  | none => .ok (codecs.push none)
  | some ⟨some codecId, codecPrivate⟩ =>
    if (ascii "V_").isPrefixOf codecId ∨ (ascii "A_").isPrefixOf codecId then do
      let codec ← Parsed.attempt (matroskaCodec codecId codecPrivate)
      .ok (codecs.push codec)
    else .ok codecs
  | some ⟨none, _⟩ => .ok codecs

/-- The codecs with that of an element of the tracks. -/
def pushElement (codecs : CodecList) (id : ℕ) (entry : List UInt8) : Parsed CodecList :=
  if id = matroskaTrackEntryId then do
    let track ← Parsed.attempt (matroskaTrackFields entry 0 ⟨none, none⟩).outcome
    pushTrack codecs track
  else .ok codecs

/-- The loop of `matroska_track_codecs`; a track entry cut by the header bound is left out. -/
def matroskaTrackCodecs (tracks : List UInt8) (offset : ℕ) (codecs : CodecList) :
    Traced Unit CodecList :=
  match helement : ebmlElement tracks offset with
  | .error .panic => .of panicked
  | .error (.error ()) => pure codecs
  | .ok element =>
    match hstop : element.stop with
    | .error fault => .of (.error fault)
    | .ok entryEnd => do
      let entry ← Traced.get tracks element.data entryEnd
      match entry with
      | none => pure codecs
      | some entry => do
        let codecs ← Traced.of (pushElement codecs element.id entry)
        matroskaTrackCodecs tracks entryEnd codecs
termination_by tracks.length - offset
decreasing_by
  have := ebmlElement_bounds helement
  have := stop_bounds hstop
  omega

/-- The loop of `matroska_codecs` over the elements of the segment. -/
def matroskaSegmentCodecs (segment : List UInt8) (offset : ℕ) : Traced Unit (List Char) :=
  match helement : ebmlElement segment offset with
  | .error fault => .of (.error fault)
  | .ok element =>
    if element.id = matroskaTracksId then do
      let tracksEnd ← Traced.of element.stop
      let tracks ← Traced.get segment element.data (min tracksEnd segment.length)
      let tracks ← Traced.of (present tracks)
      let codecs ← Traced.of (matroskaTrackCodecs tracks 0 .empty).outcome
      .of codecs.finish
    else if element.id = matroskaClusterId then .of absent
    else
      match hstop : element.stop with
      | .error fault => .of (.error fault)
      | .ok next => matroskaSegmentCodecs segment next
termination_by segment.length - offset
decreasing_by
  have := ebmlElement_bounds helement
  have := stop_bounds hstop
  omega

/-- `matroska_codecs`. -/
def matroskaCodecs (header : List UInt8) : Traced Unit (List Char) := do
  let ebml ← Traced.of (ebmlElement header 0)
  if ebml.id ≠ ebmlHeaderId then .of absent
  else
    let start ← Traced.of ebml.stop
    let element ← Traced.of (ebmlElement header start)
    if element.id ≠ matroskaSegmentId then .of absent
    else
      let stop := match element.stop with
        | .ok stop => min stop header.length
        | .error _ => header.length
      let segment ← Traced.get header 0 stop
      match segment with
      | none => .of panicked
      | some segment => .of (matroskaSegmentCodecs segment element.data).outcome

/-! ### ISO base media -/

/-- The head of a box: its type, and where its content starts and ends. -/
structure IsoHead where
  kind : List UInt8
  content : ℕ
  stop : ℕ

/-- The head of the box at an offset; `absent` where the walk stops. -/
def isoHead (bytes : List UInt8) (start : ℕ) : Parsed IsoHead := do
  let headEnd ← checkedAdd start 8
  let head ← present (slice bytes start headEnd)
  let kind := (head.drop 4).take 4
  let size := beValue (head.take 4)
  if size = 0 then do
    let content ← add start 8
    .ok ⟨kind, content, maxOfBits 64⟩
  else if size = 1 then do
    let largeStart ← add start 8
    let largeEnd ← add start 16
    let large ← present (slice bytes largeStart largeEnd)
    let size := beValue large
    if size < 16 then absent
    else do
      let content ← add start 16
      .ok ⟨kind, content, min (start + size) (maxOfBits 64)⟩
  else if size < 8 then absent
  else do
    let content ← add start 8
    .ok ⟨kind, content, min (start + size) (maxOfBits 64)⟩

theorem add_eq_ok {a b sum : ℕ} (h : add a b = .ok sum) : sum = a + b ∧ a + b < 2 ^ 64 := by
  unfold add at h
  split_ifs at h with hlt
  · exact ⟨(Except.ok.inj h).symm, hlt⟩
  · cases h

/-- The content of a box starts behind its head, and the box does not end before it. -/
theorem isoHead_bounds {head : IsoHead} (h : isoHead bytes offset = .ok head) :
    offset + 8 ≤ bytes.length ∧ offset + 8 ≤ head.content ∧ head.content ≤ head.stop := by
  have hmax : maxOfBits 64 = 2 ^ 64 - 1 := rfl
  obtain ⟨headEnd, hheadEnd, h⟩ := bind_eq_ok.mp h
  obtain ⟨bytes', hbytes, h⟩ := bind_eq_ok.mp h
  have hend := checkedAdd_eq_ok hheadEnd
  have hlength := (length_of_slice (present_eq_ok hbytes)).2.1
  dsimp only at h
  split_ifs at h with hzero hlarge hsmall
  · obtain ⟨content, hcontent, h⟩ := bind_eq_ok.mp h
    have := add_eq_ok hcontent
    obtain rfl := Except.ok.inj h
    dsimp only
    omega
  · obtain ⟨largeStart, -, h⟩ := bind_eq_ok.mp h
    obtain ⟨largeEnd, -, h⟩ := bind_eq_ok.mp h
    obtain ⟨large, -, h⟩ := bind_eq_ok.mp h
    split_ifs at h with hsize
    · cases h
    obtain ⟨content, hcontent, h⟩ := bind_eq_ok.mp h
    have := add_eq_ok hcontent
    obtain rfl := Except.ok.inj h
    dsimp only
    omega
  · cases h
  · obtain ⟨content, hcontent, h⟩ := bind_eq_ok.mp h
    have := add_eq_ok hcontent
    obtain rfl := Except.ok.inj h
    dsimp only
    omega

/-- A box: its type, its content clamped to the region, and whether the content is complete. -/
structure IsoBox where
  kind : List UInt8
  content : List UInt8
  complete : Bool

/-- `IsoBoxes`: the boxes of one ISO base media region in order. -/
def isoBoxes (bytes : List UInt8) (offset : ℕ) : Traced Unit (List IsoBox) :=
  match hhead : isoHead bytes offset with
  | .error .panic => .of panicked
  | .error (.error ()) => pure []
  | .ok head => do
    let content ← Traced.get bytes head.content (min head.stop bytes.length)
    match content with
    | none => pure []
    | some content => do
      let rest ← isoBoxes bytes head.stop
      pure (⟨head.kind, content, decide (head.stop ≤ bytes.length)⟩ :: rest)
termination_by bytes.length - offset
decreasing_by
  have := isoHead_bounds hhead
  omega

/-- `iso_child`: the content of the first child box of this type, possibly cut short. -/
def isoChild (region : List UInt8) (kind : String) : Parsed (List UInt8) := do
  let boxes ← (isoBoxes region 0).outcome
  let box ← present (boxes.find? fun box => box.kind = ascii kind)
  .ok box.content

/-- `iso_complete_child`: the content of the first child box of this type, only when complete. -/
def isoCompleteChild (region : List UInt8) (kind : String) : Parsed (List UInt8) := do
  let boxes ← (isoBoxes region 0).outcome
  let box ← present (boxes.find? fun box => box.kind = ascii kind)
  if box.complete then .ok box.content else absent

/-- `VISUAL_SAMPLE_ENTRY_BYTES`. -/
def visualSampleEntryBytes : ℕ := 78

/-- `sample_entry_child`. -/
def sampleEntryChild (entry : List UInt8) (fixed : ℕ) (kind : String) : Parsed (List UInt8) := do
  let region ← present (slice entry fixed entry.length)
  isoCompleteChild region kind

/-- `audio_sample_entry_bytes`. -/
def audioSampleEntryBytes (entry : List UInt8) : Parsed ℕ := do
  let version ← present (slice entry 8 10)
  if beValue version = 0 then .ok 28
  else if beValue version = 1 then .ok 44
  else if beValue version = 2 then .ok 64
  else absent

/-- `hevc_codec`. -/
def hevcCodec (fourcc : List Char) (config : List UInt8) : Parsed (List Char) := do
  let config ← present (slice config 0 13)
  let space := [[], ['A'], ['B'], ['C']].getD (config.getD 1 0 >>> 6).toNat []
  let tier := if config.getD 1 0 &&& 0x20 = 0 then 'L' else 'H'
  let profile := config.getD 1 0 &&& 0x1f
  let compatibility := (BitVec.ofNat 32 (beValue ((config.drop 2).take 4))).reverse
  let level := config.getD 12 0
  let constraints := ((config.drop 6).take 6).rdropWhile (· = 0)
  .ok (fourcc ++ ['.'] ++ space ++ decimal profile.toNat ++ ['.'] ++ upperHex compatibility.toNat ++
    ['.', tier] ++ decimal level.toNat ++ constraints.flatMap fun byte => '.' :: upperHex byte.toNat)

/-- The size of a descriptor, of one to four bytes, and the offset behind it. -/
def descriptorSize (bytes : List UInt8) (offset len : ℕ) : Parsed (ℕ × ℕ) :=
  match bytes[offset]? with
  | none => absent
  | some byte => do
    let next ← add offset 1
    let len := (len <<< 7) % 2 ^ 64 ||| (byte &&& 0x7f).toNat
    if byte &&& 0x80 = 0 then .ok (len, next)
    else if 4 < offset + 1 then absent
    else descriptorSize bytes (offset + 1) len
termination_by 5 - offset

/-- `mpeg4_descriptor`: the tag of a descriptor and its body. -/
def mpeg4Descriptor (bytes : List UInt8) : Traced Unit (UInt8 × List UInt8) := do
  let tag ← Traced.of (present bytes[0]?)
  let (len, offset) ← Traced.of (descriptorSize bytes 1 0)
  let stop ← Traced.of (checkedAdd offset len)
  let body ← Traced.get bytes offset stop
  let body ← Traced.of (present body)
  pure (tag, body)

/-- The body of a descriptor with this tag. -/
def descriptorBody (tag : UInt8) (bytes : List UInt8) : Parsed (List UInt8) := do
  let (found, body) ← (mpeg4Descriptor bytes).outcome
  if found = tag then .ok body else absent

/-- The bytes of an elementary stream descriptor before the decoder's. -/
def streamFields (stream : List UInt8) : Parsed ℕ := do
  let flags ← present stream[2]?
  let skip := if flags &&& 0x80 ≠ 0 then 5 else 3
  let skip ← if flags &&& 0x40 ≠ 0 then do
      let length ← present stream[skip]?
      add skip (1 + length.toNat)
    else .ok skip
  if flags &&& 0x20 ≠ 0 then add skip 2 else .ok skip

/-- The audio object type of MPEG-4 audio; a sum that leaves its byte panics. -/
def audioObjectType (specific : List UInt8) : Parsed ℕ := do
  let first : UInt8 ← present specific[0]?
  if first >>> 3 = 31 then do
    let second : UInt8 ← present specific[1]?
    let sum := 32 + ((first &&& 0x07) <<< 3 ||| second >>> 5).toNat
    if sum < 256 then .ok sum else panicked
  else .ok (first >>> 3).toNat

/-- `mp4a_codec`. -/
def mp4aCodec (esds : List UInt8) : Parsed (List Char) := do
  let streamRegion ← present (slice esds 4 esds.length)
  let stream ← descriptorBody 3 streamRegion
  let skip ← streamFields stream
  let decoderRegion ← present (slice stream skip stream.length)
  let decoder ← descriptorBody 4 decoderRegion
  let objectType ← present decoder[0]?
  if objectType ≠ 0x40 then .ok ("mp4a.".toList ++ padded (upperHex objectType.toNat))
  else do
    let specificRegion ← present (slice decoder 13 decoder.length)
    let specific ← descriptorBody 5 specificRegion
    let audioObjectType ← audioObjectType specific
    .ok ("mp4a.40.".toList ++ decimal audioObjectType)

/-- `iso_sample_entry_codec`; a type that is not UTF-8 is none of these. -/
def isoSampleEntryCodec (kind entry : List UInt8) : Parsed (List Char) :=
  let fourcc := kind.map fun byte => Char.ofNat byte.toNat
  if kind = ascii "avc1" ∨ kind = ascii "avc3" then do
    let config ← sampleEntryChild entry visualSampleEntryBytes "avcC"
    match config with
    | _ :: profile :: compatibility :: level :: _ =>
      .ok (fourcc ++ ['.'] ++ padded (upperHex profile.toNat) ++
        padded (upperHex compatibility.toNat) ++ padded (upperHex level.toNat))
    | _ => absent
  else if kind = ascii "hvc1" ∨ kind = ascii "hev1" then do
    let config ← sampleEntryChild entry visualSampleEntryBytes "hvcC"
    hevcCodec fourcc config
  else if kind = ascii "av01" then do
    let config ← sampleEntryChild entry visualSampleEntryBytes "av1C"
    av1Codec config
  else if kind = ascii "vp09" then do
    let config ← sampleEntryChild entry visualSampleEntryBytes "vpcC"
    match config with
    | _ :: _ :: _ :: _ :: profile :: level :: depth :: _ =>
      .ok ("vp09.".toList ++ padded (decimal profile.toNat) ++ ['.'] ++
        padded (decimal level.toNat) ++ ['.'] ++ padded (decimal (depth >>> 4).toNat))
    | _ => absent
  else if kind = ascii "mp4a" then do
    let fixed ← audioSampleEntryBytes entry
    let esds ← sampleEntryChild entry fixed "esds"
    mp4aCodec esds
  else if kind = ascii "Opus" then .ok "opus".toList
  else if kind = ascii "fLaC" then .ok "flac".toList
  else if kind = ascii "ac-3" ∨ kind = ascii "ec-3" then .ok fourcc
  else absent

/-- The sample entries of a video or audio track, as many as are looked at. -/
def isoTrackEntries (trak : List UInt8) : Parsed (List IsoBox) := do
  let mdia ← isoChild trak "mdia"
  let hdlr ← isoCompleteChild mdia "hdlr"
  let handler ← present (slice hdlr 8 12)
  if handler ≠ ascii "vide" ∧ handler ≠ ascii "soun" then absent
  else
    let minf ← isoChild mdia "minf"
    let stbl ← isoChild minf "stbl"
    let stsd ← isoChild stbl "stsd"
    let count ← present (slice stsd 4 8)
    match slice stsd 8 stsd.length with
    | none => panicked
    | some region => do
      let boxes ← (isoBoxes region 0).outcome
      .ok (boxes.take (min (beValue count) maxMediaCodecs))

/-- The codecs with those of the sample entries before one that is cut. -/
def pushEntries (codecs : CodecList) : List IsoBox → Parsed CodecList
  | [] => .ok codecs
  | box :: boxes =>
    if box.complete then do
      let codec ← Parsed.attempt (isoSampleEntryCodec box.kind box.content)
      pushEntries (codecs.push codec) boxes
    else .ok codecs

/-- `iso_track_codecs`. -/
def isoTrackCodecs (trak : List UInt8) (codecs : CodecList) : Parsed CodecList := do
  let entries ← Parsed.attempt (isoTrackEntries trak)
  match entries with
  | none => .ok codecs
  | some entries => pushEntries codecs entries

/-- `iso_bmff_codecs`. -/
def isoBmffCodecs (header : List UInt8) : Parsed (List Char) := do
  let moov ← isoChild header "moov"
  let boxes ← (isoBoxes moov 0).outcome
  let codecs ← boxes.foldlM (fun codecs box =>
    if box.kind = ascii "trak" then isoTrackCodecs box.content codecs else .ok codecs) .empty
  codecs.finish

/-- `media_codecs`. -/
def mediaCodecs (media : StreamedAudioVideo) (header : List UInt8) : Parsed (List Char) :=
  if media = .video "video/webm" then (matroskaCodecs header).outcome
  else if media = .video "video/mp4" ∨ media = .audio "audio/mp4" then isoBmffCodecs header
  else absent

end Crabinet.Preview
