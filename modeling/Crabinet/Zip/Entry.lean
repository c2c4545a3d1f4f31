import Crabinet.Filesystem.Metadata
import Crabinet.Library.ByteLayout
import Crabinet.Preview.Signature

/-!
# Archive entries and the records of one entry

The constants, the entry type and its field decisions, and the bytes of the local
header, data descriptor and central header of one entry. Every 16- or 32-bit field is
written through a cast that keeps only the low bits, as in the source; that no cast
loses bits is a theorem about valid entries, not part of the definitions.
-/

namespace Crabinet.Zip

open Crabinet.Library Crabinet.Filesystem Crabinet.Preview

/-- `ArchiveCompression`. -/
inductive ArchiveCompression where
  | auto | off
deriving DecidableEq, Repr

def localHeaderSignature : ℕ := 0x04034b50
def dataDescriptorSignature : ℕ := 0x08074b50
def centralHeaderSignature : ℕ := 0x02014b50
def zip64EndSignature : ℕ := 0x06064b50
def zip64LocatorSignature : ℕ := 0x07064b50
def endSignature : ℕ := 0x06054b50
def flagDataDescriptor : ℕ := 1 <<< 3
def flagUtf8 : ℕ := 1 <<< 11
def methodStored : ℕ := 0
def methodDeflated : ℕ := 8
def versionDefault : ℕ := 20
def versionZip64 : ℕ := 45
def creatorUnix : ℕ := 3 <<< 8
def extendedTimestampId : ℕ := 0x5455
def extendedTimestampLen : ℕ := 9
def zip64ExtraId : ℕ := 0x0001
def localHeaderLen : ℕ := 30
def centralHeaderLen : ℕ := 46
def dataDescriptorLen : ℕ := 16
def zip64DataDescriptorLen : ℕ := 24
def endLen : ℕ := 22
def zip64EndLen : ℕ := 56
def zip64LocatorLen : ℕ := 20
def u32Sentinel : ℕ := 0xFFFFFFFF
def u16Sentinel : ℕ := 0xFFFF
def fileAttributes : ℕ := 0o100644 <<< 16
def directoryAttributes : ℕ := (0o040755 <<< 16) ||| 0x10
def minDeflateBytes : ℕ := 1024
def sniffBytes : ℕ := 8 * 1024
def deflateInputBytes : ℕ := 64 * 1024

/-- The largest `u64`. -/
def u64Max : ℕ := 2 ^ 64 - 1

/-- `u64::checked_add`. -/
def checkedAdd (a b : ℕ) : Option ℕ := if a + b ≤ u64Max then some (a + b) else none

/-- `u64::saturating_add`. -/
def saturatingAdd (a b : ℕ) : ℕ := min (a + b) u64Max

/-- Plain `u64` addition, which wraps. -/
def wrappingAdd (a b : ℕ) : ℕ := (a + b) % 2 ^ 64

/-- `COMPRESSED_EXTENSIONS`. -/
def compressedExtensions : List String :=
  ["apng", "avif", "gif", "heic", "heics", "heif", "hif", "jfif", "jpe", "jpeg", "jpg", "jxl",
    "png", "svgz", "webp", "3fr", "arw", "cr2", "cr3", "crw", "dng", "erf", "kdc", "mrw", "nef",
    "nrw", "orf", "pef", "raf", "rw2", "sr2", "srf", "srw", "x3f", "3g2", "3gp", "avi", "flv",
    "m2ts", "m4v", "mkv", "mov", "mp4", "mpeg", "mpg", "mts", "ogv", "qt", "vob", "webm", "wmv",
    "aac", "flac", "m4a", "m4b", "mp3", "oga", "ogg", "opus", "wma", "aab", "apk", "docm", "docx",
    "ear", "epub", "ipa", "jar", "kmz", "nupkg", "odg", "odp", "ods", "odt", "pptm", "pptx",
    "vsix", "war", "whl", "xlsm", "xlsx", "xpi", "zip", "zipx", "7z", "br", "bz2", "cab", "deb",
    "dmg", "gz", "lz", "lz4", "lzma", "rar", "rpm", "tbz", "tbz2", "tgz", "txz", "tzst", "xz",
    "zst", "pdf", "woff", "woff2"]

/-- The characters after the last `separator`, or all of them. -/
def afterLast (separator : Char) (chars : List Char) : List Char :=
  (chars.reverse.takeWhile (· ≠ separator)).reverse

/-- `has_compressed_extension`. -/
def hasCompressedExtension (name : String) : Bool :=
  let file := afterLast '/' name.toList
  file.contains '.' &&
    let extension := String.ofList (afterLast '.' file)
    extension.utf8ByteSize ≤ 5 && compressedExtensions.contains extension.toLower

/-- `may_deflate`. -/
def mayDeflate (name : String) (size : ℕ) : Bool :=
  minDeflateBytes ≤ size && !hasCompressedExtension name

/-- `is_mostly_ascii`. -/
def isMostlyAscii (bytes : List UInt8) : Bool :=
  let printable := (bytes.filter fun byte =>
    (0x20 ≤ byte && byte ≤ 0x7E) || byte == 0x09 || byte == 0x0A || byte == 0x0D).length
  !bytes.contains 0 && printable * 10 ≥ bytes.length * 9

/-- `sniff_deflate`. -/
def sniffDeflate (pfx : List UInt8) (atEnd : Bool) : Bool :=
  !hasCompressedSignature pfx && (isTextPrefix pfx atEnd || isMostlyAscii pfx)

/-- `deflated_may_overflow`. -/
def deflatedMayOverflow (size : ℕ) : Bool :=
  u32Sentinel ≤ saturatingAdd (saturatingAdd size (size / 8)) 1024

/-- Year, month and day of a day number counted from 1970-01-01, in the proleptic Gregorian
calendar. -/
def civilFromDays (days : ℕ) : ℕ × ℕ × ℕ :=
  let shifted := days + 719468
  let era := shifted / 146097
  let dayOfEra := shifted % 146097
  let yearOfEra := (dayOfEra - dayOfEra / 1460 + dayOfEra / 36524 - dayOfEra / 146096) / 365
  let dayOfYear := dayOfEra - (365 * yearOfEra + yearOfEra / 4 - yearOfEra / 100)
  let shiftedMonth := (5 * dayOfYear + 2) / 153
  let day := dayOfYear - (153 * shiftedMonth + 2) / 5 + 1
  let month := if shiftedMonth < 10 then shiftedMonth + 3 else shiftedMonth - 9
  (yearOfEra + era * 400 + (if month ≤ 2 then 1 else 0), month, day)

/-- `DOS_MIN`. -/
def dosMin : UInt16 × UInt16 := (0, ((1 : UInt16) <<< 5) ||| 1)

/-- `DOS_MAX`. -/
def dosMax : UInt16 × UInt16 := (0xBF7D, 0xFF9F)

/-- `dos_timestamp`: time and date, clamped to the representable range. -/
def dosTimestamp (modified : Option SystemTime) : UInt16 × UInt16 :=
  match modified.bind SystemTime.secondsSinceEpoch with
  | none => dosMin
  | some seconds =>
    let (year, month, day) := civilFromDays (seconds / 86400)
    let secondOfDay := seconds % 86400
    if year < 1980 then dosMin
    else if 2108 ≤ year then dosMax
    else
      ((UInt16.ofNat (secondOfDay / 3600) <<< 11) ||| (UInt16.ofNat (secondOfDay / 60 % 60) <<< 5) |||
          UInt16.ofNat (secondOfDay % 60 / 2),
        (UInt16.ofNat (year - 1980) <<< 9) ||| (UInt16.ofNat month <<< 5) ||| UInt16.ofNat day)

example : dosTimestamp (some ⟨1700000000, 0⟩) = (0xB1AA, 0x576E) := by decide

/-- `unix_mtime`: the modification time when it fits a signed 32-bit field. -/
def unixMtime (modified : Option SystemTime) : Option UInt32 :=
  match modified.bind SystemTime.secondsSinceEpoch with
  | none => none
  | some seconds => if seconds ≤ 2 ^ 31 - 1 then some (UInt32.ofNat seconds) else none

/-- `ZipSource`. -/
structure ZipSource where
  name : String
  /-- `none` for a directory. -/
  size : Option ℕ
  modified : Option SystemTime
deriving DecidableEq, Repr

/-- `Method`. -/
inductive Method where
  | stored | candidate | deflated
deriving DecidableEq, Repr

/-- `ZipEntry`. -/
structure ZipEntry where
  name : String
  size : Option ℕ
  method : Method
  dosTime : UInt16
  dosDate : UInt16
  unixMtime : Option UInt32
  offset : ℕ
  crc : BitVec 32
  compressed : ℕ
deriving DecidableEq, Repr

/-- `name.as_bytes()`. -/
def nameBytes (name : String) : List UInt8 := name.toByteArray.data.toList

/-- `name.ends_with('/')`. -/
def endsWithSlash (name : String) : Bool := name.toList.getLast? == some '/'

namespace ZipEntry

/-- `zip64_sizes`. -/
def zip64Sizes (entry : ZipEntry) : Bool :=
  match entry.size with
  | none => false
  | some size =>
    match entry.method with
    | .stored => u32Sentinel ≤ size
    | .candidate | .deflated => deflatedMayOverflow size

/-- `zip64_offset`. -/
def zip64Offset (entry : ZipEntry) : Bool := u32Sentinel ≤ entry.offset

/-- `version`. -/
def version (entry : ZipEntry) : ℕ :=
  if entry.zip64Sizes || entry.zip64Offset then versionZip64 else versionDefault

/-- `flags`. -/
def flags (entry : ZipEntry) : ℕ :=
  if entry.size.isSome then flagUtf8 ||| flagDataDescriptor else flagUtf8

/-- `method_code`. -/
def methodCode (entry : ZipEntry) : ℕ :=
  if entry.method = .deflated then methodDeflated else methodStored

/-- `timestamp_extra_len`. -/
def timestampExtraLen (entry : ZipEntry) : ℕ :=
  if entry.unixMtime.isSome then extendedTimestampLen else 0

/-- `local_extra_len`. -/
def localExtraLen (entry : ZipEntry) : ℕ :=
  entry.timestampExtraLen + if entry.zip64Sizes then 20 else 0

/-- `central_zip64_fields`. -/
def centralZip64Fields (entry : ZipEntry) : ℕ :=
  (if entry.zip64Sizes then 2 else 0) + (if entry.zip64Offset then 1 else 0)

/-- `central_extra_len`. -/
def centralExtraLen (entry : ZipEntry) : ℕ :=
  let fields := entry.centralZip64Fields
  entry.timestampExtraLen + if fields = 0 then 0 else 4 + 8 * fields

/-- `local_len`. -/
def localLen (entry : ZipEntry) : ℕ := localHeaderLen + entry.name.utf8ByteSize + entry.localExtraLen

/-- `descriptor_len`. -/
def descriptorLen (entry : ZipEntry) : ℕ :=
  match entry.size with
  | none => 0
  | some _ => if entry.zip64Sizes then zip64DataDescriptorLen else dataDescriptorLen

/-- `central_len`. -/
def centralLen (entry : ZipEntry) : ℕ :=
  centralHeaderLen + entry.name.utf8ByteSize + entry.centralExtraLen

end ZipEntry

/-- `put_u16`, after the source's cast. -/
def putU16 (value : ℕ) : List UInt8 := leBytes 2 value

/-- `put_u32`, after the source's cast. -/
def putU32 (value : ℕ) : List UInt8 := leBytes 4 value

/-- `put_u64`. -/
def putU64 (value : ℕ) : List UInt8 := leBytes 8 value

@[simp] theorem putU16_length (value : ℕ) : (putU16 value).length = 2 := leBytes_length 2 value

@[simp] theorem putU32_length (value : ℕ) : (putU32 value).length = 4 := leBytes_length 4 value

@[simp] theorem putU64_length (value : ℕ) : (putU64 value).length = 8 := leBytes_length 8 value

/-- `put_timestamp_extra`. -/
def putTimestampExtra : Option UInt32 → List UInt8
  | none => []
  | some mtime => putU16 extendedTimestampId ++ (putU16 5 ++ (leBytes 1 1 ++ putU32 mtime.toNat))

namespace ZipEntry

/-- The ZIP64 extra field of a local header: both sizes are deferred to the descriptor. -/
def localZip64Extra (entry : ZipEntry) : List UInt8 :=
  if entry.zip64Sizes then putU16 zip64ExtraId ++ (putU16 16 ++ (putU64 0 ++ putU64 0)) else []

/-- The bytes `write_local_header` appends for a settled entry. -/
def localHeader (entry : ZipEntry) : List UInt8 :=
  let sizeField := if entry.zip64Sizes then 2 ^ 32 - 1 else 0
  putU32 localHeaderSignature ++ (putU16 entry.version ++ (putU16 entry.flags ++
    (putU16 entry.methodCode ++ (putU16 entry.dosTime.toNat ++ (putU16 entry.dosDate.toNat ++
    (putU32 0 ++ (putU32 sizeField ++ (putU32 sizeField ++
    (putU16 entry.name.utf8ByteSize ++ (putU16 entry.localExtraLen ++ (nameBytes entry.name ++
    (putTimestampExtra entry.unixMtime ++ entry.localZip64Extra))))))))))))

/-- The bytes `write_data_descriptor` appends once the entry's CRC and length are recorded. -/
def dataDescriptor (entry : ZipEntry) : List UInt8 :=
  match entry.size with
  | none => []
  | some size =>
    putU32 dataDescriptorSignature ++ (putU32 entry.crc.toNat ++
      if entry.zip64Sizes then putU64 entry.compressed ++ putU64 size
      else putU32 entry.compressed ++ putU32 size)

/-- The ZIP64 extra field of a central header: only the fields that overflow. -/
def centralZip64Extra (entry : ZipEntry) : List UInt8 :=
  if entry.centralZip64Fields = 0 then []
  else
    putU16 zip64ExtraId ++ (putU16 (8 * entry.centralZip64Fields) ++
      ((if entry.zip64Sizes then putU64 (entry.size.getD 0) ++ putU64 entry.compressed else []) ++
        if entry.zip64Offset then putU64 entry.offset else []))

/-- The bytes `write_central_header` appends for one entry. -/
def centralHeader (entry : ZipEntry) : List UInt8 :=
  let size := entry.size.getD 0
  let compressedField := if entry.zip64Sizes then 2 ^ 32 - 1 else entry.compressed
  let sizeField := if entry.zip64Sizes then 2 ^ 32 - 1 else size
  let offsetField := if entry.zip64Offset then 2 ^ 32 - 1 else entry.offset
  putU32 centralHeaderSignature ++ (putU16 (creatorUnix ||| entry.version) ++
    (putU16 entry.version ++ (putU16 entry.flags ++ (putU16 entry.methodCode ++
    (putU16 entry.dosTime.toNat ++ (putU16 entry.dosDate.toNat ++ (putU32 entry.crc.toNat ++
    (putU32 compressedField ++ (putU32 sizeField ++ (putU16 entry.name.utf8ByteSize ++
    (putU16 entry.centralExtraLen ++ (putU16 0 ++ (putU16 0 ++ (putU16 0 ++
    (putU32 (if entry.size.isSome then fileAttributes else directoryAttributes) ++
    (putU32 offsetField ++ (nameBytes entry.name ++
    (putTimestampExtra entry.unixMtime ++ entry.centralZip64Extra))))))))))))))))))

end ZipEntry

@[simp] theorem nameBytes_length (name : String) : (nameBytes name).length = name.utf8ByteSize := by
  rw [nameBytes, ← String.size_toByteArray]
  rfl

@[simp] theorem putTimestampExtra_length (entry : ZipEntry) :
    (putTimestampExtra entry.unixMtime).length = entry.timestampExtraLen := by
  cases h : entry.unixMtime <;>
    simp [putTimestampExtra, ZipEntry.timestampExtraLen, h, putU16, putU32, extendedTimestampLen]

namespace ZipEntry

@[simp] theorem localZip64Extra_length (entry : ZipEntry) :
    entry.localZip64Extra.length = if entry.zip64Sizes then 20 else 0 := by
  unfold localZip64Extra
  split <;> simp [putU16, putU64]

@[simp] theorem centralZip64Extra_length (entry : ZipEntry) :
    entry.centralZip64Extra.length =
      if entry.centralZip64Fields = 0 then 0 else 4 + 8 * entry.centralZip64Fields := by
  unfold centralZip64Extra centralZip64Fields
  cases entry.zip64Sizes <;> cases entry.zip64Offset <;> simp [putU16, putU64]

/-- The local header has its planned length. -/
@[simp] theorem localHeader_length (entry : ZipEntry) : entry.localHeader.length = entry.localLen := by
  simp only [localHeader, List.length_append, putU16, putU32, leBytes_length, nameBytes_length,
    putTimestampExtra_length, localZip64Extra_length, localLen, localExtraLen, localHeaderLen]
  omega

/-- The data descriptor has its planned length. -/
@[simp] theorem dataDescriptor_length (entry : ZipEntry) :
    entry.dataDescriptor.length = entry.descriptorLen := by
  unfold dataDescriptor descriptorLen
  cases entry.size with
  | none => rfl
  | some size =>
    cases entry.zip64Sizes <;> simp [putU32, putU64, zip64DataDescriptorLen, dataDescriptorLen]

/-- The central header has its planned length. -/
@[simp] theorem centralHeader_length (entry : ZipEntry) :
    entry.centralHeader.length = entry.centralLen := by
  simp only [centralHeader, List.length_append, putU16, putU32, leBytes_length, nameBytes_length,
    putTimestampExtra_length, centralZip64Extra_length, centralLen, centralExtraLen, centralHeaderLen]
  omega

end ZipEntry

end Crabinet.Zip
