import Crabinet.Zip.Crc32
import Crabinet.Zip.Plan

/-!
# The independent reader

`verify::read_archive` reads an archive from its end record through the central directory to each
local header and its data, and compares the copies of what it finds. Where it panics, nothing is
read. Inflating is an argument.
-/

namespace Crabinet.Zip

open Crabinet.Library

/-- `u16_at`. -/
def u16At (bytes : List UInt8) (start : ℕ) : Option ℕ := leAt 2 bytes start

/-- `u32_at`. -/
def u32At (bytes : List UInt8) (start : ℕ) : Option ℕ := leAt 4 bytes start

/-- `u64_at`. -/
def u64At (bytes : List UInt8) (start : ℕ) : Option ℕ := leAt 8 bytes start

/-- An assertion of the reader. -/
def check (holds : Prop) [Decidable holds] : Option Unit := if holds then some () else none

/-- The start of a field that lies before another position. -/
def before (stop length : ℕ) : Option ℕ := if length ≤ stop then some (stop - length) else none

/-- `Decompress`, for a stream that ends: what it expands to, and how much of its input it takes. -/
abbrev Inflate : Type := List UInt8 → Option (List UInt8 × ℕ)

/-- `inflate`. -/
def inflateExactly (inflate : Inflate) (raw : List UInt8) (size : ℕ) : Option (List UInt8) := do
  let (data, totalIn) ← inflate raw
  check (totalIn = raw.length)
  check (data.length = size)
  return data

/-- `ReadEntry`. -/
structure ReadEntry where
  name : String
  method : ℕ
  data : Option (List UInt8)
deriving DecidableEq

/-! ### Central headers -/

/-- The sizes and the offset of a central header while its extra fields are read, and whether a ZIP64
field is among those. -/
structure WideFields where
  size : ℕ
  compressed : ℕ
  offset : ℕ
  zip64 : Bool
deriving DecidableEq

/-- A number that a ZIP64 field holds where the classic field defers to it, and where the next such
number lies. -/
def deferred (bytes : List UInt8) (value field : ℕ) : Option (ℕ × ℕ) :=
  if value = u32Sentinel then (u64At bytes field).map fun wide => (wide, field + 8) else some (value, field)

/-- A ZIP64 field: only the overflowing fields, in this order. -/
def readZip64 (bytes : List UInt8) (extra length : ℕ) (fields : WideFields) : Option WideFields := do
  let (size, field) ← deferred bytes fields.size (extra + 4)
  let (compressed, field) ← deferred bytes fields.compressed field
  let (offset, field) ← deferred bytes fields.offset field
  check (field = extra + 4 + length)
  return { size, compressed, offset, zip64 := true }

/-- The loop over the extra fields, and where it ends. -/
def readExtras (bytes : List UInt8) (extraEnd extra : ℕ) (fields : WideFields) :
    Option (ℕ × WideFields) :=
  if extra < extraEnd then do
    let id ← u16At bytes extra
    let length ← u16At bytes (extra + 2)
    let fields ← if id = zip64ExtraId then readZip64 bytes extra length fields else some fields
    readExtras bytes extraEnd (extra + 4 + length) fields
  else some (extra, fields)
termination_by extraEnd - extra

/-- `CentralRecord`. -/
structure CentralRecord where
  versionNeeded : ℕ
  flags : ℕ
  method : ℕ
  crc : ℕ
  size : ℕ
  compressed : ℕ
  offset : ℕ
  name : String
  /-- Where the next header starts. -/
  next : ℕ
deriving DecidableEq

/-- `read_central`. -/
def readCentral (bytes : List UInt8) (start : ℕ) : Option CentralRecord := do
  check ((← u32At bytes start) = centralHeaderSignature)
  let versionNeeded ← u16At bytes (start + 6)
  check ((← u16At bytes (start + 4)) = creatorUnix ||| versionNeeded)
  let flags ← u16At bytes (start + 8)
  check (flags &&& flagUtf8 ≠ 0)
  let method ← u16At bytes (start + 10)
  check (method = methodStored ∨ method = methodDeflated)
  let crc ← u32At bytes (start + 16)
  let compressed ← u32At bytes (start + 20)
  let size ← u32At bytes (start + 24)
  let nameLen ← u16At bytes (start + 28)
  let extraLen ← u16At bytes (start + 30)
  let offset ← u32At bytes (start + 42)
  let name ← String.fromUTF8? ⟨(← slice bytes (start + 46) (start + 46 + nameLen)).toArray⟩
  let extraEnd := start + 46 + nameLen + extraLen
  let (extra, fields) ← readExtras bytes extraEnd (start + 46 + nameLen)
    { size, compressed, offset, zip64 := false }
  check (extra = extraEnd)
  check (method = methodStored → fields.compressed = fields.size)
  check (versionNeeded = if fields.zip64 then versionZip64 else versionDefault)
  check (flags = if endsWithSlash name then flagUtf8 else flagUtf8 ||| flagDataDescriptor)
  return { versionNeeded, flags, method, crc, size := fields.size, compressed := fields.compressed
           offset := fields.offset, name, next := extraEnd }

/-! ### Entries -/

/-- The data of a file, inflated where they are deflated. -/
def readStored (inflate : Inflate) (record : CentralRecord) (raw : List UInt8) : Option (List UInt8) :=
  if record.method = methodDeflated then inflateExactly inflate raw record.size else some raw

/-- A data descriptor repeats its central header. -/
def checkDescriptor (bytes : List UInt8) (record : CentralRecord) (start : ℕ) (zip64 : Bool) :
    Option Unit := do
  check ((← u32At bytes start) = dataDescriptorSignature)
  check ((← u32At bytes (start + 4)) = record.crc)
  if zip64 then
    check ((← u64At bytes (start + 8)) = record.compressed)
    check ((← u64At bytes (start + 16)) = record.size)
  else
    check ((← u32At bytes (start + 8)) = record.compressed)
    check ((← u32At bytes (start + 12)) = record.size)

/-- The data of a file, with its data descriptor. -/
def readData (inflate : Inflate) (bytes : List UInt8) (record : CentralRecord) (start : ℕ)
    (zip64 : Bool) : Option (List UInt8) := do
  check (record.flags &&& flagDataDescriptor ≠ 0)
  let raw ← slice bytes start (start + record.compressed)
  let data ← readStored inflate record raw
  check ((referenceCrc data).toNat = record.crc)
  checkDescriptor bytes record (start + record.compressed) zip64
  return data

/-- Whether a local header has ZIP64 sizes. -/
def readLocalZip64 (bytes : List UInt8) (start extraLen : ℕ) : Option Bool :=
  if 20 ≤ extraLen then (u32At bytes (start + 18)).map (· == 2 ^ 32 - 1) else some false

/-- The local header of a central header's entry, and its data. -/
def readLocal (inflate : Inflate) (bytes : List UInt8) (record : CentralRecord) : Option ReadEntry := do
  let start := record.offset
  check ((← u32At bytes start) = localHeaderSignature)
  check ((← u16At bytes (start + 6)) = record.flags)
  check ((← u16At bytes (start + 8)) = record.method)
  let nameLen ← u16At bytes (start + 26)
  let extraLen ← u16At bytes (start + 28)
  check ((← slice bytes (start + 30) (start + 30 + nameLen)) = nameBytes record.name)
  let zip64 ← readLocalZip64 bytes start extraLen
  check ((← u16At bytes (start + 4)) = record.versionNeeded)
  check (zip64 = true → record.versionNeeded = versionZip64)
  if endsWithSlash record.name then
    check (record.flags &&& flagDataDescriptor = 0)
    check (record.method = methodStored)
    check (record.size = 0)
    return ⟨record.name, record.method, none⟩
  else
    let data ← readData inflate bytes record (start + 30 + nameLen + extraLen) zip64
    return ⟨record.name, record.method, some data⟩

/-- The loop over a number of entries, and where it ends. -/
def readEntries (inflate : Inflate) (bytes : List UInt8) (start : ℕ) : ℕ → Option (List ReadEntry × ℕ)
  | 0 => some ([], start)
  | count + 1 => do
    let record ← readCentral bytes start
    let entry ← readLocal inflate bytes record
    let (entries, stop) ← readEntries inflate bytes record.next count
    return (entry :: entries, stop)

/-! ### The end record -/

/-- The number of entries, and the length and offset of the central directory. -/
structure EndRecord where
  count : ℕ
  centralLen : ℕ
  centralOffset : ℕ
deriving DecidableEq

/-- The end records. -/
def readEnd (bytes : List UInt8) : Option EndRecord := do
  let start ← before bytes.length endLen
  check ((← u32At bytes start) = endSignature)
  check ((← u16At bytes (start + 20)) = 0)
  let count ← u16At bytes (start + 10)
  let centralLen ← u32At bytes (start + 12)
  let centralOffset ← u32At bytes (start + 16)
  if count = u16Sentinel ∨ centralLen = u32Sentinel ∨ centralOffset = u32Sentinel then
    let locator ← before start zip64LocatorLen
    check ((← u32At bytes locator) = zip64LocatorSignature)
    let zip64End ← u64At bytes (locator + 8)
    check ((← before locator zip64EndLen) = zip64End)
    check ((← u32At bytes zip64End) = zip64EndSignature)
    return ⟨← u64At bytes (zip64End + 32), ← u64At bytes (zip64End + 40), ← u64At bytes (zip64End + 48)⟩
  else return ⟨count, centralLen, centralOffset⟩

/-- `verify::read_archive`. -/
def readArchive (inflate : Inflate) (bytes : List UInt8) : Option (List ReadEntry) := do
  let record ← readEnd bytes
  let (entries, stop) ← readEntries inflate bytes record.centralOffset record.count
  check (stop = record.centralOffset + record.centralLen)
  return entries

end Crabinet.Zip
