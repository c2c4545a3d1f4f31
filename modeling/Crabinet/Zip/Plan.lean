import Crabinet.Library.Outcome
import Crabinet.Zip.Entry

/-!
# The layout plan and its writers

`ZipPlan` as the source keeps it: entries with provisional offsets, the write position,
and the central directory's place. The writers re-decide every optional field from the
entry as it stands when they run. An index outside the entries, where the source would
panic, is an error of its own.
-/

namespace Crabinet.Zip

open Crabinet.Library

/-- How a writer or an encoder fails. -/
inductive ZipError where
  /-- `layout_error`. -/
  | layout
  /-- `entry_changed`. -/
  | entryChanged
  /-- The compressor reported an error or no progress. -/
  | deflate
  /-- The source file could not be read. -/
  | read
  /-- An index panic. -/
  | outOfRange
deriving DecidableEq, Repr

/-- `ZipPlan`. -/
structure ZipPlan where
  entries : List ZipEntry
  /-- Whether some entry may be deflated (`variable`). -/
  isVariable : Bool
  position : ℕ
  centralOffset : ℕ
  centralLen : ℕ
  len : ℕ
deriving DecidableEq, Repr

/-- `needs_zip64_end`. -/
def ZipPlan.needsZip64End (plan : ZipPlan) : Bool :=
  u16Sentinel ≤ plan.entries.length || u32Sentinel ≤ plan.centralOffset ||
    u32Sentinel ≤ plan.centralLen

/-- `end_len`. -/
def ZipPlan.endLen (plan : ZipPlan) : ℕ :=
  if plan.needsZip64End then zip64EndLen + zip64LocatorLen + Zip.endLen else Zip.endLen

/-- The entry `ZipPlan::new` makes of one source at `offset`, or `none` for a bad name. -/
def planEntry (compression : ArchiveCompression) (offset : ℕ) (source : ZipSource) :
    Option ZipEntry :=
  if source.name.isEmpty || endsWithSlash source.name then none
  else
    let name := if source.size.isNone then source.name.push '/' else source.name
    if name.utf8ByteSize > u16Sentinel then none
    else
      let method :=
        match source.size with
        | some size =>
          if compression = .auto ∧ mayDeflate name size then Method.candidate else .stored
        | none => .stored
      let (dosTime, dosDate) := dosTimestamp source.modified
      some {
        name, size := source.size, method, dosTime, dosDate
        unixMtime := unixMtime source.modified, offset, crc := 0, compressed := 0 }

/-- The loop of `ZipPlan::new`: the entries, and the offset after them. -/
def planEntries (compression : ArchiveCompression) : ℕ → List ZipSource → Option (List ZipEntry × ℕ)
  | offset, [] => some ([], offset)
  | offset, source :: rest => do
    let entry ← planEntry compression offset source
    let offset ← checkedAdd offset entry.localLen
    let offset ← checkedAdd offset (entry.size.getD 0)
    let offset ← checkedAdd offset entry.descriptorLen
    let (entries, offset) ← planEntries compression offset rest
    some (entry :: entries, offset)

/-- `try_fold` of `checked_add` over the central header lengths. -/
def checkedTotal : ℕ → List ℕ → Option ℕ
  | total, [] => some total
  | total, length :: rest => do
    let total ← checkedAdd total length
    checkedTotal total rest

/-- `ZipPlan::new`. -/
def ZipPlan.new (sources : List ZipSource) (compression : ArchiveCompression) : Option ZipPlan := do
  let (entries, offset) ← planEntries compression 0 sources
  let centralLen ← checkedTotal 0 (entries.map ZipEntry.centralLen)
  let plan : ZipPlan := {
    entries, isVariable := entries.any fun entry => entry.method == .candidate
    position := 0, centralOffset := offset, centralLen, len := 0 }
  let len ← checkedAdd offset centralLen
  let len ← checkedAdd len plan.endLen
  some { plan with len }

/-- `fixed_len`. -/
def ZipPlan.fixedLen (plan : ZipPlan) : Option ℕ := if plan.isVariable then none else some plan.len

/-- `may_deflate` of a planned entry. -/
def ZipPlan.mayDeflate (plan : ZipPlan) (index : ℕ) : Bool :=
  match plan.entries[index]? with
  | some entry => entry.method == .candidate
  | none => false

/-- What `write_local_header` records in its entry: a candidate's method and the position. -/
def ZipEntry.settle (entry : ZipEntry) (deflate : Bool) (position : ℕ) : ZipEntry :=
  { entry with
    method := if entry.method = .candidate then (if deflate then .deflated else .stored)
      else entry.method
    offset := position }

/-- `write_local_header`. -/
def ZipPlan.writeLocalHeader (plan : ZipPlan) (index : ℕ) (deflate : Bool) :
    Except ZipError (ZipPlan × List UInt8) :=
  match plan.entries[index]? with
  | none => .error .outOfRange
  | some entry =>
    let entry := entry.settle deflate plan.position
    .ok ({ plan with
      entries := plan.entries.set index entry
      position := saturatingAdd plan.position entry.localLen }, entry.localHeader)

/-- Whether `write_data_descriptor` takes `compressed` bytes of data for the entry. -/
def ZipEntry.refuses (entry : ZipEntry) (size compressed : ℕ) : Bool :=
  (entry.method != .deflated && compressed != size) ||
    (!entry.zip64Sizes && u32Sentinel ≤ compressed)

/-- What `write_data_descriptor` records in its entry: the CRC and the length of the data. -/
def ZipEntry.complete (entry : ZipEntry) (crc : BitVec 32) (compressed : ℕ) : ZipEntry :=
  { entry with crc, compressed }

/-- `write_data_descriptor`. -/
def ZipPlan.writeDataDescriptor (plan : ZipPlan) (index : ℕ) (crc : BitVec 32) (compressed : ℕ) :
    Except ZipError (ZipPlan × List UInt8) :=
  match plan.entries[index]? with
  | none => .error .outOfRange
  | some entry =>
    match entry.size with
    | none => .ok (plan, [])
    | some size =>
      if entry.refuses size compressed then .error .layout
      else
        let entry := entry.complete crc compressed
        match (checkedAdd plan.position compressed).bind (checkedAdd · entry.descriptorLen) with
        | none => .error .layout
        | some position =>
          .ok ({ plan with entries := plan.entries.set index entry, position },
            entry.dataDescriptor)

/-- `finish_entries`. -/
def ZipPlan.finishEntries (plan : ZipPlan) : Except ZipError ZipPlan :=
  let centralOffset := plan.position
  match checkedTotal 0 (plan.entries.map ZipEntry.centralLen) with
  | none => .error .layout
  | some centralLen =>
    let planned := (plan.centralOffset, plan.centralLen)
    let plan := { plan with centralOffset, centralLen }
    match (checkedAdd centralOffset centralLen).bind (checkedAdd · plan.endLen) with
    | none => .error .layout
    | some len =>
      if !plan.isVariable && ((centralOffset, centralLen) != planned || len != plan.len) then
        .error .layout
      else .ok { plan with len }

/-- `write_central_header`. -/
def ZipPlan.writeCentralHeader (plan : ZipPlan) (index : ℕ) : Except ZipError (List UInt8) :=
  match plan.entries[index]? with
  | none => .error .outOfRange
  | some entry => .ok entry.centralHeader

/-- The ZIP64 end record and its locator. -/
def ZipPlan.zip64End (plan : ZipPlan) : List UInt8 :=
  let count := plan.entries.length
  putU32 zip64EndSignature ++ (putU64 (zip64EndLen - 12) ++
    (putU16 (creatorUnix ||| versionZip64) ++ (putU16 versionZip64 ++ (putU32 0 ++ (putU32 0 ++
    (putU64 count ++ (putU64 count ++ (putU64 plan.centralLen ++ putU64 plan.centralOffset))))))))

/-- The locator of the ZIP64 end record. -/
def ZipPlan.zip64Locator (plan : ZipPlan) : List UInt8 :=
  putU32 zip64LocatorSignature ++ (putU32 0 ++
    (putU64 (wrappingAdd plan.centralOffset plan.centralLen) ++ putU32 1))

/-- The classic end record. -/
def ZipPlan.classicEnd (plan : ZipPlan) : List UInt8 :=
  let countField := min plan.entries.length u16Sentinel
  putU32 endSignature ++ (putU16 0 ++ (putU16 0 ++ (putU16 countField ++ (putU16 countField ++
    (putU32 (min plan.centralLen u32Sentinel) ++ (putU32 (min plan.centralOffset u32Sentinel) ++
    putU16 0))))))

/-- `write_end`. -/
def ZipPlan.writeEnd (plan : ZipPlan) : List UInt8 :=
  (if plan.needsZip64End then plan.zip64End ++ plan.zip64Locator else []) ++ plan.classicEnd

/-- What an encoder hands over for one file: its method choice, CRC and data. -/
structure EntryData where
  deflate : Bool
  crc : BitVec 32
  data : List UInt8
deriving DecidableEq, Repr

/-- One entry's turn: its local header and, for a file, its data and descriptor. -/
def ZipPlan.writeEntry (plan : ZipPlan) (index : ℕ) :
    Option EntryData → Except ZipError (ZipPlan × List UInt8)
  | none => plan.writeLocalHeader index false
  | some content => do
    let (plan, header) ← plan.writeLocalHeader index content.deflate
    let (plan, descriptor) ← plan.writeDataDescriptor index content.crc content.data.length
    .ok (plan, header ++ (content.data ++ descriptor))

/-- Every entry in turn, from `index` on. -/
def ZipPlan.writeEntries (plan : ZipPlan) (index : ℕ) :
    List (Option EntryData) → Except ZipError (ZipPlan × List UInt8)
  | [] => .ok (plan, [])
  | content :: rest => do
    let (plan, bytes) ← plan.writeEntry index content
    let (plan, more) ← plan.writeEntries (index + 1) rest
    .ok (plan, bytes ++ more)

/-- The central headers of the entries from `index` on, `count` of them. -/
def ZipPlan.writeCentralHeaders (plan : ZipPlan) (index : ℕ) : ℕ → Except ZipError (List UInt8)
  | 0 => .ok []
  | count + 1 => do
    let header ← plan.writeCentralHeader index
    let more ← plan.writeCentralHeaders (index + 1) count
    .ok (header ++ more)

/-- A whole archive: entries, `finish_entries`, central headers and `write_end`. -/
def ZipPlan.writeArchive (plan : ZipPlan) (contents : List (Option EntryData)) :
    Except ZipError (ZipPlan × List UInt8) := do
  let (plan, body) ← plan.writeEntries 0 contents
  let plan ← plan.finishEntries
  let central ← plan.writeCentralHeaders 0 plan.entries.length
  .ok (plan, body ++ (central ++ plan.writeEnd))

/-- The central headers are those of the entries, in order. -/
theorem ZipPlan.writeCentralHeaders_eq (plan : ZipPlan) (before after : List ZipEntry)
    (hentries : plan.entries = before ++ after) :
    plan.writeCentralHeaders before.length after.length =
      .ok (after.flatMap ZipEntry.centralHeader) := by
  induction after generalizing before with
  | nil => rfl
  | cons entry after ih =>
    have hget : plan.entries[before.length]? = some entry := by simp [hentries]
    have hrest := ih (before ++ [entry]) (by simp [hentries])
    rw [List.length_append, List.length_singleton] at hrest
    rw [List.length_cons, writeCentralHeaders, writeCentralHeader, hget]
    simp only [ok_bind, hrest, List.flatMap_cons]

/-- The end records have their planned length. -/
@[simp] theorem ZipPlan.writeEnd_length (plan : ZipPlan) : plan.writeEnd.length = plan.endLen := by
  unfold writeEnd endLen
  cases plan.needsZip64End <;>
    simp [zip64End, zip64Locator, classicEnd, putU16, putU32, putU64, Zip.endLen, zip64EndLen,
      zip64LocatorLen]

end Crabinet.Zip
