import Crabinet.Zip.PlannedLength
import Crabinet.Zip.Reader
import Mathlib.Algebra.BigOperators.Group.List.Basic

/-!
# What the reader makes of a written archive

Every field is read where the writers put it, and is wide enough for its value. A written entry is
read as it was recorded, and the end records lead to the first of them.
-/

namespace Crabinet.Zip

open Crabinet.Library

variable {bytes : List UInt8} {start value : ℕ} {entry : ZipEntry}

theorem check_of {holds : Prop} {decidable : Decidable holds} (h : holds) : check holds = some () := if_pos h

theorem u16At_of_located (h : Located bytes start (putU16 value)) (hvalue : value ≤ u16Sentinel) :
    u16At bytes start = some value :=
  h.leAt_eq (Nat.lt_succ_of_le hvalue)

theorem u32At_of_located (h : Located bytes start (putU32 value)) (hvalue : value ≤ u32Sentinel) :
    u32At bytes start = some value :=
  h.leAt_eq (Nat.lt_succ_of_le hvalue)

theorem u64At_of_located (h : Located bytes start (putU64 value)) (hvalue : value ≤ u64Max) :
    u64At bytes start = some value :=
  h.leAt_eq (Nat.lt_succ_of_le hvalue)

/-! ### Recorded entries -/

/-- What the writers have recorded of an entry. -/
structure ZipEntry.Recorded (entry : ZipEntry) : Prop where
  name_le : entry.name.utf8ByteSize ≤ u16Sentinel
  slash_iff : endsWithSlash entry.name = true ↔ entry.size = none
  settled : entry.method ≠ .candidate
  offset_le : entry.offset ≤ u64Max
  directory : entry.size = none → entry.method = .stored ∧ entry.crc = 0 ∧ entry.compressed = 0
  file : ∀ size, entry.size = some size →
    size ≤ u64Max ∧ entry.compressed ≤ u64Max ∧ entry.refuses size entry.compressed = false

namespace ZipEntry.Recorded

/-- Sizes outside the ZIP64 fields fit the classic ones. -/
theorem narrow (h : entry.Recorded) (hsizes : entry.zip64Sizes = false) :
    entry.size.getD 0 < u32Sentinel ∧ entry.compressed < u32Sentinel := by
  cases hsize : entry.size with
  | none =>
    rw [(h.directory hsize).2.2]
    decide
  | some size =>
    obtain ⟨-, -, haccepted⟩ := h.file size hsize
    rw [ZipEntry.refuses, hsizes, Bool.or_eq_false_iff] at haccepted
    simp only [Bool.not_false, Bool.true_and, decide_eq_false_iff_not, not_le] at haccepted
    refine ⟨?_, haccepted.2⟩
    rw [ZipEntry.zip64Sizes, hsize] at hsizes
    rw [Option.getD_some]
    cases hmethod : entry.method with
    | stored => simpa [hmethod] using hsizes
    | candidate => exact absurd hmethod h.settled
    | deflated =>
      simp only [hmethod] at hsizes
      have hbound := decide_eq_false_iff_not.mp hsizes
      unfold saturatingAdd u64Max u32Sentinel at hbound
      unfold u32Sentinel
      omega

/-- Sizes are `u64`s. -/
theorem wide (h : entry.Recorded) : entry.size.getD 0 ≤ u64Max ∧ entry.compressed ≤ u64Max := by
  cases hsize : entry.size with
  | none =>
    rw [(h.directory hsize).2.2]
    decide
  | some size =>
    obtain ⟨hle, hcompressed, -⟩ := h.file size hsize
    exact ⟨hle, hcompressed⟩

/-- What is not deflated is as long as its file. -/
theorem compressed_eq (h : entry.Recorded) (hmethod : entry.method ≠ .deflated) :
    entry.compressed = entry.size.getD 0 := by
  cases hsize : entry.size with
  | none => exact (h.directory hsize).2.2
  | some size =>
    obtain ⟨-, -, haccepted⟩ := h.file size hsize
    rw [ZipEntry.refuses, Bool.or_eq_false_iff] at haccepted
    simpa [hmethod] using haccepted.1

end ZipEntry.Recorded

/-- The fields of a central header, before its extra fields are read. -/
def ZipEntry.classicFields (entry : ZipEntry) : WideFields where
  size := if entry.zip64Sizes then 2 ^ 32 - 1 else entry.size.getD 0
  compressed := if entry.zip64Sizes then 2 ^ 32 - 1 else entry.compressed
  offset := if entry.zip64Offset then 2 ^ 32 - 1 else entry.offset
  zip64 := false

/-- The fields of a central header. -/
def ZipEntry.wideFields (entry : ZipEntry) : WideFields where
  size := entry.size.getD 0
  compressed := entry.compressed
  offset := entry.offset
  zip64 := entry.centralZip64Fields ≠ 0

/-- The classic fields hold what they are given. -/
theorem ZipEntry.Recorded.classic_le (h : entry.Recorded) : entry.classicFields.size ≤ u32Sentinel ∧
    entry.classicFields.compressed ≤ u32Sentinel ∧ entry.classicFields.offset ≤ u32Sentinel := by
  unfold ZipEntry.classicFields
  dsimp only
  refine ⟨?_, ?_, ?_⟩
  · cases hsizes : entry.zip64Sizes with
    | true => exact (if_pos rfl).le
    | false => exact (h.narrow hsizes).1.le
  · cases hsizes : entry.zip64Sizes with
    | true => exact (if_pos rfl).le
    | false => exact (h.narrow hsizes).2.le
  · cases hoffset : entry.zip64Offset with
    | true => exact (if_pos rfl).le
    | false => exact (not_le.mp (decide_eq_false_iff_not.mp hoffset)).le

/-- The lengths of extra fields fit their own fields. -/
theorem ZipEntry.extraLen_le (entry : ZipEntry) :
    entry.localExtraLen ≤ u16Sentinel ∧ entry.centralExtraLen ≤ u16Sentinel := by
  unfold ZipEntry.localExtraLen ZipEntry.centralExtraLen ZipEntry.centralZip64Fields
    ZipEntry.timestampExtraLen
  cases entry.unixMtime.isSome <;> cases entry.zip64Sizes <;> cases entry.zip64Offset <;> decide

/-- Versions, flags and methods fit their fields. -/
theorem ZipEntry.version_le (entry : ZipEntry) :
    creatorUnix ||| entry.version ≤ u16Sentinel ∧ entry.version ≤ u16Sentinel := by
  unfold ZipEntry.version
  split_ifs <;> decide

theorem ZipEntry.flags_le (entry : ZipEntry) : entry.flags ≤ u16Sentinel := by
  unfold ZipEntry.flags
  split_ifs <;> decide

theorem ZipEntry.methodCode_le (entry : ZipEntry) : entry.methodCode ≤ u16Sentinel := by
  unfold ZipEntry.methodCode
  split_ifs <;> decide

/-- The version tells whether there are ZIP64 fields. -/
theorem ZipEntry.version_eq (entry : ZipEntry) :
    entry.version = if entry.wideFields.zip64 then versionZip64 else versionDefault := by
  unfold ZipEntry.version ZipEntry.wideFields ZipEntry.centralZip64Fields
  cases entry.zip64Sizes <;> cases entry.zip64Offset <;> rfl

/-! ### Central headers -/

theorem readExtras_end (stop : ℕ) (fields : WideFields) :
    readExtras bytes stop stop fields = some (stop, fields) := by
  rw [readExtras, if_neg (lt_irrefl stop)]

/-- A time is passed over. -/
theorem readExtras_timestamp {stop : ℕ} {mtime : Option UInt32} (fields : WideFields)
    (h : Located bytes start (putTimestampExtra mtime)) (hstop : start + (putTimestampExtra mtime).length ≤ stop) :
    readExtras bytes stop start fields =
      readExtras bytes stop (start + (putTimestampExtra mtime).length) fields := by
  cases mtime with
  | none => rfl
  | some time =>
    rw [putTimestampExtra] at h hstop
    simp only [located_append, putU16_length, List.length_append] at h hstop ⊢
    obtain ⟨hid, hlength, -⟩ := h
    rw [readExtras, if_pos (by omega), u16At_of_located hid (by decide), u16At_of_located hlength (by decide)]
    rfl

/-- A number is read where it was written. -/
theorem deferred_eq {wide : Bool} {field : ℕ} (hvalue : value ≤ u64Max)
    (hwide : wide = true → Located bytes field (putU64 value)) (hnarrow : wide = false → value < u32Sentinel) :
    deferred bytes (if wide then 2 ^ 32 - 1 else value) field =
      some (value, field + if wide then 8 else 0) := by
  cases wide with
  | true =>
    have hsentinel : (2 ^ 32 - 1 : ℕ) = u32Sentinel := rfl
    rw [if_pos rfl, if_pos rfl, deferred, if_pos hsentinel, u64At_of_located (hwide rfl) hvalue]
    rfl
  | false => exact if_neg (hnarrow rfl).ne

/-- The overflowing fields are read in the order they are written. -/
theorem readZip64_eq (hentry : entry.Recorded) (hfields : entry.centralZip64Fields ≠ 0)
    (h : Located bytes (start + 4)
      ((if entry.zip64Sizes then putU64 (entry.size.getD 0) ++ putU64 entry.compressed else []) ++
        if entry.zip64Offset then putU64 entry.offset else [])) :
    readZip64 bytes start (8 * entry.centralZip64Fields) entry.classicFields = some entry.wideFields := by
  obtain ⟨hsizesAt, hoffsetAt⟩ := located_append.mp h
  obtain ⟨hsize, hcompressed⟩ := hentry.wide
  have hlength : (if entry.zip64Sizes then putU64 (entry.size.getD 0) ++ putU64 entry.compressed
      else []).length = if entry.zip64Sizes then 16 else 0 := by
    cases entry.zip64Sizes <;> rfl
  rw [hlength] at hoffsetAt
  have hpair (hsizes : entry.zip64Sizes = true) : Located bytes (start + 4) (putU64 (entry.size.getD 0)) ∧
      Located bytes (start + 4 + 8) (putU64 entry.compressed) := by
    rwa [hsizes, if_pos rfl, located_append, putU64_length] at hsizesAt
  rw [readZip64, ZipEntry.classicFields]
  dsimp only
  have hend : start + 4 + (if entry.zip64Sizes then 8 else 0) + (if entry.zip64Sizes then 8 else 0) =
      start + 4 + if entry.zip64Sizes then 16 else 0 := by
    cases entry.zip64Sizes <;> rfl
  have hlast : start + 4 + (if entry.zip64Sizes then 16 else 0) + (if entry.zip64Offset then 8 else 0) =
      start + 4 + 8 * entry.centralZip64Fields := by
    unfold ZipEntry.centralZip64Fields
    cases entry.zip64Sizes <;> cases entry.zip64Offset <;> rfl
  have hcompressedAt : entry.zip64Sizes = true →
      Located bytes (start + 4 + if entry.zip64Sizes then 8 else 0) (putU64 entry.compressed) := by
    intro hsizes
    rw [hsizes, if_pos rfl]
    exact (hpair hsizes).2
  have hwideAt : entry.zip64Offset = true →
      Located bytes (start + 4 + if entry.zip64Sizes then 16 else 0) (putU64 entry.offset) := by
    intro hwide
    rwa [hwide, if_pos rfl] at hoffsetAt
  have hnarrow : entry.zip64Offset = false → entry.offset < u32Sentinel := fun hwide =>
    not_le.mp (decide_eq_false_iff_not.mp hwide)
  rw [deferred_eq hsize (fun hsizes => (hpair hsizes).1) fun hsizes => (hentry.narrow hsizes).1,
    Option.bind_eq_bind, Option.bind_some]
  dsimp only
  rw [deferred_eq hcompressed hcompressedAt fun hsizes => (hentry.narrow hsizes).2, Option.bind_eq_bind,
    Option.bind_some, hend]
  dsimp only
  rw [deferred_eq hentry.offset_le hwideAt hnarrow, Option.bind_some, hlast]
  dsimp only
  rw [check_of rfl]
  exact congrArg some (congrArg (WideFields.mk _ _ _) (decide_eq_true hfields).symm)

/-- The extra fields of a central header. -/
theorem readExtras_eq (hentry : entry.Recorded)
    (h : Located bytes start (putTimestampExtra entry.unixMtime ++ entry.centralZip64Extra)) :
    readExtras bytes (start + entry.centralExtraLen) start entry.classicFields =
      some (start + entry.centralExtraLen, entry.wideFields) := by
  obtain ⟨htime, hzip64⟩ := located_append.mp h
  have hlength : start + entry.centralExtraLen =
      start + (putTimestampExtra entry.unixMtime).length + entry.centralZip64Extra.length := by
    rw [putTimestampExtra_length, ZipEntry.centralZip64Extra_length, Nat.add_assoc]
    rfl
  rw [hlength, readExtras_timestamp _ htime (by omega)]
  by_cases hfields : entry.centralZip64Fields = 0
  · have hnone : entry.centralZip64Extra = [] := if_pos hfields
    have hclassic : entry.classicFields = entry.wideFields := by
      unfold ZipEntry.centralZip64Fields at hfields
      unfold ZipEntry.classicFields ZipEntry.wideFields ZipEntry.centralZip64Fields
      cases hsizes : entry.zip64Sizes <;> cases hoffset : entry.zip64Offset <;> simp_all
    rw [hnone, hclassic]
    exact readExtras_end _ _
  · have hsome : entry.centralZip64Extra = _ := if_neg hfields
    have hextra : entry.centralZip64Extra.length = 4 + 8 * entry.centralZip64Fields := by
      rw [ZipEntry.centralZip64Extra_length, if_neg hfields]
    rw [hsome] at hzip64
    obtain ⟨hid, hrest⟩ := located_append.mp hzip64
    obtain ⟨hlen, hvalues⟩ := located_append.mp hrest
    rw [putU16_length] at hlen hvalues
    rw [putU16_length] at hvalues
    have hle : 8 * entry.centralZip64Fields ≤ u16Sentinel := by
      unfold ZipEntry.centralZip64Fields
      cases entry.zip64Sizes <;> cases entry.zip64Offset <;> decide
    rw [readExtras, hextra, if_pos (by omega), u16At_of_located hid (by decide), u16At_of_located hlen hle]
    dsimp only [Option.bind_eq_bind, Option.bind_some]
    have hnext : start + (putTimestampExtra entry.unixMtime).length + 4 + 8 * entry.centralZip64Fields =
        start + (putTimestampExtra entry.unixMtime).length + (4 + 8 * entry.centralZip64Fields) :=
      Nat.add_assoc _ _ _
    rw [if_pos rfl, readZip64_eq hentry hfields hvalues, Option.bind_some, hnext]
    exact readExtras_end _ _

/-- A central header as it was recorded. -/
def ZipEntry.centralRecord (entry : ZipEntry) (start : ℕ) : CentralRecord where
  versionNeeded := entry.version
  flags := entry.flags
  method := entry.methodCode
  crc := entry.crc.toNat
  size := entry.size.getD 0
  compressed := entry.compressed
  offset := entry.offset
  name := entry.name
  next := start + entry.centralLen

/-- A central header is read as it was recorded. -/
theorem readCentral_eq (hentry : entry.Recorded) (h : Located bytes start entry.centralHeader) :
    readCentral bytes start = some (entry.centralRecord start) := by
  have hfields : entry.centralHeader = putU32 centralHeaderSignature ++ (putU16 (creatorUnix ||| entry.version) ++
    (putU16 entry.version ++ (putU16 entry.flags ++ (putU16 entry.methodCode ++
    (putU16 entry.dosTime.toNat ++ (putU16 entry.dosDate.toNat ++ (putU32 entry.crc.toNat ++
    (putU32 entry.classicFields.compressed ++ (putU32 entry.classicFields.size ++ (putU16 entry.name.utf8ByteSize ++
    (putU16 entry.centralExtraLen ++ (putU16 0 ++ (putU16 0 ++ (putU16 0 ++
    (putU32 (if entry.size.isSome then fileAttributes else directoryAttributes) ++
    (putU32 entry.classicFields.offset ++ (nameBytes entry.name ++
    (putTimestampExtra entry.unixMtime ++ entry.centralZip64Extra)))))))))))))))))) := rfl
  rw [hfields] at h
  simp only [located_append, putU16_length, putU32_length, nameBytes_length, Nat.add_assoc, Nat.reduceAdd] at h
  obtain ⟨hsignature, hcreator, hversion, hflags, hmethod, -, -, hcrc, hcompressed, hsize, hnameLen, hextraLen,
    -, -, -, -, hoffset, hname, hextras⟩ := h
  have hutf8 : entry.flags &&& flagUtf8 ≠ 0 := by
    unfold ZipEntry.flags
    split_ifs <;> decide
  have hmethods : entry.methodCode = methodStored ∨ entry.methodCode = methodDeflated := by
    unfold ZipEntry.methodCode
    split_ifs
    · exact .inr rfl
    · exact .inl rfl
  have hcrc_le : entry.crc.toNat ≤ u32Sentinel := Nat.le_of_lt_succ entry.crc.isLt
  have hclassic := hentry.classic_le
  have hname_eq : slice bytes (start + 46) (start + 46 + entry.name.utf8ByteSize) =
      some (nameBytes entry.name) := by
    rw [← nameBytes_length]
    exact hname.slice_eq
  have hvalid : String.fromUTF8? ⟨(nameBytes entry.name).toArray⟩ = some entry.name :=
    dif_pos entry.name.isValidUTF8
  have hextrasAt : Located bytes (start + 46 + entry.name.utf8ByteSize)
      (putTimestampExtra entry.unixMtime ++ entry.centralZip64Extra) := by
    rw [located_append]
    simpa only [Nat.add_assoc] using hextras
  have hread : readExtras bytes (start + 46 + entry.name.utf8ByteSize + entry.centralExtraLen)
      (start + 46 + entry.name.utf8ByteSize)
      { size := entry.classicFields.size, compressed := entry.classicFields.compressed
        offset := entry.classicFields.offset, zip64 := false } = some (_, entry.wideFields) :=
    readExtras_eq hentry hextrasAt
  have hstored : entry.methodCode = methodStored → entry.wideFields.compressed = entry.wideFields.size := by
    intro hcode
    refine hentry.compressed_eq fun hdeflated => ?_
    rw [ZipEntry.methodCode, if_pos hdeflated] at hcode
    cases hcode
  have hflags_eq : entry.flags =
      if endsWithSlash entry.name then flagUtf8 else flagUtf8 ||| flagDataDescriptor := by
    rw [ZipEntry.flags]
    by_cases hnone : entry.size = none
    · rw [if_pos (hentry.slash_iff.mpr hnone), hnone]
      rfl
    · rw [if_neg (mt hentry.slash_iff.mp hnone), if_pos (Option.isSome_iff_ne_none.mpr hnone)]
  rw [readCentral, u32At_of_located hsignature (by decide), u16At_of_located hversion entry.version_le.2,
    u16At_of_located hcreator entry.version_le.1, u16At_of_located hflags entry.flags_le,
    u16At_of_located hmethod entry.methodCode_le, u32At_of_located hcrc hcrc_le,
    u32At_of_located hcompressed hclassic.2.1, u32At_of_located hsize hclassic.1,
    u16At_of_located hnameLen hentry.name_le, u16At_of_located hextraLen entry.extraLen_le.2,
    u32At_of_located hoffset hclassic.2.2]
  dsimp only [Option.bind_eq_bind, Option.bind_some]
  rw [check_of rfl, check_of rfl, check_of hutf8, check_of hmethods, hname_eq]
  dsimp only [Option.bind_some]
  rw [hvalid]
  dsimp only [Option.bind_some]
  rw [hread]
  dsimp only [Option.bind_some]
  rw [check_of rfl, check_of hstored, check_of entry.version_eq, check_of hflags_eq]
  have hnext : start + 46 + entry.name.utf8ByteSize + entry.centralExtraLen = start + entry.centralLen := by
    unfold ZipEntry.centralLen centralHeaderLen
    omega
  rw [hnext]
  rfl

/-! ### Entries -/

/-- What a central header says of its entry. -/
structure Describes (record : CentralRecord) (entry : ZipEntry) : Prop where
  versionNeeded : record.versionNeeded = entry.version
  flags : record.flags = entry.flags
  method : record.method = entry.methodCode
  crc : record.crc = entry.crc.toNat
  size : record.size = entry.size.getD 0
  compressed : record.compressed = entry.compressed
  offset : record.offset = entry.offset
  name : record.name = entry.name

theorem describes_centralRecord (entry : ZipEntry) (start : ℕ) :
    Describes (entry.centralRecord start) entry :=
  ⟨rfl, rfl, rfl, rfl, rfl, rfl, rfl, rfl⟩

/-- What the data of a recorded file are read as. -/
structure Expands (inflate : Inflate) (entry : ZipEntry) (raw data : List UInt8) : Prop where
  length_eq : entry.compressed = raw.length
  size_eq : entry.size = some data.length
  crc_eq : entry.crc = referenceCrc data
  stored : entry.method ≠ .deflated → raw = data
  deflated : entry.method = .deflated → inflate raw = some (data, raw.length)

theorem ZipEntry.methodCode_eq_deflated {entry : ZipEntry} :
    entry.methodCode = methodDeflated ↔ entry.method = .deflated := by
  unfold ZipEntry.methodCode
  split_ifs with hmethod
  · exact iff_of_true rfl hmethod
  · exact iff_of_false (by decide) hmethod

/-- A data descriptor is read as it was recorded. -/
theorem checkDescriptor_eq {record : CentralRecord} {size : ℕ} (hentry : entry.Recorded)
    (hrecord : Describes record entry) (hsize : entry.size = some size)
    (h : Located bytes start entry.dataDescriptor) :
    checkDescriptor bytes record start entry.zip64Sizes = some () := by
  have hcrc_le : entry.crc.toNat ≤ u32Sentinel := Nat.le_of_lt_succ entry.crc.isLt
  obtain ⟨hsize_le, hcompressed_le⟩ := hentry.wide
  have hgetD : size = entry.size.getD 0 := by rw [hsize, Option.getD_some]
  rw [ZipEntry.dataDescriptor, hsize] at h
  dsimp only at h
  simp only [located_append, putU32_length, Nat.add_assoc, Nat.reduceAdd] at h
  obtain ⟨hsignature, hcrc, hlengths⟩ := h
  rw [hgetD] at hlengths
  rw [checkDescriptor, hrecord.crc, hrecord.compressed, hrecord.size]
  rw [u32At_of_located hsignature (by decide), u32At_of_located hcrc hcrc_le]
  dsimp only [Option.bind_eq_bind, Option.bind_some]
  rw [check_of rfl, check_of rfl]
  dsimp only [Option.bind_some]
  cases hsizes : entry.zip64Sizes with
  | true =>
    rw [hsizes, if_pos rfl, located_append, putU64_length] at hlengths
    rw [if_pos rfl, u64At_of_located hlengths.1 hcompressed_le, u64At_of_located hlengths.2 hsize_le]
    dsimp only [Option.bind_some]
    rw [check_of rfl]
    exact check_of rfl
  | false =>
    obtain ⟨hsize_lt, hcompressed_lt⟩ := hentry.narrow hsizes
    rw [hsizes, if_neg Bool.false_ne_true, located_append, putU32_length] at hlengths
    rw [if_neg Bool.false_ne_true, u32At_of_located hlengths.1 hcompressed_lt.le,
      u32At_of_located hlengths.2 hsize_lt.le]
    dsimp only [Option.bind_some]
    rw [check_of rfl]
    exact check_of rfl

/-- The data of a file are read with their descriptor. -/
theorem readData_eq {inflate : Inflate} {record : CentralRecord} {raw data : List UInt8}
    (hentry : entry.Recorded) (hrecord : Describes record entry) (hdata : Expands inflate entry raw data)
    (h : Located bytes start (raw ++ entry.dataDescriptor)) :
    readData inflate bytes record start entry.zip64Sizes = some data := by
  obtain ⟨hraw, hdescriptor⟩ := located_append.mp h
  rw [← hdata.length_eq] at hdescriptor
  have hslice : slice bytes start (start + entry.compressed) = some raw := by
    rw [hdata.length_eq]
    exact hraw.slice_eq
  have hflags : entry.flags &&& flagDataDescriptor ≠ 0 := by
    rw [ZipEntry.flags, hdata.size_eq, if_pos Option.isSome_some]
    decide
  have hstored : readStored inflate record raw = some data := by
    rw [readStored, hrecord.method, hrecord.size]
    by_cases hdeflated : entry.method = .deflated
    · rw [if_pos (ZipEntry.methodCode_eq_deflated.mpr hdeflated), inflateExactly, hdata.deflated hdeflated,
        hdata.size_eq]
      dsimp only [Option.bind_eq_bind, Option.bind_some, Option.getD_some]
      rw [check_of rfl, check_of rfl]
      rfl
    · rw [if_neg (mt ZipEntry.methodCode_eq_deflated.mp hdeflated), hdata.stored hdeflated]
  rw [readData, hrecord.flags, hrecord.compressed, hrecord.crc, check_of hflags, hslice]
  dsimp only [Option.bind_eq_bind, Option.bind_some]
  rw [hstored]
  dsimp only [Option.bind_some]
  rw [check_of (congrArg BitVec.toNat hdata.crc_eq.symm),
    checkDescriptor_eq hentry hrecord hdata.size_eq hdescriptor]
  rfl


/-- What a recorded turn is read as. -/
inductive LeadsTo (inflate : Inflate) : Turn → Option (List UInt8) → Prop
  | directory {entry : ZipEntry} : entry.size = none → LeadsTo inflate (entry, none) none
  | file {entry : ZipEntry} {content : EntryData} {data : List UInt8} :
    Expands inflate entry content.data data → LeadsTo inflate (entry, some content) (some data)

/-- The local header tells whether it has ZIP64 sizes. -/
theorem readLocalZip64_eq (hsize : Located bytes (start + 18)
    (putU32 (if entry.zip64Sizes then 2 ^ 32 - 1 else 0))) :
    readLocalZip64 bytes start entry.localExtraLen = some entry.zip64Sizes := by
  unfold readLocalZip64 ZipEntry.localExtraLen
  cases hsizes : entry.zip64Sizes with
  | true =>
    rw [hsizes, if_pos rfl] at hsize
    rw [if_pos rfl, if_pos (Nat.le_add_left _ _), u32At_of_located hsize le_rfl]
    rfl
  | false =>
    have hshort : entry.timestampExtraLen < 20 := by
      unfold ZipEntry.timestampExtraLen
      split_ifs <;> decide
    rw [if_neg Bool.false_ne_true, Nat.add_zero, if_neg (not_le.mpr hshort)]

/-- An entry is read as it was recorded. -/
theorem readLocal_eq {inflate : Inflate} {record : CentralRecord} {content : Option EntryData}
    {file : Option (List UInt8)} (hentry : entry.Recorded) (hrecord : Describes record entry)
    (hfile : LeadsTo inflate (entry, content) file)
    (h : Located bytes entry.offset (entry.recordBytes content)) :
    readLocal inflate bytes record = some ⟨entry.name, entry.methodCode, file⟩ := by
  obtain ⟨hheader, hrest⟩ := located_append.mp h
  rw [ZipEntry.localHeader_length] at hrest
  unfold ZipEntry.localHeader at hheader
  simp only [located_append, putU16_length, putU32_length, Nat.add_assoc, Nat.reduceAdd] at hheader
  obtain ⟨hsignature, hversion, hflags, hmethod, -, -, -, hsize, -, hnameLen, hextraLen, hname, -⟩ := hheader
  have hname_eq : slice bytes (entry.offset + 30) (entry.offset + 30 + entry.name.utf8ByteSize) =
      some (nameBytes entry.name) := by
    rw [← nameBytes_length]
    exact hname.slice_eq
  have hversion64 : entry.zip64Sizes = true → entry.version = versionZip64 := by
    intro hsizes
    rw [ZipEntry.version, hsizes, Bool.true_or, if_pos rfl]
  have hstart : entry.offset + 30 + entry.name.utf8ByteSize + entry.localExtraLen =
      entry.offset + entry.localLen := by
    unfold ZipEntry.localLen localHeaderLen
    omega
  rw [readLocal, hrecord.offset, hrecord.flags, hrecord.method, hrecord.name, hrecord.versionNeeded,
    hrecord.size, u32At_of_located hsignature (by decide), u16At_of_located hversion entry.version_le.2,
    u16At_of_located hflags entry.flags_le, u16At_of_located hmethod entry.methodCode_le,
    u16At_of_located hnameLen hentry.name_le, u16At_of_located hextraLen entry.extraLen_le.1]
  dsimp only [Option.bind_eq_bind, Option.bind_some]
  rw [check_of rfl, check_of rfl, check_of rfl, hname_eq]
  dsimp only [Option.bind_some]
  rw [check_of rfl, readLocalZip64_eq hsize]
  dsimp only [Option.bind_some]
  rw [check_of rfl, check_of hversion64, hstart]
  dsimp only [Option.bind_some]
  cases hfile with
  | directory hnone =>
    obtain ⟨hstored, -, -⟩ := hentry.directory hnone
    have hnodescriptor : entry.flags &&& flagDataDescriptor = 0 := by
      rw [ZipEntry.flags, hnone]
      decide
    have hcode : entry.methodCode = methodStored := by
      rw [ZipEntry.methodCode, hstored]
      rfl
    have hempty : entry.size.getD 0 = 0 := by
      rw [hnone]
      rfl
    rw [if_pos (hentry.slash_iff.mpr hnone), check_of hnodescriptor, check_of hcode, check_of hempty]
    rfl
  | file hdata =>
    have hsome : ¬endsWithSlash entry.name = true := by
      rw [hentry.slash_iff, hdata.size_eq]
      exact nofun
    rw [if_neg hsome, readData_eq hentry hrecord hdata hrest]
    rfl

/-- All entries of a central directory are read in turn. -/
theorem readEntries_eq {inflate : Inflate} {turns : List Turn} {files : List (Option (List UInt8))}
    (hentries : ∀ turn ∈ turns, turn.1.Recorded)
    (hlocated : ∀ turn ∈ turns, Located bytes turn.1.offset turn.bytes)
    (hfiles : List.Forall₂ (LeadsTo inflate) turns files)
    (h : Located bytes start (directoryBytes (turns.map Prod.fst))) :
    readEntries inflate bytes start turns.length =
      some (List.zipWith (fun turn file => ⟨turn.1.name, turn.1.methodCode, file⟩) turns files,
        start + directoryLen (turns.map Prod.fst)) := by
  induction hfiles generalizing start with
  | nil => rfl
  | @cons turn file turns files hfile hrest ih =>
    rw [List.map_cons, directoryBytes, List.flatMap_cons, located_append, ZipEntry.centralHeader_length] at h
    have hentry := hentries turn List.mem_cons_self
    have hlocal := readLocal_eq hentry (describes_centralRecord turn.1 start) hfile
      (hlocated turn List.mem_cons_self)
    have hmore := ih (fun other hother => hentries other (List.mem_cons_of_mem _ hother))
      (fun other hother => hlocated other (List.mem_cons_of_mem _ hother)) h.2
    rw [List.length_cons, readEntries, readCentral_eq hentry h.1]
    dsimp only [Option.bind_eq_bind, Option.bind_some]
    rw [hlocal]
    dsimp only [Option.bind_some]
    have hnext : (turn.1.centralRecord start).next = start + turn.1.centralLen := rfl
    rw [hnext, hmore]
    have htotal : directoryLen ((turn :: turns).map Prod.fst) =
        turn.1.centralLen + directoryLen (turns.map Prod.fst) := rfl
    rw [List.zipWith_cons_cons, htotal, ← Nat.add_assoc]
    rfl

/-! ### The end records -/

/-- The classic end record defers to the ZIP64 one exactly where there is one. -/
theorem needsZip64End_iff {plan : ZipPlan} : plan.needsZip64End = true ↔
    min plan.entries.length u16Sentinel = u16Sentinel ∨ min plan.centralLen u32Sentinel = u32Sentinel ∨
      min plan.centralOffset u32Sentinel = u32Sentinel := by
  simp only [ZipPlan.needsZip64End, Bool.or_eq_true, decide_eq_true_eq, min_eq_right_iff]
  tauto

@[simp]
theorem zip64End_length (plan : ZipPlan) : plan.zip64End.length = zip64EndLen := by
  simp [ZipPlan.zip64End, zip64EndLen]

@[simp]
theorem zip64Locator_length (plan : ZipPlan) : plan.zip64Locator.length = zip64LocatorLen := by
  simp [ZipPlan.zip64Locator, zip64LocatorLen]

/-- The fields of the classic end record. -/
theorem classicEnd_fields {plan : ZipPlan} (h : Located bytes start plan.classicEnd) :
    u32At bytes start = some endSignature ∧ u16At bytes (start + 20) = some 0 ∧
      u16At bytes (start + 10) = some (min plan.entries.length u16Sentinel) ∧
      u32At bytes (start + 12) = some (min plan.centralLen u32Sentinel) ∧
      u32At bytes (start + 16) = some (min plan.centralOffset u32Sentinel) := by
  unfold ZipPlan.classicEnd at h
  simp only [located_append, putU16_length, putU32_length, Nat.add_assoc, Nat.reduceAdd] at h
  obtain ⟨hsignature, -, -, -, hcount, hlen, hoffset, hcomment⟩ := h
  exact ⟨u32At_of_located hsignature (by decide), u16At_of_located hcomment (by decide),
    u16At_of_located hcount (min_le_right _ _), u32At_of_located hlen (min_le_right _ _),
    u32At_of_located hoffset (min_le_right _ _)⟩

/-- The end records lead to the central directory. -/
theorem readEnd_eq {plan : ZipPlan} (h : Located bytes (plan.centralOffset + plan.centralLen) plan.writeEnd)
    (hend : bytes.length = plan.centralOffset + plan.centralLen + plan.endLen)
    (hfits : bytes.length ≤ u64Max) (hcount : plan.entries.length ≤ u64Max) :
    readEnd bytes = some ⟨plan.entries.length, plan.centralLen, plan.centralOffset⟩ := by
  obtain ⟨hzip64, hclassic⟩ := located_append.mp h
  rw [ZipPlan.endLen] at hend
  cases hneeds : plan.needsZip64End with
  | false =>
    rw [hneeds, if_neg Bool.false_ne_true] at hclassic hend
    have hbefore : before bytes.length endLen = some (plan.centralOffset + plan.centralLen) := by
      rw [hend, before, if_pos (Nat.le_add_left _ _), Nat.add_sub_cancel]
    have hnarrow := mt needsZip64End_iff.mpr (Bool.eq_false_iff.mp hneeds)
    obtain ⟨hsignature, hcomment, hcountAt, hlen, hoffset⟩ := classicEnd_fields hclassic
    rw [readEnd, hbefore]
    dsimp only [Option.bind_eq_bind, Option.bind_some, List.length_nil, Nat.add_zero] at *
    rw [hsignature, hcomment, hcountAt, hlen, hoffset]
    dsimp only [Option.bind_some]
    rw [check_of rfl, check_of rfl]
    dsimp only [Option.bind_some]
    rw [if_neg hnarrow]
    simp only [min_eq_right_iff, not_or, not_le] at hnarrow
    obtain ⟨hcount', hlen', hoffset'⟩ := hnarrow
    rw [min_eq_left hcount'.le, min_eq_left hlen'.le, min_eq_left hoffset'.le]
    rfl
  | true =>
    rw [hneeds, if_pos rfl] at hzip64 hclassic hend
    rw [List.length_append, zip64End_length, zip64Locator_length, ← Nat.add_assoc] at hclassic
    rw [located_append, zip64End_length] at hzip64
    obtain ⟨hend64, hlocator⟩ := hzip64
    generalize hstart : plan.centralOffset + plan.centralLen = start at *
    have hbefore : before bytes.length endLen = some (start + zip64EndLen + zip64LocatorLen) := by
      rw [hend, before, if_pos (by omega)]
      congr 1
    have hbeforeLocator : before (start + zip64EndLen + zip64LocatorLen) zip64LocatorLen =
        some (start + zip64EndLen) := by
      rw [before, if_pos (Nat.le_add_left _ _), Nat.add_sub_cancel]
    have hbeforeEnd : before (start + zip64EndLen) zip64EndLen = some start := by
      rw [before, if_pos (Nat.le_add_left _ _), Nat.add_sub_cancel]
    have hstart_le : start ≤ u64Max := by omega
    have hlen_le : plan.centralLen ≤ u64Max := by omega
    have hoffset_le : plan.centralOffset ≤ u64Max := by omega
    generalize start + zip64EndLen = locator at *
    have hwrap : wrappingAdd plan.centralOffset plan.centralLen = start := by
      rw [wrappingAdd, hstart]
      exact Nat.mod_eq_of_lt (by unfold u64Max at hfits; omega)
    obtain ⟨hsignature, hcomment, hcountAt, hlen, hoffset⟩ := classicEnd_fields hclassic
    unfold ZipPlan.zip64End at hend64
    unfold ZipPlan.zip64Locator at hlocator
    rw [hwrap] at hlocator
    simp only [located_append, putU16_length, putU32_length, putU64_length, Nat.add_assoc,
      Nat.reduceAdd] at hend64 hlocator
    obtain ⟨hsignature64, -, -, -, -, -, -, hcount64, hlen64, hoffset64⟩ := hend64
    obtain ⟨hsignatureLocator, -, hstartAt, -⟩ := hlocator
    rw [readEnd, hbefore]
    dsimp only [Option.bind_eq_bind, Option.bind_some]
    rw [hsignature, hcomment, hcountAt, hlen, hoffset]
    dsimp only [Option.bind_some]
    rw [check_of rfl, check_of rfl]
    dsimp only [Option.bind_some]
    rw [if_pos (needsZip64End_iff.mp hneeds), hbeforeLocator]
    dsimp only [Option.bind_some]
    rw [u32At_of_located hsignatureLocator (by decide), u64At_of_located hstartAt hstart_le]
    dsimp only [Option.bind_some]
    rw [check_of rfl, hbeforeEnd, u32At_of_located hsignature64 (by decide), u64At_of_located hcount64 hcount,
      u64At_of_located hlen64 hlen_le, u64At_of_located hoffset64 hoffset_le]
    dsimp only [Option.bind_some]
    rw [check_of rfl, check_of rfl]
    rfl


/-! ### Archives -/

/-- A finished archive of recorded entries is read as what its turns lead to. -/
theorem readArchive_eq {inflate : Inflate} {done : ZipPlan} {contents : List (Option EntryData)}
    {files : List (Option (List UInt8))} (hconsistent : Consistent done contents bytes)
    (hlength : done.len = done.centralOffset + done.centralLen + done.endLen)
    (hcontents : done.entries.length = contents.length)
    (hentries : ∀ entry ∈ done.entries, entry.Recorded)
    (hfiles : List.Forall₂ (LeadsTo inflate) (done.entries.zip contents) files) :
    readArchive inflate bytes = some (List.zipWith
      (fun turn file => ⟨turn.1.name, turn.1.methodCode, file⟩) (done.entries.zip contents) files) := by
  have hfst : (done.entries.zip contents).map Prod.fst = done.entries := List.map_fst_zip hcontents.le
  have hdirectory : directoryLen done.entries = done.centralLen := by
    rw [hconsistent.centralLen_eq, directoryBytes_length]
  have hcount : done.entries.length ≤ u64Max := by
    have hone : ∀ length ∈ done.entries.map ZipEntry.centralLen, 1 ≤ length := by
      intro length hmem
      obtain ⟨entry, -, rfl⟩ := List.mem_map.mp hmem
      exact entry.centralLen_pos
    have hsum := List.length_le_sum_of_one_le _ hone
    rw [List.length_map, ← directoryLen, hdirectory] at hsum
    have hle := hconsistent.len_le
    omega
  obtain ⟨hcentral, hend⟩ := located_append.mp hconsistent.central
  rw [← hconsistent.centralLen_eq] at hend
  have hrecord := readEnd_eq hend (hconsistent.length_eq.trans hlength)
    (hconsistent.length_eq.trans_le hconsistent.len_le) hcount
  have hread := readEntries_eq
    (fun turn hturn => hentries turn.1 (hfst ▸ List.mem_map_of_mem hturn)) hconsistent.located hfiles
    (hfst.symm ▸ hcentral)
  rw [List.length_zip, ← hcontents, min_self, hfst, hdirectory] at hread
  rw [readArchive, hrecord]
  dsimp only [Option.bind_eq_bind, Option.bind_some]
  rw [hread]
  dsimp only [Option.bind_some]
  rw [check_of rfl]
  rfl

end Crabinet.Zip
