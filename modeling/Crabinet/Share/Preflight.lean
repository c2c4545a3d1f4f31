import Crabinet.Library.ByteSearch
import Crabinet.Library.Framing
import Crabinet.Share.Extraction
import Crabinet.Zip.PlannedLength
import Mathlib.Algebra.BigOperators.Group.List.Basic

/-!
# The check of a ZIP archive before it is read

The end records are found from the end of the file and the central directory they state is
walked, before the reader allocates anything. The check then refuses every signature of an
end record that is not one of those it has validated. Archives of the service's own writer
are laid out as the check expects; whether one passes is then a matter of what the values in
its directory happen to spell.
-/

namespace Crabinet.Share

open Crabinet.Library Crabinet.Zip

/-- `MAX_ZIP_DIRECTORY`. -/
def maxZipDirectory : ℕ := 8 * 1024 * 1024

/-- `PK\x05\x06`. -/
def endMagic : List UInt8 := [0x50, 0x4b, 0x05, 0x06]

/-- `PK\x06\x06`. -/
def zip64EndMagic : List UInt8 := [0x50, 0x4b, 0x06, 0x06]

/-- `PK\x06\x07`. -/
def locatorMagic : List UInt8 := [0x50, 0x4b, 0x06, 0x07]

/-- `PK\x01\x02`. -/
def centralMagic : List UInt8 := [0x50, 0x4b, 0x01, 0x02]

/-- `u16le`; every caller has checked that the field is there. -/
def u16le (bytes : List UInt8) (start : ℕ) : ℕ := (leAt 2 bytes start).getD 0

/-- `u32le`. -/
def u32le (bytes : List UInt8) (start : ℕ) : ℕ := (leAt 4 bytes start).getD 0

/-- `u64le`. -/
def u64le (bytes : List UInt8) (start : ℕ) : ℕ := (leAt 8 bytes start).getD 0

/-- `seek` to a position, then `read_exact` of a number of bytes. -/
def readExact (file : List UInt8) (position count : ℕ) : Except ArchiveError (List UInt8) :=
  match slice file position (position + count) with
  | some bytes => .ok bytes
  | none => .error .io

/-- What the end records state: `count`, `bytes`, `offset`, `boundary`, `eocd_at` and
`zip64_position`. -/
structure EndRecords where
  count : ℕ
  bytes : ℕ
  offset : ℕ
  boundary : ℕ
  eocdAt : ℕ
  zip64Position : Option ℕ
deriving DecidableEq, Repr

/-- The classic end record, behind the last signature of the file's tail. -/
def classicRecord (file : List UInt8) (size : ℕ) : Except ArchiveError EndRecords :=
  let tailSize := min size 65557
  if file.length < tailSize then .error .io
  else do
    let tail ← readExact file (file.length - tailSize) tailSize
    match rposition (· == endMagic) (windows 4 tail) with
    | none => .error .invalid
    | some start =>
      if tail.length - start < 22 ∨ start + 22 + u16le tail (start + 20) ≠ tail.length then
        .error .invalid
      else
        let record := tail.drop start
        if u16le record 4 ≠ 0 ∨ u16le record 6 ≠ 0 ∨ u16le record 8 ≠ u16le record 10 then
          .error .invalid
        else
          .ok {
            count := u16le record 10, bytes := u32le record 12, offset := u32le record 16
            boundary := size - tailSize + start, eocdAt := size - tailSize + start
            zip64Position := none }

/-- The values of the ZIP64 end record where a classic one does not fit its field. -/
def zip64Record (file : List UInt8) (found : EndRecords) : Except ArchiveError EndRecords :=
  if found.count = u16Sentinel ∨ found.bytes = u32Sentinel ∨ found.offset = u32Sentinel then
    if found.boundary < 20 then .error .invalid
    else do
      let locator ← readExact file (found.boundary - 20) 20
      if locator.take 4 ≠ locatorMagic ∨ u32le locator 4 ≠ 0 ∨ u32le locator 16 ≠ 1 then
        .error .invalid
      else
        let zip64At := u64le locator 8
        if zip64At > found.boundary - 20 ∨ found.boundary - 20 - zip64At < 56 then .error .invalid
        else do
          let record ← readExact file zip64At 56
          if record.take 4 ≠ zip64EndMagic ∨ u64le record 4 ≠ 44 ∨ u32le record 16 ≠ 0 ∨
              u32le record 20 ≠ 0 ∨ u64le record 24 ≠ u64le record 32 then
            .error .invalid
          else
            .ok { found with
              count := u64le record 32, bytes := u64le record 40, offset := u64le record 48
              boundary := zip64At, zip64Position := some zip64At }
  else .ok found

/-- The loop over the central headers from the one with this `index` on, so many of them. The
file stands at the consumed bytes of the directory; `cancelled` is what the check before each
header finds. -/
def walkDirectory (cancelled : ℕ → Bool) (limits : ArchiveLimits) (file : List UInt8)
    (offset bytes : ℕ) : ℕ → ℕ → ℕ → ℕ → Except ArchiveError ℕ
  | 0, _, consumed, _ => .ok consumed
  | remaining + 1, index, consumed, names =>
    if cancelled index then .error .cancelled
    else if bytes - consumed < 46 then .error .invalid
    else do
      let header ← readExact file (offset + consumed) 46
      if header.take 4 ≠ centralMagic ∨ u16le header 34 ≠ 0 then .error .invalid
      else
        let names := names + u16le header 28
        let consumed := consumed + (46 + (u16le header 28 + u16le header 30 + u16le header 32))
        if consumed > bytes ∨ names > limits.maxNameBytes then .error .limit
        else walkDirectory cancelled limits file offset bytes remaining (index + 1) consumed names

/-- Some window of the metadata is an end signature that was not validated. -/
def hasStray (found : EndRecords) (metadata : List UInt8) : Bool :=
  (windows 4 metadata).zipIdx.any fun (magic, index) =>
    let position := found.offset + index
    (magic == endMagic && position != found.eocdAt) ||
      (magic == zip64EndMagic && some position != found.zip64Position)

/-- `preflight_zip`: where the directory starts and how many entries it has. -/
def preflightZip (cancelled : ℕ → Bool) (limits : ArchiveLimits) (file : List UInt8) (size : ℕ) :
    Except ArchiveError (ℕ × ℕ) := do
  let found ← classicRecord file size
  let found ← zip64Record file found
  if found.count > limits.maxEntries ∨ found.bytes > maxZipDirectory then .error .limit
  else if checkedAdd found.offset found.bytes ≠ some found.boundary then .error .invalid
  else do
    let consumed ← walkDirectory cancelled limits file found.offset found.bytes found.count 0 0 0
    if consumed ≠ found.bytes then .error .invalid
    else if size < found.offset then .error .invalid
    else if size - found.offset > maxZipDirectory + 65657 then .error .limit
    else do
      let metadata ← readExact file found.offset (size - found.offset)
      if hasStray found metadata then .error .invalid else .ok (found.offset, found.count)

/-! ### The archives of the writer -/

/-- How the writer lays an archive out. -/
structure Emitted (done : ZipPlan) (bytes : List UInt8) : Prop where
  length_eq : bytes.length = done.centralOffset + directoryLen done.entries + done.endLen
  length_le : bytes.length ≤ u64Max
  central : Located bytes done.centralOffset (directoryBytes done.entries ++ done.writeEnd)
  centralLen_eq : done.centralLen = directoryLen done.entries
  name_le : ∀ entry ∈ done.entries, entry.name.utf8ByteSize ≤ u16Sentinel

/-- The end records of an archive. -/
def endRecords (done : ZipPlan) : List (List UInt8) :=
  (if done.needsZip64End then [done.zip64End, done.zip64Locator] else []) ++ [done.classicEnd]

/-- No record of the directory or of the end spells an end signature but at its own start. -/
def Clear (done : ZipPlan) : Prop :=
  ∀ record ∈ done.entries.map ZipEntry.centralHeader ++ endRecords done,
    ∀ magic ∈ [endMagic, zip64EndMagic], ¬magic <:+: record.tail

instance (done : ZipPlan) : Decidable (Clear done) :=
  inferInstanceAs (Decidable (∀ record ∈ done.entries.map ZipEntry.centralHeader ++ endRecords done,
    ∀ magic ∈ [endMagic, zip64EndMagic], ¬magic <:+: record.tail))

theorem u16le_of_located {bytes : List UInt8} {start value : ℕ}
    (h : Located bytes start (putU16 value)) (hvalue : value < 2 ^ 16) :
    u16le bytes start = value := by
  rw [u16le, h.leAt_eq hvalue, Option.getD_some]

theorem u32le_of_located {bytes : List UInt8} {start value : ℕ}
    (h : Located bytes start (putU32 value)) (hvalue : value < 2 ^ 32) :
    u32le bytes start = value := by
  rw [u32le, h.leAt_eq hvalue, Option.getD_some]

theorem u64le_of_located {bytes : List UInt8} {start value : ℕ}
    (h : Located bytes start (putU64 value)) (hvalue : value < 2 ^ 64) :
    u64le bytes start = value := by
  rw [u64le, h.leAt_eq hvalue, Option.getD_some]

theorem readExact_of_located {file segment : List UInt8} {position : ℕ}
    (h : Located file position segment) :
    readExact file position segment.length = .ok segment := by
  rw [readExact, h.slice_eq]

theorem u16le_lt (bytes : List UInt8) (start : ℕ) : u16le bytes start < 2 ^ 16 := by
  rw [u16le, leAt]
  cases hslice : slice bytes start (start + 2) with
  | none => decide
  | some field =>
    have := leValue_lt field
    rwa [(slice_eq_some.mp hslice).1] at this

/-- What is read is the segment of the file at that place. -/
theorem readExact_eq_ok {file bytes : List UInt8} {position count : ℕ} :
    readExact file position count = .ok bytes ↔
      bytes.length = count ∧ Located file position bytes := by
  rw [← slice_eq_some, readExact]
  cases slice file position (position + count) <;> simp

/-- The fields of the classic end record. -/
theorem classicEnd_fields {done : ZipPlan} {image : List UInt8} {start : ℕ}
    (h : Located image start done.classicEnd) :
    Located image start endMagic ∧ u16le image (start + 4) = 0 ∧ u16le image (start + 6) = 0 ∧
      u16le image (start + 8) = min done.entries.length u16Sentinel ∧
      u16le image (start + 10) = min done.entries.length u16Sentinel ∧
      u32le image (start + 12) = min done.centralLen u32Sentinel ∧
      u32le image (start + 16) = min done.centralOffset u32Sentinel ∧
      u16le image (start + 20) = 0 := by
  have hcount : min done.entries.length u16Sentinel < 2 ^ 16 := by unfold u16Sentinel; omega
  have hlen : min done.centralLen u32Sentinel < 2 ^ 32 := by unfold u32Sentinel; omega
  have hoffset : min done.centralOffset u32Sentinel < 2 ^ 32 := by unfold u32Sentinel; omega
  simp only [ZipPlan.classicEnd, located_append, putU32_length, putU16_length, Nat.add_assoc,
    Nat.reduceAdd] at h
  obtain ⟨hmagic, hdisk, hstart, hhere, hall, hbytes, hplace, hcomment⟩ := h
  exact ⟨hmagic, u16le_of_located hdisk (by omega), u16le_of_located hstart (by omega),
    u16le_of_located hhere hcount, u16le_of_located hall hcount, u32le_of_located hbytes hlen,
    u32le_of_located hplace hoffset, u16le_of_located hcomment (by omega)⟩

/-- The fields of the ZIP64 end record. -/
theorem zip64End_fields {done : ZipPlan} {image : List UInt8} {start : ℕ}
    (h : Located image start done.zip64End) (hcount : done.entries.length ≤ u64Max)
    (hlen : done.centralLen ≤ u64Max) (hoffset : done.centralOffset ≤ u64Max) :
    Located image start zip64EndMagic ∧ u64le image (start + 4) = 44 ∧
      u32le image (start + 16) = 0 ∧ u32le image (start + 20) = 0 ∧
      u64le image (start + 24) = done.entries.length ∧
      u64le image (start + 32) = done.entries.length ∧
      u64le image (start + 40) = done.centralLen ∧ u64le image (start + 48) = done.centralOffset := by
  unfold u64Max at hcount hlen hoffset
  simp only [ZipPlan.zip64End, located_append, putU16_length, putU32_length, putU64_length,
    Nat.add_assoc, Nat.reduceAdd] at h
  obtain ⟨hmagic, hsize, -, -, hdisk, hdirectory, hhere, hall, hbytes, hplace⟩ := h
  exact ⟨hmagic, u64le_of_located hsize (by decide), u32le_of_located hdisk (by omega),
    u32le_of_located hdirectory (by omega), u64le_of_located hhere (by omega),
    u64le_of_located hall (by omega), u64le_of_located hbytes (by omega),
    u64le_of_located hplace (by omega)⟩

/-- The fields of the locator of the ZIP64 end record. -/
theorem zip64Locator_fields {done : ZipPlan} {image : List UInt8} {start : ℕ}
    (h : Located image start done.zip64Locator)
    (hend : done.centralOffset + done.centralLen ≤ u64Max) :
    Located image start locatorMagic ∧ u32le image (start + 4) = 0 ∧
      u64le image (start + 8) = done.centralOffset + done.centralLen ∧
      u32le image (start + 16) = 1 := by
  have hwrap : wrappingAdd done.centralOffset done.centralLen =
      done.centralOffset + done.centralLen :=
    Nat.mod_eq_of_lt (by unfold u64Max at hend; omega)
  unfold u64Max at hend
  simp only [ZipPlan.zip64Locator, located_append, hwrap, putU32_length, putU64_length,
    Nat.add_assoc, Nat.reduceAdd] at h
  obtain ⟨hmagic, hdisk, hplace, hdisks⟩ := h
  exact ⟨hmagic, u32le_of_located hdisk (by omega), u64le_of_located hplace (by omega),
    u32le_of_located hdisks (by omega)⟩

/-- The fields of a central header that the check reads are in its fixed part. -/
theorem centralHeader_fields {entry : ZipEntry} {image : List UInt8}
    (h : Located image 0 entry.centralHeader) (hname : entry.name.utf8ByteSize ≤ u16Sentinel) :
    Located (image.take 46) 0 centralMagic ∧
      u16le (image.take 46) 28 = entry.name.utf8ByteSize ∧
      u16le (image.take 46) 30 = entry.centralExtraLen ∧ u16le (image.take 46) 32 = 0 ∧
      u16le (image.take 46) 34 = 0 := by
  have hextra : entry.centralExtraLen < 2 ^ 16 := by
    unfold ZipEntry.centralExtraLen ZipEntry.centralZip64Fields ZipEntry.timestampExtraLen
    generalize entry.unixMtime.isSome = stamped
    cases stamped <;> cases entry.zip64Sizes <;> cases entry.zip64Offset <;> decide
  unfold u16Sentinel at hname
  simp only [ZipEntry.centralHeader, located_append, putU16_length, putU32_length, Nat.add_assoc,
    Nat.zero_add, Nat.reduceAdd] at h
  obtain ⟨hmagic, -, -, -, -, -, -, -, -, -, hnameLen, hextraLen, hcomment, hdisk, -⟩ := h
  exact ⟨hmagic.take (by decide), u16le_of_located (hnameLen.take (by simp)) (by omega),
    u16le_of_located (hextraLen.take (by simp)) hextra,
    u16le_of_located (hcomment.take (by simp)) (by omega),
    u16le_of_located (hdisk.take (by simp)) (by omega)⟩

/-- A segment at the start of an image is what the image begins with. -/
theorem take_of_located {image segment : List UInt8} (h : Located image 0 segment) :
    image.take segment.length = segment :=
  (List.prefix_iff_eq_take.mp (located_iff_isPrefix.mp h).2).symm

namespace Emitted

variable {done : ZipPlan} {bytes : List UInt8}

/-- The classic end record is the end of the archive. -/
theorem classicEnd_located (h : Emitted done bytes) :
    22 ≤ bytes.length ∧ Located bytes (bytes.length - 22) done.classicEnd := by
  have hlength := h.length_eq
  have hcentral := h.central
  rw [located_append, directoryBytes_length, ZipPlan.writeEnd, located_append] at hcentral
  have hclassic := hcentral.2.2
  have hend : done.endLen =
      (if done.needsZip64End then done.zip64End ++ done.zip64Locator else []).length + 22 := by
    rw [← ZipPlan.writeEnd_length, ZipPlan.writeEnd, List.length_append]
    rfl
  refine ⟨by omega, ?_⟩
  rwa [show bytes.length - 22 = done.centralOffset + directoryLen done.entries +
    (if done.needsZip64End then done.zip64End ++ done.zip64Locator else []).length by omega]

end Emitted

/-- What the classic end record of an archive of this length states. -/
def classicFields (done : ZipPlan) (length : ℕ) : EndRecords where
  count := min done.entries.length u16Sentinel
  bytes := min done.centralLen u32Sentinel
  offset := min done.centralOffset u32Sentinel
  boundary := length - 22
  eocdAt := length - 22
  zip64Position := none

/-- The search from the end finds the classic end record unless that record spells its own
signature again. -/
theorem Emitted.classicRecord_eq_ok {done : ZipPlan} {bytes : List UInt8} (h : Emitted done bytes)
    {found : EndRecords} :
    classicRecord bytes bytes.length = .ok found ↔
      ¬endMagic <:+: done.classicEnd.tail ∧ found = classicFields done bytes.length := by
  obtain ⟨hlength, hend⟩ := h.classicEnd_located
  have hclassic : done.classicEnd.length = 22 := rfl
  obtain ⟨tailSize, htailSize⟩ : ∃ tailSize, min bytes.length 65557 = tailSize := ⟨_, rfl⟩
  obtain ⟨tail, htail⟩ : ∃ tail, bytes.drop (bytes.length - tailSize) = tail := ⟨_, rfl⟩
  have htailLength : tail.length = tailSize := by rw [← htail, List.length_drop]; omega
  have hread : readExact bytes (bytes.length - tailSize) tailSize = .ok tail := by
    have hself : Located bytes (bytes.length - tailSize + 0) tail := by
      rw [← located_drop (by omega), htail]
      exact located_self tail
    rw [← htailLength]
    exact readExact_of_located (htailLength ▸ hself)
  have hinside (inner : ℕ) :
      Located tail (tailSize - 22 + inner) endMagic ↔ Located done.classicEnd inner endMagic := by
    rw [← htail, located_drop (by omega), ← hend.drop_eq (by rw [hclassic]; omega),
      located_drop (by omega)]
    rw [show bytes.length - tailSize + (tailSize - 22 + inner) = bytes.length - 22 + inner by omega]
  have hwindow (inner : ℕ) : (windows 4 tail)[tailSize - 22 + inner]? = some endMagic ↔
      Located done.classicEnd inner endMagic := by
    rw [getElem?_windows (by decide), hinside]
    exact and_iff_right rfl
  have hfirst := (hwindow 0).mpr (classicEnd_fields (located_self _)).1
  rw [classicRecord]
  simp only [htailSize]
  rw [if_neg (by omega), hread, ok_bind]
  rcases hfound : rposition (· == endMagic) (windows 4 tail) with _ | start
  · have := rposition_eq_none.mp hfound endMagic (List.mem_of_getElem? hfirst)
    simp at this
  obtain ⟨⟨window, hstart, hmagic⟩, hlast⟩ := rposition_eq_some.mp hfound
  obtain rfl : window = endMagic := eq_of_beq hmagic
  have hge : tailSize - 22 ≤ start := by
    by_contra hlt
    have := hlast _ _ (by omega) hfirst
    simp at this
  obtain ⟨inner, rfl⟩ := Nat.exists_eq_add_of_le hge
  cases inner with
  | succ inner =>
    have hstray : ¬∀ start, Located done.classicEnd start endMagic → start = 0 := fun hall =>
      absurd (hall _ ((hwindow _).mp hstart)) (Nat.succ_ne_zero inner)
    rw [← not_infix_tail_iff (by decide)] at hstray
    dsimp only
    rw [if_pos (.inl (by omega))]
    simp [hstray]
  | zero =>
    have hclear : ¬endMagic <:+: done.classicEnd.tail := by
      rw [not_infix_tail_iff (by decide)]
      intro inner hinner
      by_contra hpos
      have := hlast _ _ (by omega) ((hwindow inner).mpr hinner)
      simp at this
    have hrecord : tail.drop (tailSize - 22) = done.classicEnd := by
      rw [← htail, List.drop_drop,
        show bytes.length - tailSize + (tailSize - 22) = bytes.length - 22 by omega]
      exact hend.drop_eq (by rw [hclassic]; omega)
    have hcomment : u16le tail (tailSize - 22 + 20) = 0 := by
      have hlocated : Located tail (tailSize - 22) done.classicEnd := by
        rw [← htail, located_drop (by omega),
          show bytes.length - tailSize + (tailSize - 22) = bytes.length - 22 by omega]
        exact hend
      exact (classicEnd_fields hlocated).2.2.2.2.2.2.2
    obtain ⟨-, hdisk, hdirectory, hhere, hall, hbytes, hplace, -⟩ :=
      classicEnd_fields (located_self done.classicEnd)
    rw [Nat.zero_add] at hdisk hdirectory hhere hall hbytes hplace
    have hboundary : bytes.length - tailSize + (tailSize - 22) = bytes.length - 22 := by omega
    dsimp only
    rw [Nat.add_zero, if_neg (by rw [hcomment]; omega), hrecord, if_neg (by simp [*])]
    simp only [hclear, not_false_eq_true, true_and, Except.ok.injEq, classicFields, hall, hbytes,
      hplace, hboundary]
    exact eq_comm

/-- Where the directory and the end records of an archive of this length are. -/
def places (done : ZipPlan) (length : ℕ) : EndRecords where
  count := done.entries.length
  bytes := done.centralLen
  offset := done.centralOffset
  boundary := done.centralOffset + done.centralLen
  eocdAt := length - 22
  zip64Position :=
    if done.needsZip64End then some (done.centralOffset + done.centralLen) else none

/-- A directory has at least one byte for each of its entries. -/
theorem length_le_directoryLen (entries : List ZipEntry) :
    entries.length ≤ directoryLen entries := by
  have hpos : ∀ length ∈ entries.map ZipEntry.centralLen, 1 ≤ length := by
    intro length hlength
    obtain ⟨entry, -, rfl⟩ := List.mem_map.mp hlength
    exact entry.centralLen_pos
  simpa only [List.length_map, directoryLen] using List.length_le_sum_of_one_le _ hpos

/-- The end records of an archive state where its directory is. -/
theorem Emitted.zip64Record_eq {done : ZipPlan} {bytes : List UInt8} (h : Emitted done bytes) :
    zip64Record bytes (classicFields done bytes.length) = .ok (places done bytes.length) := by
  have hlength := h.length_eq
  have hmax := h.length_le
  have hlen := h.centralLen_eq
  have hcount := length_le_directoryLen done.entries
  have hsentinel : ((classicFields done bytes.length).count = u16Sentinel ∨
      (classicFields done bytes.length).bytes = u32Sentinel ∨
      (classicFields done bytes.length).offset = u32Sentinel) ↔ done.needsZip64End = true := by
    simp only [classicFields, ZipPlan.needsZip64End, Bool.or_eq_true, decide_eq_true_eq]
    omega
  have hboundary : (classicFields done bytes.length).boundary = bytes.length - 22 := rfl
  unfold zip64Record
  by_cases hzip64 : done.needsZip64End = true
  · have hendLen : done.endLen = 98 := by rw [ZipPlan.endLen, if_pos hzip64]; rfl
    have hcentral := h.central
    rw [located_append, directoryBytes_length, ZipPlan.writeEnd, if_pos hzip64, located_append,
      located_append] at hcentral
    obtain ⟨-, ⟨hrecord, hlocator⟩, -⟩ := hcentral
    rw [show done.zip64End.length = 56 from rfl,
      show done.centralOffset + directoryLen done.entries + 56 = bytes.length - 22 - 20 by omega]
      at hlocator
    have hend : done.centralOffset + done.centralLen ≤ u64Max := by omega
    have hreadLocator : readExact bytes (bytes.length - 22 - 20) 20 = .ok done.zip64Locator :=
      readExact_of_located hlocator
    have hreadRecord : readExact bytes (done.centralOffset + done.centralLen) 56 =
        .ok done.zip64End := by
      rw [hlen]
      exact readExact_of_located hrecord
    obtain ⟨hlocatorMagic, hdisk, hplace, hdisks⟩ :=
      zip64Locator_fields (located_self done.zip64Locator) hend
    obtain ⟨hmagic, hsize, hdisk', hdirectory, hhere, hall, hbytes, hoffset⟩ :=
      zip64End_fields (located_self done.zip64End) (by omega) (by omega) (by omega)
    rw [Nat.zero_add] at *
    have hlocatorTake : done.zip64Locator.take 4 = locatorMagic := take_of_located hlocatorMagic
    have hrecordTake : done.zip64End.take 4 = zip64EndMagic := take_of_located hmagic
    rw [if_pos (hsentinel.mpr hzip64), hboundary, if_neg (by omega), hreadLocator, ok_bind,
      if_neg (by simp [*]), hplace, if_neg (by omega), hreadRecord, ok_bind, if_neg (by simp [*])]
    rw [hall, hbytes, hoffset, places, if_pos hzip64]
    rfl
  · have hendLen : done.endLen = 22 := by rw [ZipPlan.endLen, if_neg hzip64]; rfl
    have hsmall := mt hsentinel.mp hzip64
    rw [if_neg hsmall, places, if_neg hzip64, classicFields]
    simp only [classicFields] at hsmall
    rw [show min done.entries.length u16Sentinel = done.entries.length by omega,
      show min done.centralLen u32Sentinel = done.centralLen by omega,
      show min done.centralOffset u32Sentinel = done.centralOffset by omega,
      show bytes.length - 22 = done.centralOffset + done.centralLen by omega]

/-- The bytes of the names of some entries. -/
def nameLen (entries : List ZipEntry) : ℕ := (entries.map (·.name.utf8ByteSize)).sum

/-- The walk over a directory within the limits ends behind it, unless it is cancelled at one of
its headers. -/
theorem walkDirectory_eq_ok {cancelled : ℕ → Bool} {limits : ArchiveLimits} {file : List UInt8}
    {offset bytes index consumed names result : ℕ} {entries : List ZipEntry}
    (hlocated : Located file (offset + consumed) (directoryBytes entries))
    (hbytes : consumed + directoryLen entries ≤ bytes)
    (hnames : names + nameLen entries ≤ limits.maxNameBytes)
    (hname : ∀ entry ∈ entries, entry.name.utf8ByteSize ≤ u16Sentinel) :
    walkDirectory cancelled limits file offset bytes entries.length index consumed names =
        .ok result ↔
      (∀ inner < entries.length, cancelled (index + inner) = false) ∧
        result = consumed + directoryLen entries := by
  induction entries generalizing index consumed names with
  | nil =>
    simp only [List.length_nil, walkDirectory, Except.ok.injEq, directoryLen, List.map_nil,
      List.sum_nil, Nat.add_zero, Nat.not_lt_zero, false_implies, implies_true, true_and]
    exact eq_comm
  | cons entry rest ih =>
    have hlen : directoryLen (entry :: rest) = entry.centralLen + directoryLen rest := by
      simp [directoryLen]
    have hsum : nameLen (entry :: rest) = entry.name.utf8ByteSize + nameLen rest := by
      simp [nameLen]
    rw [hlen] at hbytes
    rw [hsum] at hnames
    have hcentral : entry.centralLen = 46 + (entry.name.utf8ByteSize + entry.centralExtraLen) := by
      rw [ZipEntry.centralLen, centralHeaderLen, Nat.add_assoc]
    rw [directoryBytes, List.flatMap_cons, located_append, entry.centralHeader_length] at hlocated
    obtain ⟨hheader, hrest⟩ := hlocated
    obtain ⟨hmagic, hnameLen, hextraLen, hcomment, hdisk⟩ :=
      centralHeader_fields (located_self entry.centralHeader) (hname entry (by simp))
    obtain ⟨header, hheaderEq⟩ : ∃ header, entry.centralHeader.take 46 = header := ⟨_, rfl⟩
    have hread : readExact file (offset + consumed) 46 = .ok header := by
      have hlength : header.length = 46 := by
        rw [← hheaderEq, List.length_take, entry.centralHeader_length]
        omega
      rw [← hlength]
      refine readExact_of_located ?_
      rw [← List.take_append_drop 46 entry.centralHeader, located_append, hheaderEq] at hheader
      exact hheader.1
    rw [hheaderEq] at hmagic hnameLen hextraLen hcomment hdisk
    have htake : header.take 4 = centralMagic := take_of_located hmagic
    rw [List.length_cons, walkDirectory, ite_error_eq_ok, if_neg (by omega), hread, ok_bind,
      if_neg (by simp [htake, hdisk]), hnameLen, hextraLen, hcomment, if_neg (by omega)]
    have hconsumed : consumed + (46 + (entry.name.utf8ByteSize + entry.centralExtraLen + 0)) =
        consumed + entry.centralLen := by omega
    rw [hconsumed, ih (Nat.add_assoc offset _ _ ▸ hrest) (by omega) (by omega)
      fun entry hentry => hname entry (by simp [hentry]), hlen, Nat.forall_lt_succ_left, and_assoc,
      Bool.not_eq_true]
    simp only [Nat.add_zero, Nat.add_assoc, Nat.add_comm 1]

/-- The metadata has no stray signature exactly when every end signature in it lies where it was
validated. -/
theorem hasStray_eq_false {found : EndRecords} {metadata : List UInt8} :
    hasStray found metadata = false ↔
      (∀ start, Located metadata start endMagic → found.offset + start = found.eocdAt) ∧
        ∀ start, Located metadata start zip64EndMagic →
          some (found.offset + start) = found.zip64Position := by
  have hwindow {magic : List UInt8} {start : ℕ} (hmagic : magic.length = 4) :
      (magic, start) ∈ (windows 4 metadata).zipIdx ↔ Located metadata start magic := by
    rw [List.mem_zipIdx_iff_getElem?, getElem?_windows (by decide)]
    exact and_iff_right hmagic
  simp only [hasStray, List.any_eq_false, Prod.forall, Bool.or_eq_true, Bool.and_eq_true,
    beq_iff_eq, bne_iff_ne, not_or, not_and, not_not, ne_eq]
  constructor
  · intro h
    exact ⟨fun start hlocated => (h _ start ((hwindow rfl).mpr hlocated)).1 rfl,
      fun start hlocated => (h _ start ((hwindow rfl).mpr hlocated)).2 rfl⟩
  · rintro ⟨hend, hzip64⟩ magic start hmem
    refine ⟨?_, ?_⟩
    · rintro rfl
      exact hend start ((hwindow rfl).mp hmem)
    · rintro rfl
      exact hzip64 start ((hwindow rfl).mp hmem)

/-- A record that begins with another signature does not begin with this one. -/
theorem not_located_start {record magic own : List UInt8} (hown : Located record 0 own)
    (hlength : own.length = magic.length) (hne : own ≠ magic) : ¬Located record 0 magic :=
  fun h => hne (hown.eq_of_length h hlength)

/-- A signature of an end record, which starts like every record and not like a central header. -/
structure IsEndSignature (magic : List UInt8) : Prop where
  leads : Leads 0x50 magic
  length_eq : magic.length = 4
  ne_central : centralMagic ≠ magic
  ne_locator : locatorMagic ≠ magic

theorem isEndSignature_endMagic : IsEndSignature endMagic :=
  ⟨⟨rfl, by decide⟩, rfl, by decide, by decide⟩

theorem isEndSignature_zip64EndMagic : IsEndSignature zip64EndMagic :=
  ⟨⟨rfl, by decide⟩, rfl, by decide, by decide⟩

/-- The central headers of a directory each begin like a record. -/
theorem directoryBytes_head (entries : List ZipEntry) :
    ∀ byte ∈ (directoryBytes entries).head?, byte = 0x50 := by
  cases entries with
  | nil => exact nofun
  | cons entry rest => exact fun byte hbyte => (Option.some.inj hbyte).symm

/-- Where an end signature is not allowed inside the directory, it is in none of its headers. -/
theorem forall_located_directory {magic : List UInt8} (hmagic : IsEndSignature magic)
    {P : ℕ → Prop} {entries : List ZipEntry}
    (hP : ∀ start, start + 4 ≤ directoryLen entries → ¬P start) :
    (∀ start, Located (directoryBytes entries) start magic → P start) ↔
      ∀ entry ∈ entries, ¬magic <:+: entry.centralHeader.tail := by
  induction entries generalizing P with
  | nil =>
    have hnone (start : ℕ) : ¬Located (directoryBytes []) start magic := fun h => by
      have := h.le_length
      rw [hmagic.length_eq] at this
      simp [directoryBytes] at this
    simp [hnone]
  | cons entry rest ih =>
    have hlen : directoryLen (entry :: rest) = entry.centralLen + directoryLen rest := by
      simp [directoryLen]
    rw [hlen] at hP
    have hbytes : directoryBytes (entry :: rest) = entry.centralHeader ++ directoryBytes rest := rfl
    have hown : Located entry.centralHeader 0 centralMagic := ⟨[], _, rfl, rfl⟩
    have hstart := not_located_start hown hmagic.length_eq.symm hmagic.ne_central
    rw [List.forall_mem_cons, hbytes, hmagic.leads.forall_located_append (directoryBytes_head rest),
      forall_located_iff hmagic.leads.ne_nil (fun h => absurd h hstart), entry.centralHeader_length]
    · refine and_congr_right fun _ => ih fun start hle => hP _ (by omega)
    · intro start _ hle
      rw [hmagic.length_eq, entry.centralHeader_length] at hle
      exact hP start (by omega)

/-- Where an end signature is allowed at the start of an end record only, no end record contains it
anywhere else. -/
theorem forall_located_writeEnd {done : ZipPlan} {magic : List UInt8} (hmagic : IsEndSignature magic)
    {P : ℕ → Prop}
    (hrecord : done.needsZip64End = true → (Located done.zip64End 0 magic → P 0) ∧
      ∀ start, start ≠ 0 → start < 56 → ¬P start)
    (hlocator : done.needsZip64End = true → ∀ start < 20, ¬P (56 + start))
    (hend : (Located done.classicEnd 0 magic → P (done.endLen - 22)) ∧
      ∀ start, start ≠ 0 → start < 22 → ¬P (done.endLen - 22 + start)) :
    (∀ start, Located done.writeEnd start magic → P start) ↔
      ∀ record ∈ endRecords done, ¬magic <:+: record.tail := by
  have hne := hmagic.leads.ne_nil
  have hlength := hmagic.length_eq
  have hclassic (hlen : done.endLen - 22 + 22 = done.endLen) :
      (∀ start, Located done.classicEnd start magic → P (done.endLen - 22 + start)) ↔
        ¬magic <:+: done.classicEnd.tail :=
    forall_located_iff hne hend.1 fun start hstart hle =>
      hend.2 start hstart (by rw [show done.classicEnd.length = 22 from rfl] at hle; omega)
  have hclassicHead : ∀ byte ∈ done.classicEnd.head?, byte = 0x50 :=
    fun byte hbyte => (Option.some.inj hbyte).symm
  by_cases hzip64 : done.needsZip64End = true
  · have hendLen : done.endLen = 98 := by rw [ZipPlan.endLen, if_pos hzip64]; rfl
    have hlocatorHead : ∀ byte ∈ done.zip64Locator.head?, byte = 0x50 :=
      fun byte hbyte => (Option.some.inj hbyte).symm
    have hown : Located done.zip64Locator 0 locatorMagic := ⟨[], _, rfl, rfl⟩
    have hlocatorStart := not_located_start hown hlength.symm hmagic.ne_locator
    have hfirst : (∀ start, Located done.zip64End start magic → P start) ↔
        ¬magic <:+: done.zip64End.tail :=
      forall_located_iff hne (hrecord hzip64).1 fun start hstart hle =>
        (hrecord hzip64).2 start hstart
          (by rw [show done.zip64End.length = 56 from rfl] at hle; omega)
    have hsecond : (∀ start, Located done.zip64Locator start magic → P (56 + start)) ↔
        ¬magic <:+: done.zip64Locator.tail :=
      forall_located_iff hne (fun h => absurd h hlocatorStart) fun start _ hle =>
        hlocator hzip64 start (by rw [show done.zip64Locator.length = 20 from rfl] at hle; omega)
    have hthird := hclassic (by omega)
    rw [hendLen] at hthird
    rw [ZipPlan.writeEnd, if_pos hzip64, endRecords, if_pos hzip64,
      hmagic.leads.forall_located_append hclassicHead,
      hmagic.leads.forall_located_append hlocatorHead, hfirst]
    simp only [List.cons_append, List.nil_append, List.forall_mem_cons, List.not_mem_nil,
      false_implies, implies_true, and_true, ← hsecond, ← hthird, and_assoc]
    rfl
  · have hendLen : done.endLen = 22 := by rw [ZipPlan.endLen, if_neg hzip64]; rfl
    have hlast := hclassic (by omega)
    simp only [hendLen, Nat.sub_self, Nat.zero_add] at hlast
    rw [ZipPlan.writeEnd, if_neg hzip64, endRecords, if_neg hzip64, List.nil_append, hlast]
    simp

/-- The end records begin like a record. -/
theorem writeEnd_head (done : ZipPlan) : ∀ byte ∈ done.writeEnd.head?, byte = 0x50 := by
  unfold ZipPlan.writeEnd
  split <;> exact fun byte hbyte => (Option.some.inj hbyte).symm

theorem endLen_cases (done : ZipPlan) :
    done.needsZip64End = true ∧ done.endLen = 98 ∨ done.needsZip64End = false ∧ done.endLen = 22 := by
  unfold ZipPlan.endLen
  cases done.needsZip64End with
  | true => exact .inl ⟨rfl, rfl⟩
  | false => exact .inr ⟨rfl, rfl⟩

/-- No record contains the signature but at its own start. -/
def ClearOf (done : ZipPlan) (magic : List UInt8) : Prop :=
  (∀ entry ∈ done.entries, ¬magic <:+: entry.centralHeader.tail) ∧
    ∀ record ∈ endRecords done, ¬magic <:+: record.tail

theorem clear_iff {done : ZipPlan} :
    Clear done ↔ ClearOf done endMagic ∧ ClearOf done zip64EndMagic := by
  simp only [Clear, ClearOf, List.forall_mem_append, List.forall_mem_map, List.forall_mem_cons,
    List.not_mem_nil, false_implies, implies_true, and_true, forall_and]

/-- The metadata of an archive has no stray signature exactly when the archive is clear. -/
theorem Emitted.hasStray_eq_false {done : ZipPlan} {bytes : List UInt8} (h : Emitted done bytes) :
    hasStray (places done bytes.length) (directoryBytes done.entries ++ done.writeEnd) = false ↔
      Clear done := by
  have hlength := h.length_eq
  have hlen := h.centralLen_eq
  have hendLen := endLen_cases done
  have hdirectory := directoryBytes_length done.entries
  rw [Crabinet.Share.hasStray_eq_false, clear_iff]
  refine and_congr ?_ ?_
  · rw [isEndSignature_endMagic.leads.forall_located_append (writeEnd_head done), ClearOf,
      forall_located_directory isEndSignature_endMagic, forall_located_writeEnd isEndSignature_endMagic]
    · intro hzip64
      have hown : Located done.zip64End 0 zip64EndMagic := ⟨[], _, rfl, rfl⟩
      have hother : ¬Located done.zip64End 0 endMagic := not_located_start hown rfl (by decide)
      refine ⟨fun hstart => absurd hstart hother, fun start _ hlt => ?_⟩
      simp only [places]
      omega
    · intro hzip64 start hlt
      simp only [places]
      omega
    · simp only [places]
      exact ⟨fun _ => by omega, fun start hne hlt => by omega⟩
    · intro start hle
      simp only [places]
      omega
  · rw [isEndSignature_zip64EndMagic.leads.forall_located_append (writeEnd_head done), ClearOf,
      forall_located_directory isEndSignature_zip64EndMagic,
      forall_located_writeEnd isEndSignature_zip64EndMagic]
    · intro hzip64
      simp only [places, if_pos hzip64, Option.some.injEq]
      exact ⟨fun _ => by omega, fun start hne hlt => by omega⟩
    · intro hzip64 start hlt
      simp only [places, if_pos hzip64, Option.some.injEq]
      omega
    · have hown : Located done.classicEnd 0 endMagic := ⟨[], _, rfl, rfl⟩
      have hother : ¬Located done.classicEnd 0 zip64EndMagic :=
        not_located_start hown rfl (by decide)
      refine ⟨fun hstart => absurd hstart hother, fun start hne hlt => ?_⟩
      simp only [places]
      rcases hendLen with ⟨hzip64, hendLen⟩ | ⟨hzip64, hendLen⟩
      · rw [if_pos hzip64, Option.some.injEq]
        omega
      · simp [hzip64]
    · intro start hle
      simp only [places]
      split
      · rw [Option.some.injEq]
        omega
      · exact nofun

/-- An archive within the limits is accepted exactly when it is clear and the check is not
cancelled, and then with its own directory. -/
theorem Emitted.preflightZip_eq_ok {done : ZipPlan} {bytes : List UInt8} (h : Emitted done bytes)
    {cancelled : ℕ → Bool} {limits : ArchiveLimits} (hcount : done.entries.length ≤ limits.maxEntries)
    (hbytes : done.centralLen ≤ maxZipDirectory)
    (hnames : nameLen done.entries ≤ limits.maxNameBytes) {result : ℕ × ℕ} :
    preflightZip cancelled limits bytes bytes.length = .ok result ↔
      Clear done ∧ (∀ index < done.entries.length, cancelled index = false) ∧
        result = (done.centralOffset, done.entries.length) := by
  have hlength := h.length_eq
  have hmax := h.length_le
  have hlen := h.centralLen_eq
  have hendLen := endLen_cases done
  have hdirectory := (located_append.mp h.central).1
  have hwalk (total : ℕ) := @walkDirectory_eq_ok cancelled limits bytes done.centralOffset
    done.centralLen 0 0 0 total done.entries hdirectory (by omega) (by omega) h.name_le
  have hmetadata : readExact bytes done.centralOffset (bytes.length - done.centralOffset) =
      .ok (directoryBytes done.entries ++ done.writeEnd) := by
    have hall : (directoryBytes done.entries ++ done.writeEnd).length =
        bytes.length - done.centralOffset := by
      rw [List.length_append, directoryBytes_length, ZipPlan.writeEnd_length]
      omega
    rw [← hall]
    exact readExact_of_located h.central
  have hsum : checkedAdd done.centralOffset done.centralLen =
      some (done.centralOffset + done.centralLen) := checkedAdd_eq_some.mpr ⟨by omega, rfl⟩
  have hclassic : Clear done → ¬endMagic <:+: done.classicEnd.tail := fun hclear =>
    hclear _ (by simp [endRecords]) endMagic (by simp)
  have hstray := h.hasStray_eq_false
  simp only [preflightZip, bind_eq_ok, h.classicRecord_eq_ok, and_assoc, exists_and_left,
    exists_eq_left, h.zip64Record_eq, Except.ok.injEq, exists_eq_left', ite_error_eq_ok]
  simp only [places] at hstray ⊢
  simp only [hwalk, hmetadata, hsum, and_assoc, exists_and_left, exists_eq_left, Except.ok.injEq,
    exists_eq_left', Bool.not_eq_true, hstray, Nat.zero_add]
  constructor
  · rintro ⟨-, -, -, hchecks, -, -, -, hclear, rfl⟩
    exact ⟨hclear, hchecks, rfl⟩
  · rintro ⟨hclear, hchecks, rfl⟩
    exact ⟨hclassic hclear, by omega, by simp, hchecks, by omega, by omega, by omega, hclear, rfl⟩

/-- Recording leaves the names alone. -/
theorem recordTurns_names (position : ℕ) (turns : List Turn) :
    (recordTurns position turns).map (·.1.name) = turns.map (·.1.name) := by
  induction turns generalizing position with
  | nil => rfl
  | cons turn rest ih => simp only [recordTurns, List.map_cons, ZipEntry.record_name, ih]

/-- What the writer emits is laid out as the check expects, under the planned names. -/
theorem emitted_of_writeArchive {compression : ArchiveCompression} {sources : List ZipSource}
    {plan done : ZipPlan} {contents : List (Option EntryData)} {bytes : List UInt8}
    (hplan : ZipPlan.new sources compression = some plan) (hcovers : Covers sources contents)
    (hwrite : plan.writeArchive contents = .ok (done, bytes)) :
    Emitted done bytes ∧
      done.entries.map ZipEntry.name = plan.entries.map ZipEntry.name := by
  have hfresh := ZipPlan.new_fresh hplan
  obtain ⟨turns, hentries, rfl, hmatched⟩ := hfresh.exists_matched hcovers
  obtain ⟨-, hfits, -, heq⟩ := (ZipPlan.writeArchive_ok_iff hentries.symm hfresh.position_eq
    hmatched).mp hwrite
  obtain ⟨rfl, rfl⟩ := Prod.mk.inj heq
  have hconsistent := plan.consistent_of_finished hfits
  have hnames : (plan.done turns).entries.map ZipEntry.name = plan.entries.map ZipEntry.name := by
    rw [ZipPlan.done, ZipPlan.finished_entries, ZipPlan.written, ZipPlan.moved_entries, ← hentries,
      List.map_map, List.map_map]
    exact recordTurns_names 0 turns
  refine ⟨⟨?_, ?_, hconsistent.central, rfl, ?_⟩, hnames⟩
  · exact hconsistent.length_eq
  · exact hconsistent.length_eq ▸ hconsistent.len_le
  · intro entry hentry
    have hmem : entry.name ∈ plan.entries.map ZipEntry.name :=
      hnames ▸ List.mem_map_of_mem hentry
    obtain ⟨planned, hplanned, heq⟩ := List.mem_map.mp hmem
    obtain ⟨index, hindex⟩ := List.get_of_mem hplanned
    have hall := hfresh.planned.get (hfresh.planned.length_eq.symm ▸ index.isLt) index.isLt
    rw [← heq, ← hindex]
    exact hall.name_le

/-- An archive of the writer within the limits of extraction is accepted exactly when no record of
its directory or end spells an end signature but at its own start, and is then reported with the
directory and the number of entries that were written. -/
theorem created_archive_accepted {compression : ArchiveCompression} {sources : List ZipSource}
    {plan done : ZipPlan} {contents : List (Option EntryData)} {bytes : List UInt8}
    {limits : ArchiveLimits} (hplan : ZipPlan.new sources compression = some plan)
    (hcovers : Covers sources contents)
    (hwrite : plan.writeArchive contents = .ok (done, bytes))
    (hcount : plan.entries.length ≤ limits.maxEntries)
    (hbytes : done.centralLen ≤ maxZipDirectory)
    (hnames : nameLen plan.entries ≤ limits.maxNameBytes) (cancelled : ℕ → Bool)
    (result : ℕ × ℕ) :
    preflightZip cancelled limits bytes bytes.length = .ok result ↔
      Clear done ∧ (∀ index < plan.entries.length, cancelled index = false) ∧
        result = (done.centralOffset, plan.entries.length) := by
  obtain ⟨hemitted, hsame⟩ := emitted_of_writeArchive hplan hcovers hwrite
  have hlength : done.entries.length = plan.entries.length := by
    simpa only [List.length_map] using congrArg List.length hsame
  have hnameLen : nameLen done.entries = nameLen plan.entries := by
    have := congrArg (fun names => (names.map String.utf8ByteSize).sum) hsame
    rwa [List.map_map, List.map_map] at this
  rw [← hlength] at hcount ⊢
  exact hemitted.preflightZip_eq_ok hcount hbytes (hnameLen ▸ hnames)

/-- An empty file and a directory. -/
def plainSources : List ZipSource := [⟨"a", some 0, none⟩, ⟨"d", none, none⟩]

def plainContents : List (Option EntryData) := [some ⟨false, 0, []⟩, none]

def plainPlan : ZipPlan := (ZipPlan.new plainSources .off).getD ⟨[], false, 0, 0, 0, 0⟩

def plainArchive : ZipPlan × List UInt8 :=
  (plainPlan.writeArchive plainContents).toOption.getD (plainPlan, [])

theorem created_archive_accepted_plain :
    preflightZip (fun _ => false) (archiveLimits 10000 1000) plainArchive.2 plainArchive.2.length =
      .ok (79, 2) := by
  have hplan : ZipPlan.new plainSources .off = some plainPlan := rfl
  have hcovers : Covers plainSources plainContents := rfl
  have hwrite : plainPlan.writeArchive plainContents = .ok (plainArchive.1, plainArchive.2) := rfl
  exact (created_archive_accepted hplan hcovers hwrite (by decide) (by decide) (by decide) _ _).mpr
    ⟨by decide, fun _ _ => rfl, rfl⟩

/-- A directory last modified when the Unix clock spelled the signature of the end record. -/
def strayTimeSources : List ZipSource := [⟨"d", none, some ⟨0x06054b50, ⟨0, by decide⟩⟩⟩]

def strayTimePlan : ZipPlan := (ZipPlan.new strayTimeSources .off).getD ⟨[], false, 0, 0, 0, 0⟩

def strayTimeArchive : ZipPlan × List UInt8 :=
  (strayTimePlan.writeArchive [none]).toOption.getD (strayTimePlan, [])

theorem created_archive_refused :
    ZipPlan.new strayTimeSources .off = some strayTimePlan ∧
      strayTimePlan.writeArchive [none] = .ok strayTimeArchive ∧
      strayTimePlan.entries.length ≤ (archiveLimits 10000 1000).maxEntries ∧
      strayTimeArchive.1.centralLen ≤ maxZipDirectory ∧
      nameLen strayTimePlan.entries ≤ (archiveLimits 10000 1000).maxNameBytes ∧
      preflightZip (fun _ => false) (archiveLimits 10000 1000) strayTimeArchive.2
        strayTimeArchive.2.length = .error .invalid := by
  exact ⟨rfl, rfl, by decide, by decide, by decide, by decide +kernel⟩

end Crabinet.Share
