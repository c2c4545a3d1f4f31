import Crabinet.Share.PreflightSafety

/-!
# What the check of a ZIP archive accepts

The end records state the directory of an archive on one disk. An accepted file holds, from the
place its end records state up to the first of them, central records and nothing else, and no
other signature of an end record starts behind that place.
-/

namespace Crabinet.Share

open Crabinet.Library Crabinet.Zip

/-- A classic end record at the end of the file. -/
structure ClassicEnd (file : List UInt8) (position : ℕ) : Prop where
  magic : Located file position endMagic
  length_eq : position + 22 + u16le file (position + 20) = file.length
  disk_eq : u16le file (position + 4) = 0
  directoryDisk_eq : u16le file (position + 6) = 0
  count_eq : u16le file (position + 8) = u16le file (position + 10)

/-- Some value does not fit its field in the classic end record. -/
def Saturated (file : List UInt8) (position : ℕ) : Prop :=
  u16le file (position + 10) = u16Sentinel ∨ u32le file (position + 12) = u32Sentinel ∨
    u32le file (position + 16) = u32Sentinel

/-- A ZIP64 end record, which the locator directly before the classic one points to. -/
structure Zip64End (file : List UInt8) (classicAt position : ℕ) : Prop where
  locator : Located file (classicAt - 20) locatorMagic
  locatorDisk_eq : u32le file (classicAt - 20 + 4) = 0
  locatorPlace_eq : u64le file (classicAt - 20 + 8) = position
  locatorDisks_eq : u32le file (classicAt - 20 + 16) = 1
  room : position + 56 + 20 ≤ classicAt
  magic : Located file position zip64EndMagic
  size_eq : u64le file (position + 4) = 44
  disk_eq : u32le file (position + 16) = 0
  directoryDisk_eq : u32le file (position + 20) = 0
  count_eq : u64le file (position + 24) = u64le file (position + 32)

/-- The end records of a file on one disk, with the values of the ZIP64 record where the classic
one is saturated and its own otherwise. -/
inductive States (file : List UInt8) : EndRecords → Prop
  | classic {position : ℕ} :
    ClassicEnd file position → ¬Saturated file position →
    States file {
      count := u16le file (position + 10), bytes := u32le file (position + 12)
      offset := u32le file (position + 16), boundary := position, eocdAt := position
      zip64Position := none }
  | zip64 {classicAt position : ℕ} :
    ClassicEnd file classicAt → Saturated file classicAt → Zip64End file classicAt position →
    States file {
      count := u64le file (position + 32), bytes := u64le file (position + 40)
      offset := u64le file (position + 48), boundary := position, eocdAt := classicAt
      zip64Position := some position }

/-- A central record: its fixed part and the name, the extra field and the comment it announces. -/
structure CentralRecord (record : List UInt8) : Prop where
  magic : Located record 0 centralMagic
  length_eq : record.length = 46 + (u16le record 28 + u16le record 30 + u16le record 32)
  disk_eq : u16le record 34 = 0

/-- The directory lies directly before the end records, one record behind the other, and no other
end record can be found behind its start. -/
structure StrictDirectory (file : List UInt8) (found : EndRecords) (records : List (List UInt8)) :
    Prop where
  wellFormed : ∀ record ∈ records, CentralRecord record
  length_eq : records.length = found.count
  located : Located file found.offset records.flatten
  bytes_eq : records.flatten.length = found.bytes
  boundary_eq : found.offset + found.bytes = found.boundary
  end_eq : ∀ position, found.offset ≤ position → Located file position endMagic →
    position = found.eocdAt
  zip64End_eq : ∀ position, found.offset ≤ position → Located file position zip64EndMagic →
    found.zip64Position = some position

/-! ### The end records -/

section Fields

variable {file segment : List UInt8} {start index : ℕ}

/-- A field of a located segment is that field of the file. -/
theorem u16le_of_segment (h : Located file start segment) (hindex : index + 2 ≤ segment.length) :
    u16le file (start + index) = u16le segment index := by
  rw [u16le, u16le, h.leAt_add hindex]

theorem u32le_of_segment (h : Located file start segment) (hindex : index + 4 ≤ segment.length) :
    u32le file (start + index) = u32le segment index := by
  rw [u32le, u32le, h.leAt_add hindex]

theorem u64le_of_segment (h : Located file start segment) (hindex : index + 8 ≤ segment.length) :
    u64le file (start + index) = u64le segment index := by
  rw [u64le, u64le, h.leAt_add hindex]

end Fields

/-- What the classic end record is found to state. -/
theorem classicRecord_states {file : List UInt8} {found : EndRecords}
    (h : classicRecord file file.length = .ok found) :
    ClassicEnd file found.eocdAt ∧
      found = {
        count := u16le file (found.eocdAt + 10), bytes := u32le file (found.eocdAt + 12)
        offset := u32le file (found.eocdAt + 16), boundary := found.eocdAt
        eocdAt := found.eocdAt, zip64Position := none } := by
  unfold classicRecord at h
  obtain ⟨tailSize, htailSize⟩ : ∃ tailSize, min file.length 65557 = tailSize := ⟨_, rfl⟩
  simp only [htailSize, ite_error_eq_ok, bind_eq_ok] at h
  obtain ⟨-, tail, htail, h⟩ := h
  obtain ⟨hlength, htailAt⟩ := readExact_eq_ok.mp htail
  split at h
  case h_1 => cases h
  case h_2 start hfound =>
    simp only [ite_error_eq_ok, Except.ok.injEq, not_or, not_lt, not_not] at h
    obtain ⟨⟨hfits, hend⟩, ⟨hdisk, hdirectory, hcount⟩, rfl⟩ := h
    obtain ⟨⟨window, hwindow, hmagic⟩, -⟩ := rposition_eq_some.mp hfound
    obtain rfl : window = endMagic := eq_of_beq hmagic
    obtain ⟨-, hmagicAt⟩ := (getElem?_windows (by decide)).mp hwindow
    have hrecord : Located file (file.length - tailSize + start) (tail.drop start) :=
      htailAt.trans (located_drop_self (by omega))
    have hsize : (tail.drop start).length = tail.length - start := List.length_drop
    have hcomment : u16le file (file.length - tailSize + (start + 20)) = u16le tail (start + 20) :=
      u16le_of_segment htailAt (by omega)
    rw [← Nat.add_assoc] at hcomment
    dsimp only
    rw [u16le_of_segment hrecord (by omega), u32le_of_segment hrecord (by omega),
      u32le_of_segment hrecord (by omega)]
    refine ⟨⟨htailAt.trans hmagicAt, ?_, ?_, ?_, ?_⟩, rfl⟩
    · rw [hcomment]
      omega
    · rw [u16le_of_segment hrecord (by omega), hdisk]
    · rw [u16le_of_segment hrecord (by omega), hdirectory]
    · rw [u16le_of_segment hrecord (by omega), u16le_of_segment hrecord (by omega), hcount]

/-- What the end records together are found to state. -/
theorem zip64Record_states {file : List UInt8} {classic found : EndRecords}
    (hclassic : classicRecord file file.length = .ok classic)
    (h : zip64Record file classic = .ok found) : States file found := by
  obtain ⟨hend, heq⟩ := classicRecord_states hclassic
  obtain ⟨position, hposition⟩ : ∃ position, classic.eocdAt = position := ⟨_, rfl⟩
  rw [hposition] at hend heq
  subst heq
  unfold zip64Record at h
  split at h
  case isFalse hsmall =>
    obtain rfl := Except.ok.inj h
    exact .classic hend hsmall
  case isTrue hsaturated =>
    simp only [ite_error_eq_ok, bind_eq_ok, Except.ok.injEq, not_or, not_lt, not_not] at h
    obtain ⟨hroom, locator, hlocator, ⟨hmagic, hdisk, hdisks⟩, ⟨hplace, hbetween⟩, record, hrecord,
      ⟨hsignature, hsize, hrecordDisk, hdirectory, hcount⟩, rfl⟩ := h
    obtain ⟨hlocatorLength, hlocatorAt⟩ := readExact_eq_ok.mp hlocator
    obtain ⟨hrecordLength, hrecordAt⟩ := readExact_eq_ok.mp hrecord
    have hpoints : u64le file (position - 20 + 8) = u64le locator 8 :=
      u64le_of_segment hlocatorAt (by omega)
    obtain ⟨zip64At, hzip64At⟩ : ∃ zip64At, u64le locator 8 = zip64At := ⟨_, rfl⟩
    rw [hzip64At] at hplace hbetween hrecordAt hpoints ⊢
    have hlong {index : ℕ} (hindex : index + 8 ≤ 56) :
        u64le file (zip64At + index) = u64le record index :=
      u64le_of_segment hrecordAt (by omega)
    have hword {index : ℕ} (hindex : index + 4 ≤ 56) :
        u32le file (zip64At + index) = u32le record index :=
      u32le_of_segment hrecordAt (by omega)
    rw [← hlong (by omega), ← hlong (by omega), ← hlong (by omega)]
    refine .zip64 hend hsaturated ⟨?_, ?_, hpoints, ?_, by omega, ?_, ?_, ?_, ?_, ?_⟩
    · exact hlocatorAt.trans (located_of_take hmagic)
    · rw [u32le_of_segment hlocatorAt (by omega), hdisk]
    · rw [u32le_of_segment hlocatorAt (by omega), hdisks]
    · exact hrecordAt.trans (located_of_take hsignature)
    · rw [hlong (by omega), hsize]
    · rw [hword (by omega), hrecordDisk]
    · rw [hword (by omega), hdirectory]
    · rw [hlong (by omega), hlong (by omega), hcount]

/-! ### The directory -/

/-- The loop over the headers has seen a central record for each of its turns. -/
theorem exists_records_of_walkDirectory {cancelled : ℕ → Bool} {limits : ArchiveLimits}
    {file : List UInt8} {offset bytes remaining index consumed names result : ℕ}
    (hend : offset + bytes ≤ file.length) (hconsumed : consumed ≤ bytes)
    (h : walkDirectory cancelled limits file offset bytes remaining index consumed names =
      .ok result) :
    ∃ records : List (List UInt8), records.length = remaining ∧
      (∀ record ∈ records, CentralRecord record) ∧
      Located file (offset + consumed) records.flatten ∧
      consumed + records.flatten.length = result := by
  induction remaining generalizing index consumed names with
  | zero =>
    obtain rfl := Except.ok.inj h
    refine ⟨[], rfl, nofun, ?_, rfl⟩
    exact located_iff_isPrefix.mpr ⟨by omega, List.nil_prefix⟩
  | succ remaining ih =>
    simp only [walkDirectory, ite_error_eq_ok, bind_eq_ok, not_or, not_not, not_lt] at h
    obtain ⟨-, hroom, header, hheader, ⟨hmagic, hdisk⟩, ⟨hfits, -⟩, h⟩ := h
    obtain ⟨hheaderLength, hheaderAt⟩ := readExact_eq_ok.mp hheader
    obtain ⟨length, hlength⟩ : ∃ length,
      46 + (u16le header 28 + u16le header 30 + u16le header 32) = length := ⟨_, rfl⟩
    rw [hlength] at hfits h
    obtain ⟨records, hcount, hrecords, hrest, hsum⟩ := ih hfits h
    obtain ⟨record, hrecord⟩ : ∃ record, (file.drop (offset + consumed)).take length = record :=
      ⟨_, rfl⟩
    have hrecordAt : Located file (offset + consumed) record :=
      hrecord ▸ located_take_drop (by omega)
    have hrecordLength : record.length = length := by
      rw [← hrecord, List.length_take, List.length_drop]
      omega
    -- the fixed part of the record is the header
    have hfield {index : ℕ} (hindex : index + 2 ≤ 46) :
        u16le record index = u16le header index := by
      rw [← u16le_of_segment hrecordAt (by omega), u16le_of_segment hheaderAt (by omega)]
    have hheaderIn : Located record 0 header := hheaderAt.located_zero hrecordAt (by omega)
    refine ⟨record :: records, by rw [List.length_cons, hcount], ?_, ?_, ?_⟩
    · rw [List.forall_mem_cons]
      refine ⟨⟨?_, ?_, ?_⟩, hrecords⟩
      · exact hheaderIn.trans (located_of_take hmagic)
      · rw [hfield (by omega), hfield (by omega), hfield (by omega), hlength, hrecordLength]
      · rw [hfield (by omega), hdisk]
    · rw [List.flatten_cons, located_append, hrecordLength, Nat.add_assoc]
      exact ⟨hrecordAt, hrest⟩
    · rw [List.flatten_cons, List.length_append, hrecordLength]
      omega

/-! ### The check -/

/-- What an accepted file holds. -/
theorem exists_strict_of_preflightZip {cancelled : ℕ → Bool} {limits : ArchiveLimits}
    {file : List UInt8} {offset count : ℕ}
    (h : preflightZip cancelled limits file file.length = .ok (offset, count)) :
    ∃ found records, States file found ∧ found.offset = offset ∧ found.count = count ∧
      StrictDirectory file found records := by
  simp only [preflightZip, bind_eq_ok, ite_error_eq_ok, Except.ok.injEq, Prod.mk.injEq, not_or,
    not_not, not_lt] at h
  obtain ⟨classic, hclassic, found, hfound, -, hend, consumed, hconsumed, rfl, hbehind, -, metadata,
    hmetadata, hstray, hoffset, hcount⟩ := h
  obtain ⟨-, hboundary⟩ := checkedAdd_eq_some.mp hend
  have hinside : found.offset + found.bytes ≤ file.length := by
    have := Checked.boundary_of_classicRecord hclassic
    have := Checked.boundary_of_zip64Record hfound
    omega
  obtain ⟨hlength, hmetadataAt⟩ := readExact_eq_ok.mp hmetadata
  obtain ⟨records, hturns, hrecords, hlocated, hsum⟩ :=
    exists_records_of_walkDirectory hinside (Nat.zero_le _) hconsumed
  have hdrop : file.drop found.offset = metadata := hmetadataAt.drop_eq (by omega)
  have hinner {position : ℕ} {magic : List UInt8} (hoffset : found.offset ≤ position)
      (hmagic : Located file position magic) :
      Located metadata (position - found.offset) magic := by
    rw [← hdrop, located_drop hbehind, Nat.add_sub_of_le hoffset]
    exact hmagic
  obtain ⟨hends, hzip64Ends⟩ := hasStray_eq_false.mp (Bool.not_eq_true _ ▸ hstray)
  refine ⟨found, records, zip64Record_states hclassic hfound, hoffset, hcount, hrecords, hturns,
    hlocated, by omega, hboundary, ?_, ?_⟩
  · intro position hle hmagic
    rw [← hends _ (hinner hle hmagic), Nat.add_sub_of_le hle]
  · intro position hle hmagic
    rw [← hzip64Ends _ (hinner hle hmagic), Nat.add_sub_of_le hle]

/-- The check of a file of any content does not panic and reads nothing outside the file and no
more than its bounds. Where it accepts the file, the end records state the directory that it
returns, and the directory and the end records are all there is from its start on. -/
theorem preflight_safe_and_strict (cancelled : ℕ → Bool) (limits : ArchiveLimits)
    (file : List UInt8) (hfile : file.length < 2 ^ 64) :
    (Checked.preflightZip cancelled limits file file.length).outcome ≠ .error .panic ∧
      (∀ range ∈ (Checked.preflightZip cancelled limits file file.length).reads,
        range.1 + range.2 ≤ file.length) ∧
      (Checked.preflightZip cancelled limits file file.length).bytes ≤ Checked.preflightBudget ∧
      ∀ offset count,
        (Checked.preflightZip cancelled limits file file.length).outcome = .ok (offset, count) →
          ∃ found records, States file found ∧ found.offset = offset ∧ found.count = count ∧
            StrictDirectory file found records := by
  have hmeets := Checked.preflightZip_meets cancelled limits hfile
  refine ⟨hmeets.ne_panic, hmeets.inside, hmeets.bytes_le, fun offset count hok => ?_⟩
  exact exists_strict_of_preflightZip (hmeets.outcome_eq_ok.mp hok)

theorem preflight_safe_and_strict_plain :
    (Checked.preflightZip (fun _ => false) (archiveLimits 10000 1000) plainArchive.2
      plainArchive.2.length).outcome = .ok (79, 2) ∧
    ∃ found records, States plainArchive.2 found ∧ found.offset = 79 ∧ found.count = 2 ∧
      StrictDirectory plainArchive.2 found records := by
  have hok : (Checked.preflightZip (fun _ => false) (archiveLimits 10000 1000) plainArchive.2
      plainArchive.2.length).outcome = .ok (79, 2) := by decide +kernel
  have hfile : plainArchive.2.length < 2 ^ 64 := by decide +kernel
  exact ⟨hok, (preflight_safe_and_strict _ _ _ hfile).2.2.2 _ _ hok⟩

end Crabinet.Share
