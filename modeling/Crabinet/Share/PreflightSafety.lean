import Crabinet.Library.Traced
import Crabinet.Share.Preflight

/-!
# What the check of a ZIP archive reads

The check once more, with every slice and every sum of 64 bits as the program performs them:
one that does not fit is a panic. It ends as the check does, without a panic, and reads no more
of the file than its fixed bounds.
-/

namespace Crabinet.Share.Checked

open Crabinet.Library Crabinet.Library.Traced Crabinet.Zip

/-- `u16le`, which slices the bytes of the field. -/
def u16le (bytes : List UInt8) (start : ℕ) : Traced ArchiveError ℕ := field 2 bytes start

/-- `u32le`. -/
def u32le (bytes : List UInt8) (start : ℕ) : Traced ArchiveError ℕ := field 4 bytes start

/-- `u64le`. -/
def u64le (bytes : List UInt8) (start : ℕ) : Traced ArchiveError ℕ := field 8 bytes start

/-- `seek` to a position, then `read_exact` of a number of bytes. -/
def readExact (file : List UInt8) (position count : ℕ) : Traced ArchiveError (List UInt8) :=
  read file position count .io

/-- The classic end record. -/
def classicRecord (file : List UInt8) (size : ℕ) : Traced ArchiveError EndRecords :=
  let tailSize := min size 65557
  if file.length < tailSize then fail .io
  else do
    let tail ← readExact file (file.length - tailSize) tailSize
    match rposition (· == endMagic) (windows 4 tail) with
    | none => fail .invalid
    | some start => do
      let left ← sub64 tail.length start
      if left < 22 then fail .invalid
      else do
        let comment ← u16le tail (start + 20)
        let behind ← add64 (start + 22) comment
        if behind ≠ tail.length then fail .invalid
        else do
          let record ← dropFrom tail start
          let disk ← u16le record 4
          let directoryDisk ← u16le record 6
          let diskCount ← u16le record 8
          let count ← u16le record 10
          if disk ≠ 0 ∨ directoryDisk ≠ 0 ∨ diskCount ≠ count then fail .invalid
          else do
            let bytes ← u32le record 12
            let offset ← u32le record 16
            let before ← sub64 size tailSize
            let boundary ← add64 before start
            pure {
              count, bytes, offset, boundary
              eocdAt := boundary
              zip64Position := none }

/-- The values of the ZIP64 end record. -/
def zip64Record (file : List UInt8) (found : EndRecords) : Traced ArchiveError EndRecords :=
  if found.count = u16Sentinel ∨ found.bytes = u32Sentinel ∨ found.offset = u32Sentinel then
    if found.boundary < 20 then fail .invalid
    else do
      let locatorAt ← sub64 found.boundary 20
      let locator ← readExact file locatorAt 20
      let disk ← u32le locator 4
      let disks ← u32le locator 16
      if locator.take 4 ≠ locatorMagic ∨ disk ≠ 0 ∨ disks ≠ 1 then fail .invalid
      else do
        let zip64At ← u64le locator 8
        if zip64At > locatorAt then fail .invalid
        else do
          let between ← sub64 locatorAt zip64At
          if between < 56 then fail .invalid
          else do
            let record ← readExact file zip64At 56
            let recordSize ← u64le record 4
            let disk ← u32le record 16
            let directoryDisk ← u32le record 20
            let diskCount ← u64le record 24
            let count ← u64le record 32
            if record.take 4 ≠ zip64EndMagic ∨ recordSize ≠ 44 ∨ disk ≠ 0 ∨ directoryDisk ≠ 0 ∨
                diskCount ≠ count then
              fail .invalid
            else do
              let bytes ← u64le record 40
              let offset ← u64le record 48
              pure { found with
                count, bytes, offset
                boundary := zip64At, zip64Position := some zip64At }
  else pure found

/-- The loop over the central headers. -/
def walkDirectory (cancelled : ℕ → Bool) (limits : ArchiveLimits) (file : List UInt8)
    (offset bytes : ℕ) : ℕ → ℕ → ℕ → ℕ → Traced ArchiveError ℕ
  | 0, _, consumed, _ => pure consumed
  | remaining + 1, index, consumed, names =>
    if cancelled index then fail .cancelled
    else if bytes - consumed < 46 then fail .invalid
    else do
      let header ← readExact file (offset + consumed) 46
      let disk ← u16le header 34
      if header.take 4 ≠ centralMagic ∨ disk ≠ 0 then fail .invalid
      else do
        let nameLen ← u16le header 28
        let extraLen ← u16le header 30
        let commentLen ← u16le header 32
        let names ← add64 names nameLen
        let lengths ← add64 nameLen extraLen
        let tail ← add64 lengths commentLen
        let whole ← add64 46 tail
        let consumed ← add64 consumed whole
        if consumed > bytes ∨ names > limits.maxNameBytes then fail .limit
        else walkDirectory cancelled limits file offset bytes remaining (index + 1) consumed names

/-- The loop over the windows of the metadata from the one with this index on. -/
def scanMetadata (found : EndRecords) : List (List UInt8) → ℕ → Traced ArchiveError Unit
  | [], _ => pure ()
  | magic :: rest, index => do
    let position ← add64 found.offset index
    if (magic == endMagic && position != found.eocdAt) ||
        (magic == zip64EndMagic && some position != found.zip64Position) then
      fail .invalid
    else scanMetadata found rest (index + 1)

/-- `preflight_zip`. -/
def preflightZip (cancelled : ℕ → Bool) (limits : ArchiveLimits) (file : List UInt8) (size : ℕ) :
    Traced ArchiveError (ℕ × ℕ) := do
  let found ← classicRecord file size
  let found ← zip64Record file found
  if found.count > limits.maxEntries ∨ found.bytes > maxZipDirectory then fail .limit
  else if checkedAdd found.offset found.bytes ≠ some found.boundary then fail .invalid
  else do
    let consumed ← walkDirectory cancelled limits file found.offset found.bytes found.count 0 0 0
    if consumed ≠ found.bytes then fail .invalid
    else if size < found.offset then fail .invalid
    else if size - found.offset > maxZipDirectory + 65657 then fail .limit
    else do
      let metadata ← readExact file found.offset (size - found.offset)
      scanMetadata found (windows 4 metadata) 0
      pure (found.offset, found.count)

/-! ### It ends as the check does -/

theorem u16le_eq {bytes : List UInt8} {start : ℕ} (h : start + 2 ≤ bytes.length) :
    u16le bytes start = pure (Share.u16le bytes start) := field_eq h

theorem u32le_eq {bytes : List UInt8} {start : ℕ} (h : start + 4 ≤ bytes.length) :
    u32le bytes start = pure (Share.u32le bytes start) := field_eq h

theorem u64le_eq {bytes : List UInt8} {start : ℕ} (h : start + 8 ≤ bytes.length) :
    u64le bytes start = pure (Share.u64le bytes start) := field_eq h

theorem readExact_meets {file : List UInt8} {position count : ℕ}
    (h : position + count ≤ file.length) :
    Meets file.length count (readExact file position count) (Share.readExact file position count) := by
  refine bounded_read h le_rfl (fun hslice => ?_) fun bytes hslice => ?_
  · rw [Share.readExact, hslice]
  · rw [Share.readExact, hslice]

theorem classicRecord_meets {file : List UInt8} (hfile : file.length < 2 ^ 64) :
    Meets file.length 65557 (classicRecord file file.length)
      (Share.classicRecord file file.length) := by
  unfold classicRecord Share.classicRecord
  obtain ⟨tailSize, htailSize⟩ : ∃ tailSize, min file.length 65557 = tailSize := ⟨_, rfl⟩
  simp only [htailSize]
  refine meets_ite (fun _ => meets_fail _) fun hlong => ?_
  have hread : Meets file.length tailSize (readExact file (file.length - tailSize) tailSize)
      (Share.readExact file (file.length - tailSize) tailSize) := readExact_meets (by omega)
  refine Meets.mono (Meets.bind tailSize 0 hread fun tail htail => ?_) (by omega)
  obtain ⟨hlength, -⟩ := readExact_eq_ok.mp htail
  cases hfound : rposition (· == endMagic) (windows 4 tail) with
  | none => exact meets_fail _
  | some start =>
    obtain ⟨⟨window, hwindow, -⟩, -⟩ := rposition_eq_some.mp hfound
    obtain ⟨hfour, hlocated⟩ := (getElem?_windows (by decide)).mp hwindow
    have hstart := hlocated.le_length
    have hcomment := u16le_lt tail (start + 20)
    dsimp only
    rw [sub64_eq (by omega), pure_bind]
    by_cases hshort : tail.length - start < 22
    · rw [if_pos hshort, if_pos (.inl hshort)]
      exact meets_fail _
    rw [if_neg hshort, u16le_eq (by omega), pure_bind, add64_eq (by omega), pure_bind]
    by_cases hend : start + 22 + Share.u16le tail (start + 20) = tail.length
    swap
    · rw [if_pos hend, if_pos (.inr hend)]
      exact meets_fail _
    have hrecord : (tail.drop start).length = tail.length - start := List.length_drop
    rw [if_neg (not_not.mpr hend), if_neg (not_or.mpr ⟨hshort, not_not.mpr hend⟩),
      dropFrom_eq (by omega), pure_bind]
    simp (disch := omega) only [u16le_eq, u32le_eq, sub64_eq, add64_eq, pure_bind]
    exact meets_ite (fun _ => meets_fail _) fun _ => meets_pure _

/-- The classic end record ends inside the file. -/
theorem boundary_of_classicRecord {file : List UInt8} {found : EndRecords}
    (h : Share.classicRecord file file.length = .ok found) :
    found.boundary + 22 ≤ file.length := by
  unfold Share.classicRecord at h
  obtain ⟨tailSize, htailSize⟩ : ∃ tailSize, min file.length 65557 = tailSize := ⟨_, rfl⟩
  simp only [htailSize, ite_error_eq_ok, bind_eq_ok] at h
  obtain ⟨-, tail, htail, h⟩ := h
  obtain ⟨hlength, -⟩ := readExact_eq_ok.mp htail
  split at h
  · cases h
  simp only [ite_error_eq_ok, Except.ok.injEq] at h
  obtain ⟨hfits, -, rfl⟩ := h
  dsimp only
  omega

theorem zip64Record_meets {file : List UInt8} {found : EndRecords}
    (hfound : found.boundary ≤ file.length) :
    Meets file.length 76 (zip64Record file found) (Share.zip64Record file found) := by
  unfold zip64Record Share.zip64Record
  refine meets_ite (fun _ => ?_) fun _ => meets_pure _
  refine meets_ite (fun _ => meets_fail _) fun hroom => ?_
  rw [sub64_eq (by omega), pure_bind]
  refine Meets.bind 20 56 (readExact_meets (by omega))
    fun locator hlocator => ?_
  obtain ⟨hlength, -⟩ := readExact_eq_ok.mp hlocator
  simp (disch := omega) only [u32le_eq, u64le_eq, pure_bind]
  refine meets_ite (fun _ => meets_fail _) fun _ => ?_
  by_cases hplace : Share.u64le locator 8 > found.boundary - 20
  · rw [if_pos hplace, if_pos (.inl hplace)]
    exact meets_fail _
  rw [if_neg hplace, sub64_eq (by omega), pure_bind]
  by_cases hshort : found.boundary - 20 - Share.u64le locator 8 < 56
  · rw [if_pos hshort, if_pos (.inr hshort)]
    exact meets_fail _
  rw [if_neg hshort, if_neg (not_or.mpr ⟨hplace, hshort⟩)]
  refine Meets.bind 56 0 (readExact_meets (by omega)) fun record hrecord => ?_
  obtain ⟨hsize, -⟩ := readExact_eq_ok.mp hrecord
  simp (disch := omega) only [u32le_eq, u64le_eq, pure_bind]
  exact meets_ite (fun _ => meets_fail _) fun _ => meets_pure _

/-- The end records of the ZIP64 format start no later than the classic one. -/
theorem boundary_of_zip64Record {file : List UInt8} {found extended : EndRecords}
    (h : Share.zip64Record file found = .ok extended) : extended.boundary ≤ found.boundary := by
  unfold Share.zip64Record at h
  split at h
  · simp only [ite_error_eq_ok, bind_eq_ok, Except.ok.injEq] at h
    obtain ⟨-, locator, -, -, hplace, record, -, -, rfl⟩ := h
    dsimp only
    omega
  · obtain rfl := Except.ok.inj h
    exact le_rfl

/-- The walk reads no more than what is left of the directory, each header once. -/
theorem walkDirectory_meets {cancelled : ℕ → Bool} {limits : ArchiveLimits} {file : List UInt8}
    {offset bytes : ℕ} (hbytes : bytes ≤ maxZipDirectory) (hend : offset + bytes ≤ file.length)
    (remaining index : ℕ) {consumed names : ℕ} (hconsumed : consumed ≤ bytes)
    (hnames : names ≤ consumed) :
    Meets file.length (bytes - consumed)
      (walkDirectory cancelled limits file offset bytes remaining index consumed names)
      (Share.walkDirectory cancelled limits file offset bytes remaining index consumed names) := by
  have hmax : maxZipDirectory = 8 * 1024 * 1024 := rfl
  induction remaining generalizing index consumed names with
  | zero => exact meets_pure _
  | succ remaining ih =>
    rw [walkDirectory, Share.walkDirectory]
    refine meets_ite (fun _ => meets_fail _) fun _ => ?_
    refine meets_ite (fun _ => meets_fail _) fun hroom => ?_
    refine Meets.mono (Meets.bind 46 (bytes - consumed - 46) (readExact_meets (by omega)) fun header hheader => ?_) (by omega)
    obtain ⟨hlength, -⟩ := readExact_eq_ok.mp hheader
    have hname := u16le_lt header 28
    have hextra := u16le_lt header 30
    have hcomment := u16le_lt header 32
    simp (disch := omega) only [u16le_eq, add64_eq, pure_bind]
    refine meets_ite (fun _ => meets_fail _) fun _ => ?_
    refine meets_ite (fun _ => meets_fail _) fun hfits => ?_
    rw [not_or, not_lt, not_lt] at hfits
    exact Meets.mono (ih (index + 1) hfits.1 (by omega)) (by omega)

theorem length_windows_le (n : ℕ) (image : List UInt8) : (windows n image).length ≤ image.length := by
  induction image with
  | nil => exact le_rfl
  | cons byte rest ih =>
    rw [windows]
    split
    · exact Nat.succ_le_succ ih
    · exact Nat.zero_le _

theorem scanMetadata_meets (size : ℕ) {found : EndRecords} (magics : List (List UInt8)) (index : ℕ)
    (h : found.offset + index + magics.length ≤ 2 ^ 64) :
    Meets size 0 (scanMetadata found magics index)
      (if (magics.zipIdx index).any fun (magic, index) =>
          (magic == endMagic && found.offset + index != found.eocdAt) ||
            (magic == zip64EndMagic && some (found.offset + index) != found.zip64Position)
        then .error .invalid else .ok ()) := by
  induction magics generalizing index with
  | nil => exact meets_pure ()
  | cons magic rest ih =>
    rw [List.length_cons] at h
    rw [scanMetadata, add64_eq (by omega), pure_bind, List.zipIdx_cons, List.any_cons]
    dsimp only
    by_cases hstray : ((magic == endMagic && found.offset + index != found.eocdAt) ||
        (magic == zip64EndMagic && some (found.offset + index) != found.zip64Position)) = true
    · rw [if_pos hstray, if_pos (Bool.or_eq_true_iff.mpr (.inl hstray))]
      exact meets_fail _
    · rw [if_neg hstray]
      simp only [Bool.not_eq_true _ ▸ hstray, Bool.false_or]
      exact ih (index + 1) (by omega)

/-- The bytes of the end of the file, the locator and the ZIP64 record, the headers and the
metadata. -/
def preflightBudget : ℕ := 65557 + (20 + 56) + maxZipDirectory + (maxZipDirectory + 65657)

/-- On a file of any content the program ends as the check does, without a panic, and reads no
more of it than its bounds. -/
theorem preflightZip_meets (cancelled : ℕ → Bool) (limits : ArchiveLimits) {file : List UInt8}
    (hfile : file.length < 2 ^ 64) :
    Meets file.length preflightBudget (preflightZip cancelled limits file file.length)
      (Share.preflightZip cancelled limits file file.length) := by
  unfold preflightZip Share.preflightZip preflightBudget
  rw [Nat.add_assoc 65557, Nat.add_assoc 65557, Nat.add_assoc (20 + 56)]
  refine Meets.bind _ _ (classicRecord_meets hfile) fun classic hclassic => ?_
  have hboundary := boundary_of_classicRecord hclassic
  refine Meets.bind _ _ (zip64Record_meets (by omega)) fun found hfound => ?_
  refine meets_ite (fun _ => meets_fail _) fun hlimits => ?_
  refine meets_ite (fun _ => meets_fail _) fun hend => ?_
  have hinside : found.offset + found.bytes ≤ file.length := by
    obtain ⟨-, hsum⟩ := checkedAdd_eq_some.mp (not_not.mp hend)
    have := boundary_of_zip64Record hfound
    omega
  refine Meets.bind _ _ ?_ fun consumed hconsumed => ?_
  · exact Meets.mono (walkDirectory_meets (by omega) hinside _ _ (Nat.zero_le _) le_rfl) (by omega)
  refine meets_ite (fun _ => meets_fail _) fun _ => ?_
  refine meets_ite (fun _ => meets_fail _) fun hbehind => ?_
  refine meets_ite (fun _ => meets_fail _) fun hmetadata => ?_
  refine Meets.mono (Meets.bind _ 0 (readExact_meets (by omega))
    fun metadata hread => ?_) (by omega)
  obtain ⟨hlength, -⟩ := readExact_eq_ok.mp hread
  have hwindows := length_windows_le 4 metadata
  have hscan : Meets file.length 0 (scanMetadata found (windows 4 metadata) 0)
      (if hasStray found metadata = true then .error .invalid else .ok ()) :=
    scanMetadata_meets file.length (windows 4 metadata) 0 (by omega)
  have hlast := Meets.bind 0 0 hscan fun _ _ => meets_pure (found.offset, found.count)
  by_cases hstray : hasStray found metadata = true
  · rw [if_pos hstray] at hlast ⊢
    exact hlast
  · rw [if_neg hstray] at hlast ⊢
    exact hlast

end Crabinet.Share.Checked
