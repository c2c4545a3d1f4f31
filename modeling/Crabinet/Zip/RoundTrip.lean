import Crabinet.Zip.EncoderRuns
import Crabinet.Zip.ReaderRuns

/-!
# From contents to archives and back

The encoder of each entry hands over what the writers put between its local header and its data
descriptor. Whatever the reads and the calls of the encoders, the independent reader finds the same
entries in an archive that is shorter than `2 ^ 64` bytes.
-/

namespace Crabinet.Zip

open Crabinet.Library

variable {σ : Type} {compressor : StreamCompressor σ} {encodes : List UInt8 → List UInt8 → Prop}
  {bound : ℕ → ℕ} {inflate : Inflate} {compression : ArchiveCompression} {source : ZipSource}
  {entry : ZipEntry} {file : List UInt8} {content : EntryData} {position : ℕ}

/-- What the library is relied on for: inflating gives back what was deflated, which is not much longer. -/
structure Lossless (encodes : List UInt8 → List UInt8 → Prop) (inflate : Inflate) : Prop where
  inflates : ∀ {bytes data}, encodes bytes data → inflate bytes = some (data, bytes.length)
  bounded : ∀ {bytes data}, encodes bytes data → bytes.length ≤ data.length + data.length / 8 + 1023

/-- What the encoder hands over for a file, whatever its reads and its calls. -/
def Encoded (compressor : StreamCompressor σ) (entry : ZipEntry) (file : List UInt8)
    (content : EntryData) : Prop :=
  ∃ source previous calls encoder, source.bytes = file ∧
    EntryEncoder.run compressor source (entry.size.getD 0) (entry.method == .candidate) previous calls =
      .ok (encoder, content.data, true) ∧
    content.deflate = encoder.deflate ∧ content.crc = encoder.finish.1

/-- What is handed over for an entry: nothing for a directory. -/
def EncodedAs (compressor : StreamCompressor σ) (entry : ZipEntry) :
    Option (List UInt8) → Option EntryData → Prop
  | none, none => True
  | some file, some content => Encoded compressor entry file content
  | _, _ => False

/-- Whether a file is deflated. -/
def deflates (compression : ArchiveCompression) (name : String) (file : List UInt8) : Bool :=
  compression == .auto && mayDeflate name file.length &&
    sniffDeflate (file.take (min file.length sniffBytes)) (min file.length sniffBytes == file.length)

/-- What is handed over is the file or an encoding of it, with its checksum. -/
structure HandsOver (encodes : List UInt8 → List UInt8 → Prop) (entry : ZipEntry) (file : List UInt8)
    (content : EntryData) : Prop where
  deflate_eq : content.deflate = (entry.method == .candidate &&
    sniffDeflate (file.take (min file.length sniffBytes)) (min file.length sniffBytes == file.length))
  crc_eq : content.crc = referenceCrc file
  stored : content.deflate = false → content.data = file
  deflated : content.deflate = true → encodes content.data file

theorem Encoded.handsOver (lawful : compressor.Lawful encodes bound) (hsize : entry.size = some file.length)
    (h : Encoded compressor entry file content) : HandsOver encodes entry file content := by
  obtain ⟨source, previous, calls, encoder, rfl, hrun, hdeflate, hcrc⟩ := h
  have hexactly := EntryEncoder.run_exactly lawful source (entry.size.getD 0) (entry.method == .candidate)
    previous calls
  rw [hrun, hsize, Option.getD_some] at hexactly
  obtain ⟨hdeflate', hcomplete, -⟩ := hexactly
  have hcomplete := hcomplete rfl
  refine ⟨hdeflate.trans hdeflate', hcrc.trans hcomplete.crc_eq, fun hstored => ?_, fun hdeflated => ?_⟩
  · exact hcomplete.stored (hdeflate ▸ hstored)
  · exact hcomplete.deflated (hdeflate ▸ hdeflated)

/-- Enough calls complete a file of its planned size. -/
theorem exists_encoded (lawful : compressor.Lawful encodes bound) (hsize : entry.size = some file.length) :
    ∃ content, Encoded compressor entry file content := by
  let calls : List (List UInt8 × ℕ) := List.replicate (max file.length (bound file.length) + 1) ([], 1)
  have hrun := EntryEncoder.run_exactly lawful ⟨file, fun _ => 1⟩ file.length (entry.method == .candidate)
    none calls
  rcases hresult : EntryEncoder.run compressor ⟨file, fun _ => 1⟩ file.length (entry.method == .candidate)
    none calls with error | ⟨encoder, bytes, complete⟩
  · rw [hresult] at hrun
    exact absurd rfl hrun.2
  · rw [hresult] at hrun
    obtain ⟨-, -, hgoes⟩ := hrun
    cases complete with
    | false =>
      obtain ⟨⟨taken, hunderway⟩, hlength⟩ := hgoes rfl
      have hroom : ∀ call ∈ calls, call.1.length < call.2 := by
        intro call hcall
        rw [List.eq_of_mem_replicate hcall]
        exact Nat.zero_lt_one
      have hcalls := hlength hroom
      have hemitted := hunderway.length_emitted
      rw [List.length_replicate] at hcalls
      dsimp only at hemitted hcalls
      omega
    | true =>
      refine ⟨⟨encoder.deflate, encoder.finish.1, bytes⟩, ⟨file, fun _ => 1⟩, none, calls, encoder, rfl, ?_,
        rfl, rfl⟩
      rw [hsize, Option.getD_some]
      exact hresult

/-! ### One turn -/

/-- The entry as its turn leaves it. -/
theorem record_method (entry : ZipEntry) (position : ℕ) (content : EntryData) :
    (entry.record position (some content)).method =
      if entry.method = .candidate then (if content.deflate then .deflated else .stored)
      else entry.method := rfl

/-- Planned entries are candidates or stored. -/
theorem Planned.method_cases (hplanned : Planned compression source entry) :
    entry.method = .candidate ∨ entry.method = .stored := by
  rw [hplanned.method_eq]
  split_ifs
  · exact .inl rfl
  · exact .inr rfl

/-- A recorded file is deflated where its encoder says so. -/
theorem HandsOver.method_eq (h : HandsOver encodes entry file content)
    (hplanned : Planned compression source entry) :
    (entry.record position (some content)).method = if content.deflate then .deflated else .stored := by
  rw [record_method]
  rcases hplanned.method_cases with hmethod | hmethod
  · rw [if_pos hmethod]
  · have hstored : content.deflate = false := by
      rw [h.deflate_eq, hmethod]
      rfl
    rw [hmethod, hstored]
    rfl

theorem zip64Sizes_stored {size : ℕ} (hsize : entry.size = some size) (hmethod : entry.method = .stored) :
    entry.zip64Sizes = decide (u32Sentinel ≤ size) := by
  unfold ZipEntry.zip64Sizes
  rw [hsize, hmethod]

theorem zip64Sizes_deflated {size : ℕ} (hsize : entry.size = some size) (hmethod : entry.method = .deflated) :
    entry.zip64Sizes = deflatedMayOverflow size := by
  unfold ZipEntry.zip64Sizes
  rw [hsize, hmethod]

/-- The writer takes what the encoder hands over. -/
theorem HandsOver.refuses_eq (h : HandsOver encodes entry file content) (hlossless : Lossless encodes inflate)
    (hplanned : Planned compression source entry) (hsize : entry.size = some file.length) :
    (entry.record position (some content)).refuses file.length content.data.length = false := by
  have hmethod : (entry.record position (some content)).method = _ := h.method_eq hplanned
  have hsize' : (entry.record position (some content)).size = some file.length :=
    (ZipEntry.record_size _ _ _).trans hsize
  generalize entry.record position (some content) = recorded at *
  cases hdeflate : content.deflate with
  | false =>
    rw [hdeflate, if_neg Bool.false_ne_true] at hmethod
    rw [ZipEntry.refuses, zip64Sizes_stored hsize' hmethod, h.stored hdeflate]
    simp
  | true =>
    rw [hdeflate, if_pos rfl] at hmethod
    have hbound := hlossless.bounded (h.deflated hdeflate)
    rw [ZipEntry.refuses, zip64Sizes_deflated hsize' hmethod, hmethod]
    by_cases hover : deflatedMayOverflow file.length = true
    · rw [hover]
      rfl
    · have hnarrow := mt decide_eq_true hover
      have hshort : ¬u32Sentinel ≤ content.data.length := by
        unfold saturatingAdd u64Max u32Sentinel at hnarrow
        unfold u32Sentinel
        omega
      rw [decide_eq_false hshort, Bool.and_false]
      rfl

/-- What is planned and recorded of a source, whose content is read again. -/
structure Restores (inflate : Inflate) (compression : ArchiveCompression) (source : ZipSource)
    (file : Option (List UInt8)) (turn : Turn) : Prop where
  recorded : turn.1.Recorded
  leadsTo : LeadsTo inflate turn file
  name_eq : turn.1.name = if source.size.isNone then source.name.push '/' else source.name
  method_eq : turn.1.methodCode =
    if file.any (deflates compression source.name) then methodDeflated else methodStored

/-- A turn that is taken restores its source. -/
theorem restores_of_takes {file : Option (List UInt8)} {content : Option EntryData}
    (lawful : compressor.Lawful encodes bound) (hlossless : Lossless encodes inflate)
    (hplanned : Planned compression source entry) (hsize : file.map List.length = source.size)
    (hsize_le : entry.size.getD 0 ≤ u64Max) (hencoded : EncodedAs compressor entry file content)
    (htakes : entry.Takes position content) :
    Restores inflate compression source file (entry.record position content, content) := by
  have hname : (entry.record position content).name =
      if source.size.isNone then source.name.push '/' else source.name := by
    rw [ZipEntry.record_name, hplanned.name_eq]
  have hrecord_size := ZipEntry.record_size entry position content
  have hslash : endsWithSlash (entry.record position content).name = true ↔
      (entry.record position content).size = none := by
    rw [ZipEntry.record_name, hrecord_size]
    exact hplanned.slash_iff
  have hname_le : (entry.record position content).name.utf8ByteSize ≤ u16Sentinel := by
    rw [ZipEntry.record_name]
    exact hplanned.name_le
  have hoffset : (entry.record position content).offset ≤ u64Max := by
    rw [ZipEntry.record_offset]
    exact min_le_right _ _
  rw [← hplanned.size_eq] at hsize
  rcases file with _ | file <;> rcases content with _ | content
  · have hnone : entry.size = none := hsize.symm
    have hstored : (entry.record position none).method = .stored := by
      have hplain : ¬(compression = .auto ∧ ∃ size, entry.size = some size ∧
          mayDeflate entry.name size = true) := by
        rintro ⟨-, size, hsome, -⟩
        cases hnone.symm.trans hsome
      have hmethod := hplanned.method_eq
      rw [if_neg hplain] at hmethod
      simp [ZipEntry.record, ZipEntry.settle, hmethod]
    refine ⟨⟨hname_le, hslash, ?_, hoffset,
      fun _ => ⟨hstored, hplanned.crc_eq, hplanned.compressed_eq⟩, ?_⟩,
      .directory (hrecord_size.trans hnone), hname, ?_⟩
    · rw [hstored]
      intro h
      cases h
    · intro size hsome
      cases hnone.symm.trans (hrecord_size.symm.trans hsome)
    · rw [ZipEntry.methodCode, hstored]
      rfl
  · exact hencoded.elim
  · exact hencoded.elim
  · have hsome : entry.size = some file.length := hsize.symm
    have hhands := hencoded.handsOver lawful hsome
    have hmethod : (entry.record position (some content)).method = _ := hhands.method_eq hplanned
    obtain ⟨hrefuses, hfits⟩ := htakes
    rw [hsome, Option.getD_some] at hrefuses hsize_le
    have hcompressed : (entry.record position (some content)).compressed = content.data.length := rfl
    have hsettled : (entry.record position (some content)).method ≠ .candidate := by
      rw [hmethod]
      split_ifs
      · intro h
        cases h
      · intro h
        cases h
    have hlength : content.data.length ≤ u64Max := by
      unfold ZipEntry.recordLen at hfits
      dsimp only [contentBytes] at hfits
      omega
    have hdeflate : content.deflate = deflates compression source.name file := by
      have hname_eq : entry.name = source.name := by
        rw [hplanned.name_eq, ← hplanned.size_eq, hsome]
        rfl
      have hcandidate : (entry.method == .candidate) =
          (compression == .auto && mayDeflate source.name file.length) := by
        have hcondition : (compression = .auto ∧ ∃ size, entry.size = some size ∧
            mayDeflate entry.name size = true) ↔
              (compression == .auto && mayDeflate source.name file.length) = true := by
          rw [hsome, hname_eq]
          simp
        rw [hplanned.method_eq, if_congr hcondition rfl rfl]
        cases compression == .auto && mayDeflate source.name file.length <;> rfl
      rw [hhands.deflate_eq, hcandidate]
      rfl
    refine ⟨⟨hname_le, hslash, hsettled, hoffset, fun hnone => ?_, fun size hsize => ?_⟩,
      .file ⟨hcompressed, hrecord_size.trans hsome, hhands.crc_eq, fun hstored => ?_, fun hdeflated => ?_⟩,
      hname, ?_⟩
    · cases hsome.symm.trans (hrecord_size.symm.trans hnone)
    · obtain rfl := Option.some.inj (hsome.symm.trans (hrecord_size.symm.trans hsize))
      exact ⟨hsize_le, hlength, hrefuses⟩
    · refine hhands.stored (Bool.eq_false_iff.mpr fun hdeflate => hstored ?_)
      rw [hmethod, if_pos hdeflate]
    · refine hlossless.inflates (hhands.deflated ?_)
      by_contra hstored
      rw [hmethod, if_neg hstored] at hdeflated
      cases hdeflated
    · rw [ZipEntry.methodCode, hmethod, Option.any_some, ← hdeflate]
      cases content.deflate <;> rfl


/-! ### Whole archives -/

/-- Nothing an entry is given is refused. -/
theorem refuses_of_encoded {file : Option (List UInt8)} (lawful : compressor.Lawful encodes bound)
    (hlossless : Lossless encodes inflate) (hplanned : Planned compression source entry)
    (hsize : file.map List.length = entry.size) (hencoded : EncodedAs compressor entry file (some content)) :
    (entry.record position (some content)).refuses (entry.size.getD 0) content.data.length = false := by
  rcases file with _ | file
  · exact hencoded.elim
  · have hsome : entry.size = some file.length := hsize.symm
    rw [hsome, Option.getD_some]
    exact (hencoded.handsOver lawful hsome).refuses_eq hlossless hplanned hsome

/-- Turns whose data are not refused are all taken where they end in time. -/
theorem takesAll_of_fits {turns : List Turn} (hrefuses : ∀ turn ∈ turns, ∀ content, turn.2 = some content →
      ∀ position, (turn.1.record position (some content)).refuses (turn.1.size.getD 0) content.data.length = false)
    (hfits : position + turnsLen position turns ≤ u64Max) : TakesAll position turns := by
  induction turns generalizing position with
  | nil => trivial
  | cons turn rest ih =>
    obtain ⟨entry, content⟩ := turn
    have hsum : turnsLen position ((entry, content) :: rest) =
        Turn.len (entry.record position content, content) +
          turnsLen (position + Turn.len (entry.record position content, content)) rest := rfl
    rw [hsum] at hfits
    refine ⟨?_, ih (fun turn hturn => hrefuses turn (List.mem_cons_of_mem _ hturn)) (by omega)⟩
    cases content with
    | none => trivial
    | some content =>
      refine ⟨hrefuses _ List.mem_cons_self content rfl position, ?_⟩
      have hlen : (entry.record position (some content)).recordLen (some content) =
        Turn.len (entry.record position (some content), some content) := rfl
      omega

/-- A source with its file, and the turn of its entry with what is handed over. -/
structure Sent (compressor : StreamCompressor σ) (compression : ArchiveCompression)
    (given : ZipSource × Option (List UInt8)) (turn : Turn) : Prop where
  planned : Planned compression given.1 turn.1
  size_eq : given.2.map List.length = given.1.size
  size_le : turn.1.size.getD 0 ≤ u64Max
  encoded : EncodedAs compressor turn.1 given.2 turn.2

theorem Sent.matched {given : ZipSource × Option (List UInt8)} {turn : Turn}
    (h : Sent compressor compression given turn) : turn.Matched := by
  obtain ⟨source, file⟩ := given
  obtain ⟨entry, content⟩ := turn
  have hsize := h.size_eq
  have hencoded := h.encoded
  rw [Turn.Matched, h.planned.size_eq, ← hsize, Option.isSome_map]
  rcases file with _ | file <;> rcases content with _ | content
  · rfl
  · exact hencoded.elim
  · exact hencoded.elim
  · rfl

/-- Data are refused nowhere. -/
theorem Sent.refuses_eq {given : ZipSource × Option (List UInt8)} {turn : Turn}
    (h : Sent compressor compression given turn) (lawful : compressor.Lawful encodes bound)
    (hlossless : Lossless encodes inflate) (hcontent : turn.2 = some content) (position : ℕ) :
    (turn.1.record position (some content)).refuses (turn.1.size.getD 0) content.data.length = false := by
  refine refuses_of_encoded lawful hlossless h.planned (h.size_eq.trans h.planned.size_eq.symm) ?_
  rw [← hcontent]
  exact h.encoded

/-- Every turn of a run that is taken restores its source. -/
theorem restores_of_takesAll {given : List (ZipSource × Option (List UInt8))} {turns : List Turn}
    (lawful : compressor.Lawful encodes bound) (hlossless : Lossless encodes inflate)
    (hsent : List.Forall₂ (Sent compressor compression) given turns) (htakes : TakesAll position turns) :
    List.Forall₂ (fun pair turn => Restores inflate compression pair.1 pair.2 turn) given
      (recordTurns position turns) := by
  induction hsent generalizing position with
  | nil => exact .nil
  | @cons pair turn given turns hfirst hrest ih =>
    obtain ⟨entry, content⟩ := turn
    exact .cons (restores_of_takes lawful hlossless hfirst.planned hfirst.size_eq hfirst.size_le
      hfirst.encoded htakes.1) (ih htakes.2)

/-- The entry the reader finds of a source. -/
def restored (compression : ArchiveCompression) (source : ZipSource) (file : Option (List UInt8)) :
    ReadEntry where
  name := if source.size.isNone then source.name.push '/' else source.name
  method := if file.any (deflates compression source.name) then methodDeflated else methodStored
  data := file

/-- What is read of turns that restore their sources. -/
theorem zipWith_restored {given : List (ZipSource × Option (List UInt8))} {turns : List Turn}
    (h : List.Forall₂ (fun pair turn => Restores inflate compression pair.1 pair.2 turn) given turns) :
    List.zipWith (fun turn file => ReadEntry.mk turn.1.name turn.1.methodCode file) turns
      (given.map Prod.snd) = given.map fun pair => restored compression pair.1 pair.2 := by
  induction h with
  | nil => rfl
  | cons hfirst _ ih =>
    rw [List.map_cons, List.map_cons, List.zipWith_cons_cons, ih, hfirst.name_eq, hfirst.method_eq]
    rfl

/-- No planned entry is longer than what is laid out. -/
theorem LaidOut.plannedLen_le {offset stop : ℕ} {entries : List ZipEntry} (h : LaidOut offset entries stop)
    (hentry : entry ∈ entries) : entry.plannedLen ≤ stop := by
  induction entries generalizing offset with
  | nil => cases hentry
  | cons first rest ih =>
    rcases List.mem_cons.mp hentry with rfl | hmem
    · have hle := h.2.le
      omega
    · exact ih h.2 hmem

/-- Exact data lead a plan without candidates to its planned end. -/
theorem ZipPlan.Fresh.asPlanned {plan : ZipPlan} {sources : List ZipSource} {turns : List Turn}
    (h : plan.Fresh compression sources) (hfixed : plan.isVariable = false)
    (hentries : turns.map Prod.fst = plan.entries) (hexact : ∀ turn ∈ turns, turn.Exact) :
    (plan.written turns).AsPlanned (turnsLen 0 turns) := by
  have hstop : plan.centralOffset ≤ u64Max := by
    have hle := h.len_eq ▸ h.len_le
    omega
  obtain ⟨-, hend, -, hdirectory⟩ := takesAll_of_exact (hentries ▸ h.laidOut) hstop hexact
    fun turn hturn => h.stored_of_fixed hfixed (hentries ▸ List.mem_map_of_mem hturn)
  rw [Nat.zero_add] at hend
  have hdirectory' : directoryLen (plan.written turns).entries = plan.centralLen := by
    rw [h.centralLen_eq, ← hentries]
    exact hdirectory
  have hlength : (plan.written turns).entries.length = plan.entries.length := by
    rw [ZipPlan.written, ZipPlan.moved_entries, List.length_map, recordTurns_length, ← hentries,
      List.length_map]
  have hendLen : ((plan.written turns).finished plan.centralOffset).endLen = plan.endLen :=
    ZipPlan.endLen_congr hlength rfl hdirectory'
  rw [hend]
  refine ⟨rfl, hdirectory', ?_⟩
  rw [ZipPlan.finished_len, hdirectory', hendLen]
  exact h.len_eq.symm

/-- A plan without candidates is given exactly the planned data. -/
theorem Sent.exact {given : ZipSource × Option (List UInt8)} {turn : Turn}
    (h : Sent compressor compression given turn) (lawful : compressor.Lawful encodes bound)
    (hstored : turn.1.method = .stored) : turn.Exact := by
  obtain ⟨source, file⟩ := given
  obtain ⟨entry, content⟩ := turn
  have hsize := h.size_eq
  have hencoded := h.encoded
  rw [← h.planned.size_eq] at hsize
  rcases file with _ | file <;> rcases content with _ | content
  · exact hsize
  · exact hencoded.elim
  · exact hencoded.elim
  · have hhands := hencoded.handsOver lawful hsize.symm
    have hplain : content.deflate = false := by
      rw [hhands.deflate_eq, hstored]
      rfl
    rw [Turn.Exact, ← hsize, Option.map_some, hhands.stored hplain]
    rfl

/-- Whatever the encoders were given to read and to fill, the archive of their data is written if and only
if it is shorter than `2 ^ 64` bytes, and an archive that is written is read back as its sources. -/
theorem archive_round_trip {plan : ZipPlan} {sources : List ZipSource} {files : List (Option (List UInt8))}
    {contents : List (Option EntryData)} (lawful : compressor.Lawful encodes bound)
    (hlossless : Lossless encodes inflate) (hplan : ZipPlan.new sources compression = some plan)
    (hsizes : files.map (·.map List.length) = sources.map ZipSource.size)
    (hencoded : List.Forall₂ (fun turn content => EncodedAs compressor turn.1 turn.2 content)
      (plan.entries.zip files) contents) :
    ((∃ result, plan.writeArchive contents = .ok result) ↔
      (plan.done (plan.entries.zip contents)).len ≤ u64Max) ∧
    ∀ done bytes, plan.writeArchive contents = .ok (done, bytes) →
      readArchive inflate bytes = some (List.zipWith (restored compression) sources files) := by
  have hfresh := ZipPlan.new_fresh hplan
  have hplanned := hfresh.planned
  have hcount : files.length = sources.length := by simpa using congrArg List.length hsizes
  have hentries := hplanned.length_eq
  have hcontents : plan.entries.length = contents.length := by
    have hlength := hencoded.length_eq
    rw [List.length_zip] at hlength
    omega
  have hstop : plan.centralOffset ≤ u64Max := by
    have hle := hfresh.len_eq ▸ hfresh.len_le
    omega
  have hsent : List.Forall₂ (Sent compressor compression) (sources.zip files)
      (plan.entries.zip contents) := by
    rw [List.forall₂_iff_get]
    refine ⟨by simp only [List.length_zip]; omega, fun index hleft hright => ?_⟩
    rw [List.length_zip] at hleft hright
    have hsize := congrArg (·[index]?) hsizes
    simp only [List.getElem?_map, List.getElem?_eq_getElem (show index < files.length by omega),
      List.getElem?_eq_getElem (show index < sources.length by omega), Option.map_some, Option.some.injEq] at hsize
    have hmember : plan.entries[index] ∈ plan.entries := List.getElem_mem _
    have hlen := (hfresh.laidOut.plannedLen_le hmember).trans hstop
    have hthis := hencoded.get (i := index) (by rw [List.length_zip]; omega) (by omega)
    simp only [List.get_eq_getElem, List.getElem_zip] at hthis ⊢
    refine ⟨hplanned.get (by omega) (by omega), hsize, ?_, hthis⟩
    unfold ZipEntry.plannedLen at hlen
    dsimp only
    omega
  set turns : List Turn := plan.entries.zip contents with hturns
  have hfst : turns.map Prod.fst = plan.entries := List.map_fst_zip hcontents.le
  have hsnd : turns.map Prod.snd = contents := List.map_snd_zip hcontents.ge
  have hgiven : ∀ turn ∈ turns, ∃ given, Sent compressor compression given turn := by
    intro turn hturn
    obtain ⟨index, hindex, rfl⟩ := List.getElem_of_mem hturn
    exact ⟨_, hsent.get (hsent.length_eq.symm ▸ hindex) hindex⟩
  have hwrite (result : ZipPlan × List UInt8) : plan.writeArchive (turns.map Prod.snd) = .ok result ↔ _ :=
    ZipPlan.writeArchive_ok_iff hfst.symm hfresh.position_eq fun turn hturn =>
      (hgiven turn hturn).choose_spec.matched
  rw [hsnd] at hwrite
  refine ⟨⟨?_, fun hfits => ?_⟩, fun done bytes hok => ?_⟩
  · rintro ⟨result, hok⟩
    exact ((hwrite result).mp hok).2.1
  · have hrefuses : ∀ turn ∈ turns, ∀ content, turn.2 = some content → ∀ position,
        (turn.1.record position (some content)).refuses (turn.1.size.getD 0) content.data.length = false :=
      fun turn hturn _ hcontent position =>
        (hgiven turn hturn).choose_spec.refuses_eq lawful hlossless hcontent position
    have hexact : plan.isVariable = false → ∀ turn ∈ turns, turn.Exact := fun hfixed turn hturn =>
      (hgiven turn hturn).choose_spec.exact lawful
        (hfresh.stored_of_fixed hfixed (hfst ▸ List.mem_map_of_mem hturn))
    have htotal := hfits
    rw [ZipPlan.done, ZipPlan.finished_len] at htotal
    exact ⟨_, (hwrite _).mpr ⟨takesAll_of_fits hrefuses (by omega), hfits,
      fun hfixed => hfresh.asPlanned hfixed hfst (hexact hfixed), rfl⟩⟩
  · obtain ⟨htakes, hfits, -, heq⟩ := (hwrite _).mp hok
    obtain ⟨rfl, rfl⟩ := Prod.mk.inj heq
    have hzip : (plan.done turns).entries.zip contents = recordTurns 0 turns := by
      rw [ZipPlan.done, ZipPlan.finished_entries, ZipPlan.written, ZipPlan.moved_entries, ← hsnd,
        ← recordTurns_contents 0 turns]
      exact (List.zip_of_prod rfl rfl).symm
    have hrestores := restores_of_takesAll lawful hlossless hsent htakes
    have hconsistent := plan.consistent_of_finished hfits
    rw [hsnd] at hconsistent
    have hfiles : (sources.zip files).map Prod.snd = files := List.map_snd_zip hcount.le
    have hdone : (plan.done turns).entries = (recordTurns 0 turns).map Prod.fst := rfl
    have hlength : (plan.done turns).entries.length = contents.length := by
      rw [hdone, List.length_map, recordTurns_length, ← hsnd, List.length_map]
    have hrecorded : ∀ entry ∈ (plan.done turns).entries, entry.Recorded := by
      rw [hdone]
      intro entry hentry
      obtain ⟨turn, hturn, rfl⟩ := List.mem_map.mp hentry
      obtain ⟨index, hindex, rfl⟩ := List.getElem_of_mem hturn
      exact (hrestores.get (hrestores.length_eq.symm ▸ hindex) hindex).recorded
    have hleads : List.Forall₂ (LeadsTo inflate) ((plan.done turns).entries.zip contents) files := by
      rw [hzip, ← hfiles, List.forall₂_map_right_iff]
      exact (hrestores.imp fun _ _ hrestored => hrestored.leadsTo).flip
    rw [readArchive_eq hconsistent rfl hlength hrecorded hleads, hzip, ← hfiles, zipWith_restored hrestores,
      hfiles, List.map_zip_eq_zipWith]
    rfl

/-! ### A codec -/

/-- A deflate block that stores at most `2 ^ 16 - 1` bytes. -/
def storedBytes (final : Bool) (data : List UInt8) : List UInt8 :=
  (if final then 1 else 0) ::
    (putU16 data.length ++ (putU16 (u16Sentinel - data.length) ++ data))

/-- A deflate stream of stored blocks. -/
def storedStream (data : List UInt8) : List UInt8 :=
  if data.length ≤ u16Sentinel then storedBytes true data
  else storedBytes false (data.take u16Sentinel) ++ storedStream (data.drop u16Sentinel)
termination_by data.length
decreasing_by
  rw [List.length_drop]
  unfold u16Sentinel at *
  omega

/-- Inflating stored blocks. -/
def inflateStored : Inflate
  | [] => none
  | final :: raw => do
    let length ← u16At raw 0
    check ((← u16At raw 2) = u16Sentinel - length)
    let data ← slice raw 4 (4 + length)
    if final = 1 then return (data, 5 + length)
    else
      let (more, used) ← inflateStored (raw.drop (4 + length))
      return (data ++ more, 5 + length + used)
termination_by raw => raw.length
decreasing_by
  rw [List.length_drop, List.length_cons]
  omega

theorem storedBytes_length (final : Bool) (data : List UInt8) :
    (storedBytes final data).length = 5 + data.length := by
  simp only [storedBytes, putU16, List.length_cons, List.length_append, leBytes_length]
  omega

/-- A block is inflated, and what follows it. -/
theorem inflateStored_block {final : Bool} {data : List UInt8} (rest : List UInt8) (hdata : data.length ≤ u16Sentinel) :
    inflateStored (storedBytes final data ++ rest) =
      if final then some (data, 5 + data.length)
      else (inflateStored rest).map fun (more, used) => (data ++ more, 5 + data.length + used) := by
  have hlocated := located_append.mp (located_self (putU16 data.length ++
    (putU16 (u16Sentinel - data.length) ++ data) ++ rest))
  obtain ⟨hlength, hrest⟩ := located_append.mp hlocated.1
  obtain ⟨hinverse, hchunk⟩ := located_append.mp hrest
  rw [storedBytes, List.cons_append, inflateStored]
  simp only [putU16, leBytes_length, Nat.zero_add, Nat.reduceAdd] at *
  rw [u16At_of_located hlength hdata]
  dsimp only [Option.bind_eq_bind, Option.bind_some]
  rw [u16At_of_located hinverse (Nat.sub_le _ _)]
  dsimp only [Option.bind_some]
  rw [check_of rfl, hchunk.slice_eq]
  dsimp only [Option.bind_some]
  have hrest : (leBytes 2 data.length ++ (leBytes 2 (u16Sentinel - data.length) ++ data) ++ rest).drop
      (4 + data.length) = rest := by
    refine List.drop_left' ?_
    simp only [List.length_append, leBytes_length]
    omega
  rw [hrest]
  cases final with
  | true => rfl
  | false =>
    cases inflateStored rest <;> rfl

/-- A stream of stored blocks is inflated whole. -/
theorem inflateStored_storedStream (data : List UInt8) :
    inflateStored (storedStream data) = some (data, (storedStream data).length) := by
  induction data using storedStream.induct with
  | case1 data hdata =>
    have hblock : inflateStored (storedBytes true data ++ []) = _ := inflateStored_block [] hdata
    rw [List.append_nil] at hblock
    rw [storedStream, if_pos hdata, hblock, if_pos rfl, storedBytes_length]
  | case2 data hdata ih =>
    rw [storedStream, if_neg hdata, inflateStored_block _ (List.length_take_le _ _),
      if_neg Bool.false_ne_true, ih, Option.map_some]
    dsimp only
    rw [List.take_append_drop, List.length_append, storedBytes_length]

/-- Five more bytes a block. -/
theorem storedStream_length_le (data : List UInt8) :
    (storedStream data).length ≤ data.length + data.length / 8 + 1023 := by
  induction data using storedStream.induct with
  | case1 data hdata =>
    rw [storedStream, if_pos hdata, storedBytes_length]
    omega
  | case2 data hdata ih =>
    rw [storedStream, if_neg hdata, List.length_append, storedBytes_length, List.length_take]
    rw [List.length_drop] at ih
    unfold u16Sentinel at *
    omega

/-- A compressor that collects its input until it closes the stream. Its state is the input it has
collected or, once the stream is closing, what it has not given out yet. -/
def storingCompressor : StreamCompressor (List UInt8 × Bool) where
  new := ([], false)
  reset _ := ([], false)
  compress state input space finish :=
    let waiting := if state.2 then state.1 else if finish then storedStream (state.1 ++ input) else []
    { state := if state.2 || finish then (waiting.drop space, true) else (state.1 ++ input, false)
      used := input.length
      output := waiting.take space
      status := if finish ∧ waiting.length ≤ space then .streamEnd else .ok
      used_le := Nat.le_refl _, output_le := List.length_take_le _ _ }

/-- It has collected what it took, or has given and still holds its stream. -/
theorem storingCompressor_reaches {state : List UInt8 × Bool} {taken given : List UInt8} {closing : Bool}
    (h : storingCompressor.Reaches state taken given closing) :
    state.2 = closing ∧ if closing then given ++ state.1 = storedStream taken else given = [] ∧ state.1 = taken := by
  induction h with
  | new => exact ⟨rfl, rfl, rfl⟩
  | reset => exact ⟨rfl, rfl, rfl⟩
  | @compress state taken given closing input space finish _ hpermitted _ ih =>
    obtain ⟨hclosing, hgiven⟩ := ih
    cases closing with
    | true =>
      obtain ⟨rfl, rfl⟩ := hpermitted rfl
      simpa [storingCompressor, hclosing] using hgiven
    | false =>
      obtain ⟨rfl, rfl⟩ := hgiven
      cases finish <;> simp [storingCompressor, hclosing]

/-- What it gives out when it has taken its input. -/
theorem storingCompressor_waiting {state : List UInt8 × Bool} {taken given input : List UInt8}
    {closing : Bool} (h : storingCompressor.Reaches state taken given closing)
    (hpermitted : StreamCompressor.Permitted closing input true) :
    given ++ (if state.2 then state.1 else storedStream (state.1 ++ input)) = storedStream (taken ++ input) := by
  obtain ⟨hclosing, hgiven⟩ := storingCompressor_reaches h
  rw [hclosing]
  cases closing with
  | true =>
    rw [(hpermitted rfl).2, List.append_nil]
    simpa using hgiven
  | false =>
    obtain ⟨rfl, rfl⟩ := hgiven
    rfl

theorem storingCompressor_lawful :
    storingCompressor.Lawful (fun bytes data => bytes = storedStream data)
      (fun length => length + length / 8 + 1023) where
  monotone _ _ hle := by
    dsimp only
    omega
  succeeds {state _ _ _ input finish space} _ _ := by
    simp only [storingCompressor]
    split_ifs <;> simp
  progresses {state _ _ _ input finish space} _ _ hspace hinput hok := by
    simp only [storingCompressor] at hok ⊢
    rcases hinput with hinput | hfinish
    · exact .inl (List.length_pos_of_ne_nil hinput)
    · refine .inr fun hnone => ?_
      subst hfinish
      rcases List.take_eq_nil_iff.mp hnone with hzero | hnil
      · omega
      · rw [hnil] at hok
        simp at hok
  ends {state taken given closing input finish space} hreaches hpermitted hend := by
    simp only [storingCompressor] at hend ⊢
    by_cases hdone : finish = true ∧ (if state.2 then state.1 else
        if finish then storedStream (state.1 ++ input) else []).length ≤ space
    · obtain ⟨rfl, hlength⟩ := hdone
      refine ⟨rfl, trivial, ?_⟩
      rw [List.take_of_length_le hlength]
      exact storingCompressor_waiting hreaches hpermitted
    · rw [if_neg hdone] at hend
      cases hend
  bounded {state taken given closing input finish space} hreaches hpermitted := by
    have hbound := storedStream_length_le (taken ++ input)
    cases finish with
    | true =>
      rw [← storingCompressor_waiting hreaches hpermitted] at hbound
      simp only [storingCompressor, List.length_append, List.length_take, if_true] at hbound ⊢
      omega
    | false =>
      obtain ⟨hclosing, hgiven⟩ := storingCompressor_reaches hreaches
      cases closing with
      | true => exact absurd (hpermitted rfl).1 Bool.false_ne_true
      | false =>
        obtain ⟨rfl, -⟩ := hgiven
        simp [storingCompressor, hclosing]

/-- Streams of stored blocks are lossless. -/
theorem stored_lossless : Lossless (fun bytes data => bytes = storedStream data) inflateStored where
  inflates := by
    rintro _ data rfl
    exact inflateStored_storedStream data
  bounded := by
    rintro _ data rfl
    exact storedStream_length_le data

/-- A text and a directory. -/
def textSources : List ZipSource := [⟨"a.txt", some 1024, none⟩, ⟨"d", none, none⟩]

/-- The text. -/
def textFile : List UInt8 := List.replicate 1024 65

theorem textFile_length : textFile.length = 1024 := List.length_replicate

/-- The entry of the text. -/
def textEntry : ZipEntry := ⟨"a.txt", some 1024, .candidate, 0, 33, none, 0, 0, 0⟩

/-- The plan for the text and the directory. -/
def textPlan : ZipPlan where
  entries := [textEntry, ⟨"d/", none, .stored, 0, 33, none, 1075, 0, 0⟩]
  isVariable := true
  position := 0
  centralOffset := 1107
  centralLen := 99
  len := 1228

theorem new_textSources : ZipPlan.new textSources .auto = some textPlan := by decide +kernel

/-- The archive of the text is small, however it is encoded. -/
theorem textPlan_fits {content : EntryData} (h : Encoded storingCompressor textEntry textFile content) :
    (textPlan.done (textPlan.entries.zip [some content, none])).len ≤ u64Max := by
  have hhands := h.handsOver storingCompressor_lawful (congrArg some textFile_length.symm)
  obtain ⟨deflate, crc, data⟩ := content
  obtain rfl : deflate = true := hhands.deflate_eq.trans (by decide +kernel)
  obtain rfl : crc = referenceCrc textFile := hhands.crc_eq
  obtain rfl : data = storedBytes true textFile := by
    rw [show data = storedStream textFile from hhands.deflated rfl, storedStream,
      if_pos (by rw [textFile_length]; decide)]
  decide +kernel

/-- The text is deflated. -/
theorem deflates_text : deflates .auto "a.txt" textFile = true := by decide +kernel

/-- The text is deflated and read back. -/
theorem archive_round_trip_text :
    ∃ contents done bytes, textPlan.writeArchive contents = .ok (done, bytes) ∧
      readArchive inflateStored bytes =
        some [⟨"a.txt", methodDeflated, some textFile⟩, ⟨"d/", methodStored, none⟩] := by
  have hsize : some 1024 = some textFile.length := congrArg some textFile_length.symm
  obtain ⟨content, hcontent⟩ : ∃ content, Encoded storingCompressor textEntry textFile content :=
    exists_encoded storingCompressor_lawful hsize
  have hsizes : [some textFile, none].map (·.map List.length) = textSources.map ZipSource.size :=
    congrArg (fun size => [size, none]) hsize.symm
  have hencoded : List.Forall₂ (fun turn content => EncodedAs storingCompressor turn.1 turn.2 content)
      (textPlan.entries.zip [some textFile, none]) [some content, none] :=
    .cons hcontent (.cons trivial .nil)
  obtain ⟨hwrites, hreads⟩ :=
    archive_round_trip storingCompressor_lawful stored_lossless new_textSources hsizes hencoded
  obtain ⟨⟨done, bytes⟩, hok⟩ := hwrites.mpr (textPlan_fits hcontent)
  refine ⟨_, done, bytes, hok, (hreads done bytes hok).trans ?_⟩
  simp [restored, textSources, deflates_text]

end Crabinet.Zip
