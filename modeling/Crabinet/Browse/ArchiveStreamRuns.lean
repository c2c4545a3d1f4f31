import Crabinet.Browse.ArchiveStream
import Crabinet.Zip.EntryByEntry
import Mathlib.Data.Prod.Lex

/-!
# Whole archives in chunks

At every point of a stream there are contents, handed over by the encoders of the files that were
opened, such that the writers give out for them exactly what the stream has given out. What ends a
stream early is a file that is not as planned, or an archive that is longer than a `u64`.
-/

namespace Crabinet.Browse

open Crabinet.Filesystem (EntryName UnicodeTables VirtualPath parsePath pathText)
open Crabinet.Library Crabinet.Zip

namespace ArchiveHost

variable {σ : Type} {host : ArchiveHost σ} {start stream next : ArchiveStream σ}
  {emitted out filled : List UInt8} {encodes : List UInt8 → List UInt8 → Prop} {bound : ℕ → ℕ}
  {inflate : Inflate} {contents : List (Option EntryData)} {content : Option EntryData} {index : ℕ}

/-- The file of an entry, as it is when its turn comes. -/
def fileOf (host : ArchiveHost σ) (start : ArchiveStream σ) (index : ℕ) (entry : ZipEntry) :
    Option OpenedFile :=
  host.opened start.base start.prefixLen index entry.name

/-- The files of an archive are as planned: each opens, has its planned size, and that many bytes. -/
def FilesPlanned (host : ArchiveHost σ) (start : ArchiveStream σ) : Prop :=
  ∀ index entry size, start.plan.entries[index]? = some entry → entry.size = some size →
    ∃ file, host.fileOf start index entry = some file ∧ file.len = size ∧ file.source.bytes.length = size

/-- What is handed over for an entry: nothing for a directory, and what an encoder makes of the file
that was opened. -/
def Serves (host : ArchiveHost σ) (start : ArchiveStream σ) (index : ℕ) (entry : ZipEntry) :
    Option EntryData → Prop
  | none => entry.size = none
  | some content => ∃ size file, entry.size = some size ∧ host.fileOf start index entry = some file ∧
      file.len = size ∧ file.source.bytes.length = size ∧ Encoded host.compressor entry file.source.bytes content

/-- What is handed over for the first entries. -/
def ServesAll (host : ArchiveHost σ) (start : ArchiveStream σ) (contents : List (Option EntryData)) : Prop :=
  ∀ index content, contents[index]? = some content →
    ∃ entry, start.plan.entries[index]? = some entry ∧ host.Serves start index entry content

theorem ServesAll.snoc {entry : ZipEntry} (h : host.ServesAll start contents)
    (hentry : start.plan.entries[contents.length]? = some entry)
    (hserves : host.Serves start contents.length entry content) :
    host.ServesAll start (contents ++ [content]) := by
  intro index other hother
  rcases Nat.lt_trichotomy index contents.length with hlt | rfl | hgt
  · rw [List.getElem?_append_left hlt] at hother
    exact h index other hother
  · rw [List.getElem?_append_right le_rfl, Nat.sub_self] at hother
    obtain rfl := Option.some.inj hother
    exact ⟨entry, hentry, hserves⟩
  · rw [List.getElem?_eq_none (by rw [List.length_append, List.length_singleton]; omega)] at hother
    cases hother

/-- A file under way: its encoder has given out some data after the local header. -/
structure Sends (host : ArchiveHost σ) (start : ArchiveStream σ) (contents : List (Option EntryData))
    (plan : ZipPlan) (encoder : EntryEncoder σ) (emitted : List UInt8) : Prop where
  serves : host.ServesAll start contents
  goes : ∃ entry size file, start.plan.entries[contents.length]? = some entry ∧ entry.size = some size ∧
    host.fileOf start contents.length entry = some file ∧ file.len = size ∧
    ∃ before body header, start.plan.writeEntries 0 contents = .ok (before, body) ∧
      before.writeLocalHeader contents.length encoder.deflate = .ok (plan, header) ∧
      ∃ previous calls data, EntryEncoder.run host.compressor file.source size (entry.method == .candidate)
        previous calls = .ok (encoder, data, false) ∧ emitted = body ++ (header ++ data)

/-- What a stream has given out, and what is left of its plan. -/
def Given (host : ArchiveHost σ) (start : ArchiveStream σ) (plan : ZipPlan) (emitted : List UInt8) :
    ArchiveState σ → Prop
  | .entry index => ∃ contents, contents.length = index ∧ host.ServesAll start contents ∧
      start.plan.writeEntries 0 contents = .ok (plan, emitted)
  | .file index encoder => ∃ contents, contents.length = index ∧ host.Sends start contents plan encoder emitted
  | .central index => ∃ contents before body headers, contents.length = start.plan.entries.length ∧
      index ≤ start.plan.entries.length ∧ host.ServesAll start contents ∧ start.plan.writeEntries 0 contents = .ok (before, body) ∧
      before.finishEntries = .ok plan ∧ plan.writeCentralHeaders 0 index = .ok headers ∧ emitted = body ++ headers
  | .done => ∃ contents, contents.length = start.plan.entries.length ∧ host.ServesAll start contents ∧
      start.plan.writeArchive contents = .ok (plan, emitted)

/-- A stream that was started in one state is now in another. -/
structure Reached (host : ArchiveHost σ) (start stream : ArchiveStream σ) (emitted : List UInt8) : Prop where
  base_eq : stream.base = start.base
  prefixLen_eq : stream.prefixLen = start.prefixLen
  chunkBytes_eq : stream.chunkBytes = start.chunkBytes
  given : host.Given start stream.plan emitted stream.state

/-- What ends an archive early: a file that is not as planned, or what is handed over for all entries and
is not written. -/
def Broken (host : ArchiveHost σ) (start : ArchiveStream σ) : Prop :=
  ¬host.FilesPlanned start ∨ ∃ contents error, contents.length = start.plan.entries.length ∧
    host.ServesAll start contents ∧ start.plan.writeArchive contents = .error error

/-- Contents for some entries go on to contents for all of them, where the files are as planned. -/
theorem exists_servesAll (lawful : host.compressor.Lawful encodes bound) (hfiles : host.FilesPlanned start)
    (hserves : host.ServesAll start contents) (hlength : contents.length ≤ start.plan.entries.length) :
    ∃ rest, (contents ++ rest).length = start.plan.entries.length ∧ host.ServesAll start (contents ++ rest) := by
  obtain ⟨left, hleft⟩ := Nat.exists_eq_add_of_le hlength
  induction left generalizing contents with
  | zero => exact ⟨[], by rw [List.append_nil]; omega, by rwa [List.append_nil]⟩
  | succ left ih =>
    have hindex : contents.length < start.plan.entries.length := by omega
    have hentry := List.getElem?_eq_getElem hindex
    set entry := start.plan.entries[contents.length]
    have hcontent : ∃ content, host.Serves start contents.length entry content := by
      cases hsize : entry.size with
      | none => exact ⟨none, hsize⟩
      | some size =>
        obtain ⟨file, hfile, hlen, hbytes⟩ := hfiles _ _ _ hentry hsize
        have hplanned : entry.size = some file.source.bytes.length := by rw [hsize, hbytes]
        obtain ⟨content, hencoded⟩ := exists_encoded lawful hplanned
        exact ⟨some content, size, file, hsize, hfile, hlen, hbytes, hencoded⟩
    obtain ⟨content, hcontent⟩ := hcontent
    obtain ⟨rest, hrest, hall⟩ := ih (hserves.snoc hentry hcontent)
      (by rw [List.length_append, List.length_singleton]; omega)
      (by rw [List.length_append, List.length_singleton]; omega)
    rw [List.append_assoc] at hrest hall
    exact ⟨content :: rest, hrest, hall⟩

/-- Contents that are not written break the archive. -/
theorem broken_of_writeEntries {error : ZipError} (lawful : host.compressor.Lawful encodes bound)
    (hserves : host.ServesAll start contents) (hlength : contents.length ≤ start.plan.entries.length)
    (herror : start.plan.writeEntries 0 contents = .error error) : host.Broken start := by
  by_cases hfiles : host.FilesPlanned start
  · obtain ⟨rest, hrest, hall⟩ := exists_servesAll lawful hfiles hserves hlength
    refine .inr ⟨_, error, hrest, hall, ?_⟩
    rw [ZipPlan.writeArchive, ZipPlan.writeEntries_append, herror]
    rfl
  · exact .inl hfiles

theorem ServesAll.length_le (h : host.ServesAll start contents) :
    contents.length ≤ start.plan.entries.length := by
  by_contra hlong
  obtain ⟨entry, hentry, -⟩ := h start.plan.entries.length _ (List.getElem?_eq_getElem (by omega))
  rw [List.getElem?_eq_none le_rfl] at hentry
  cases hentry

/-- Opening a file starts its encoder, or the file is not as planned. -/
theorem openEntry_ensures {entry : ZipEntry} {size : ℕ} (hbase : stream.base = start.base)
    (hstarts : stream.prefixLen = start.prefixLen) (hget : stream.plan.entries[index]? = some entry)
    (hentry : start.plan.entries[index]? = some entry) (hsize : entry.size = some size) :
    Ensures (fun _ => ¬host.FilesPlanned start)
      (fun encoder => ∃ file, host.fileOf start index entry = some file ∧ file.len = size ∧
        EntryEncoder.run host.compressor file.source size (entry.method == .candidate) stream.compressor [] =
          .ok (encoder, [], false))
      (host.openEntry stream index entry size) := by
  have hcandidate : stream.plan.mayDeflate index = (entry.method == .candidate) := by
    rw [ZipPlan.mayDeflate, hget]
  rw [openEntry, hbase, hstarts, hcandidate]
  rcases hfile : host.opened start.base start.prefixLen index entry.name with _ | file
  · intro hfiles
    obtain ⟨file, hopened, -⟩ := hfiles index entry size hentry hsize
    cases hfile.symm.trans hopened
  · dsimp only
    split
    · rename_i hlen
      intro hfiles
      obtain ⟨file', hopened, hlen', -⟩ := hfiles index entry size hentry hsize
      obtain rfl := Option.some.inj (hfile.symm.trans hopened)
      exact hlen hlen'
    · rename_i hlen
      have hstart := EntryEncoder.start_exactly host.compressor id file.source size
        (entry.method == .candidate) stream.compressor
      rcases hencoder : EntryEncoder.start host.compressor file.source size (entry.method == .candidate)
          stream.compressor with error | encoder
      · rw [hencoder] at hstart
        intro hfiles
        obtain ⟨file', hopened, -, hbytes⟩ := hfiles index entry size hentry hsize
        obtain rfl := Option.some.inj (hfile.symm.trans hopened)
        exact hstart.2 hbytes
      · refine ⟨file, hfile, not_not.mp hlen, ?_⟩
        rw [EntryEncoder.run, hencoder]
        rfl

/-- A call of an encoder under way. -/
theorem Sends.fill {plan : ZipPlan} {encoder : EntryEncoder σ} (lawful : host.compressor.Lawful encodes bound)
    (h : host.Sends start contents plan encoder emitted) (out : List UInt8) (budget : ℕ) :
    Ensures (fun _ => ¬host.FilesPlanned start)
      (fun result => ∃ more, result.2.1 = out ++ more ∧
        (result.2.2 = false → host.Sends start contents plan result.1 (emitted ++ more) ∧
          result.1.written = encoder.written + more.length ∧
          ∃ entry, start.plan.entries[contents.length]? = some entry ∧
            result.1.written ≤ max (entry.size.getD 0) (bound (entry.size.getD 0))) ∧
        (result.2.2 = true → ∃ entry before body header data, start.plan.entries[contents.length]? = some entry ∧
          start.plan.writeEntries 0 contents = .ok (before, body) ∧
          before.writeLocalHeader contents.length result.1.deflate = .ok (plan, header) ∧
          emitted ++ more = body ++ (header ++ data) ∧ result.1.written = data.length ∧
          host.Serves start contents.length entry (some ⟨result.1.deflate, result.1.finish.1, data⟩)))
      (encoder.fill host.compressor out budget) := by
  obtain ⟨hserves, entry, size, file, hentry, hsize, hfile, hlen, before, body, header, hwrite, hheader,
    previous, calls, data, hrun, rfl⟩ := h
  have hexactly := EntryEncoder.run_exactly lawful file.source size (entry.method == .candidate) previous calls
  rw [hrun] at hexactly
  obtain ⟨hdeflate, -, hgoes⟩ := hexactly
  obtain ⟨⟨taken, hunderway⟩, -⟩ := hgoes rfl
  have hfilled := hunderway.fill lawful out budget
  rcases hresult : encoder.fill host.compressor out budget with error | ⟨last, filled, complete⟩
  · rw [hresult] at hfilled
    intro hfiles
    obtain ⟨file', hopened, -, hbytes⟩ := hfiles _ _ _ hentry hsize
    obtain rfl := Option.some.inj (hfile.symm.trans hopened)
    exact hfilled.2 hbytes
  · rw [hresult] at hfilled
    obtain ⟨more, rfl, hdeflate', -, hroom⟩ := hfilled
    have hmore : EntryEncoder.run host.compressor file.source size (entry.method == .candidate) previous
        (calls ++ [(out, budget)]) = .ok (last, data ++ more, complete) := by
      rw [EntryEncoder.run] at hrun ⊢
      obtain ⟨first, hfirst, hfills⟩ := bind_eq_ok.mp hrun
      have hsnoc := EntryEncoder.fills_snoc hfills hresult
      rw [List.drop_left] at hsnoc
      rw [hfirst, ok_bind, hsnoc]
    dsimp only at hdeflate' hroom ⊢
    refine ⟨more, rfl, ?_, ?_⟩
    · rintro rfl
      obtain ⟨-, taken', hafter⟩ := hroom rfl
      have hwritten := hafter.written_eq
      have hbound := hafter.length_emitted
      rw [List.length_append] at hwritten hbound
      rw [← hunderway.written_eq] at hwritten hbound
      refine ⟨⟨hserves, entry, size, file, hentry, hsize, hfile, hlen, before, body, header, hwrite, ?_,
        previous, calls ++ [(out, budget)], data ++ more, hmore, by simp only [List.append_assoc]⟩,
        hwritten, entry, hentry, ?_⟩
      · rw [hdeflate']
        exact hheader
      · rw [hwritten, hsize]
        exact hbound
    · rintro rfl
      have hcomplete := EntryEncoder.run_exactly lawful file.source size (entry.method == .candidate) previous
        (calls ++ [(out, budget)])
      rw [hmore] at hcomplete
      have hwhole := hcomplete.2.1 rfl
      refine ⟨entry, before, body, header, data ++ more, hentry, hwrite, ?_, by simp only [List.append_assoc],
        hwhole.written_eq, size, file, hsize, hfile, hlen, hwhole.size_eq, file.source, previous,
        calls ++ [(out, budget)], last, rfl, ?_, rfl, rfl⟩
      · rw [hdeflate']
        exact hheader
      · rw [hsize]
        exact hmore

/-- A round keeps what is reached, or the archive breaks. -/
theorem Reached.step (lawful : host.compressor.Lawful encodes bound)
    (h : host.Reached start stream emitted) (out : List UInt8) :
    Ensures (fun _ => host.Broken start)
      (fun result => ∃ more, result.2 = out ++ more ∧ host.Reached start result.1 (emitted ++ more))
      (host.step stream out) := by
  obtain ⟨hbase, hstarts, hchunk, hgiven⟩ := h
  obtain ⟨base, prefixLen, plan, state, sent, chunkBytes, compressor⟩ := stream
  dsimp only at hbase hstarts hchunk hgiven
  subst hbase hstarts hchunk
  unfold ArchiveHost.step
  cases state with
  | entry index =>
    obtain ⟨contents, rfl, hserves, hwrite⟩ := hgiven
    have hadvances := ZipPlan.advances_of_writeEntries hwrite
    rw [Nat.zero_add] at hadvances
    have hcount := hadvances.length_eq
    have hle := hserves.length_le
    dsimp only
    by_cases hend : contents.length = plan.entries.length
    · rw [if_pos hend]
      rcases hfinish : plan.finishEntries with error | closed
      · refine .inr ⟨contents, error, hend.trans hcount, hserves, ?_⟩
        rw [ZipPlan.writeArchive, hwrite, ok_bind]
        dsimp only
        rw [hfinish]
        rfl
      · exact ⟨[], (List.append_nil _).symm, rfl, rfl, rfl, contents, plan, emitted, [], hend.trans hcount,
          Nat.zero_le _, hserves, hwrite, hfinish, rfl, rfl⟩
    · rw [if_neg hend]
      have hindex : contents.length < plan.entries.length := by omega
      have hget := List.getElem?_eq_getElem hindex
      have hentry := (hadvances.rest_eq _ le_rfl).symm.trans hget
      set entry := plan.entries[contents.length]
      rw [hget]
      dsimp only
      have hheader (deflate : Bool) : ∃ after header,
          plan.writeLocalHeader contents.length deflate = .ok (after, header) := by
        rw [ZipPlan.writeLocalHeader, hget]
        exact ⟨_, _, rfl⟩
      cases hsize : entry.size with
      | none =>
        obtain ⟨after, header, hok⟩ := hheader false
        dsimp only
        rw [hok]
        exact ⟨header, rfl, rfl, rfl, rfl, contents ++ [none], by rw [List.length_append]; rfl,
          hserves.snoc hentry hsize, ZipPlan.writeEntries_snoc hwrite hok⟩
      | some size =>
        dsimp only
        set stream : ArchiveStream σ :=
          ⟨start.base, start.prefixLen, plan, .entry contents.length, sent, start.chunkBytes, compressor⟩
        have hopen : Ensures (fun _ => ¬host.FilesPlanned start) _
            (host.openEntry stream contents.length entry size) :=
          openEntry_ensures rfl rfl hget hentry hsize
        rcases hencoder : host.openEntry stream contents.length entry size with error | encoder
        · rw [hencoder] at hopen
          exact .inl hopen
        · rw [hencoder] at hopen
          obtain ⟨file, hfile, hlen, hrun⟩ := hopen
          obtain ⟨after, header, hok⟩ := hheader encoder.deflate
          rw [ok_bind, hok]
          exact ⟨header, rfl, rfl, rfl, rfl, contents, rfl, hserves, entry, size, file, hentry, hsize, hfile,
            hlen, plan, emitted, header, hwrite, hok, compressor, [], [], hrun, by rw [List.append_nil]⟩
  | file index encoder =>
    obtain ⟨contents, rfl, hsends⟩ := hgiven
    have hfill := hsends.fill lawful out start.chunkBytes
    dsimp only
    rcases hresult : encoder.fill host.compressor out start.chunkBytes with error | ⟨last, filled, complete⟩
    · rw [hresult] at hfill
      exact .inl hfill
    · rw [hresult] at hfill
      obtain ⟨more, rfl, hgoes, hends⟩ := hfill
      cases complete with
      | false => exact ⟨more, rfl, rfl, rfl, rfl, contents, rfl, (hgoes rfl).1⟩
      | true =>
        obtain ⟨entry, before, body, header, data, hentry, hwrite, hheader, hemitted, hwritten, hserves⟩ :=
          hends rfl
        have hall := hsends.serves.snoc hentry hserves
        have hlength : (contents ++ [some (EntryData.mk last.deflate last.finish.1 data)]).length =
            contents.length + 1 := by
          rw [List.length_append]
          rfl
        rw [ok_bind]
        dsimp only [EntryEncoder.finish]
        rw [if_pos rfl, hwritten]
        rcases hdescriptor : plan.writeDataDescriptor contents.length last.crc.finish data.length with
          error | ⟨after, descriptor⟩
        · refine @broken_of_writeEntries _ _ _ _ _ _ error lawful hall hall.length_le ?_
          rw [ZipPlan.writeEntries_append, hwrite, ok_bind]
          dsimp only
          rw [Nat.zero_add, ZipPlan.writeEntries, ZipPlan.writeEntry, hheader, ok_bind]
          dsimp only [EntryEncoder.finish]
          rw [hdescriptor]
          rfl
        · refine ⟨more ++ descriptor, (List.append_assoc _ _ _), rfl, rfl, rfl, _, hlength, hall, ?_⟩
          have hturn : before.writeEntry contents.length (some ⟨last.deflate, last.finish.1, data⟩) =
              .ok (after, header ++ (data ++ descriptor)) := by
            rw [ZipPlan.writeEntry, hheader, ok_bind]
            dsimp only [EntryEncoder.finish]
            rw [hdescriptor]
            rfl
          have hsnoc := ZipPlan.writeEntries_snoc hwrite hturn
          rw [← List.append_assoc, hemitted]
          simpa only [List.append_assoc] using hsnoc
  | central index =>
    obtain ⟨contents, before, body, headers, hlength, hindex, hserves, hwrite, hfinish, hheaders, rfl⟩ := hgiven
    have hcount : plan.entries.length = start.plan.entries.length := by
      rw [(ZipPlan.finishEntries_keeps hfinish).1]
      exact (ZipPlan.advances_of_writeEntries hwrite).length_eq
    dsimp only
    by_cases hend : index = plan.entries.length
    · rw [if_pos hend]
      refine ⟨plan.writeEnd, rfl, rfl, rfl, rfl, contents, hlength, hserves, ?_⟩
      rw [ZipPlan.writeArchive, hwrite, ok_bind]
      dsimp only
      rw [hfinish, ok_bind, ← hend, hheaders, ok_bind, List.append_assoc]
    · rw [if_neg hend]
      have hlt : index < plan.entries.length := by omega
      have hheader : plan.writeCentralHeader index = .ok plan.entries[index].centralHeader := by
        rw [ZipPlan.writeCentralHeader, List.getElem?_eq_getElem hlt]
      rw [hheader]
      refine ⟨_, rfl, rfl, rfl, rfl, contents, before, body, _, hlength, by omega, hserves, hwrite, hfinish,
        ZipPlan.writeCentralHeaders_snoc hheaders ?_, (List.append_assoc _ _ _)⟩
      rw [Nat.zero_add]
      exact hheader
  | done => exact ⟨[], (List.append_nil _).symm, rfl, rfl, rfl, by rwa [List.append_nil]⟩

/-- A stream starts with nothing given out. -/
theorem reached_new (host : ArchiveHost σ) (base : VirtualPath) (prefixLen : ℕ) (plan : ZipPlan)
    (chunkBytes : ℕ) :
    host.Reached (ArchiveStream.new base prefixLen plan chunkBytes)
      (ArchiveStream.new base prefixLen plan chunkBytes) [] :=
  ⟨rfl, rfl, rfl, [], rfl, nofun, rfl⟩

/-! ### Polls -/

/-- What is left to do: rounds, and the data of a file that is under way. -/
def weight (start : ArchiveStream σ) (bound : ℕ → ℕ) : ArchiveState σ → ℕ ×ₗ ℕ
  | .entry index => toLex (2 * (start.plan.entries.length - index) + start.plan.entries.length + 2, 0)
  | .file index encoder =>
    let size := ((start.plan.entries[index]?).bind ZipEntry.size).getD 0
    toLex (2 * (start.plan.entries.length - index) + start.plan.entries.length + 1,
      max size (bound size) - encoder.written)
  | .central index => toLex (start.plan.entries.length - index + 1, 0)
  | .done => toLex (0, 0)

/-- A round leaves less to do. -/
theorem step_weight (lawful : host.compressor.Lawful encodes bound)
    (h : host.Reached start stream emitted) (hdone : stream.state.isDone = false)
    (hroom : out.length < stream.chunkBytes) (hstep : host.step stream out = .ok (next, filled)) :
    weight start bound next.state < weight start bound stream.state := by
  have hafter := h.step lawful out
  rw [hstep] at hafter
  obtain ⟨more, rfl, hnext⟩ := hafter
  obtain ⟨base, prefixLen, plan, state, sent, chunkBytes, compressor⟩ := stream
  have hgiven := h.given
  unfold ArchiveHost.step at hstep
  cases state with
  | entry index =>
    obtain ⟨contents, rfl, hserves, hwrite⟩ := hgiven
    have hcount := (ZipPlan.advances_of_writeEntries hwrite).length_eq
    dsimp only at hstep hcount
    split at hstep
    · obtain ⟨closed, -, hstep⟩ := bind_eq_ok.mp hstep
      obtain ⟨rfl, -⟩ := Prod.mk.inj (Except.ok.inj hstep)
      exact Prod.Lex.toLex_lt_toLex.mpr (.inl (by dsimp only; omega))
    · split at hstep
      · cases hstep
      · rename_i hget
        have hindex := (List.getElem?_eq_some_iff.mp hget).1
        split at hstep
        · obtain ⟨⟨after, header⟩, -, hstep⟩ := bind_eq_ok.mp hstep
          obtain ⟨rfl, -⟩ := Prod.mk.inj (Except.ok.inj hstep)
          exact Prod.Lex.toLex_lt_toLex.mpr (.inl (by dsimp only; omega))
        · obtain ⟨encoder, -, hstep⟩ := bind_eq_ok.mp hstep
          obtain ⟨⟨after, header⟩, -, hstep⟩ := bind_eq_ok.mp hstep
          obtain ⟨rfl, -⟩ := Prod.mk.inj (Except.ok.inj hstep)
          exact Prod.Lex.toLex_lt_toLex.mpr (.inl (by dsimp only; omega))
  | file index encoder =>
    obtain ⟨contents, rfl, hsends⟩ := hgiven
    have hindex : contents.length < start.plan.entries.length := by
      obtain ⟨entry, -, -, hentry, -⟩ := hsends.goes
      exact (List.getElem?_eq_some_iff.mp hentry).1
    obtain ⟨⟨last, filled, complete⟩, hfill, hstep⟩ := bind_eq_ok.mp hstep
    have hensures := hsends.fill lawful out chunkBytes
    rw [hfill] at hensures
    obtain ⟨added, rfl, hgoes, -⟩ := hensures
    cases complete with
    | true =>
      obtain ⟨⟨after, descriptor⟩, -, hstep⟩ := bind_eq_ok.mp hstep
      obtain ⟨rfl, -⟩ := Prod.mk.inj (Except.ok.inj hstep)
      exact Prod.Lex.toLex_lt_toLex.mpr (.inl (by dsimp only; omega))
    | false =>
      obtain ⟨rfl, -⟩ := Prod.mk.inj (Except.ok.inj hstep)
      obtain ⟨-, hwritten, entry, hentry, hbound⟩ := hgoes rfl
      have hbudget := (fill_extends hfill).2 rfl
      rw [List.length_append] at hbudget
      refine Prod.Lex.toLex_lt_toLex.mpr (.inr ⟨rfl, ?_⟩)
      rw [hentry, Option.bind_some]
      dsimp only at hroom hbudget hwritten hbound ⊢
      omega
  | central index =>
    obtain ⟨contents, before, body, headers, hlength, hindex, hserves, hwrite, hfinish, -⟩ := hgiven
    have hcount : plan.entries.length = start.plan.entries.length := by
      rw [(ZipPlan.finishEntries_keeps hfinish).1]
      exact (ZipPlan.advances_of_writeEntries hwrite).length_eq
    dsimp only at hstep
    split at hstep
    · obtain ⟨rfl, -⟩ := Prod.mk.inj (Except.ok.inj hstep)
      exact Prod.Lex.toLex_lt_toLex.mpr (.inl (by dsimp only; omega))
    · obtain ⟨header, -, hstep⟩ := bind_eq_ok.mp hstep
      obtain ⟨rfl, -⟩ := Prod.mk.inj (Except.ok.inj hstep)
      exact Prod.Lex.toLex_lt_toLex.mpr (.inl (by dsimp only; omega))
  | done => cases hdone

/-- What the loop of a poll reaches. -/
structure Filled (host : ArchiveHost σ) (start : ArchiveStream σ) (bound : ℕ → ℕ) (stream : ArchiveStream σ)
    (emitted out : List UInt8) (result : ArchiveStream σ × List UInt8) : Prop where
  reached : ∃ more, result.2 = out ++ more ∧ host.Reached start result.1 (emitted ++ more)
  full : start.chunkBytes ≤ result.2.length ∨ result.1.state.isDone = true
  weight_le : weight start bound result.1.state ≤ weight start bound stream.state
  weight_lt : stream.state.isDone = false → out.length < start.chunkBytes →
    weight start bound result.1.state < weight start bound stream.state
  sent_eq : result.1.sent = stream.sent

theorem step_sent (h : host.step stream out = .ok (next, filled)) : next.sent = stream.sent := by
  unfold ArchiveHost.step at h
  dsimp only at h
  split at h
  · split at h
    · obtain ⟨_, -, h⟩ := bind_eq_ok.mp h
      obtain ⟨rfl, -⟩ := Prod.mk.inj (Except.ok.inj h)
      rfl
    · split at h
      · cases h
      · split at h
        · obtain ⟨_, -, h⟩ := bind_eq_ok.mp h
          obtain ⟨rfl, -⟩ := Prod.mk.inj (Except.ok.inj h)
          rfl
        · obtain ⟨_, -, h⟩ := bind_eq_ok.mp h
          obtain ⟨_, -, h⟩ := bind_eq_ok.mp h
          obtain ⟨rfl, -⟩ := Prod.mk.inj (Except.ok.inj h)
          rfl
  · obtain ⟨⟨_, _, complete⟩, -, h⟩ := bind_eq_ok.mp h
    cases complete with
    | true =>
      obtain ⟨_, -, h⟩ := bind_eq_ok.mp h
      obtain ⟨rfl, -⟩ := Prod.mk.inj (Except.ok.inj h)
      rfl
    | false =>
      obtain ⟨rfl, -⟩ := Prod.mk.inj (Except.ok.inj h)
      rfl
  · split at h
    · obtain ⟨rfl, -⟩ := Prod.mk.inj (Except.ok.inj h)
      rfl
    · obtain ⟨_, -, h⟩ := bind_eq_ok.mp h
      obtain ⟨rfl, -⟩ := Prod.mk.inj (Except.ok.inj h)
      rfl
  · obtain ⟨rfl, -⟩ := Prod.mk.inj (Except.ok.inj h)
    rfl

/-- The loop of a poll fills the chunk or comes to the end, or the archive breaks. -/
theorem Reached.fillChunk (lawful : host.compressor.Lawful encodes bound)
    (h : host.Reached start stream emitted) (out : List UInt8) :
    Ensures (fun _ => host.Broken start) (host.Filled start bound stream emitted out)
      (host.fillChunk stream out) := by
  fun_induction ArchiveHost.fillChunk host stream out generalizing emitted with
  | case1 stream out hloop error hstep =>
    have hbroken := h.step lawful out
    rw [hstep] at hbroken
    exact hbroken
  | case2 stream out hloop next filled hstep ih =>
    have hnext := h.step lawful out
    rw [hstep] at hnext
    obtain ⟨more, rfl, hreached⟩ := hnext
    have hlt := step_weight lawful h hloop.2 hloop.1 hstep
    refine (ih hreached).mono ?_
    rintro result ⟨⟨rest, hrest, hlast⟩, hfull, hle, -, hsent⟩
    refine ⟨⟨more ++ rest, by rw [hrest, List.append_assoc], by rwa [← List.append_assoc]⟩, hfull,
      (hle.trans_lt hlt).le, fun _ _ => hle.trans_lt hlt, hsent.trans (step_sent hstep)⟩
  | case3 stream out hloop =>
    refine ⟨⟨[], (List.append_nil _).symm, by rwa [List.append_nil]⟩, ?_, le_rfl, fun hdone hroom => ?_, rfl⟩
    · rw [← h.chunkBytes_eq]
      cases hdone : stream.state.isDone with
      | true => exact .inr rfl
      | false => exact .inl (Nat.le_of_not_lt fun hroom => hloop ⟨hroom, hdone⟩)
    · rw [← h.chunkBytes_eq] at hroom
      exact absurd ⟨hroom, hdone⟩ hloop

/-! ### Planned lengths -/

section Fixed

variable {compression : ArchiveCompression} {sources : List ZipSource}

/-- Without candidates the files are handed over as they are. -/
theorem ServesAll.exactFor (lawful : host.compressor.Lawful encodes bound)
    (hfresh : start.plan.Fresh compression sources) (hfixed : start.plan.isVariable = false)
    (h : host.ServesAll start contents) : start.plan.ExactFor contents := by
  intro index content hcontent
  obtain ⟨entry, hentry, hserves⟩ := h index content hcontent
  refine ⟨entry, hentry, ?_⟩
  have hstored := hfresh.stored_of_fixed hfixed (List.mem_of_getElem? hentry)
  cases content with
  | none => exact Eq.symm hserves
  | some content =>
    obtain ⟨size, file, hsize, -, -, hbytes, hencoded⟩ := hserves
    have hhands := hencoded.handsOver lawful (hsize.trans (congrArg some hbytes.symm))
    have hplain : content.deflate = false := by
      rw [hhands.deflate_eq, hstored]
      rfl
    rw [Turn.Exact, Option.map_some, hhands.stored hplain, hsize, hbytes]

/-- A file under way in a plan without candidates is before the directory. -/
theorem Sends.length_le {plan : ZipPlan} {encoder : EntryEncoder σ}
    (lawful : host.compressor.Lawful encodes bound) (hfresh : start.plan.Fresh compression sources)
    (hfixed : start.plan.isVariable = false) (h : host.Sends start contents plan encoder emitted) :
    emitted.length ≤ start.plan.centralOffset := by
  obtain ⟨hserves, entry, size, file, hentry, hsize, hfile, hlen, before, body, header, hwrite, hheader,
    previous, calls, data, hrun, rfl⟩ := h
  have hstored := hfresh.stored_of_fixed hfixed (List.mem_of_getElem? hentry)
  have hexactly := EntryEncoder.run_exactly lawful file.source size (entry.method == .candidate) previous calls
  rw [hrun] at hexactly
  obtain ⟨hdeflate, -, hgoes⟩ := hexactly
  have hplain : encoder.deflate = false := by
    rw [hdeflate, hstored]
    rfl
  obtain ⟨⟨taken, hunderway⟩, -⟩ := hgoes rfl
  have htaken := congrArg List.length (hunderway.stored hplain)
  have hsizes := hunderway.size_eq
  rw [List.length_append] at htaken
  set padded : EntryData := ⟨false, 0, data ++ List.replicate (size - data.length) 0⟩ with hpadded
  have hexact : start.plan.ExactFor (contents ++ [some padded]) := by
    intro index content hcontent
    rcases Nat.lt_trichotomy index contents.length with hlt | rfl | hgt
    · rw [List.getElem?_append_left hlt] at hcontent
      exact hserves.exactFor lawful hfresh hfixed index content hcontent
    · rw [List.getElem?_append_right le_rfl, Nat.sub_self] at hcontent
      obtain rfl := Option.some.inj hcontent
      refine ⟨entry, hentry, ?_⟩
      rw [Turn.Exact, hsize, hpadded]
      simp only [Option.map_some, List.length_append, List.length_replicate, Option.some.injEq]
      dsimp only at htaken
      omega
    · rw [List.getElem?_eq_none (by rw [List.length_append, List.length_singleton]; omega)] at hcontent
      cases hcontent
  have hindex := (List.getElem?_eq_some_iff.mp hentry).1
  obtain ⟨last, whole, hwhole, hle⟩ := hfresh.writes_before hfixed hexact
    (by rw [List.length_append, List.length_singleton]; omega)
  rw [ZipPlan.writeEntries_append, hwrite, ok_bind] at hwhole
  dsimp only at hwhole
  rw [Nat.zero_add, ZipPlan.writeEntries, ZipPlan.writeEntry, show padded.deflate = encoder.deflate from
    hplain.symm, hheader, ok_bind] at hwhole
  obtain ⟨⟨last', rest⟩, hturn, hwhole⟩ := bind_eq_ok.mp hwhole
  obtain ⟨-, rfl⟩ := Prod.mk.inj (Except.ok.inj hwhole)
  obtain ⟨⟨after, turn⟩, hturn, hrest⟩ := bind_eq_ok.mp hturn
  obtain ⟨⟨after', descriptor⟩, -, hturn⟩ := bind_eq_ok.mp hturn
  obtain ⟨-, rfl⟩ := Prod.mk.inj (Except.ok.inj hturn)
  obtain ⟨-, rfl⟩ := Prod.mk.inj (Except.ok.inj hrest)
  rw [hpadded] at hle
  simp only [List.length_append] at hle ⊢
  omega

/-- Whether some entry may be deflated stays as it is. -/
theorem Reached.isVariable_eq (h : host.Reached start stream emitted) :
    stream.plan.isVariable = start.plan.isVariable := by
  obtain ⟨-, -, -, hgiven⟩ := h
  cases hstate : stream.state with
  | entry index =>
    rw [hstate] at hgiven
    obtain ⟨contents, -, -, hwrite⟩ := hgiven
    exact (ZipPlan.advances_of_writeEntries hwrite).isVariable_eq
  | file index encoder =>
    rw [hstate] at hgiven
    obtain ⟨contents, -, -, entry, size, file, -, -, -, -, before, body, header, hwrite, hheader, -⟩ := hgiven
    exact (ZipPlan.advances_of_writeLocalHeader hheader).isVariable_eq.trans
      (ZipPlan.advances_of_writeEntries hwrite).isVariable_eq
  | central index =>
    rw [hstate] at hgiven
    obtain ⟨contents, before, body, headers, -, -, -, hwrite, hfinish, -⟩ := hgiven
    exact (ZipPlan.finishEntries_keeps hfinish).2.1.trans (ZipPlan.advances_of_writeEntries hwrite).isVariable_eq
  | done =>
    rw [hstate] at hgiven
    obtain ⟨contents, -, -, hwrite⟩ := hgiven
    obtain ⟨⟨before, body⟩, hbefore, hwrite⟩ := bind_eq_ok.mp hwrite
    obtain ⟨closed, hfinish, hwrite⟩ := bind_eq_ok.mp hwrite
    obtain ⟨headers, -, hwrite⟩ := bind_eq_ok.mp hwrite
    obtain ⟨rfl, -⟩ := Prod.mk.inj (Except.ok.inj hwrite)
    exact (ZipPlan.finishEntries_keeps hfinish).2.1.trans
      (ZipPlan.advances_of_writeEntries hbefore).isVariable_eq

/-- What a plan without candidates gives out stays within its planned length, and reaches it at the end. -/
theorem Reached.length_le (lawful : host.compressor.Lawful encodes bound)
    (hfresh : start.plan.Fresh compression sources) (hfixed : start.plan.isVariable = false)
    (h : host.Reached start stream emitted) :
    stream.plan.len = start.plan.len ∧
      if stream.state.isDone then emitted.length = start.plan.len else emitted.length < start.plan.len := by
  obtain ⟨-, -, -, hgiven⟩ := h
  have hend := start.plan.endLen_pos
  have hlen := hfresh.len_eq
  cases hstate : stream.state with
  | entry index =>
    rw [hstate] at hgiven
    obtain ⟨contents, rfl, hserves, hwrite⟩ := hgiven
    have hadvances := ZipPlan.advances_of_writeEntries hwrite
    obtain ⟨before, body, hbefore, hle⟩ := hfresh.writes_before hfixed
      (hserves.exactFor lawful hfresh hfixed) hserves.length_le
    obtain ⟨-, rfl⟩ := Prod.mk.inj (Except.ok.inj (hwrite.symm.trans hbefore))
    refine ⟨hadvances.len_eq, ?_⟩
    show emitted.length < start.plan.len
    omega
  | file index encoder =>
    rw [hstate] at hgiven
    obtain ⟨contents, rfl, hsends⟩ := hgiven
    have hle := hsends.length_le lawful hfresh hfixed
    obtain ⟨hserves, entry, size, file, -, -, -, -, before, body, header, hwrite, hheader, -⟩ := hsends
    have hadvances := (ZipPlan.advances_of_writeEntries hwrite).trans
      (ZipPlan.advances_of_writeLocalHeader hheader) (by omega)
    refine ⟨hadvances.len_eq, ?_⟩
    show emitted.length < start.plan.len
    omega
  | central index =>
    rw [hstate] at hgiven
    obtain ⟨contents, before, body, headers, hlength, hindex, hserves, hwrite, hfinish, hheaders, rfl⟩ := hgiven
    have hadvances := ZipPlan.advances_of_writeEntries hwrite
    obtain ⟨hentries, -, hplanned⟩ := ZipPlan.finishEntries_keeps hfinish
    have hfixed' : before.isVariable = false := hadvances.isVariable_eq.trans hfixed
    refine ⟨(hplanned hfixed').trans hadvances.len_eq, ?_⟩
    obtain ⟨before', body', done, bytes, hbefore, -, harchive, hbytes⟩ := hfresh.writes_exact hfixed
      (hserves.exactFor lawful hfresh hfixed) hlength
    have hcount : index ≤ stream.plan.entries.length := by
      rw [hentries, hadvances.length_eq]
      exact hindex
    rw [ZipPlan.writeArchive, hwrite, ok_bind] at harchive
    dsimp only at harchive
    rw [hfinish, ok_bind, ZipPlan.writeCentralHeaders_take (by omega), ok_bind, List.drop_zero,
      List.take_length] at harchive
    rw [ZipPlan.writeCentralHeaders_take (by omega), List.drop_zero] at hheaders
    obtain ⟨rfl, rfl⟩ := Prod.mk.inj (Except.ok.inj harchive)
    obtain rfl := Except.ok.inj hheaders
    have hpart : ((stream.plan.entries.take index).flatMap ZipEntry.centralHeader).length ≤
        (stream.plan.entries.flatMap ZipEntry.centralHeader).length := by
      conv_rhs => rw [← List.take_append_drop index stream.plan.entries, List.flatMap_append,
        List.length_append]
      exact Nat.le_add_right _ _
    have hpos := stream.plan.endLen_pos
    show (body ++ _).length < start.plan.len
    rw [← hbytes]
    simp only [List.length_append, ZipPlan.writeEnd_length]
    omega
  | done =>
    rw [hstate] at hgiven
    obtain ⟨contents, hlength, hserves, hwrite⟩ := hgiven
    obtain ⟨-, -, done, bytes, -, -, harchive, hbytes⟩ := hfresh.writes_exact hfixed
      (hserves.exactFor lawful hfresh hfixed) hlength
    obtain ⟨-, rfl⟩ := Prod.mk.inj (Except.ok.inj (hwrite.symm.trans harchive))
    obtain ⟨⟨before, body⟩, hbefore, hwrite⟩ := bind_eq_ok.mp hwrite
    obtain ⟨closed, hfinish, hwrite⟩ := bind_eq_ok.mp hwrite
    obtain ⟨headers, -, hwrite⟩ := bind_eq_ok.mp hwrite
    obtain ⟨rfl, -⟩ := Prod.mk.inj (Except.ok.inj hwrite)
    have hadvances := ZipPlan.advances_of_writeEntries hbefore
    obtain ⟨-, -, hplanned⟩ := ZipPlan.finishEntries_keeps hfinish
    have hfixed' : before.isVariable = false := hadvances.isVariable_eq.trans hfixed
    exact ⟨(hplanned hfixed').trans hadvances.len_eq, hbytes⟩

end Fixed

/-! ### Bodies -/

theorem isDone_iff {state : ArchiveState σ} : state.isDone = true ↔ state = .done := by
  cases state <;> simp [ArchiveState.isDone]

section Bodies

variable {compression : ArchiveCompression} {sources : List ZipSource}

/-- The turns of what is handed over for all entries. -/
theorem ServesAll.turns (h : host.ServesAll start contents)
    (hlength : contents.length = start.plan.entries.length) :
    (start.plan.entries.zip contents).map Prod.fst = start.plan.entries ∧
      (start.plan.entries.zip contents).map Prod.snd = contents ∧
      ∀ turn : Turn, turn ∈ start.plan.entries.zip contents → turn.Matched := by
  refine ⟨List.map_fst_zip hlength.ge, List.map_snd_zip hlength.le, fun turn hturn => ?_⟩
  obtain ⟨index, hindex, rfl⟩ := List.getElem_of_mem hturn
  rw [List.length_zip] at hindex
  obtain ⟨entry, hentry, hserves⟩ := h index contents[index] (List.getElem?_eq_getElem (by omega))
  rw [List.getElem?_eq_getElem (by omega)] at hentry
  rw [List.getElem_zip, Option.some.inj hentry]
  rcases hcontent : contents[index] with _ | content
  · rw [hcontent] at hserves
    rw [Turn.Matched, show entry.size = none from hserves]
    rfl
  · rw [hcontent] at hserves
    obtain ⟨size, file, hsize, -⟩ := hserves
    rw [Turn.Matched, hsize]
    rfl

/-- A whole archive has the length of its plan. -/
theorem length_of_done (hfresh : start.plan.Fresh compression sources)
    (h : host.Given start stream.plan emitted .done) : emitted.length = stream.plan.len := by
  obtain ⟨contents, hlength, hserves, hwrite⟩ := h
  obtain ⟨hfst, hsnd, hmatched⟩ := hserves.turns hlength
  have harchive (result : ZipPlan × List UInt8) :
      start.plan.writeArchive ((start.plan.entries.zip contents).map Prod.snd) = .ok result ↔ _ :=
    ZipPlan.writeArchive_ok_iff hfst.symm hfresh.position_eq hmatched
  rw [hsnd] at harchive
  obtain ⟨-, -, -, heq⟩ := (harchive _).mp hwrite
  obtain ⟨hplan, rfl⟩ := Prod.mk.inj heq
  rw [hplan]
  exact start.plan.archive_length _

/-- At the end nothing is added. -/
theorem fillChunk_of_isDone (hdone : stream.state.isDone = true) (out : List UInt8) :
    host.fillChunk stream out = .ok (stream, out) := by
  rw [ArchiveHost.fillChunk, dif_neg]
  rw [hdone]
  exact fun h => Bool.false_ne_true h.2.symm

/-- A poll gives out a chunk, comes to the end of a whole archive, or fails where the archive breaks. -/
theorem Reached.nextChunk (lawful : host.compressor.Lawful encodes bound)
    (hfresh : start.plan.Fresh compression sources) (hchunk : 0 < start.chunkBytes)
    (h : host.Reached start stream emitted) (hsent : stream.sent = emitted.length) :
    Ensures (fun _ => host.Broken start ∧ stream.state.isDone = false)
      (fun result => match result.2 with
        | none => result.1.state.isDone = true ∧ host.Reached start result.1 emitted
        | some chunk => chunk ≠ [] ∧ result.1.sent = (emitted ++ chunk).length ∧
            host.Reached start result.1 (emitted ++ chunk) ∧
            (start.chunkBytes ≤ chunk.length ∨ result.1.state.isDone = true) ∧
            weight start bound result.1.state < weight start bound stream.state)
      (host.nextChunk stream) := by
  have hfill := h.fillChunk lawful []
  have hgoes : ∀ result, host.fillChunk stream [] = result → result ≠ .ok (stream, []) →
      stream.state.isDone = false := by
    intro result hresult hadds
    by_contra hdone
    exact hadds (hresult.symm.trans (fillChunk_of_isDone (Bool.not_eq_false _ ▸ hdone) []))
  unfold ArchiveHost.nextChunk
  rcases hresult : host.fillChunk stream [] with error | ⟨next, out⟩
  · rw [hresult] at hfill
    exact ⟨hfill, hgoes _ hresult nofun⟩
  · rw [hresult] at hfill
    obtain ⟨⟨more, hmore, hnext⟩, hfull, -, hlt, hsame⟩ := hfill
    dsimp only at hmore hnext hfull hlt hsame
    rw [List.nil_append] at hmore
    subst hmore
    have hlength : next.sent + out.length = (emitted ++ out).length := by
      rw [hsame, hsent, List.length_append]
    have hdone : out = [] → next.state.isDone = true := by
      rintro rfl
      refine hfull.resolve_left ?_
      rw [List.length_nil]
      omega
    have hgood : ¬((next.plan.fixedLen.any fun length => decide (length < next.sent + out.length)) = true ∨
        (out = [] ∧ next.sent + out.length ≠ next.plan.len)) := by
      rw [hlength]
      rintro (hover | ⟨rfl, hdiffers⟩)
      · unfold ZipPlan.fixedLen at hover
        cases hvariable : next.plan.isVariable with
        | true =>
          rw [hvariable] at hover
          cases hover
        | false =>
          rw [hvariable] at hover
          obtain ⟨hlen, hwithin⟩ := hnext.length_le lawful hfresh (hnext.isVariable_eq.symm.trans hvariable)
          have hlong : next.plan.len < (emitted ++ out).length := of_decide_eq_true hover
          split at hwithin <;> omega
      · have hgiven := hnext.given
        rw [isDone_iff.mp (hdone rfl)] at hgiven
        exact hdiffers (length_of_done hfresh hgiven)
    rw [mapError_ok, ok_bind]
    dsimp only
    rw [if_neg hgood]
    have hafter : host.Reached start { next with sent := next.sent + out.length } (emitted ++ out) :=
      ⟨hnext.base_eq, hnext.prefixLen_eq, hnext.chunkBytes_eq, hnext.given⟩
    cases out with
    | nil =>
      rw [List.append_nil] at hafter
      exact ⟨hdone rfl, hafter⟩
    | cons byte rest =>
      have hstarted := hgoes _ hresult fun hnone => List.cons_ne_nil _ _ (Prod.mk.inj (Except.ok.inj hnone)).2
      exact ⟨List.cons_ne_nil _ _, hlength, hafter, hfull, hlt hstarted hchunk⟩

/-- The body of a stream that was reached: it ends, and what it gave out until then is a whole archive or
the archive breaks. -/
structure Ends (host : ArchiveHost σ) (start : ArchiveStream σ) (emitted : List UInt8)
    (chunks : List (List UInt8)) (ending : Ending) : Prop where
  nonempty : ∀ chunk ∈ chunks, chunk ≠ []
  full : ∀ chunk ∈ chunks.dropLast, start.chunkBytes ≤ chunk.length
  complete : ending = .complete → ∃ plan, host.Given start plan (emitted ++ chunks.flatten) .done
  aborted : ∀ error, ending = .aborted error → host.Broken start ∧ ∃ stream : ArchiveStream σ,
    stream.state.isDone = false ∧ host.Reached start stream (emitted ++ chunks.flatten)

/-- No chunk follows the end. -/
theorem polls_of_isDone (lawful : host.compressor.Lawful encodes bound)
    (hfresh : start.plan.Fresh compression sources) (hchunk : 0 < start.chunkBytes)
    (h : host.Reached start stream emitted) (hsent : stream.sent = emitted.length)
    (hdone : stream.state.isDone = true) (count : ℕ) : (host.polls count stream).1 = [] := by
  cases count with
  | zero => rfl
  | succ count =>
    have hpoll := h.nextChunk lawful hfresh hchunk hsent
    rw [ArchiveHost.polls]
    rcases hresult : host.nextChunk stream with error | ⟨next, chunk | chunk⟩
    · rfl
    · rfl
    · rw [hresult] at hpoll
      have hlt := hpoll.2.2.2.2
      rw [isDone_iff.mp hdone] at hlt
      rcases Prod.Lex.toLex_lt_toLex.mp hlt with hlt | ⟨-, hlt⟩ <;> exact absurd hlt (Nat.not_lt_zero _)

/-- Enough polls end the body. -/
theorem Reached.polls (lawful : host.compressor.Lawful encodes bound)
    (hfresh : start.plan.Fresh compression sources) (hchunk : 0 < start.chunkBytes)
    (h : host.Reached start stream emitted) (hsent : stream.sent = emitted.length) :
    ∃ count chunks ending, (∀ more, count ≤ more → host.polls more stream = (chunks, some ending)) ∧
      host.Ends start emitted chunks ending := by
  induction hweight : weight start bound stream.state using WellFoundedLT.induction
    generalizing stream emitted with
  | ind w ih =>
    subst hweight
    have hpoll := h.nextChunk lawful hfresh hchunk hsent
    rcases hresult : host.nextChunk stream with error | ⟨next, chunk | chunk⟩
    · rw [hresult] at hpoll
      refine ⟨1, [], .aborted error, ?_, ?_⟩
      · rintro (_ | more) hmore
        · omega
        · rw [ArchiveHost.polls, hresult]
      · refine ⟨nofun, nofun, nofun, fun _ _ => ⟨hpoll.1, stream, hpoll.2, ?_⟩⟩
        rwa [List.flatten_nil, List.append_nil]
    · rw [hresult] at hpoll
      obtain ⟨hdone, hnext⟩ := hpoll
      refine ⟨1, [], .complete, ?_, ?_⟩
      · rintro (_ | more) hmore
        · omega
        · rw [ArchiveHost.polls, hresult]
      · refine ⟨nofun, nofun, fun _ => ⟨next.plan, ?_⟩, nofun⟩
        have hgiven := hnext.given
        rw [isDone_iff.mp hdone] at hgiven
        rwa [List.flatten_nil, List.append_nil]
    · rw [hresult] at hpoll
      obtain ⟨hnonempty, hsent', hnext, hfull, hlt⟩ := hpoll
      obtain ⟨count, chunks, ending, hpolls, hends⟩ := ih _ hlt hnext hsent' rfl
      refine ⟨count + 1, chunk :: chunks, ending, ?_, ?_⟩
      · rintro (_ | more) hmore
        · omega
        · rw [ArchiveHost.polls, hresult]
          dsimp only
          rw [hpolls more (by omega)]
      · have hflatten : emitted ++ (chunk :: chunks).flatten = emitted ++ chunk ++ chunks.flatten := by
          rw [List.flatten_cons, List.append_assoc]
        refine ⟨List.forall_mem_cons.mpr ⟨hnonempty, hends.nonempty⟩, ?_, hflatten ▸ hends.complete,
          hflatten ▸ hends.aborted⟩
        cases chunks with
        | nil => exact nofun
        | cons second rest =>
          refine List.forall_mem_cons.mpr ⟨hfull.resolve_right fun hdone => ?_, hends.full⟩
          have hnone := polls_of_isDone lawful hfresh hchunk hnext hsent' hdone count
          rw [hpolls count le_rfl] at hnone
          cases hnone

/-- The files of an archive, as they are when their turns come; a directory has none. -/
def files (host : ArchiveHost σ) (start : ArchiveStream σ) : List (Option (List UInt8)) :=
  start.plan.entries.mapIdx fun index entry =>
    entry.size.bind fun _ => (host.fileOf start index entry).map fun file => file.source.bytes

theorem getElem?_files (index : ℕ) :
    (host.files start)[index]? = (start.plan.entries[index]?).map fun entry =>
      entry.size.bind fun _ => (host.fileOf start index entry).map fun file => file.source.bytes :=
  List.getElem?_mapIdx

/-- What is handed over for all entries is made of the files, which have their planned sizes. -/
theorem ServesAll.files (h : host.ServesAll start contents)
    (hlength : contents.length = start.plan.entries.length) :
    (host.files start).map (·.map List.length) = start.plan.entries.map ZipEntry.size ∧
      List.Forall₂ (fun turn content => EncodedAs host.compressor turn.1 turn.2 content)
        (start.plan.entries.zip (host.files start)) contents := by
  have hturn : ∀ index (hindex : index < start.plan.entries.length),
      host.Serves start index start.plan.entries[index] contents[index] := by
    intro index hindex
    obtain ⟨entry, hentry, hserves⟩ := h index contents[index] (List.getElem?_eq_getElem (by omega))
    rw [List.getElem?_eq_getElem hindex] at hentry
    rwa [Option.some.inj hentry]
  have hcount : (host.files start).length = start.plan.entries.length := List.length_mapIdx
  have hfile : ∀ index (hindex : index < start.plan.entries.length),
      (host.files start)[index].map List.length = start.plan.entries[index].size ∧
        EncodedAs host.compressor start.plan.entries[index] (host.files start)[index] contents[index] := by
    intro index hindex
    have hserves := hturn index hindex
    have hget : (host.files start)[index] = start.plan.entries[index].size.bind fun _ =>
        (host.fileOf start index start.plan.entries[index]).map fun file => file.source.bytes :=
      List.getElem_mapIdx
    rw [hget]
    rcases hcontent : contents[index] with _ | content
    · rw [hcontent] at hserves
      rw [show start.plan.entries[index].size = none from hserves]
      exact ⟨rfl, trivial⟩
    · rw [hcontent] at hserves
      obtain ⟨size, file, hsize, hfile, -, hbytes, hencoded⟩ := hserves
      rw [hsize, hfile]
      exact ⟨congrArg some hbytes, hencoded⟩
  refine ⟨List.ext_getElem (by simp [hcount]) fun index hleft hright => ?_,
    List.forall₂_iff_get.mpr ⟨by simp [hcount, hlength], fun index hleft hright => ?_⟩⟩
  · rw [List.getElem_map, List.getElem_map]
    exact (hfile index (by rwa [List.length_map] at hright)).1
  · simp only [List.get_eq_getElem, List.getElem_zip]
    exact (hfile index (by omega)).2

/-- Files that are handed over are as planned. -/
theorem ServesAll.filesPlanned (h : host.ServesAll start contents)
    (hlength : contents.length = start.plan.entries.length) : host.FilesPlanned start := by
  intro index entry size hentry hsize
  have hindex := (List.getElem?_eq_some_iff.mp hentry).1
  obtain ⟨entry', hentry', hserves⟩ := h index contents[index] (List.getElem?_eq_getElem (by omega))
  obtain rfl := Option.some.inj (hentry.symm.trans hentry')
  rcases hcontent : contents[index] with _ | content
  · rw [hcontent] at hserves
    cases hsize.symm.trans hserves
  · rw [hcontent] at hserves
    obtain ⟨size', file, hsize', hfile, hlen, hbytes, -⟩ := hserves
    obtain rfl := Option.some.inj (hsize.symm.trans hsize')
    exact ⟨file, hfile, hlen, hbytes⟩

/-- What breaks an archive whose plan has no candidates is a file that is not as planned. -/
theorem Broken.files (lawful : host.compressor.Lawful encodes bound) (hlossless : Lossless encodes inflate)
    (hfresh : start.plan.Fresh compression sources)
    (hplan : ZipPlan.new sources compression = some start.plan) (h : host.Broken start) :
    ¬host.FilesPlanned start ∨ start.plan.isVariable = true ∧ ∃ contents,
      contents.length = start.plan.entries.length ∧ host.ServesAll start contents ∧
        u64Max < (start.plan.done (start.plan.entries.zip contents)).len := by
  rcases h with hfiles | ⟨contents, error, hlength, hserves, herror⟩
  · exact .inl hfiles
  · refine .inr ⟨?_, contents, hlength, hserves, ?_⟩
    · cases hvariable : start.plan.isVariable with
      | true => rfl
      | false =>
        obtain ⟨-, -, done, bytes, -, -, hok, -⟩ := hfresh.writes_exact hvariable
          (hserves.exactFor lawful hfresh hvariable) hlength
        cases herror.symm.trans hok
    · obtain ⟨hsizes, hencoded⟩ := hserves.files hlength
      by_contra hfits
      obtain ⟨result, hok⟩ := (archive_round_trip lawful hlossless hplan (hsizes.trans hfresh.sizes_eq)
        hencoded).1.mpr (Nat.le_of_not_lt hfits)
      cases herror.symm.trans hok

/-- However the files behave while an archive is sent, its body ends, in chunks that are not empty and, but
for the last, full. A body that is complete is read back as the planned sources with the bytes of their
files, which were all as planned; one that is not complete had a file that was not as planned, or would
have been longer than a `u64`. -/
theorem archive_stream {plan : ZipPlan} (lawful : host.compressor.Lawful encodes bound)
    (hlossless : Lossless encodes inflate) (hplan : ZipPlan.new sources compression = some plan)
    (base : VirtualPath) (prefixLen : ℕ) {chunkBytes : ℕ} (hchunk : 0 < chunkBytes) :
    ∃ count chunks ending,
      (∀ more, count ≤ more →
        host.polls more (ArchiveStream.new base prefixLen plan chunkBytes) = (chunks, some ending)) ∧
      (∀ chunk ∈ chunks, chunk ≠ []) ∧ (∀ chunk ∈ chunks.dropLast, chunkBytes ≤ chunk.length) ∧
      (ending = .complete → host.FilesPlanned (ArchiveStream.new base prefixLen plan chunkBytes) ∧
        readArchive inflate chunks.flatten = some (List.zipWith (restored compression) sources
          (host.files (ArchiveStream.new base prefixLen plan chunkBytes)))) ∧
      (∀ error, ending = .aborted error →
        ¬host.FilesPlanned (ArchiveStream.new base prefixLen plan chunkBytes) ∨
        plan.isVariable = true ∧ ∃ contents, contents.length = plan.entries.length ∧
          host.ServesAll (ArchiveStream.new base prefixLen plan chunkBytes) contents ∧
            u64Max < (plan.done (plan.entries.zip contents)).len) := by
  have hfresh := ZipPlan.new_fresh hplan
  obtain ⟨count, chunks, ending, hpolls, hends⟩ := (reached_new host base prefixLen plan chunkBytes).polls lawful
    hfresh hchunk rfl
  refine ⟨count, chunks, ending, hpolls, hends.nonempty, hends.full, fun hcomplete => ?_, fun error haborted =>
    (hends.aborted error haborted).1.files lawful hlossless hfresh hplan⟩
  obtain ⟨done, contents, hlength, hserves, hwrite⟩ := hends.complete hcomplete
  obtain ⟨hsizes, hencoded⟩ := hserves.files hlength
  exact ⟨hserves.filesPlanned hlength,
    (archive_round_trip lawful hlossless hplan (hsizes.trans hfresh.sizes_eq) hencoded).2 _ _ hwrite⟩

/-- A host that finds the text, whatever it is asked for. -/
def textHost : ArchiveHost (List UInt8 × Bool) where
  compressor := storingCompressor
  tables := ⟨fun _ => true, id⟩
  openFile _ _ := some ⟨1024, ⟨textFile, fun _ => 512⟩⟩

theorem entryPath_text : entryPath textHost.tables .root 0 "a.txt" = some ⟨[⟨"a.txt"⟩]⟩ := by decide +kernel

/-- The text is as planned. -/
theorem textHost_planned {plan : ZipPlan} {entry other : ZipEntry} {chunkBytes : ℕ}
    (hentries : plan.entries = [entry, other]) (hname : entry.name = "a.txt") (hsize : entry.size = some 1024)
    (hother : other.size = none) : textHost.FilesPlanned (ArchiveStream.new .root 0 plan chunkBytes) := by
  intro index found size hfound hsome
  rw [ArchiveStream.new, hentries] at hfound
  rcases index with _ | _ | index
  · obtain rfl := Option.some.inj hfound
    refine ⟨⟨1024, ⟨textFile, fun _ => 512⟩⟩, ?_, Option.some.inj (hsize.symm.trans hsome),
      textFile_length.trans (Option.some.inj (hsize.symm.trans hsome))⟩
    rw [fileOf, opened, hname, ArchiveStream.new, entryPath_text]
    rfl
  · obtain rfl := Option.some.inj hfound
    cases hother.symm.trans hsome
  · cases hfound

/-- The text is sent in chunks of 64 bytes, and read back. -/
theorem archive_stream_text :
    ∃ count chunks, textHost.polls count (ArchiveStream.new .root 0 textPlan 64) = (chunks, some .complete) ∧
      readArchive inflateStored chunks.flatten =
        some [⟨"a.txt", methodDeflated, some textFile⟩, ⟨"d/", methodStored, none⟩] := by
  obtain ⟨count, chunks, ending, hpolls, -, -, hcomplete, haborted⟩ :=
    @archive_stream _ textHost _ _ _ _ _ _ storingCompressor_lawful stored_lossless new_textSources .root 0 64
      (Nat.succ_pos 63)
  have hplanned : textHost.FilesPlanned (ArchiveStream.new .root 0 textPlan 64) :=
    textHost_planned rfl rfl rfl rfl
  have hfiles : textHost.files (ArchiveStream.new .root 0 textPlan 64) = [some textFile, none] := by
    simp [files, ArchiveStream.new, textPlan, textEntry, fileOf, opened, entryPath_text]
    simp [textHost]
  cases hending : ending with
  | complete =>
    refine ⟨count, chunks, hending ▸ hpolls count le_rfl, ((hcomplete hending).2).trans ?_⟩
    rw [hfiles]
    simp [restored, textSources, deflates_text]
  | aborted error =>
    rcases haborted error hending with hchanged | ⟨-, contents, hlength, hserves, hlong⟩
    · exact absurd hplanned hchanged
    · obtain ⟨first, second, rfl⟩ := List.length_eq_two.mp hlength
      obtain ⟨-, hencoded⟩ := hserves.files hlength
      rw [hfiles] at hencoded
      rcases hencoded with _ | ⟨hfirst, hsecond⟩
      rcases first with _ | content
      · exact hfirst.elim
      · rcases hsecond with _ | ⟨hsecond, -⟩
        rcases second with _ | content
        · exact absurd (textPlan_fits hfirst) (Nat.not_le_of_gt hlong)
        · exact hsecond.elim

/-- An archive that announces its length sends that many bytes if and only if its files are as planned, and
fewer if they are not. -/
theorem archive_stream_length {plan : ZipPlan} {length : ℕ} (lawful : host.compressor.Lawful encodes bound)
    (hlossless : Lossless encodes inflate) (hplan : ZipPlan.new sources compression = some plan)
    (hfixed : plan.fixedLen = some length) (base : VirtualPath) (prefixLen : ℕ) {chunkBytes : ℕ}
    (hchunk : 0 < chunkBytes) :
    ∃ count chunks ending,
      (∀ more, count ≤ more →
        host.polls more (ArchiveStream.new base prefixLen plan chunkBytes) = (chunks, some ending)) ∧
      (host.FilesPlanned (ArchiveStream.new base prefixLen plan chunkBytes) →
        ending = .complete ∧ chunks.flatten.length = length) ∧
      (¬host.FilesPlanned (ArchiveStream.new base prefixLen plan chunkBytes) →
        (∃ error, ending = .aborted error) ∧ chunks.flatten.length < length) := by
  have hfresh := ZipPlan.new_fresh hplan
  obtain ⟨hvariable, rfl⟩ : plan.isVariable = false ∧ plan.len = length := by
    unfold ZipPlan.fixedLen at hfixed
    split at hfixed
    · cases hfixed
    · exact ⟨Bool.eq_false_iff.mpr ‹_›, Option.some.inj hfixed⟩
  obtain ⟨count, chunks, ending, hpolls, hends⟩ := (reached_new host base prefixLen plan chunkBytes).polls lawful
    hfresh hchunk rfl
  cases hending : ending with
  | complete =>
    obtain ⟨done, contents, hlength, hserves, hwrite⟩ := hends.complete hending
    obtain ⟨-, -, done', bytes, -, -, hok, hbytes⟩ := hfresh.writes_exact hvariable
      (hserves.exactFor lawful hfresh hvariable) hlength
    obtain ⟨-, rfl⟩ := Prod.mk.inj (Except.ok.inj (hok.symm.trans hwrite))
    exact ⟨count, chunks, .complete, hending ▸ hpolls, fun _ => ⟨rfl, hbytes⟩,
      fun hbroken => absurd (hserves.filesPlanned hlength) hbroken⟩
  | aborted error =>
    obtain ⟨hbroken, stream, hdone, hreached⟩ := hends.aborted error hending
    have hlength := (hreached.length_le lawful hfresh hvariable).2
    rw [hdone, if_neg Bool.false_ne_true] at hlength
    refine ⟨count, chunks, .aborted error, hending ▸ hpolls, fun hfiles => ?_, fun _ => ⟨⟨error, rfl⟩, hlength⟩⟩
    rcases hbroken.files lawful hlossless hfresh hplan with hchanged | ⟨htrue, -⟩
    · exact absurd hfiles hchanged
    · cases htrue.symm.trans hvariable

/-- The text is stored, and its archive has the length that is announced. -/
theorem archive_stream_length_text :
    ∃ plan count chunks, ZipPlan.new textSources .off = some plan ∧ plan.fixedLen = some 1228 ∧
      textHost.polls count (ArchiveStream.new .root 0 plan 64) = (chunks, some .complete) ∧
      chunks.flatten.length = 1228 := by
  let plan : ZipPlan := { textPlan with
    entries := [{ textEntry with method := .stored }, ⟨"d/", none, .stored, 0, 33, none, 1075, 0, 0⟩]
    isVariable := false }
  have hplan : ZipPlan.new textSources .off = some plan := by decide +kernel
  obtain ⟨count, chunks, ending, hpolls, hplanned, -⟩ :=
    @archive_stream_length _ textHost _ _ _ _ _ _ _ storingCompressor_lawful stored_lossless hplan rfl .root 0
      64 (Nat.succ_pos 63)
  obtain ⟨rfl, hlength⟩ := hplanned (textHost_planned rfl rfl rfl rfl)
  exact ⟨plan, count, chunks, hplan, rfl, hpolls count le_rfl, hlength⟩

end Bodies

end ArchiveHost

end Crabinet.Browse
