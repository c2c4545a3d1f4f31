import Crabinet.Zip.Layout
import Mathlib.Data.List.Forall2

/-!
# The planned length

The planner sums the lengths its own length functions give, while the writers re-decide
every optional field. Here a plan is described by the chain of offsets it lays out, and a
run over exactly the planned sizes is shown to follow that chain to its end.
-/

namespace Crabinet.Zip

open Crabinet.Library

/-- What `ZipPlan::new` makes of one source. -/
structure Planned (compression : ArchiveCompression) (source : ZipSource) (entry : ZipEntry) :
    Prop where
  size_eq : entry.size = source.size
  name_eq : entry.name = if source.size.isNone then source.name.push '/' else source.name
  name_le : entry.name.utf8ByteSize ≤ u16Sentinel
  slash_iff : endsWithSlash entry.name = true ↔ entry.size = none
  method_eq : entry.method =
    if compression = .auto ∧ ∃ size, entry.size = some size ∧ mayDeflate entry.name size = true
    then .candidate else .stored
  crc_eq : entry.crc = 0
  compressed_eq : entry.compressed = 0
  dosTime_eq : (entry.dosTime, entry.dosDate) = dosTimestamp source.modified
  mtime_eq : entry.unixMtime = Zip.unixMtime source.modified

/-- Bytes an entry takes before the central directory, as planned. -/
def ZipEntry.plannedLen (entry : ZipEntry) : ℕ :=
  entry.localLen + entry.size.getD 0 + entry.descriptorLen

/-- The entries follow each other from `offset` to `stop`. -/
def LaidOut : ℕ → List ZipEntry → ℕ → Prop
  | offset, [], stop => offset = stop
  | offset, entry :: rest, stop =>
    entry.offset = offset ∧ LaidOut (offset + entry.plannedLen) rest stop

theorem LaidOut.le {offset stop : ℕ} {entries : List ZipEntry} (h : LaidOut offset entries stop) :
    offset ≤ stop := by
  induction entries generalizing offset with
  | nil => exact Nat.le_of_eq h
  | cons entry rest ih =>
    have := ih h.2
    omega

theorem endsWithSlash_push (name : String) : endsWithSlash (name.push '/') = true := by
  simp [endsWithSlash]

/-- A planned entry is the one its source describes, at the given offset. -/
theorem planEntry_planned {compression : ArchiveCompression} {offset : ℕ} {source : ZipSource}
    {entry : ZipEntry} (h : planEntry compression offset source = some entry) :
    Planned compression source entry ∧ entry.offset = offset := by
  rw [planEntry, Option.ite_none_left_eq_some] at h
  obtain ⟨hname, h⟩ := h
  dsimp only at h
  generalize hpush : (if source.size.isNone then source.name.push '/' else source.name) = name at h
  rw [Option.ite_none_left_eq_some] at h
  obtain ⟨hlen, h⟩ := h
  obtain rfl := Option.some.inj h
  simp only [Bool.or_eq_true, not_or, Bool.not_eq_true] at hname
  refine ⟨⟨rfl, hpush.symm, Nat.le_of_not_lt hlen, ?_, ?_, rfl, rfl, rfl, rfl⟩, rfl⟩
  · cases hsize : source.size with
    | none =>
      rw [hsize, Option.isNone_none, if_pos rfl] at hpush
      simp [← hpush, endsWithSlash_push]
    | some size =>
      rw [hsize, Option.isNone_some, if_neg Bool.false_ne_true] at hpush
      simp [← hpush, hname.2]
  · cases hsize : source.size with
    | none => simp
    | some size => simp

/-- The planned entries follow each other, and no planned offset exceeds a `u64`. -/
theorem planEntries_laidOut {compression : ArchiveCompression} {offset : ℕ}
    {sources : List ZipSource} {entries : List ZipEntry} {stop : ℕ}
    (h : planEntries compression offset sources = some (entries, stop)) :
    List.Forall₂ (Planned compression) sources entries ∧ LaidOut offset entries stop ∧
      (offset ≤ u64Max → stop ≤ u64Max) := by
  induction sources generalizing offset entries stop with
  | nil =>
    obtain ⟨rfl, rfl⟩ := Prod.mk.inj (Option.some.inj h)
    exact ⟨.nil, rfl, id⟩
  | cons source rest ih =>
    simp only [planEntries, bind, Option.bind_eq_some_iff, checkedAdd_eq_some] at h
    obtain ⟨entry, hentry, _, ⟨-, rfl⟩, _, ⟨-, rfl⟩, _, ⟨hfits, rfl⟩, ⟨entries', _⟩, hrest, h⟩ := h
    obtain ⟨rfl, rfl⟩ := Prod.mk.inj (Option.some.inj h)
    obtain ⟨hplanned, hoffset⟩ := planEntry_planned hentry
    obtain ⟨hall, hchain, hstop⟩ := ih hrest
    refine ⟨.cons hplanned hall, ⟨hoffset, ?_⟩, fun _ => hstop hfits⟩
    simpa only [ZipEntry.plannedLen, Nat.add_assoc] using hchain

/-- What `ZipPlan::new` returns. -/
structure ZipPlan.Fresh (plan : ZipPlan) (compression : ArchiveCompression)
    (sources : List ZipSource) : Prop where
  planned : List.Forall₂ (Planned compression) sources plan.entries
  isVariable_eq : plan.isVariable = plan.entries.any fun entry => entry.method == .candidate
  position_eq : plan.position = 0
  laidOut : LaidOut 0 plan.entries plan.centralOffset
  centralLen_eq : plan.centralLen = directoryLen plan.entries
  len_eq : plan.len = plan.centralOffset + plan.centralLen + plan.endLen
  len_le : plan.len ≤ u64Max

/-- A new plan lays its entries out from zero and keeps exact totals. -/
theorem ZipPlan.new_fresh {compression : ArchiveCompression} {sources : List ZipSource}
    {plan : ZipPlan} (h : ZipPlan.new sources compression = some plan) :
    plan.Fresh compression sources := by
  simp only [ZipPlan.new, bind, Option.bind_eq_some_iff, checkedAdd_eq_some,
    checkedTotal_eq_some] at h
  obtain ⟨⟨entries, stop⟩, hentries, _, ⟨-, rfl⟩, _, ⟨-, rfl⟩, _, ⟨hfits, rfl⟩, h⟩ := h
  obtain rfl := Option.some.inj h
  obtain ⟨hplanned, hchain, -⟩ := planEntries_laidOut hentries
  exact ⟨hplanned, rfl, rfl, hchain, Nat.zero_add _, rfl, hfits⟩

/-- The data of a turn has exactly its planned size. -/
def Turn.Exact (turn : Turn) : Prop := turn.2.map (·.data.length) = turn.1.size

theorem Turn.Exact.matched {turn : Turn} (h : turn.Exact) : turn.Matched := by
  rw [Turn.Matched, ← h, Option.isSome_map]

/-- A stored entry with exact data is taken at its planned offset and recorded with its planned
offset and lengths. -/
theorem ZipEntry.takes_of_exact {entry : ZipEntry} {content : Option EntryData}
    (hexact : Turn.Exact (entry, content)) (hstored : entry.method = .stored)
    (hfits : entry.offset + entry.plannedLen ≤ u64Max) :
    entry.Takes entry.offset content ∧
      (entry.record entry.offset content).offset = entry.offset ∧
      (entry.record entry.offset content).recordLen content = entry.plannedLen ∧
      (entry.record entry.offset content).centralLen = entry.centralLen := by
  have hoffset : saturate entry.offset = entry.offset := saturate_of_le (by omega)
  have hsettle (deflate : Bool) : entry.settle deflate (saturate entry.offset) = entry := by
    rw [ZipEntry.settle, hoffset, hstored, if_neg (by decide), ← hstored]
  cases content with
  | none =>
    have hsize : entry.size = none := hexact.symm
    simp only [Takes, record, hsettle, recordLen, contentBytes, List.length_nil,
      plannedLen, hsize, Option.getD_none, and_true]
  | some content =>
    have hsize : entry.size = some content.data.length := hexact.symm
    have hrecord : entry.record entry.offset (some content) =
        entry.complete content.crc content.data.length := by
      rw [record, hsettle]
    have hlen : (entry.complete content.crc content.data.length).recordLen (some content) =
        entry.plannedLen := by
      simp only [recordLen, complete_localLen, contentBytes, complete_descriptorLen, plannedLen,
        hsize, Option.getD_some]
    have hrefuses : entry.refuses content.data.length content.data.length = false := by
      simp only [refuses, bne_self_eq_false, Bool.and_false, Bool.false_or, zip64Sizes, hsize,
        hstored]
      simp
    simp only [Takes, hrecord, complete_refuses, hsize, Option.getD_some, hrefuses, hlen, true_and]
    exact ⟨hfits, rfl, rfl⟩

/-- A run over exact data follows the planned chain of offsets. -/
theorem takesAll_of_exact {offset stop : ℕ} {turns : List Turn}
    (hchain : LaidOut offset (turns.map Prod.fst) stop) (hstop : stop ≤ u64Max)
    (hexact : ∀ turn ∈ turns, turn.Exact) (hstored : ∀ turn ∈ turns, turn.1.method = .stored) :
    TakesAll offset turns ∧ offset + turnsLen offset turns = stop ∧
      (recordTurns offset turns).map (·.1.offset) = turns.map (·.1.offset) ∧
      directoryLen ((recordTurns offset turns).map Prod.fst) = directoryLen (turns.map Prod.fst) := by
  induction turns generalizing offset with
  | nil => exact ⟨trivial, hchain, rfl, rfl⟩
  | cons turn rest ih =>
    obtain ⟨entry, content⟩ := turn
    obtain ⟨rfl, hrest⟩ := hchain
    have hle := hrest.le
    obtain ⟨htakes, hoffset, hlen, hcentral⟩ := ZipEntry.takes_of_exact
      (hexact (entry, content) (by simp)) (hstored (entry, content) (by simp)) (hle.trans hstop)
    obtain ⟨hall, hend, hoffsets, hdirectory⟩ := ih hrest
      (fun turn hturn => hexact turn (by simp [hturn]))
      (fun turn hturn => hstored turn (by simp [hturn]))
    have hlen' : Turn.len (entry.record entry.offset content, content) = entry.plannedLen := hlen
    have hsum : turnsLen entry.offset ((entry, content) :: rest) =
        entry.plannedLen + turnsLen (entry.offset + entry.plannedLen) rest := by
      simp only [turnsLen, recordTurns, List.map_cons, List.sum_cons, hlen']
    refine ⟨⟨htakes, hlen' ▸ hall⟩, ?_, ?_, ?_⟩
    · rw [hsum, ← Nat.add_assoc]
      exact hend
    · simp only [recordTurns, List.map_cons, hoffset, hlen', hoffsets]
    · simp only [directoryLen, recordTurns, List.map_cons, List.sum_cons, hcentral, hlen'] at *
      rw [hdirectory]

/-- Every turn of a run that stays inside a `u64` is located at its recorded offset. -/
theorem located_of_mem_recordTurns {image : List UInt8} {position : ℕ} {turns : List Turn}
    (hlocated : Located image position (turnsBytes position turns))
    (hfits : position + turnsLen position turns ≤ u64Max) {turn : Turn}
    (hturn : turn ∈ recordTurns position turns) : Located image turn.1.offset turn.bytes := by
  induction turns generalizing position with
  | nil => cases hturn
  | cons first rest ih =>
    obtain ⟨entry, content⟩ := first
    set recorded : Turn := (entry.record position content, content) with hrecorded
    have hbytes : turnsBytes position ((entry, content) :: rest) =
        recorded.bytes ++ turnsBytes (position + recorded.len) rest := rfl
    have hlen : turnsLen position ((entry, content) :: rest) =
        recorded.len + turnsLen (position + recorded.len) rest := rfl
    rw [hbytes, located_append, Turn.bytes_length] at hlocated
    rcases List.mem_cons.mp hturn with rfl | hmem
    · have hoffset : recorded.1.offset = position := by
        rw [hrecorded, ZipEntry.record_offset, saturate_of_le (by omega)]
      exact hoffset.symm ▸ hlocated.1
    · exact ih hlocated.2 (by omega) hmem

/-- Entries and contents related one to one make up the turns of a run. -/
theorem exists_turns {entries : List ZipEntry} {contents : List (Option EntryData)}
    {P : Turn → Prop} (h : List.Forall₂ (fun entry content => P (entry, content)) entries contents) :
    ∃ turns : List Turn, turns.map Prod.fst = entries ∧ turns.map Prod.snd = contents ∧
      ∀ turn ∈ turns, P turn := by
  have hlen := h.length_eq
  exact ⟨entries.zip contents, List.map_fst_zip hlen.le, List.map_snd_zip hlen.ge,
    fun _ hturn => List.forall₂_zip h hturn⟩

/-- The contents cover the sources: data for every file and none for a directory. -/
def Covers (sources : List ZipSource) (contents : List (Option EntryData)) : Prop :=
  contents.map Option.isSome = sources.map (·.size.isSome)

/-- Every file's data has exactly its planned size. -/
def CoversExactly (sources : List ZipSource) (contents : List (Option EntryData)) : Prop :=
  contents.map (·.map (·.data.length)) = sources.map ZipSource.size

namespace ZipPlan.Fresh

variable {plan : ZipPlan} {compression : ArchiveCompression} {sources : List ZipSource}

/-- The planned sizes are those of the sources. -/
theorem sizes_eq (h : plan.Fresh compression sources) :
    plan.entries.map ZipEntry.size = sources.map ZipSource.size := by
  have hall : List.Forall₂ (fun source entry => entry.size = source.size) sources plan.entries :=
    h.planned.imp fun _ _ hplanned => hplanned.size_eq
  rw [← List.forall₂_eq_eq_eq, List.forall₂_map_left_iff, List.forall₂_map_right_iff]
  exact hall.flip

/-- Covering contents make up matched turns over the plan's entries. -/
theorem exists_matched (h : plan.Fresh compression sources) {contents : List (Option EntryData)}
    (hcovers : Covers sources contents) :
    ∃ turns : List Turn, turns.map Prod.fst = plan.entries ∧ turns.map Prod.snd = contents ∧
      ∀ turn ∈ turns, turn.Matched := by
  apply exists_turns
  have hsizes : plan.entries.map (·.size.isSome) = contents.map Option.isSome := by
    have := congrArg (List.map Option.isSome) h.sizes_eq
    rw [List.map_map, List.map_map] at this
    exact this.trans hcovers.symm
  rwa [← List.forall₂_eq_eq_eq, List.forall₂_map_left_iff, List.forall₂_map_right_iff] at hsizes

/-- Exactly covering contents make up exact turns over the plan's entries. -/
theorem exists_exact (h : plan.Fresh compression sources) {contents : List (Option EntryData)}
    (hcovers : CoversExactly sources contents) :
    ∃ turns : List Turn, turns.map Prod.fst = plan.entries ∧ turns.map Prod.snd = contents ∧
      ∀ turn ∈ turns, turn.Exact := by
  apply exists_turns
  have hsizes := hcovers.trans h.sizes_eq.symm
  rw [← List.forall₂_eq_eq_eq, List.forall₂_map_left_iff, List.forall₂_map_right_iff] at hsizes
  exact hsizes.flip

/-- Without a deflate candidate every entry is stored. -/
theorem stored_of_fixed (h : plan.Fresh compression sources) (hfixed : plan.isVariable = false)
    {entry : ZipEntry} (hentry : entry ∈ plan.entries) : entry.method = .stored := by
  have hcandidate : entry.method ≠ .candidate := by
    rw [h.isVariable_eq, List.any_eq_false] at hfixed
    simpa using hfixed entry hentry
  obtain ⟨index, rfl⟩ := List.get_of_mem hentry
  have hplanned := h.planned.get (h.planned.length_eq.symm ▸ index.isLt) index.isLt
  rw [hplanned.method_eq] at hcandidate ⊢
  split at hcandidate
  · exact absurd rfl hcandidate
  · rw [if_neg ‹_›]

end ZipPlan.Fresh

/-- The end records depend on the entry count and the directory's place only. -/
theorem ZipPlan.endLen_congr {plan other : ZipPlan}
    (hcount : plan.entries.length = other.entries.length)
    (hoffset : plan.centralOffset = other.centralOffset) (hlen : plan.centralLen = other.centralLen) :
    plan.endLen = other.endLen := by
  unfold endLen needsZip64End
  rw [hcount, hoffset, hlen]

/-- Recording leaves the contents alone. -/
theorem recordTurns_contents (position : ℕ) (turns : List Turn) :
    (recordTurns position turns).map Prod.snd = turns.map Prod.snd := by
  induction turns generalizing position with
  | nil => rfl
  | cons turn rest ih => simp only [recordTurns, List.map_cons, ih]

/-- What a finished archive satisfies: its length is the final one, every record lies at its
recorded offset, the directory follows the entries, and no sum of positions wraps. -/
structure Consistent (done : ZipPlan) (contents : List (Option EntryData)) (bytes : List UInt8) :
    Prop where
  length_eq : bytes.length = done.len
  len_le : done.len ≤ u64Max
  located : ∀ turn ∈ done.entries.zip contents, Located bytes turn.1.offset (Turn.bytes turn)
  central : Located bytes done.centralOffset (directoryBytes done.entries ++ done.writeEnd)
  centralLen_eq : done.centralLen = (directoryBytes done.entries).length
  position_eq : done.position = done.centralOffset
  noWrap : wrappingAdd done.centralOffset done.centralLen = done.centralOffset + done.centralLen

/-- Every finished archive is consistent. -/
theorem ZipPlan.consistent_of_finished {plan : ZipPlan} {turns : List Turn}
    (hfits : (plan.done turns).len ≤ u64Max) :
    Consistent (plan.done turns) (turns.map Prod.snd)
      (turnsBytes 0 turns ++
        (directoryBytes (plan.done turns).entries ++ (plan.done turns).writeEnd)) := by
  have hbody : turnsLen 0 turns + (plan.done turns).centralLen ≤ u64Max := by
    rw [done, finished_len] at hfits
    exact (Nat.le_add_right _ _).trans hfits
  refine ⟨plan.archive_length turns, hfits, ?_, ?_, ?_, ?_, ?_⟩
  · intro turn hturn
    have hzip : (plan.done turns).entries.zip (turns.map Prod.snd) = recordTurns 0 turns := by
      rw [done, finished_entries, written, moved_entries, ← recordTurns_contents 0 turns]
      exact (List.zip_of_prod rfl rfl).symm
    rw [hzip] at hturn
    exact located_of_mem_recordTurns ((located_append.mp (located_self _)).1) (by omega) hturn
  · have hlocated := (located_append.mp (located_self (turnsBytes 0 turns ++
      (directoryBytes (plan.done turns).entries ++ (plan.done turns).writeEnd)))).2
    rwa [turnsBytes_length, Nat.zero_add] at hlocated
  · exact (directoryBytes_length _).symm
  · exact saturate_of_le (by omega)
  · exact Nat.mod_eq_of_lt (by unfold u64Max at hbody; exact Nat.lt_of_le_of_lt hbody (by norm_num))

/-- A plan without deflate candidates is met exactly by every run over its planned sizes, and
every archive that is finished at all has the length the finished plan states. The position is
always the number of bytes written, or the largest `u64` when there were more. -/
theorem planned_length_exact {compression : ArchiveCompression} {sources : List ZipSource}
    {plan : ZipPlan} (hplan : ZipPlan.new sources compression = some plan) :
    (∀ n, plan.fixedLen = some n → ∀ contents, CoversExactly sources contents →
      ∃ done bytes, plan.writeArchive contents = .ok (done, bytes) ∧ bytes.length = n ∧
        done.entries.map ZipEntry.offset = plan.entries.map ZipEntry.offset ∧
        Consistent done contents bytes) ∧
    (∀ contents done bytes, Covers sources contents →
      plan.writeArchive contents = .ok (done, bytes) → Consistent done contents bytes) ∧
    ∀ contents after body, Covers sources contents →
      plan.writeEntries 0 contents = .ok (after, body) → after.position = saturate body.length := by
  have hfresh := ZipPlan.new_fresh hplan
  refine ⟨?_, ?_, ?_⟩
  · intro n hfixed contents hcovers
    obtain ⟨turns, hentries, rfl, hexact⟩ := hfresh.exists_exact hcovers
    obtain ⟨hvariable, rfl⟩ : plan.isVariable = false ∧ plan.len = n := by
      unfold ZipPlan.fixedLen at hfixed
      cases hvariable : plan.isVariable <;> simp_all
    have hstop : plan.centralOffset ≤ u64Max := by
      have := hfresh.len_eq ▸ hfresh.len_le
      omega
    obtain ⟨htakes, hend, hoffsets, hdirectory⟩ := takesAll_of_exact
      (hentries ▸ hfresh.laidOut) hstop hexact
      fun turn hturn => hfresh.stored_of_fixed hvariable (hentries ▸ List.mem_map_of_mem hturn)
    rw [Nat.zero_add] at hend
    have hdirectory' : directoryLen (plan.written turns).entries = plan.centralLen := by
      rw [hfresh.centralLen_eq, ← hentries]
      exact hdirectory
    have hlength : (plan.written turns).entries.length = plan.entries.length := by
      rw [ZipPlan.written, ZipPlan.moved_entries, List.length_map, recordTurns_length, ← hentries,
        List.length_map]
    have hplanned : (plan.written turns).AsPlanned (turnsLen 0 turns) := by
      have hendLen : ((plan.written turns).finished plan.centralOffset).endLen = plan.endLen :=
        ZipPlan.endLen_congr hlength rfl hdirectory'
      rw [hend]
      refine ⟨rfl, hdirectory', ?_⟩
      rw [ZipPlan.finished_len, hdirectory', hendLen]
      exact hfresh.len_eq.symm
    have hlen : (plan.done turns).len = plan.len := hplanned.2.2
    have hfits : (plan.done turns).len ≤ u64Max := hlen ▸ hfresh.len_le
    refine ⟨_, _, (ZipPlan.writeArchive_ok_iff hentries.symm hfresh.position_eq
      fun turn hturn => (hexact turn hturn).matched).mpr ⟨htakes, hfits, fun _ => hplanned, rfl⟩,
      (plan.archive_length turns).trans hlen, ?_, plan.consistent_of_finished hfits⟩
    rw [← hentries, ZipPlan.done, ZipPlan.finished_entries, ZipPlan.written, ZipPlan.moved_entries,
      List.map_map, List.map_map]
    exact hoffsets
  · intro contents done bytes hcovers hwrite
    obtain ⟨turns, hentries, rfl, hmatched⟩ := hfresh.exists_matched hcovers
    obtain ⟨-, hfits, -, heq⟩ := (ZipPlan.writeArchive_ok_iff hentries.symm hfresh.position_eq
      hmatched).mp hwrite
    obtain ⟨rfl, rfl⟩ := Prod.mk.inj heq
    exact plan.consistent_of_finished hfits

  · intro contents after body hcovers hwrite
    obtain ⟨turns, hentries, rfl, hmatched⟩ := hfresh.exists_matched hcovers
    have hrun := @ZipPlan.writeEntries_ok_iff plan [] turns 0 (after, body) hentries.symm
      hfresh.position_eq hmatched
    obtain ⟨-, heq⟩ := hrun.mp hwrite
    obtain ⟨rfl, rfl⟩ := Prod.mk.inj heq
    rw [ZipPlan.moved_position, turnsBytes_length, Nat.zero_add]

/-- A two-byte file and a directory, stored. -/
def smallSources : List ZipSource := [⟨"a", some 2, none⟩, ⟨"d", none, none⟩]

theorem planned_length_exact_small :
    ∃ plan, ZipPlan.new smallSources .off = some plan ∧
      ∃ done bytes, plan.writeArchive [some ⟨false, 0, [1, 2]⟩, none] = .ok (done, bytes) ∧
        bytes.length = 198 := by
  obtain ⟨plan, hplan, hfixed⟩ :
      ∃ plan, ZipPlan.new smallSources .off = some plan ∧ plan.fixedLen = some 198 := by
    rw [← Option.bind_eq_some_iff]
    decide
  obtain ⟨done, bytes, hwrite, hlen, -⟩ := (planned_length_exact hplan).1 198 hfixed
    [some ⟨false, 0, [1, 2]⟩, none] rfl
  exact ⟨plan, hplan, done, bytes, hwrite, hlen⟩

end Crabinet.Zip
