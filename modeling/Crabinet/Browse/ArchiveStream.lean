import Crabinet.Filesystem.PathText
import Crabinet.Library.TextSlices
import Crabinet.Zip.RoundTrip

/-!
# Archives in chunks

An archive is sent while it is written: each poll of the stream goes on with the local headers, the
data, the central headers and the end record until its chunk is full. Files are opened one at a
time, by paths made from the planned names. What opening one gives is an argument, and may be
different for every entry.
-/

namespace Crabinet.Browse

open Crabinet.Filesystem (EntryName UnicodeTables VirtualPath parsePath pathText)
open Crabinet.Library Crabinet.Zip

/-- How a chunk fails. -/
inductive StreamError where
  /-- `?` on a writer, the encoder or `open`. -/
  | zip (error : ZipError)
  /-- "archive length differs from its plan". -/
  | lengthDiffers
deriving DecidableEq, Repr

/-- `OpenedFile`, as far as an archive reads it. -/
structure OpenedFile where
  len : ℕ
  source : Source

/-- `ArchiveState`. -/
inductive ArchiveState (σ : Type) where
  /-- The local header of this entry is next. -/
  | entry (index : ℕ)
  /-- Streaming a file's bytes. -/
  | file (index : ℕ) (encoder : EntryEncoder σ)
  /-- The central header of this entry is next. -/
  | central (index : ℕ)
  | done

/-- Whether the archive is at its end. -/
def ArchiveState.isDone {σ : Type} : ArchiveState σ → Bool
  | .done => true
  | _ => false

/-- `ArchiveStream`. -/
structure ArchiveStream (σ : Type) where
  base : VirtualPath
  prefixLen : ℕ
  plan : ZipPlan
  state : ArchiveState σ
  sent : ℕ
  chunkBytes : ℕ
  compressor : Option σ

/-- The stream that `download_archive` starts. -/
def ArchiveStream.new {σ : Type} (base : VirtualPath) (prefixLen : ℕ) (plan : ZipPlan) (chunkBytes : ℕ) :
    ArchiveStream σ :=
  { base, prefixLen, plan, state := .entry 0, sent := 0, chunkBytes, compressor := none }

/-- What an archive is streamed with: the compressor, the name tables and the files, as they are
when their entries are reached. -/
structure ArchiveHost (σ : Type) where
  compressor : StreamCompressor σ
  tables : UnicodeTables
  openFile : ℕ → VirtualPath → Option OpenedFile

/-- The path of an entry, from its planned name. -/
def entryPath (tables : UnicodeTables) (base : VirtualPath) (prefixLen : ℕ) (name : String) :
    Option VirtualPath := do
  let relative ← strFrom name.toList prefixLen
  let text := if base = .root then relative else pathText base ++ '/' :: relative
  (parsePath (EntryName.accepts tables) text).toOption

/-! ### Rounds make progress -/

section Fills

variable {σ : Type} {compressor : StreamCompressor σ} {encoder next : EntryEncoder σ}
  {out filled : List UInt8} {budget : ℕ} {complete : Bool}

/-- Stored data are added up to the budget or the end of the file. -/
theorem storeLoop_extends (h : encoder.storeLoop out budget = .ok (next, filled)) :
    out <+: filled ∧ (0 < next.remaining → budget ≤ filled.length) := by
  fun_induction EntryEncoder.storeLoop encoder out budget with
  | case1 => cases h
  | case2 encoder out hloop read hread ih =>
    obtain ⟨hstarts, hbudget⟩ := ih h
    exact ⟨(List.prefix_append _ _).trans hstarts, hbudget⟩
  | case3 encoder out hloop =>
    obtain ⟨rfl, rfl⟩ := Prod.mk.inj (Except.ok.inj h)
    exact ⟨List.prefix_rfl, fun hremaining => by omega⟩

/-- Deflated data are added up to the budget or the end of the stream. -/
theorem fillDeflated_extends (h : encoder.fillDeflated compressor out budget = .ok (next, filled, complete)) :
    out <+: filled ∧ (complete = false → budget ≤ filled.length) := by
  fun_induction EntryEncoder.fillDeflated compressor encoder out budget with
  | case1 => cases h
  | case2 encoder out hloop after output hround =>
    obtain ⟨rfl, hrest⟩ := Prod.mk.inj (Except.ok.inj h)
    obtain ⟨rfl, rfl⟩ := Prod.mk.inj hrest
    refine ⟨List.prefix_append _ _, fun h => ?_⟩
    cases h
  | case3 encoder out hloop after output hround ih =>
    obtain ⟨hstarts, hbudget⟩ := ih h
    exact ⟨(List.prefix_append _ _).trans hstarts, hbudget⟩
  | case4 encoder out hloop =>
    obtain ⟨rfl, hrest⟩ := Prod.mk.inj (Except.ok.inj h)
    obtain ⟨rfl, rfl⟩ := Prod.mk.inj hrest
    exact ⟨List.prefix_rfl, fun _ => Nat.le_of_not_lt hloop⟩

/-- A call adds to its buffer, and uses up its budget where the entry goes on. -/
theorem fill_extends (h : encoder.fill compressor out budget = .ok (next, filled, complete)) :
    out <+: filled ∧ (complete = false → budget ≤ filled.length) := by
  unfold EntryEncoder.fill at h
  split at h
  · exact fillDeflated_extends h
  · obtain ⟨⟨after, stored⟩, hloop, h⟩ := bind_eq_ok.mp h
    obtain ⟨hstarts, hbudget⟩ := storeLoop_extends hloop
    have hextends := (List.prefix_append out encoder.held).trans hstarts
    dsimp only at h
    split at h
    · obtain ⟨rfl, hrest⟩ := Prod.mk.inj (Except.ok.inj h)
      obtain ⟨rfl, rfl⟩ := Prod.mk.inj hrest
      exact ⟨hextends, fun _ => hbudget ‹_›⟩
    · obtain ⟨last, -, h⟩ := bind_eq_ok.mp h
      obtain ⟨rfl, hrest⟩ := Prod.mk.inj (Except.ok.inj h)
      obtain ⟨rfl, rfl⟩ := Prod.mk.inj hrest
      refine ⟨hextends, fun h => ?_⟩
      cases h

end Fills

/-- How far a state is from the end where nothing is added. -/
def ArchiveState.rank {σ : Type} : ArchiveState σ → ℕ
  | .done => 0
  | .central _ => 1
  | .entry _ => 2
  | .file _ _ => 3

namespace ArchiveHost

variable {σ : Type}

/-- The file of an entry, opened by its path. -/
def opened (host : ArchiveHost σ) (base : VirtualPath) (prefixLen index : ℕ) (name : String) :
    Option OpenedFile :=
  (entryPath host.tables base prefixLen name).bind (host.openFile index)

/-- `open`. -/
def openEntry (host : ArchiveHost σ) (stream : ArchiveStream σ) (index : ℕ) (entry : ZipEntry)
    (size : ℕ) : Except ZipError (EntryEncoder σ) :=
  match host.opened stream.base stream.prefixLen index entry.name with
  | none => .error .entryChanged
  | some file =>
    if file.len ≠ size then .error .entryChanged
    else
      EntryEncoder.start host.compressor file.source size (stream.plan.mayDeflate index) stream.compressor

/-- One round of the loop of `next_chunk`. -/
def step (host : ArchiveHost σ) (stream : ArchiveStream σ) (out : List UInt8) :
    Except ZipError (ArchiveStream σ × List UInt8) :=
  match stream.state with
  | .entry index =>
    if index = stream.plan.entries.length then do
      let plan ← stream.plan.finishEntries
      return ({ stream with plan, state := .central 0 }, out)
    else
      match stream.plan.entries[index]? with
      | none => .error .outOfRange
      | some entry =>
        match entry.size with
        | none => do
          let (plan, header) ← stream.plan.writeLocalHeader index false
          return ({ stream with plan, state := .entry (index + 1) }, out ++ header)
        | some size => do
          let encoder ← host.openEntry stream index entry size
          let (plan, header) ← stream.plan.writeLocalHeader index encoder.deflate
          return ({ stream with plan, state := .file index encoder, compressor := none }, out ++ header)
  | .file index encoder => do
    let (encoder, out, complete) ← encoder.fill host.compressor out stream.chunkBytes
    if complete then
      let (crc, written, compressor) := encoder.finish
      let (plan, descriptor) ← stream.plan.writeDataDescriptor index crc written
      return ({ stream with plan, state := .entry (index + 1), compressor }, out ++ descriptor)
    else return ({ stream with state := .file index encoder }, out)
  | .central index =>
    if index = stream.plan.entries.length then
      return ({ stream with state := .done }, out ++ stream.plan.writeEnd)
    else do
      let header ← stream.plan.writeCentralHeader index
      return ({ stream with state := .central (index + 1) }, out ++ header)
  | .done => return (stream, out)

variable {host : ArchiveHost σ} {stream next : ArchiveStream σ} {out filled : List UInt8}

theorem writeLocalHeader_ne_nil {plan after : ZipPlan} {index : ℕ} {deflate : Bool} {header : List UInt8}
    (h : plan.writeLocalHeader index deflate = .ok (after, header)) : header ≠ [] := by
  unfold ZipPlan.writeLocalHeader at h
  split at h
  · cases h
  · obtain ⟨-, rfl⟩ := Prod.mk.inj (Except.ok.inj h)
    refine List.length_pos_iff.mp ?_
    rw [ZipEntry.localHeader_length]
    unfold ZipEntry.localLen localHeaderLen
    omega

theorem writeCentralHeader_ne_nil {plan : ZipPlan} {index : ℕ} {header : List UInt8}
    (h : plan.writeCentralHeader index = .ok header) : header ≠ [] := by
  unfold ZipPlan.writeCentralHeader at h
  split at h
  · cases h
  · obtain rfl := Except.ok.inj h
    refine List.length_pos_iff.mp ?_
    rw [ZipEntry.centralHeader_length]
    exact ZipEntry.centralLen_pos _

/-- A round adds to the chunk or comes nearer to the end. -/
theorem step_progress (h : host.step stream out = .ok (next, filled)) (hdone : stream.state.isDone = false)
    (hroom : out.length < stream.chunkBytes) :
    next.chunkBytes = stream.chunkBytes ∧ out <+: filled ∧
      (out.length < filled.length ∨ next.state.rank < stream.state.rank) := by
  obtain ⟨base, prefixLen, plan, state, sent, chunkBytes, compressor⟩ := stream
  have hgrows : ∀ more : List UInt8, more ≠ [] → out.length < (out ++ more).length := by
    intro more hmore
    rw [List.length_append]
    have := List.length_pos_of_ne_nil hmore
    omega
  unfold step at h
  cases state with
  | entry index =>
    dsimp only at h
    split at h
    · obtain ⟨plan, -, h⟩ := bind_eq_ok.mp h
      obtain ⟨rfl, rfl⟩ := Prod.mk.inj (Except.ok.inj h)
      exact ⟨rfl, List.prefix_rfl, .inr (Nat.lt_succ_self _)⟩
    · split at h
      · cases h
      · split at h
        · obtain ⟨⟨plan, header⟩, hheader, h⟩ := bind_eq_ok.mp h
          obtain ⟨rfl, rfl⟩ := Prod.mk.inj (Except.ok.inj h)
          exact ⟨rfl, List.prefix_append _ _, .inl (hgrows _ (writeLocalHeader_ne_nil hheader))⟩
        · obtain ⟨encoder, -, h⟩ := bind_eq_ok.mp h
          obtain ⟨⟨plan, header⟩, hheader, h⟩ := bind_eq_ok.mp h
          obtain ⟨rfl, rfl⟩ := Prod.mk.inj (Except.ok.inj h)
          exact ⟨rfl, List.prefix_append _ _, .inl (hgrows _ (writeLocalHeader_ne_nil hheader))⟩
  | file index encoder =>
    obtain ⟨⟨encoder, more, complete⟩, hfill, h⟩ := bind_eq_ok.mp h
    obtain ⟨hstarts, hbudget⟩ := fill_extends hfill
    cases complete with
    | true =>
      obtain ⟨⟨plan, descriptor⟩, -, h⟩ := bind_eq_ok.mp h
      obtain ⟨rfl, rfl⟩ := Prod.mk.inj (Except.ok.inj h)
      exact ⟨rfl, hstarts.trans (List.prefix_append _ _), .inr (Nat.lt_succ_self _)⟩
    | false =>
      obtain ⟨rfl, rfl⟩ := Prod.mk.inj (Except.ok.inj h)
      exact ⟨rfl, hstarts, .inl (Nat.lt_of_lt_of_le hroom (hbudget rfl))⟩
  | central index =>
    dsimp only at h
    split at h
    · obtain ⟨rfl, rfl⟩ := Prod.mk.inj (Except.ok.inj h)
      exact ⟨rfl, List.prefix_append _ _, .inr (Nat.lt_succ_self _)⟩
    · obtain ⟨header, hheader, h⟩ := bind_eq_ok.mp h
      obtain ⟨rfl, rfl⟩ := Prod.mk.inj (Except.ok.inj h)
      exact ⟨rfl, List.prefix_append _ _, .inl (hgrows _ (writeCentralHeader_ne_nil hheader))⟩
  | done => cases hdone

/-- The loop of `next_chunk`. -/
def fillChunk (host : ArchiveHost σ) (stream : ArchiveStream σ) (out : List UInt8) :
    Except ZipError (ArchiveStream σ × List UInt8) :=
  if _hloop : out.length < stream.chunkBytes ∧ stream.state.isDone = false then
    match _hstep : host.step stream out with
    | .error error => .error error
    | .ok (next, filled) => fillChunk host next filled
  else .ok (stream, out)
termination_by (stream.chunkBytes - out.length, stream.state.rank)
decreasing_by
  obtain ⟨hchunk, hstarts, hgrows | hrank⟩ := step_progress _hstep _hloop.2 _hloop.1
  · exact Prod.Lex.left _ _ (by omega)
  · rcases Nat.eq_or_lt_of_le hstarts.length_le with hsame | hgrows
    · rw [hchunk, ← hsame]
      exact Prod.Lex.right _ hrank
    · exact Prod.Lex.left _ _ (by omega)

/-- `next_chunk`. -/
def nextChunk (host : ArchiveHost σ) (stream : ArchiveStream σ) :
    Except StreamError (ArchiveStream σ × Option (List UInt8)) := do
  let (stream, out) ← (host.fillChunk stream []).mapError .zip
  let stream := { stream with sent := stream.sent + out.length }
  let overran := stream.plan.fixedLen.any (· < stream.sent)
  if overran ∨ (out = [] ∧ stream.sent ≠ stream.plan.len) then .error .lengthDiffers
  else return (stream, if out.isEmpty then none else some out)

/-- How a body ends. -/
inductive Ending where
  | complete
  | aborted (error : StreamError)
deriving DecidableEq, Repr

/-- The chunks of a number of polls, and how the body ends where it ends with them. -/
def polls (host : ArchiveHost σ) : ℕ → ArchiveStream σ → List (List UInt8) × Option Ending
  | 0, _ => ([], none)
  | count + 1, stream =>
    match host.nextChunk stream with
    | .error error => ([], some (.aborted error))
    | .ok (_, none) => ([], some .complete)
    | .ok (stream, some chunk) =>
      let (chunks, ending) := host.polls count stream
      (chunk :: chunks, ending)

end ArchiveHost

end Crabinet.Browse
