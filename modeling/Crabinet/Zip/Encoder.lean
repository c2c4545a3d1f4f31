import Crabinet.Library.StreamCompressor
import Crabinet.Zip.Crc32
import Crabinet.Zip.Plan

/-!
# The entry encoder

`EntryEncoder` reads one file, checksums it and stores or deflates it into the output buffer
of each call. The file is what its reads give, each of them short as it likes; the
compressor is an argument. Lengths are unbounded numbers, as no file is long enough for the
source's 64-bit counters to overflow.
-/

namespace Crabinet.Zip

open Crabinet.Library

/-- A file being read: the bytes it still gives, and how many of them each of its next reads may
give; a read gives at least one byte while there are any. -/
structure Source where
  bytes : List UInt8
  sizes : ℕ → ℕ

namespace Source

/-- How many bytes the next read gives at most. -/
def readSize (source : Source) (length : ℕ) : ℕ := min (max 1 (source.sizes 0)) length

/-- `read` into a buffer of a length: what it gives, and what is left. -/
def read (source : Source) (length : ℕ) : List UInt8 × Source :=
  (source.bytes.take (source.readSize length),
    ⟨source.bytes.drop (source.readSize length), fun next => source.sizes (next + 1)⟩)

theorem read_append (source : Source) (length : ℕ) :
    (source.read length).1 ++ (source.read length).2.bytes = source.bytes :=
  List.take_append_drop _ _

theorem length_read_le (source : Source) (length : ℕ) : (source.read length).1.length ≤ length := by
  rw [read, List.length_take, readSize]
  omega

/-- A read gives nothing only at the end of the file. -/
theorem read_eq_nil {source : Source} {length : ℕ} (hlength : 0 < length) :
    (source.read length).1 = [] ↔ source.bytes = [] := by
  rw [read, List.take_eq_nil_iff, readSize]
  constructor
  · rintro (hzero | hnil)
    · omega
    · exact hnil
  · exact .inr

/-- `read_exact` of a number of bytes, or `none` at an earlier end of the file. -/
def readExact (source : Source) (length : ℕ) : Option (List UInt8 × Source) :=
  if _hlength : length = 0 then some ([], source)
  else if _hread : (source.read length).1 = [] then none
  else do
    let (rest, source') ← (source.read length).2.readExact (length - (source.read length).1.length)
    some ((source.read length).1 ++ rest, source')
termination_by length
decreasing_by
  have := List.length_pos_of_ne_nil _hread
  omega

/-- Reading exactly succeeds where there are enough bytes, and gives the first of them. -/
theorem readExact_eq {source : Source} {length : ℕ} :
    (length ≤ source.bytes.length ∧ ∃ sizes, source.readExact length =
      some (source.bytes.take length, ⟨source.bytes.drop length, sizes⟩)) ∨
    (source.bytes.length < length ∧ source.readExact length = none) := by
  induction length using Nat.strong_induction_on generalizing source with
  | h length ih =>
    rw [readExact]
    split
    case isTrue hzero =>
      subst hzero
      exact .inl ⟨Nat.zero_le _, source.sizes, rfl⟩
    case isFalse hpos =>
      split
      case isTrue hread =>
        have hempty := (read_eq_nil (Nat.pos_of_ne_zero hpos)).mp hread
        refine .inr ⟨?_, rfl⟩
        rw [hempty, List.length_nil]
        exact Nat.pos_of_ne_zero hpos
      case isFalse hread =>
        have hall := source.read_append length
        have hle := source.length_read_le length
        have hchunk := List.length_pos_of_ne_nil hread
        generalize (source.read length).1 = chunk at *
        generalize (source.read length).2 = left at *
        rw [← hall, List.length_append]
        rcases @ih (length - chunk.length) (by omega) left with
          ⟨henough, sizes, hrest⟩ | ⟨hshort, hrest⟩
        · refine .inl ⟨by omega, sizes, ?_⟩
          rw [hrest, List.take_append, List.take_of_length_le hle, List.drop_append,
            List.drop_of_length_le hle, List.nil_append]
          rfl
        · refine .inr ⟨by omega, ?_⟩
          rw [hrest]
          rfl

end Source

/-- `EntryEncoder`. -/
structure EntryEncoder (σ : Type) where
  source : Source
  remaining : ℕ
  crc : Crc32
  written : ℕ
  pending : List UInt8
  consumed : ℕ
  compressor : Option σ
  deflate : Bool
  probed : Bool
  consumed_le : consumed ≤ pending.length

namespace EntryEncoder

variable {σ : Type}

/-- The bytes read and not yet passed on, `pending[consumed..]`. -/
def held (encoder : EntryEncoder σ) : List UInt8 := encoder.pending.drop encoder.consumed

theorem length_held (encoder : EntryEncoder σ) :
    encoder.held.length = encoder.pending.length - encoder.consumed := List.length_drop

/-- `read_pending`. -/
def readPending (encoder : EntryEncoder σ) (length : ℕ) : Except ZipError (EntryEncoder σ) :=
  match encoder.source.readExact length with
  | none => .error .entryChanged
  | some (pending, source) =>
    .ok { encoder with
      source, pending, consumed := 0, crc := encoder.crc.update pending
      remaining := encoder.remaining - length, consumed_le := Nat.zero_le _ }

/-- `probe_end`. -/
def probeEnd (encoder : EntryEncoder σ) : Except ZipError (EntryEncoder σ) :=
  if encoder.probed then .ok encoder
  else if (encoder.source.read 1).1 = [] then
    .ok { encoder with source := (encoder.source.read 1).2, probed := true }
  else .error .entryChanged

/-- `EntryEncoder::start`. -/
def start (compressor : StreamCompressor σ) (source : Source) (size : ℕ) (candidate : Bool)
    (previous : Option σ) : Except ZipError (EntryEncoder σ) := do
  let encoder : EntryEncoder σ :=
    { source, remaining := size, crc := Crc32.new, written := 0, pending := [], consumed := 0
      compressor := previous, deflate := false, probed := false, consumed_le := le_rfl }
  if !candidate then return encoder
  else
    let pfx := min size sniffBytes
    let encoder ← encoder.readPending pfx
    if sniffDeflate encoder.pending (pfx == size) then
      return { encoder with
        deflate := true
        compressor := some (match previous with
          | some state => compressor.reset state
          | none => compressor.new) }
    else return encoder

/-- Pass on what is held, as the start of `fill_stored`. -/
def passHeld (encoder : EntryEncoder σ) : EntryEncoder σ :=
  { encoder with
    written := encoder.written + encoder.held.length, consumed := encoder.pending.length
    consumed_le := le_rfl }

/-- The encoder after a read of `bytes` straight into the output. -/
def stored (encoder : EntryEncoder σ) (bytes : List UInt8) (source : Source) : EntryEncoder σ :=
  { encoder with
    source, crc := encoder.crc.update bytes, remaining := encoder.remaining - bytes.length
    written := encoder.written + bytes.length }

/-- The loop of `fill_stored`. -/
def storeLoop (encoder : EntryEncoder σ) (out : List UInt8) (budget : ℕ) :
    Except ZipError (EntryEncoder σ × List UInt8) :=
  if _hloop : out.length < budget ∧ 0 < encoder.remaining then
    let read := encoder.source.read (min encoder.remaining (budget - out.length))
    if _hread : read.1 = [] then .error .entryChanged
    else storeLoop (encoder.stored read.1 read.2) (out ++ read.1) budget
  else .ok (encoder, out)
termination_by encoder.remaining
decreasing_by
  have hread : 0 < read.1.length := List.length_pos_of_ne_nil _hread
  exact Nat.sub_lt _hloop.2 hread

/-- `fill_stored`. -/
def fillStored (encoder : EntryEncoder σ) (out : List UInt8) (budget : ℕ) :
    Except ZipError (EntryEncoder σ × List UInt8 × Bool) := do
  let (encoder, out) ← encoder.passHeld.storeLoop (out ++ encoder.held) budget
  if encoder.remaining > 0 then return (encoder, out, false)
  else
    let encoder ← encoder.probeEnd
    return (encoder, out, true)

/-- Read the next input where all of the last is consumed, and probe the end of the file where there
is no more. -/
def nextInput (encoder : EntryEncoder σ) : Except ZipError (EntryEncoder σ) := do
  let encoder ←
    if encoder.consumed = encoder.pending.length ∧ 0 < encoder.remaining then
      encoder.readPending (min encoder.remaining deflateInputBytes)
    else .ok encoder
  if encoder.remaining = 0 ∧ encoder.consumed = encoder.pending.length then encoder.probeEnd
  else return encoder

/-- Whether the whole input is with the compressor. -/
def finishing (encoder : EntryEncoder σ) : Bool :=
  encoder.remaining = 0 && encoder.consumed = encoder.pending.length

/-- The encoder after a call of the compressor. -/
def compressed (encoder : EntryEncoder σ) {space : ℕ} (result : Compressed σ encoder.held space) :
    EntryEncoder σ :=
  { encoder with
    compressor := some result.state, consumed := encoder.consumed + result.used
    written := encoder.written + result.output.length
    consumed_le := by
      have hused := result.used_le
      have hheld := encoder.length_held
      have hle := encoder.consumed_le
      omega }

theorem held_compressed (encoder : EntryEncoder σ) {space : ℕ}
    (result : Compressed σ encoder.held space) :
    (encoder.compressed result).held = encoder.held.drop result.used := by
  simp only [held, compressed, List.drop_drop]

/-- One round of `fill_deflated`: what it adds to the output, and whether the stream ended. -/
def deflateRound (compressor : StreamCompressor σ) (encoder : EntryEncoder σ) (space : ℕ) :
    Except ZipError (EntryEncoder σ × List UInt8 × Bool) := do
  let encoder ← encoder.nextInput
  match encoder.compressor with
  | none => .error .layout
  | some state =>
    let result := compressor.compress state encoder.held space encoder.finishing
    let after := encoder.compressed result
    match result.status with
    | .failed => .error .deflate
    | .streamEnd => return (after, result.output, true)
    | .ok =>
      if result.used = 0 ∧ result.output = [] ∧
          (encoder.finishing = true ∨ after.consumed < after.pending.length) then .error .deflate
      else return (after, result.output, false)

/-- Input that the compressor has not taken yet. -/
def left (encoder : EntryEncoder σ) : ℕ := encoder.remaining + encoder.held.length

/-- The encoder after it has read the next bytes into its own buffer. -/
def refilled (encoder : EntryEncoder σ) (length : ℕ) (sizes : ℕ → ℕ) : EntryEncoder σ :=
  { encoder with
    source := ⟨encoder.source.bytes.drop length, sizes⟩
    pending := encoder.source.bytes.take length, consumed := 0
    crc := encoder.crc.update (encoder.source.bytes.take length)
    remaining := encoder.remaining - length, consumed_le := Nat.zero_le _ }

/-- `read_pending` reads the next bytes where there are enough of them. -/
theorem readPending_eq (encoder : EntryEncoder σ) (length : ℕ) :
    (length ≤ encoder.source.bytes.length ∧ ∃ sizes,
      encoder.readPending length = .ok (encoder.refilled length sizes)) ∨
    (encoder.source.bytes.length < length ∧ encoder.readPending length = .error .entryChanged) := by
  unfold readPending
  rcases @Source.readExact_eq encoder.source length with ⟨henough, sizes, hread⟩ | ⟨hshort, hread⟩
  · rw [hread]
    exact .inl ⟨henough, sizes, rfl⟩
  · rw [hread]
    exact .inr ⟨hshort, rfl⟩

theorem length_held_refilled {encoder : EntryEncoder σ} {length : ℕ} {sizes : ℕ → ℕ}
    (henough : length ≤ encoder.source.bytes.length) :
    (encoder.refilled length sizes).held.length = length := by
  rw [held, refilled, List.drop_zero, List.length_take_of_le henough]

/-- The next input is read where none is held, and the end of the file probed where none is left. -/
theorem nextInput_eq (encoder : EntryEncoder σ) :
    encoder.nextInput =
      if encoder.consumed = encoder.pending.length then
        if 0 < encoder.remaining then
          encoder.readPending (min encoder.remaining deflateInputBytes)
        else encoder.probeEnd
      else .ok encoder := by
  unfold nextInput
  by_cases hheld : encoder.consumed = encoder.pending.length
  · by_cases hleft : 0 < encoder.remaining
    · rw [if_pos ⟨hheld, hleft⟩, if_pos hheld, if_pos hleft]
      rcases encoder.readPending_eq (min encoder.remaining deflateInputBytes) with
        ⟨henough, sizes, hread⟩ | ⟨-, hread⟩
      · have hbytes : 0 < deflateInputBytes := by decide
        have hlength := @length_held_refilled _ _ _ sizes henough
        rw [hread, ok_bind]
        beta_reduce
        rw [if_neg]
        · rfl
        · rintro ⟨-, hzero⟩
          rw [length_held] at hlength
          omega
      · rw [hread]
        rfl
    · have hzero : encoder.remaining = 0 := by omega
      rw [if_neg fun h => hleft h.2, if_pos hheld, if_neg hleft, ok_bind]
      exact if_pos ⟨hzero, hheld⟩
  · rw [if_neg fun h => hheld h.1, if_neg hheld, ok_bind]
    exact if_neg fun h => hheld h.2

/-- Probing the end of the file changes only what it found. -/
theorem probeEnd_eq_ok {encoder next : EntryEncoder σ} (h : encoder.probeEnd = .ok next) :
    next = { encoder with source := next.source, probed := true } ∧
      (encoder.probed = false → encoder.source.bytes = [] ∧ next.source.bytes = []) := by
  unfold probeEnd at h
  split at h
  · rename_i hprobed
    obtain rfl := Except.ok.inj h
    refine ⟨?_, fun hnot => ?_⟩
    · obtain ⟨source, remaining, crc, written, pending, consumed, state, deflate, probed, hle⟩ := encoder
      obtain rfl : probed = true := hprobed
      rfl
    · rw [hprobed] at hnot
      cases hnot
  · split at h
    · rename_i hread
      obtain rfl := Except.ok.inj h
      have hnil := (Source.read_eq_nil Nat.one_pos).mp hread
      exact ⟨rfl, fun _ => ⟨hnil, by simp [Source.read, hnil]⟩⟩
    · cases h

theorem left_nextInput {encoder next : EntryEncoder σ} (h : encoder.nextInput = .ok next) :
    next.left = encoder.left := by
  rw [nextInput_eq] at h
  split at h
  · rename_i hheld
    split at h
    · rcases encoder.readPending_eq (min encoder.remaining deflateInputBytes) with
        ⟨henough, sizes, hread⟩ | ⟨-, hread⟩
      · obtain rfl := Except.ok.inj (hread.symm.trans h)
        rw [left, length_held_refilled henough, left, length_held, hheld, refilled]
        dsimp only
        omega
      · cases hread.symm.trans h
    · rw [(probeEnd_eq_ok h).1]
      rfl
  · obtain rfl := Except.ok.inj h
    rfl

theorem held_eq_nil {encoder : EntryEncoder σ} :
    encoder.held = [] ↔ encoder.consumed = encoder.pending.length := by
  have hle := encoder.consumed_le
  rw [← List.length_eq_zero_iff, length_held]
  omega

/-- The compressor is called with input, or to finish where the end of the file was probed. -/
theorem finishing_or_held {encoder fed : EntryEncoder σ} (h : encoder.nextInput = .ok fed) :
    (fed.finishing = true ∧ fed.held = [] ∧ fed.remaining = 0 ∧ fed.probed = true) ∨
      (fed.finishing = false ∧ fed.held ≠ []) := by
  rw [nextInput_eq] at h
  split at h
  · rename_i hheld
    split at h
    · rcases encoder.readPending_eq (min encoder.remaining deflateInputBytes) with
        ⟨henough, sizes, hread⟩ | ⟨-, hread⟩
      · obtain rfl := Except.ok.inj (hread.symm.trans h)
        have hbytes : 0 < deflateInputBytes := by decide
        have hlength := @length_held_refilled _ _ _ sizes henough
        have hne : (encoder.refilled (min encoder.remaining deflateInputBytes) sizes).held ≠ [] :=
          List.ne_nil_of_length_pos (by omega)
        refine .inr ⟨?_, hne⟩
        rw [Ne, held_eq_nil] at hne
        simp [finishing, hne]
      · cases hread.symm.trans h
    · have hzero : encoder.remaining = 0 := by omega
      rw [(probeEnd_eq_ok h).1]
      exact .inl ⟨by simp [finishing, hzero, hheld], held_eq_nil.mpr hheld, hzero, rfl⟩
  · rename_i hheld
    obtain rfl := Except.ok.inj h
    exact .inr ⟨by simp [finishing, hheld], mt held_eq_nil.mp hheld⟩

/-- Where a round stops and goes on: the compressor took some input, or gave some output. -/
theorem deflateRound_eq_ok {compressor : StreamCompressor σ} {encoder next : EntryEncoder σ}
    {space : ℕ} {output : List UInt8} {ended : Bool}
    (h : encoder.deflateRound compressor space = .ok (next, output, ended)) :
    ∃ fed state, encoder.nextInput = .ok fed ∧ fed.compressor = some state ∧
      ∃ result, result = compressor.compress state fed.held space fed.finishing ∧
        next = fed.compressed result ∧ output = result.output ∧
        (ended = true → result.status = .streamEnd) ∧
        (ended = false → result.status = .ok ∧ (0 < result.used ∨ output ≠ [])) := by
  obtain ⟨fed, hfed, h⟩ := bind_eq_ok.mp h
  split at h
  · cases h
  rename_i state hstate
  refine ⟨fed, state, hfed, hstate, _, rfl, ?_⟩
  dsimp only at h
  generalize compressor.compress state fed.held space fed.finishing = result at h
  split at h
  · cases h
  · rename_i hstatus
    obtain ⟨rfl, hrest⟩ := Prod.mk.inj (Except.ok.inj h)
    obtain ⟨rfl, rfl⟩ := Prod.mk.inj hrest
    exact ⟨rfl, rfl, fun _ => hstatus, nofun⟩
  · rename_i hstatus
    rw [ite_error_eq_ok] at h
    obtain ⟨hprogress, h⟩ := h
    obtain ⟨rfl, hrest⟩ := Prod.mk.inj (Except.ok.inj h)
    obtain ⟨rfl, rfl⟩ := Prod.mk.inj hrest
    refine ⟨rfl, rfl, nofun, fun _ => ⟨hstatus, ?_⟩⟩
    by_contra hnone
    rw [not_or, Nat.not_lt, Nat.le_zero, not_not] at hnone
    refine hprogress ⟨hnone.1, hnone.2, ?_⟩
    rcases finishing_or_held hfed with ⟨hfinish, -⟩ | ⟨-, hheld⟩
    · exact .inl hfinish
    · refine .inr ?_
      have hle := fed.consumed_le
      rw [Ne, held_eq_nil] at hheld
      simp only [compressed, hnone.1]
      omega

/-- A round that does not end the stream passes input on or adds output. -/
theorem left_deflateRound {compressor : StreamCompressor σ} {encoder next : EntryEncoder σ}
    {space : ℕ} {output : List UInt8}
    (h : encoder.deflateRound compressor space = .ok (next, output, false)) :
    next.left ≤ encoder.left ∧ (output = [] → next.left < encoder.left) := by
  obtain ⟨fed, state, hfed, -, result, -, rfl, rfl, -, hgoes⟩ := deflateRound_eq_ok h
  have hused := result.used_le
  have hle := (fed.compressed result).length_held
  have hheld := fed.length_held
  have hleft : (fed.compressed result).left + result.used = fed.left := by
    simp only [left, compressed] at hle ⊢
    omega
  rw [← left_nextInput hfed]
  refine ⟨by omega, fun hnone => ?_⟩
  rcases (hgoes rfl).2 with htook | hgave
  · omega
  · exact absurd hnone hgave

/-- `fill_deflated`. -/
def fillDeflated (compressor : StreamCompressor σ) (encoder : EntryEncoder σ) (out : List UInt8)
    (budget : ℕ) : Except ZipError (EntryEncoder σ × List UInt8 × Bool) :=
  if _hloop : out.length < budget then
    match _hround : encoder.deflateRound compressor (budget - out.length) with
    | .error error => .error error
    | .ok (next, output, true) => .ok (next, out ++ output, true)
    | .ok (next, output, false) => fillDeflated compressor next (out ++ output) budget
  else .ok (encoder, out, false)
termination_by encoder.left + (budget - out.length)
decreasing_by
  obtain ⟨hle, hlt⟩ := left_deflateRound _hround
  rw [List.length_append]
  rcases output with _ | ⟨byte, output⟩
  · have := hlt rfl
    omega
  · rw [List.length_cons]
    omega

/-- `fill`. -/
def fill (compressor : StreamCompressor σ) (encoder : EntryEncoder σ) (out : List UInt8)
    (budget : ℕ) : Except ZipError (EntryEncoder σ × List UInt8 × Bool) :=
  if encoder.deflate then encoder.fillDeflated compressor out budget
  else encoder.fillStored out budget

/-- `finish`. -/
def finish (encoder : EntryEncoder σ) : BitVec 32 × ℕ × Option σ :=
  (encoder.crc.finish, encoder.written, encoder.compressor)

end EntryEncoder

end Crabinet.Zip
