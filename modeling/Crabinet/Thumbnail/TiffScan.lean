import Crabinet.Thumbnail.Tiff

/-!
# The scan of a TIFF file

The scan visits directories from a stack of those that are pending, starting with the first of
the file. A directory refers to the next one in its chain and to children of its own, and any of
these references may lead back. Only so many directories are visited, none twice.
-/

namespace Crabinet.Thumbnail.Tiff

open Crabinet.Library Crabinet.Library.Traced

/-- `MAX_IFDS`. -/
def maxIfds : ℕ := 32

/-- `MAX_DEPTH`. -/
def maxDepth : ℕ := 4

/-- `MAX_SUB_IFDS`. -/
def maxSubIfds : ℕ := 8

/-- `MAX_CANDIDATES`. -/
def maxCandidates : ℕ := 16

/-- `Candidate`. -/
structure Candidate where
  offset : ℕ
  length : ℕ
deriving DecidableEq, Repr

/-- `TiffScan`. -/
structure TiffScan where
  orientation : Option ℕ
  candidates : List Candidate
deriving DecidableEq, Repr

/-- How a scan ends without a result: it returns `None`, or its loop is cut short after the
turns it was given. -/
inductive Ending where
  | refused | exhausted
deriving DecidableEq, Repr

/-- `push_candidate`. -/
def pushCandidate (result : TiffScan) (len offset length : ℕ) : TiffScan :=
  let inBounds := length ≥ 4 ∧ offset + length < 2 ^ 64 ∧ offset + length ≤ len
  let candidate : Candidate := ⟨offset, length⟩
  if inBounds ∧ result.candidates.length < maxCandidates ∧ candidate ∉ result.candidates then
    { result with candidates := result.candidates ++ [candidate] }
  else result

/-- What the loop over the entries of a directory sets. The top of the stack is the first of the
pending directories, each with its depth. -/
structure Seen where
  orientation : Option ℕ
  pending : List (ℕ × ℕ)
  compression : Option ℕ
  photometric : Option ℕ
  stripOffsets : Option (List ℕ)
  stripCounts : Option (List ℕ)
  jpegOffset : Option ℕ
  jpegLength : Option ℕ

/-- The variables of the loop of `scan`. -/
structure State where
  visited : List ℕ
  pending : List (ℕ × ℕ)
  result : TiffScan
  readFirst : Bool

/-- An orientation that a tag may state: `u8::try_from`, then the check of its range. -/
def asOrientation (value : Option ℕ) : Option ℕ :=
  (value.filter (· < 256)).filter fun value => 1 ≤ value ∧ value ≤ 8

namespace Walker

variable (walker : Walker)

/-- One turn of the loop over the entries. -/
def readEntry (isFirst : Bool) (depth : ℕ) (seen : Seen) (entry : Entry) : Traced Ending Seen :=
  if entry.tag = tagOrientation ∧ isFirst = true then do
    let value ← attempt (walker.single entry)
    pure { seen with orientation := asOrientation value }
  else if entry.tag = tagCompression then do
    let value ← attempt (walker.single entry)
    pure { seen with compression := value }
  else if entry.tag = tagPhotometric then do
    let value ← attempt (walker.single entry)
    pure { seen with photometric := value }
  else if entry.tag = tagStripOffsets then do
    let values ← attempt (walker.values entry 1)
    pure { seen with stripOffsets := values }
  else if entry.tag = tagStripByteCounts then do
    let values ← attempt (walker.values entry 1)
    pure { seen with stripCounts := values }
  else if entry.tag = tagJpegOffset then do
    let value ← attempt (walker.single entry)
    pure { seen with jpegOffset := value }
  else if entry.tag = tagJpegLength then do
    let value ← attempt (walker.single entry)
    pure { seen with jpegLength := value }
  else if entry.tag = tagSubIfds ∧ depth < maxDepth then do
    let children ← attempt (walker.values entry maxSubIfds)
    match children with
    | some children =>
      pure { seen with pending := (children.map (·, depth + 1)).reverse ++ seen.pending }
    | none => pure seen
  else if entry.tag = tagExifIfd ∧ depth < maxDepth then do
    let child ← attempt (walker.single entry)
    match child with
    | some child => pure { seen with pending := (child, depth + 1) :: seen.pending }
    | none => pure seen
  else pure seen

/-- The candidate of the tags of an embedded JPEG. -/
def pushJpeg (seen : Seen) (result : TiffScan) : TiffScan :=
  match seen.jpegOffset, seen.jpegLength with
  | some offset, some length => pushCandidate result walker.len offset length
  | _, _ => result

/-- The candidate of a compressed strip, `offsets[0]` and `counts[0]`. -/
def pushStrip (seen : Seen) (result : TiffScan) : Traced Ending TiffScan :=
  let rawData := seen.photometric = some photometricCfa ∨
    seen.photometric = some photometricLinearRaw
  if (seen.compression = some 6 ∨ seen.compression = some 7) ∧ ¬rawData then
    match seen.stripOffsets, seen.stripCounts with
    | some (offset :: _), some (count :: _) =>
      pure (pushCandidate result walker.len offset count)
    | some _, some _ => panicked
    | _, _ => pure result
  else pure result

/-- The visit of a directory that has not been visited before. -/
def visit (first : ℕ) (state : State) (offset depth : ℕ) : Traced Ending State := do
  let found ← attempt (walker.directory offset)
  match found with
  | none =>
    if offset = first then fail .refused
    else pure { state with visited := state.visited ++ [offset] }
  | some (entries, next) => do
    let isFirst := decide (offset = first)
    let seen ← entries.foldlM (walker.readEntry isFirst depth)
      ⟨state.result.orientation, state.pending, none, none, none, none, none, none⟩
    let result := walker.pushJpeg seen { state.result with orientation := seen.orientation }
    let result ← walker.pushStrip seen result
    pure {
      visited := state.visited ++ [offset]
      pending := if next ≠ 0 then (next, depth) :: seen.pending else seen.pending
      result, readFirst := state.readFirst || isFirst }

/-- One turn of the loop, which ends when nothing is pending. -/
def turn (first : ℕ) (state : State) : Traced Ending (Option State) :=
  match state.pending with
  | [] => pure none
  | (offset, depth) :: pending =>
    if offset < 8 ∨ state.visited.length ≥ maxIfds ∨ offset ∈ state.visited then
      pure (some { state with pending })
    else do
      let state ← walker.visit first { state with pending } offset depth
      pure (some state)

/-- So many turns of the loop at most. -/
def loop (first : ℕ) : ℕ → State → Traced Ending State
  | 0, _ => fail .exhausted
  | turns + 1, state => do
    let next ← walker.turn first state
    match next with
    | none => pure state
    | some state => loop first turns state

end Walker

/-- Where the loop starts. -/
def State.start (first : ℕ) : State := ⟨[], [(first, 0)], ⟨none, []⟩, false⟩

/-- The most turns that a loop may take from a state on. A visit pushes the children of the entries
and the next directory. -/
def State.turns (state : State) : ℕ :=
  state.pending.length + (maxIfds - state.visited.length) * (maxEntries * maxSubIfds + 2)

/-- `scan`. -/
def scan (reader : List UInt8) (len : ℕ) : Traced Ending TiffScan :=
  if len < 8 then fail .refused
  else do
    let header ← read reader 0 8 .refused
    if ¬isTiff header then fail .refused
    else do
      let endian := if header.head? = some 0x49 then Endian.little else Endian.big
      let walker : Walker := ⟨reader, len, endian⟩
      let first := walker.number ((header.drop 4).take 4)
      let state ← walker.loop first ((State.start first).turns + 1) (State.start first)
      if state.readFirst then pure state.result else fail .refused

end Crabinet.Thumbnail.Tiff
