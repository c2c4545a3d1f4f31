import Crabinet.Library.Framing
import Crabinet.Library.Traced

/-!
# Directories of a TIFF file

A walker knows the declared length of its file and the byte order. It reads the entries of a
directory and the values of an entry, which lie in the entry itself or where the entry points
to, and asks for no byte behind the declared length.
-/

namespace Crabinet.Thumbnail.Tiff

open Crabinet.Library Crabinet.Library.Traced

/-- `MAX_ENTRIES`. -/
def maxEntries : ℕ := 512

def tagCompression : ℕ := 0x0103
def tagPhotometric : ℕ := 0x0106
def tagStripOffsets : ℕ := 0x0111
def tagOrientation : ℕ := 0x0112
def tagStripByteCounts : ℕ := 0x0117
def tagSubIfds : ℕ := 0x014a
def tagJpegOffset : ℕ := 0x0201
def tagJpegLength : ℕ := 0x0202
def tagExifIfd : ℕ := 0x8769

def typeShort : ℕ := 3
def typeLong : ℕ := 4
def typeIfd : ℕ := 13

/-- `PHOTOMETRIC_CFA`. -/
def photometricCfa : ℕ := 32803

/-- `PHOTOMETRIC_LINEAR_RAW`. -/
def photometricLinearRaw : ℕ := 34892

/-- `Endian`. -/
inductive Endian where
  | little | big
deriving DecidableEq, Repr

/-- `is_tiff`. -/
def isTiff (header : List UInt8) : Bool :=
  [[0x49, 0x49, 0x2a, 0x00], [0x4d, 0x4d, 0x00, 0x2a], [0x49, 0x49, 0x52, 0x4f],
    [0x49, 0x49, 0x52, 0x53], [0x4d, 0x4d, 0x4f, 0x52]].contains (header.take 4)

/-- `Entry`; its value is the four bytes as they stand in the file. -/
structure Entry where
  tag : ℕ
  kind : ℕ
  count : ℕ
  value : List UInt8

/-- `Walker`. -/
structure Walker where
  reader : List UInt8
  len : ℕ
  endian : Endian

/-- `as_chunks` and `chunks_exact`: so many chunks of `n` bytes. -/
def chunks (n : ℕ) : ℕ → List UInt8 → List (List UInt8)
  | 0, _ => []
  | count + 1, bytes => bytes.take n :: chunks n count (bytes.drop n)

namespace Walker

variable (walker : Walker)

/-- `read_at`. -/
def readAt (offset count : ℕ) : Traced Unit (List UInt8) :=
  if offset + count < 2 ^ 64 ∧ offset + count ≤ walker.len then
    read walker.reader offset count ()
  else fail ()

/-- `u16` and `u32`: the number of some bytes in the byte order of the file. -/
def number (bytes : List UInt8) : ℕ :=
  match walker.endian with
  | .little => leValue bytes
  | .big => beValue bytes

/-- An entry of a directory in its twelve bytes. -/
def entry (bytes : List UInt8) : Entry where
  tag := walker.number (bytes.take 2)
  kind := walker.number ((bytes.drop 2).take 2)
  count := walker.number ((bytes.drop 4).take 4)
  value := (bytes.drop 8).take 4

/-- `directory`. -/
def directory (offset : ℕ) : Traced Unit (List Entry × ℕ) := do
  let count ← walker.readAt offset 2
  let count := walker.number count
  if count = 0 ∨ count > maxEntries then fail ()
  else do
    let start ← add64 offset 2
    let raw ← walker.readAt start (count * 12 + 4)
    pure ((chunks 12 count raw).map walker.entry, walker.number (raw.drop (count * 12)))

/-- The bytes of one value of a type. -/
def valueSize (kind : ℕ) : Option ℕ :=
  if kind = typeShort then some 2
  else if kind = typeLong ∨ kind = typeIfd then some 4
  else none

/-- `values`. -/
def values (entry : Entry) (max : ℕ) : Traced Unit (List ℕ) :=
  match valueSize entry.kind with
  | none => fail ()
  | some size =>
    if entry.count = 0 ∨ entry.count > max then fail ()
    else do
      let total := entry.count * size
      let bytes ← if total ≤ 4 then pure (entry.value.take total)
        else walker.readAt (walker.number entry.value) total
      pure ((chunks size entry.count bytes).map walker.number)

/-- `single`. -/
def single (entry : Entry) : Traced Unit ℕ := do
  let values ← walker.values entry 1
  match values with
  | value :: _ => pure value
  | [] => fail ()

end Walker

@[simp] theorem chunks_length (n count : ℕ) (bytes : List UInt8) :
    (chunks n count bytes).length = count := by
  induction count generalizing bytes with
  | zero => rfl
  | succ count ih => rw [chunks, List.length_cons, ih]

namespace Walker

variable {walker : Walker}

/-- Every read lies in front of the declared length. -/
theorem readAt_bounded (walker : Walker) (offset count : ℕ) :
    Bounded walker.len count (fun _ => True) (fun _ => offset + count < 2 ^ 64)
      (walker.readAt offset count) := by
  unfold readAt
  split
  case isTrue h => exact bounded_read h.2 le_rfl (fun _ => trivial) fun _ _ => h.1
  case isFalse h => exact bounded_fail trivial

/-- The bytes of the largest directory. -/
def directoryBudget : ℕ := 2 + (maxEntries * 12 + 4)

theorem directory_bounded (walker : Walker) (offset : ℕ) :
    Bounded walker.len directoryBudget (fun _ => True) (fun found => found.1.length ≤ maxEntries)
      (walker.directory offset) := by
  refine (readAt_bounded walker offset 2).bind _ _ fun bytes hoffset => ?_
  dsimp only
  split
  case isTrue h => exact bounded_fail trivial
  case isFalse h =>
    rw [not_or, not_lt] at h
    rw [add64_eq hoffset, pure_bind]
    refine Bounded.mono (Bounded.bind _ 0 (readAt_bounded walker _ _) fun raw _ => bounded_pure ?_)
      ?_ (fun _ h => h) fun _ h => h
    · rw [List.length_map, chunks_length]
      exact h.2
    · have := Nat.mul_le_mul_right 12 h.2
      omega

theorem valueSize_le {kind size : ℕ} (h : valueSize kind = some size) : size ≤ 4 := by
  unfold valueSize at h
  split at h
  · exact Option.some.inj h ▸ by decide
  · split at h
    · exact (Option.some.inj h).ge
    · cases h

/-- An entry has at least one value, and no more than it is asked for. -/
theorem values_bounded (walker : Walker) (entry : Entry) (max : ℕ) :
    Bounded walker.len (max * 4) (fun _ => True) (fun values => values ≠ [] ∧ values.length ≤ max)
      (walker.values entry max) := by
  unfold values
  cases hkind : valueSize entry.kind with
  | none => exact bounded_fail trivial
  | some size =>
    dsimp only
    split
    case isTrue h => exact bounded_fail trivial
    case isFalse h =>
      rw [not_or, not_lt] at h
      have htotal : entry.count * size ≤ max * 4 := Nat.mul_le_mul h.2 (valueSize_le hkind)
      have hpost (bytes : List UInt8) :
          (chunks size entry.count bytes).map walker.number ≠ [] ∧
            ((chunks size entry.count bytes).map walker.number).length ≤ max := by
        rw [← List.length_pos_iff, List.length_map, chunks_length]
        exact ⟨Nat.pos_of_ne_zero h.1, h.2⟩
      split
      · exact bounded_pure (hpost _)
      · exact Bounded.bind _ 0 ((readAt_bounded walker _ _).mono htotal (fun _ h => h) fun _ h => h)
          fun bytes _ => bounded_pure (hpost bytes)

theorem single_bounded (walker : Walker) (entry : Entry) :
    Bounded walker.len 4 (fun _ => True) (fun _ => True) (walker.single entry) := by
  refine (values_bounded walker entry 1).bind _ 0 fun values hvalues => ?_
  cases values with
  | nil => exact absurd rfl hvalues.1
  | cons value rest => exact bounded_pure trivial

end Walker

end Crabinet.Thumbnail.Tiff
