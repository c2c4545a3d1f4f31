import Mathlib.Data.Nat.Basic

/-!
# Metadata shared by every filesystem operation

Error categories, entry kinds and the metadata validator. Times are kept as whole
seconds relative to the Unix epoch with a nanosecond part, so times before the epoch
are values like any other.
-/

namespace Crabinet.Filesystem

/-- `FsErrorCode`. -/
inductive FsErrorCode where
  | accessDenied | conflict | crossDevice | invalidPath | notFound | tooLarge | tooDeep
  | unsupportedEntry | unavailable
deriving DecidableEq, Repr

/-- `FsResult`. -/
abbrev FsResult (α : Type) := Except FsErrorCode α

/-- A point in time: seconds since the Unix epoch, and nanoseconds within that second. -/
structure SystemTime where
  seconds : ℤ
  nanos : Fin 1000000000
deriving DecidableEq, Repr

/-- `duration_since(UNIX_EPOCH)`, in whole seconds; `none` before the epoch. -/
def SystemTime.secondsSinceEpoch (time : SystemTime) : Option ℕ :=
  if 0 ≤ time.seconds then some time.seconds.toNat else none

/-- `EntryKind`. -/
inductive EntryKind where
  | directory | file
deriving DecidableEq, Repr

/-- `EntryMetadata`; the access and creation times never enter a validator. -/
structure EntryMetadata where
  kind : EntryKind
  size : ℕ
  modified : Option SystemTime
  fileId : ℕ
deriving DecidableEq, Repr

/-- `EntryMetadata::matches_validator`. -/
def EntryMetadata.matchesValidator (self other : EntryMetadata) : Bool :=
  self.kind == other.kind && self.size == other.size && self.modified == other.modified &&
    self.fileId == other.fileId

/-- A validator matches exactly the metadata it was taken from. -/
theorem EntryMetadata.matchesValidator_iff (self other : EntryMetadata) :
    self.matchesValidator other = true ↔ self = other := by
  cases self
  cases other
  simp [matchesValidator, and_assoc]

end Crabinet.Filesystem
