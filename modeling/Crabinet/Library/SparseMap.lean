import Crabinet.Library.KeyedMap
import Mathlib.Logic.Function.Basic

/-!
# Maps that leave out defaults

A total function from keys to records, kept as a finite map: a key whose record is the default has
no value, any other has that of its record.
-/

namespace Crabinet.Library

variable {κ ν ρ : Type} [DecidableEq κ] [DecidableEq ρ]

/-- The map has the values of the records other than the default. -/
def Sparse (encode : ρ → ν) (default : ρ) (map : KeyedMap κ ν) (records : κ → ρ) : Prop :=
  ∀ key, map.get? key = if records key = default then none else some (encode (records key))

variable {encode : ρ → ν} {default record : ρ} {map written : KeyedMap κ ν} {records : κ → ρ} {key : κ}

theorem sparse_empty (encode : ρ → ν) (default : ρ) :
    Sparse encode default (.empty : KeyedMap κ ν) fun _ => default :=
  fun _ => (if_pos rfl).symm

/-- The value of a key, or that of the default, is its record's. -/
theorem Sparse.getD_eq (h : Sparse encode default map records) (key : κ) :
    (map.get? key).getD (encode default) = encode (records key) := by
  rw [h key]
  split
  · rename_i hdefault
    rw [hdefault]
    rfl
  · rfl

/-- A value is there just for the records other than the default. -/
theorem Sparse.isSome_iff (h : Sparse encode default map records) (key : κ) :
    (map.get? key).isSome ↔ records key ≠ default := by
  rw [h key]
  split <;> simp_all

/-- Writing one key writes its record. -/
theorem Sparse.write (h : Sparse encode default map records)
    (hkey : written.get? key = if record = default then none else some (encode record))
    (hother : ∀ other ≠ key, written.get? other = map.get? other) :
    Sparse encode default written (Function.update records key record) := by
  intro other
  by_cases heq : other = key
  · subst heq
    rw [Function.update_self, hkey]
  · rw [Function.update_of_ne heq, hother other heq, h other]

end Crabinet.Library
