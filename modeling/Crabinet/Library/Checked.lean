import Mathlib.Algebra.Ring.Nat
import Mathlib.Data.Nat.Basic

/-!
# Values of machine types

A computed value that must fit a machine type, and a division whose divisor must not be zero.
A computation that never fails with these has neither overflows nor lossy casts.
-/

namespace Crabinet.Library

variable {max value divisor : ℕ}

/-- The largest value of a type of some bits. -/
def maxOfBits (bits : ℕ) : ℕ := 2 ^ bits - 1

/-- A value that a type with this largest value holds. -/
def checked (max value : ℕ) : Option ℕ := if value ≤ max then some value else none

/-- A quotient. -/
def checkedDiv (value divisor : ℕ) : Option ℕ := if divisor = 0 then none else some (value / divisor)

/-- A quotient rounded up. -/
def checkedDivCeil (value divisor : ℕ) : Option ℕ :=
  if divisor = 0 then none else some ((value + divisor - 1) / divisor)

/-- A sum, or the largest value. -/
def saturatingAdd (max first second : ℕ) : ℕ := min (first + second) max

/-- A byte that a cast takes without loss. -/
def checkedByte (value : ℕ) : Option UInt8 :=
  if value < 256 then some (UInt8.ofNat value) else none

theorem checked_of_le (h : value ≤ max) : checked max value = some value := if_pos h

theorem checked_eq_some_iff {result : ℕ} :
    checked max value = some result ↔ value ≤ max ∧ value = result := by
  rw [checked, Option.ite_none_right_eq_some, Option.some.injEq]

theorem checkedDiv_of_pos (h : 0 < divisor) : checkedDiv value divisor = some (value / divisor) :=
  if_neg (Nat.ne_of_gt h)

/-- A chain of checked operations succeeds when each of them does. -/
theorem exists_bind_eq_some {α β : Type} {x : Option α} {next : α → Option β} {a : α} (hx : x = some a)
    (h : ∃ b, next a = some b) : ∃ b, (x >>= next) = some b := by
  subst hx
  exact h

theorem checkedDivCeil_of_pos (h : 0 < divisor) :
    checkedDivCeil value divisor = some ((value + divisor - 1) / divisor) :=
  if_neg (Nat.ne_of_gt h)

theorem checkedByte_of_lt (h : value < 256) : checkedByte value = some (UInt8.ofNat value) := if_pos h

end Crabinet.Library
