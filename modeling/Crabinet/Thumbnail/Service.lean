import Mathlib.Algebra.Order.Floor.Div

/-!
# The memory budget of thumbnails

The budget is counted in permits of one kibibyte. An estimate is rounded up to whole permits,
and what fits in the budget needs no more permits than there are.
-/

namespace Crabinet.Thumbnail

/-- `HARD_MAX_DECODE_MEMORY`. -/
def hardMaxDecodeMemory : ℕ := 4 * 1024 * 1024 * 1024

/-- `HARD_MAX_CACHE_BYTES`. -/
def hardMaxCacheBytes : ℕ := 64 * 1024 * 1024 * 1024

/-- `BUDGET_UNIT`. -/
def budgetUnit : ℕ := 1024

/-- `ThumbnailConfigError`. -/
inductive ThumbnailConfigError where
  | invalidBudget
deriving DecidableEq

/-- The budget of `ThumbnailService`: its permits, and the capacity they stand for. -/
structure ThumbnailService where
  units : ℕ
  capacity : ℕ
  capacity_eq : capacity = units * budgetUnit
  units_pos : 0 < units
  units_lt : units < 2 ^ 32

namespace ThumbnailService

/-- `ThumbnailService::new`. -/
def new (maxDecodeMemory : ℕ) : Except ThumbnailConfigError ThumbnailService :=
  if h : budgetUnit ≤ maxDecodeMemory ∧ maxDecodeMemory ≤ hardMaxDecodeMemory then
    .ok ⟨maxDecodeMemory / budgetUnit, maxDecodeMemory / budgetUnit * budgetUnit, rfl,
      Nat.div_pos h.1 (by decide), by
        have := h.2
        unfold hardMaxDecodeMemory at this
        unfold budgetUnit
        omega⟩
  else .error .invalidBudget

/-- `fits`. -/
def fits (service : ThumbnailService) (estimate : ℕ) : Bool := estimate ≤ service.capacity

/-- The permits that `reserve` asks for. -/
def permits (bytes : ℕ) : ℕ := max (bytes ⌈/⌉ budgetUnit) 1

/-- A budget can be made of every size in its bounds, and of no other. -/
theorem new_isOk_iff {maxDecodeMemory : ℕ} :
    (∃ service, new maxDecodeMemory = .ok service) ↔
      budgetUnit ≤ maxDecodeMemory ∧ maxDecodeMemory ≤ hardMaxDecodeMemory := by
  unfold new
  split
  · rename_i h
    exact iff_of_true ⟨_, rfl⟩ h
  · rename_i h
    exact iff_of_false nofun h

/-- A budget is no larger than what was configured. -/
theorem capacity_le {maxDecodeMemory : ℕ} {service : ThumbnailService}
    (h : new maxDecodeMemory = .ok service) : service.capacity ≤ maxDecodeMemory := by
  unfold new at h
  split at h
  · obtain rfl := Except.ok.inj h
    exact Nat.div_mul_le_self maxDecodeMemory budgetUnit
  · cases h

/-- An estimate is covered by its permits. -/
theorem le_permits_mul (bytes : ℕ) : bytes ≤ permits bytes * budgetUnit := by
  have hcovered : bytes ≤ (bytes ⌈/⌉ budgetUnit) * budgetUnit := by
    rw [Nat.ceilDiv_eq_add_pred_div]
    unfold budgetUnit
    omega
  exact hcovered.trans (Nat.mul_le_mul_right _ (le_max_left _ _))

/-- What fits needs no more permits than there are. -/
theorem permits_le_units {service : ThumbnailService} {bytes : ℕ} (h : service.fits bytes = true) :
    permits bytes ≤ service.units := by
  have hfits : bytes ≤ service.units * budgetUnit := by
    rw [← service.capacity_eq]
    exact of_decide_eq_true h
  refine max_le ?_ service.units_pos
  rw [Nat.ceilDiv_eq_add_pred_div]
  unfold budgetUnit at hfits ⊢
  omega

end ThumbnailService

end Crabinet.Thumbnail
