import Mathlib.Data.Nat.Basic
import Mathlib.Order.Basic

/-!
# Preview limits

How much of a file is buffered for a preview, and how large a document may be rendered. The
limits of a policy are in their bounds by construction.
-/

namespace Crabinet.Preview

/-- `HARD_MAX_PREVIEW_BYTES`. -/
def hardMaxPreviewBytes : ℕ := 16 * 1024 * 1024

/-- `DEFAULT_MAX_RENDER_BYTES`. -/
def defaultMaxRenderBytes : ℕ := 32 * 1024 * 1024

/-- `HARD_MAX_RENDER_BYTES`. -/
def hardMaxRenderBytes : ℕ := 1024 * 1024 * 1024

/-- `PreviewError::InvalidLimit`. -/
inductive PreviewLimitError where
  | invalidLimit
deriving DecidableEq

/-- `PreviewPolicy`. -/
structure PreviewPolicy where
  maxBytes : ℕ
  maxRenderBytes : ℕ
  maxBytes_pos : 0 < maxBytes
  maxBytes_le : maxBytes ≤ hardMaxPreviewBytes
  maxRenderBytes_le : maxRenderBytes ≤ hardMaxRenderBytes

namespace PreviewPolicy

/-- `PreviewPolicy::new`. -/
def new (configuredMaxBytes : ℕ) : Except PreviewLimitError PreviewPolicy :=
  if h : configuredMaxBytes = 0 ∨ configuredMaxBytes > hardMaxPreviewBytes then .error .invalidLimit
  else
    have hle : configuredMaxBytes ≤ hardMaxPreviewBytes := Nat.le_of_not_lt fun hlt => h (.inr hlt)
    .ok ⟨configuredMaxBytes, max defaultMaxRenderBytes configuredMaxBytes,
      Nat.pos_of_ne_zero fun hzero => h (.inl hzero), hle,
      Nat.max_le.mpr ⟨by decide, hle.trans (by decide)⟩⟩

/-- `with_max_render_bytes`. -/
def withMaxRenderBytes (policy : PreviewPolicy) (configuredMaxRenderBytes : ℕ) :
    Except PreviewLimitError PreviewPolicy :=
  if h : configuredMaxRenderBytes < policy.maxBytes ∨ configuredMaxRenderBytes > hardMaxRenderBytes then
    .error .invalidLimit
  else
    .ok { policy with
      maxRenderBytes := configuredMaxRenderBytes
      maxRenderBytes_le := Nat.le_of_not_lt fun hlt => h (.inr hlt) }

/-- A policy is made of every preview limit in its bounds, and of no other. -/
theorem new_isOk_iff {configuredMaxBytes : ℕ} :
    (∃ policy, new configuredMaxBytes = .ok policy) ↔
      0 < configuredMaxBytes ∧ configuredMaxBytes ≤ hardMaxPreviewBytes := by
  unfold new
  split
  · rename_i h
    exact iff_of_false nofun (by omega)
  · rename_i h
    exact iff_of_true ⟨_, rfl⟩ (by omega)

/-- A new policy has the configured preview limit. -/
theorem maxBytes_of_new {configuredMaxBytes : ℕ} {policy : PreviewPolicy}
    (h : new configuredMaxBytes = .ok policy) : policy.maxBytes = configuredMaxBytes := by
  unfold new at h
  split at h
  · cases h
  · obtain rfl := Except.ok.inj h
    rfl

/-- A render limit is taken where it is at least the preview limit and in its bound. -/
theorem withMaxRenderBytes_isOk_iff {policy : PreviewPolicy} {configuredMaxRenderBytes : ℕ} :
    (∃ next, policy.withMaxRenderBytes configuredMaxRenderBytes = .ok next) ↔
      policy.maxBytes ≤ configuredMaxRenderBytes ∧ configuredMaxRenderBytes ≤ hardMaxRenderBytes := by
  unfold withMaxRenderBytes
  split
  · rename_i h
    exact iff_of_false nofun (by omega)
  · rename_i h
    exact iff_of_true ⟨_, rfl⟩ (by omega)

end PreviewPolicy

end Crabinet.Preview
