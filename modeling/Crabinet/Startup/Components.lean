import Crabinet.Startup.Validate

/-!
# What startup builds of a configuration

The components that are made of an accepted configuration before the server listens. Each of
them checks its arguments again.
-/

namespace Crabinet.Startup

open Crabinet.Filesystem Crabinet.Library Crabinet.Preview Crabinet.Thumbnail

/-! ### Mutations -/

/-- `ABSOLUTE_FILE_UPLOAD_LIMIT`. -/
def absoluteFileUploadLimit : ℕ := 1073741824

/-- `MutationLimits`, with its defaults. -/
structure MutationLimits where
  maxRequestBytes : ℕ := 268435456
  maxFileBytes : ℕ := 268435456
  maxFiles : ℕ := 32
  maxTextBytes : ℕ := 1048576
  maxConcurrentUploads : ℕ := 4
  maxShareBytes : Option ℕ := none

/-- What `MutationState::new` wants of its limits. -/
def MutationLimits.consistent (limits : MutationLimits) : Bool :=
  !(limits.maxRequestBytes == 0 || limits.maxFileBytes == 0 ||
    limits.maxFileBytes > limits.maxRequestBytes || limits.maxFiles == 0 || limits.maxTextBytes == 0 ||
    limits.maxTextBytes > limits.maxFileBytes || limits.maxConcurrentUploads == 0 ||
    limits.maxShareBytes == some 0)

/-- The limits of `MutationState`. -/
structure MutationState where
  limits : MutationLimits
  consistent : limits.consistent = true

/-- `MutationStateError`. -/
inductive MutationStateError where
  | invalidLimits
deriving DecidableEq

namespace MutationState

/-- `MutationState::new`. -/
def new (limits : MutationLimits) : Except MutationStateError MutationState :=
  if consistent : limits.consistent = true then .ok ⟨limits, consistent⟩ else .error .invalidLimits

/-- `from_max_upload_bytes`. -/
def fromMaxUploadBytes (maxUploadBytes : ℕ) : Except MutationStateError MutationState :=
  if maxUploadBytes > absoluteFileUploadLimit then .error .invalidLimits
  else
    let limits : MutationLimits := {}
    new { limits with
      maxRequestBytes := maxUploadBytes
      maxFileBytes := maxUploadBytes
      maxTextBytes := min limits.maxTextBytes maxUploadBytes }

/-- Limits are made of every positive upload size up to the absolute limit, and of no other. -/
theorem fromMaxUploadBytes_isOk_iff {maxUploadBytes : ℕ} :
    (∃ state, fromMaxUploadBytes maxUploadBytes = .ok state) ↔
      0 < maxUploadBytes ∧ maxUploadBytes ≤ absoluteFileUploadLimit := by
  simp only [fromMaxUploadBytes, new]
  split
  · rename_i h
    exact iff_of_false nofun (by omega)
  · rename_i hle
    split
    · rename_i h
      refine iff_of_true ⟨_, rfl⟩ ⟨Nat.pos_of_ne_zero fun hzero => ?_, Nat.le_of_not_lt hle⟩
      subst hzero
      cases h
    · rename_i h
      refine iff_of_false nofun fun ⟨hpos, _⟩ => h ?_
      have htext : ¬(1048576 ⊓ maxUploadBytes = 0) := by omega
      have hrequest : ¬(maxUploadBytes = 0) := by omega
      simp [MutationLimits.consistent, htext, hrequest]

end MutationState

/-! ### Shares -/

/-- `BrowseStateError::InvalidDisplayName`. -/
inductive DisplayNameError where
  | invalidDisplayName
deriving DecidableEq

/-- What `ConfiguredShare::new` wants of a display name. -/
def isDisplayName (name : String) : Bool :=
  !(trim name.toList).isEmpty && name.utf8ByteSize ≤ 256 && !name.toList.any isControl

/-- `ConfiguredShare`. -/
structure ConfiguredShare where
  id : ShareId
  name : String
  named : isDisplayName name = true

/-- `ConfiguredShare::new`. -/
def ConfiguredShare.new (name : String) (id : ShareId) : Except DisplayNameError ConfiguredShare :=
  if named : isDisplayName name = true then .ok ⟨id, name, named⟩ else .error .invalidDisplayName

/-! ### Startup -/

/-- What makes startup fail. -/
inductive StartupError where
  | previewLimit (error : PreviewLimitError)
  | renderLimit (error : PreviewLimitError)
  | uploadLimit (error : MutationStateError)
  | shareIdentifier (error : FsErrorCode)
  | share (error : DisplayNameError)
  | thumbnails (error : ThumbnailConfigError)

/-- The components. -/
structure Components where
  preview : PreviewPolicy
  mutations : MutationState
  shares : List ConfiguredShare
  thumbnails : ThumbnailService

/-- One share of `browse_state`. -/
def configuredShare (share : Share) : Except StartupError ConfiguredShare := do
  let id ← (ShareId.new share.id).mapError .shareIdentifier
  (ConfiguredShare.new share.name id).mapError .share

/-- What `main` builds of the configuration. -/
def startup (config : Config) : Except StartupError Components := do
  let policy ← (PreviewPolicy.new config.server.maxPreviewSize).mapError .previewLimit
  let preview ← (policy.withMaxRenderBytes config.server.maxRenderSize).mapError .renderLimit
  let mutations ← (MutationState.fromMaxUploadBytes config.server.maxUploadSize).mapError .uploadLimit
  let shares ← config.shares.mapM configuredShare
  let thumbnails ← (ThumbnailService.new config.server.maxImageDecodeMemory).mapError .thumbnails
  return { preview, mutations, shares, thumbnails }

/-- The bounds of the components that acceptance does not imply. -/
def RawConfig.suitsComponents (raw : RawConfig) (around : Surroundings) : Bool :=
  let size := fun text => (parseSize around.isNumeric text).toOption
  (size raw.server.maxPreviewSize).any (· ≤ hardMaxPreviewBytes) &&
    (size raw.server.maxUploadSize).any (· ≤ absoluteFileUploadLimit) &&
    (size raw.server.maxImageDecodeMemory).any (budgetUnit ≤ ·) &&
    raw.shares.all (·.name.utf8ByteSize ≤ 256)

/-- An accepted share can be constructed exactly where its name is short enough in bytes. -/
theorem configuredShare_isOk_iff {share : Share} (h : share.Named) :
    (∃ configured, configuredShare share = .ok configured) ↔ share.name.utf8ByteSize ≤ 256 := by
  have hname : isDisplayName share.name = true ↔ share.name.utf8ByteSize ≤ 256 := by
    simp [isDisplayName, h.nonempty, h.printable]
  constructor
  · rintro ⟨configured, hconfigured⟩
    obtain ⟨id, -, hconfigured⟩ := bind_eq_ok.mp hconfigured
    rw [mapError_eq_ok, ConfiguredShare.new] at hconfigured
    split at hconfigured
    · rename_i hnamed
      exact hname.mp hnamed
    · cases hconfigured
  · intro hshort
    refine ⟨⟨⟨share.id, h.id⟩, share.name, hname.mpr hshort⟩, bind_eq_ok.mpr ⟨⟨share.id, h.id⟩, ?_, ?_⟩⟩
    · rw [mapError_eq_ok, ShareId.new, dif_pos h.id]
    · rw [mapError_eq_ok, ConfiguredShare.new, dif_pos (hname.mpr hshort)]

/-- What startup makes of checked values, component by component. -/
theorem startup_isOk_iff {config : Config} :
    (∃ components, startup config = .ok components) ↔
      ((0 < config.server.maxPreviewSize ∧ config.server.maxPreviewSize ≤ hardMaxPreviewBytes) ∧
        (config.server.maxPreviewSize ≤ config.server.maxRenderSize ∧
          config.server.maxRenderSize ≤ hardMaxRenderBytes) ∧
        (0 < config.server.maxUploadSize ∧ config.server.maxUploadSize ≤ absoluteFileUploadLimit) ∧
        (∀ share ∈ config.shares, ∃ configured, configuredShare share = .ok configured) ∧
        budgetUnit ≤ config.server.maxImageDecodeMemory ∧
        config.server.maxImageDecodeMemory ≤ hardMaxDecodeMemory) := by
  constructor
  · rintro ⟨components, h⟩
    obtain ⟨policy, hpolicy, h⟩ := bind_eq_ok.mp h
    obtain ⟨preview, hpreview, h⟩ := bind_eq_ok.mp h
    obtain ⟨mutations, hmutations, h⟩ := bind_eq_ok.mp h
    obtain ⟨shares, hshares, h⟩ := bind_eq_ok.mp h
    obtain ⟨thumbnails, hthumbnails, h⟩ := bind_eq_ok.mp h
    rw [mapError_eq_ok] at hpolicy hpreview hmutations hthumbnails
    refine ⟨PreviewPolicy.new_isOk_iff.mp ⟨_, hpolicy⟩, ?_,
      MutationState.fromMaxUploadBytes_isOk_iff.mp ⟨_, hmutations⟩, exists_mapM_eq_ok.mp ⟨_, hshares⟩,
      ThumbnailService.new_isOk_iff.mp ⟨_, hthumbnails⟩⟩
    rw [← PreviewPolicy.maxBytes_of_new hpolicy]
    exact PreviewPolicy.withMaxRenderBytes_isOk_iff.mp ⟨_, hpreview⟩
  · rintro ⟨hpreview, hrender, hupload, hshares, hdecode⟩
    obtain ⟨policy, hpolicy⟩ := PreviewPolicy.new_isOk_iff.mpr hpreview
    rw [← PreviewPolicy.maxBytes_of_new hpolicy] at hrender
    obtain ⟨preview, hpreview⟩ := PreviewPolicy.withMaxRenderBytes_isOk_iff.mpr hrender
    obtain ⟨mutations, hmutations⟩ := MutationState.fromMaxUploadBytes_isOk_iff.mpr hupload
    obtain ⟨shares, hshares⟩ := exists_mapM_eq_ok.mpr hshares
    obtain ⟨thumbnails, hthumbnails⟩ := ThumbnailService.new_isOk_iff.mpr hdecode
    refine ⟨⟨preview, mutations, shares, thumbnails⟩, ?_⟩
    simp only [startup, hpolicy, hpreview, hmutations, hshares, hthumbnails, mapError_ok, ok_bind]
    rfl

/-- Of an accepted configuration startup builds every component exactly where its preview size, its
upload size, its memory for images and its names are within the components' own bounds. -/
theorem accepted_starts_iff {around : Surroundings} {raw : RawConfig} {config : Config}
    (h : validate around raw = .ok config) :
    (∃ components, startup config = .ok components) ↔ raw.suitsComponents around = true := by
  obtain ⟨hsized, hnamed, hnames⟩ := validate_spec h
  have hshort : raw.shares.all (·.name.utf8ByteSize ≤ 256) = true ↔
      ∀ share ∈ config.shares, share.name.utf8ByteSize ≤ 256 := by
    have hmapped := congrArg (List.all · fun name => decide (name.utf8ByteSize ≤ 256)) hnames
    simp only [List.all_map] at hmapped
    rw [show raw.shares.all (·.name.utf8ByteSize ≤ 256) = _ from hmapped.symm, List.all_eq_true]
    simp
  have hshares : (∀ share ∈ config.shares, ∃ configured, configuredShare share = .ok configured) ↔
      ∀ share ∈ config.shares, share.name.utf8ByteSize ≤ 256 :=
    forall₂_congr fun share hshare => configuredShare_isOk_iff (hnamed share hshare)
  have hpreview_pos := parseSize_pos hsized.preview
  have hupload_pos := parseSize_pos hsized.upload
  rw [startup_isOk_iff, hshares, RawConfig.suitsComponents]
  simp only [hsized.preview, hsized.upload, hsized.decode, Bool.and_eq_true, hshort,
    Except.toOption, Option.any_some, decide_eq_true_eq]
  constructor
  · rintro ⟨hpreview, -, hupload, hall, hdecode⟩
    exact ⟨⟨⟨hpreview.2, hupload.2⟩, hdecode.1⟩, hall⟩
  · rintro ⟨⟨⟨hpreview, hupload⟩, hdecode⟩, hall⟩
    exact ⟨⟨hpreview_pos, hpreview⟩, ⟨hsized.preview_le_render, hsized.render_le⟩,
      ⟨hupload_pos, hupload⟩, hall, hdecode, hsized.decode_le⟩

/-! ### Two configurations -/

/-- A machine on which every path is as it should be. -/
def plainSurroundings : Surroundings where
  isNumeric c := '0' ≤ c && c ≤ '9'
  quoted text := text
  isSocketAddress text := text == "127.0.0.1:8080"
  network _ := .error "must be an IP address or network"
  networkText _ := ""
  url _ := none
  passwordHash _ := .ok ()
  serverFiles _ _ := .ok ()
  clientSecret _ := .error (.validation "auth.oidc.client_secret_file is missing or unreadable")
  caFile _ := .error (.validation "auth.oidc.ca_file is missing or unreadable")
  shareRoot _ path := .ok path
  separatePaths _ := .ok ()

/-- A configuration with one user and one share of the given name. -/
def oneShare (name : String) : RawConfig where
  version := 1
  server := { listen := "127.0.0.1:8080", databasePath := "state.sqlite3"
              sessionSecretFile := "session.key", maxUploadSize := "100 MiB", maxPreviewSize := "2 MiB" }
  users := [{ username := "ada", passwordHash := some "$argon2id$" }]
  shares := [{ id := "documents", name, path := "/srv/documents" }]

/-- A name of sixty-five characters, four bytes each. -/
def longName : String := String.ofList (List.replicate 65 '𠮷')

/-- The components of a configuration with ordinary values are built. -/
theorem accepted_starts_ordinary : ∃ config,
    validate plainSurroundings (oneShare "Documents") = .ok config ∧ ∃ components, startup config = .ok components := by
  have haccepted : (validate plainSurroundings (oneShare "Documents")).toOption.isSome = true := by
    decide +kernel
  obtain ⟨config, hconfig⟩ := Option.isSome_iff_exists.mp haccepted
  have hvalid := toOption_eq_some.mp hconfig
  exact ⟨config, hvalid, (accepted_starts_iff hvalid).mpr (by decide +kernel)⟩

/-- A configuration is accepted with a share whose name the share itself refuses. -/
theorem accepted_not_started : ¬∀ (around : Surroundings) (raw : RawConfig) (config : Config),
    validate around raw = .ok config → ∃ components, startup config = .ok components := by
  intro h
  have haccepted : (validate plainSurroundings (oneShare longName)).toOption.isSome = true := by
    decide +kernel
  obtain ⟨config, hconfig⟩ := Option.isSome_iff_exists.mp haccepted
  have hvalid := toOption_eq_some.mp hconfig
  obtain ⟨-, hnamed, hnames⟩ := validate_spec hvalid
  have hlong : longName ∈ config.shares.map (·.name) := by
    rw [hnames]
    exact List.mem_singleton_self _
  obtain ⟨share, hshare, hname⟩ := List.mem_map.mp hlong
  obtain ⟨-, -, -, hshares, -⟩ := startup_isOk_iff.mp (h _ _ _ hvalid)
  have hshort := (configuredShare_isOk_iff (hnamed share hshare)).mp (hshares share hshare)
  rw [hname] at hshort
  revert hshort
  decide +kernel

end Crabinet.Startup
