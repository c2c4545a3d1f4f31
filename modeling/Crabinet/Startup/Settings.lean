import Crabinet.Client.ClientAddress
import Crabinet.Filesystem.PathText
import Crabinet.Library.Outcome
import Crabinet.Library.Text
import Mathlib.Algebra.Ring.Nat

/-!
# The configuration file

The fields of a configuration as they are read, with their defaults, and how its sizes are
written. Paths stay texts here, and what only the file system can say about them is an
argument of the checks.
-/

namespace Crabinet.Startup

open Crabinet.Filesystem Crabinet.Library
open Crabinet.Client (IpNetwork)

/-! ### Sizes -/

/-- The bytes of a unit. -/
def unitBytes (unit : List Char) : Option ℕ :=
  let unit := (trim unit).map Char.toLower
  if unit = "b".toList then some 1
  else if unit = "kib".toList then some 1024
  else if unit = "mib".toList then some (1024 * 1024)
  else if unit = "gib".toList then some (1024 * 1024 * 1024)
  else none

/-- `parse_size`. Unicode decides which characters are numeric. -/
def parseSize (isNumeric : Char → Bool) (value : String) : Except String ℕ :=
  let trimmed := trim value.toList
  let number := trimmed.takeWhile isAsciiDigit
  let unit := trimmed.dropWhile isAsciiDigit
  if number.isEmpty || unit.head?.any isNumeric then
    .error "must be a positive integer followed by B, KiB, MiB, or GiB"
  else
    match parseU64 number with
    | none => .error "must contain a valid integer"
    | some number =>
      if number = 0 then .error "must be greater than zero"
      else
        match unitBytes unit with
        | none => .error "must use one of the units B, KiB, MiB, or GiB"
        | some multiplier =>
          if number * multiplier < 2 ^ 64 then .ok (number * multiplier)
          else .error "is too large to represent"

/-- `parse_size_or_zero`. -/
def parseSizeOrZero (isNumeric : Char → Bool) (value : String) : Except String ℕ :=
  let trimmed := trim value.toList
  let digits := trimmed.takeWhile isAsciiDigit
  if !digits.isEmpty && digits.all (· == '0') then
    match unitBytes (trimmed.dropWhile isAsciiDigit) with
    | none => .error "must use one of the units B, KiB, MiB, or GiB"
    | some _ => .ok 0
  else parseSize isNumeric value

/-- A size in the configuration is positive. -/
theorem parseSize_pos {isNumeric : Char → Bool} {value : String} {size : ℕ}
    (h : parseSize isNumeric value = .ok size) : 0 < size := by
  simp only [parseSize] at h
  split at h
  · cases h
  · split at h
    · cases h
    · rename_i number _
      obtain ⟨hnumber, h⟩ := ite_error_eq_ok.mp h
      split at h
      · cases h
      · rename_i multiplier hunit
        split at h
        · obtain rfl := Except.ok.inj h
          have hmultiplier : 0 < multiplier := by
            simp only [unitBytes] at hunit
            split_ifs at hunit <;> obtain rfl := Option.some.inj hunit <;> decide
          exact Nat.mul_pos (Nat.pos_of_ne_zero hnumber) hmultiplier
        · cases h

/-! ### The file -/

/-- `RawOidcConfig`. -/
structure RawOidcConfig where
  issuer : String
  clientId : String
  clientSecretFile : String
  redirectUri : String
  caFile : Option String := none

/-- `RawAuthConfig`. -/
structure RawAuthConfig where
  passwordEnabled : Bool := true
  oidcEnabled : Bool := false
  oidc : Option RawOidcConfig := none
  /-- The origin of `RawPasskeyConfig`. -/
  passkeys : Option String := none

/-- The fields of `RawServerConfig` that are checked. -/
structure RawServerConfig where
  listen : String
  databasePath : String
  searchIndexPath : Option String := none
  sessionSecretFile : String
  maxUploadSize : String
  maxPreviewSize : String
  maxRenderSize : String := "32 MiB"
  authMaxConcurrent : ℕ := 1
  sessionIdleTimeoutSeconds : ℕ := 1800
  sessionAbsoluteTimeoutSeconds : ℕ := 43200
  loginAttemptsPerMinute : ℕ := 5
  loginAttemptsPerSourcePerMinute : ℕ := 20
  trustedProxies : List String := []
  maxSessionsPerUser : ℕ := 16
  maxSessionsTotal : ℕ := 4096
  trashRetentionDays : ℕ := 30
  maxConnections : ℕ := 1024
  headerReadTimeoutSeconds : ℕ := 300
  maxImageDecodeMemory : String := "128 MiB"
  thumbnailCachePath : Option String := none
  maxThumbnailCacheSize : String := "256 MiB"

/-- `RawUser`. -/
structure RawUser where
  username : String
  passwordHash : Option String := none
  email : Option String := none
  oidcSubject : Option String := none
  disabled : Bool := false

/-- `Permission`. -/
inductive Permission where
  | read
  | write
deriving DecidableEq

/-- `RawGrant`. -/
structure RawGrant where
  user : String
  permission : Permission

/-- `RawShare`. -/
structure RawShare where
  id : String
  name : String
  path : String
  readOnly : Bool := false
  grants : List RawGrant := []

/-- `RawConfig`. -/
structure RawConfig where
  version : ℕ
  server : RawServerConfig
  auth : RawAuthConfig := {}
  users : List RawUser := []
  shares : List RawShare := []

/-- The errors of the checks. -/
inductive ConfigError where
  | unsupportedVersion (version : ℕ)
  | validation (message : String)

/-! ### The checked configuration -/

/-- `User`. -/
structure User where
  username : String
  passwordHash : Option String
  email : Option String
  oidcSubject : Option String
  disabled : Bool

/-- `Share`. -/
structure Share where
  id : String
  name : String
  root : String
  readOnly : Bool
  grants : List (String × Permission)

/-- The fields of `ServerConfig` that come from checked values. -/
structure ServerConfig where
  maxUploadSize : ℕ
  maxPreviewSize : ℕ
  maxRenderSize : ℕ
  trustedProxies : List IpNetwork
  maxImageDecodeMemory : ℕ
  maxThumbnailCacheSize : ℕ

/-- `Config`, without the paths and secrets. -/
structure Config where
  server : ServerConfig
  users : List User
  shares : List Share

end Crabinet.Startup
