import Crabinet.Preview.Policy
import Crabinet.Startup.Settings
import Crabinet.Thumbnail.Service

/-!
# Checking a configuration

`Config::validate`, one definition for each group of its checks, in its order. What the file
system and the parsers of other libraries find is an argument.
-/

namespace Crabinet.Startup

open Crabinet.Filesystem Crabinet.Library Crabinet.Preview Crabinet.Thumbnail
open Crabinet.Client (IpNetwork)

/-- `CONFIG_VERSION`. -/
def configVersion : ℕ := 1

/-- `MAX_TRUSTED_PROXIES`. -/
def maxTrustedProxies : ℕ := 64

/-- `RESERVED_SHARE_IDS`. -/
def reservedShareIds : List String :=
  ["api", "assets", "browse", "crabinet.png", "favicon.ico", "google-g.png", "health", "index.html",
    "node_modules", "src", "trash"]

/-- What is asked of a parsed URL. -/
structure Url where
  scheme : String
  hasHost : Bool
  username : String
  hasPassword : Bool
  hasFragment : Bool
  hasQuery : Bool
  path : String

/-- What the checks find outside the configuration. -/
structure Surroundings where
  /-- `char::is_numeric`. -/
  isNumeric : Char → Bool
  /-- A text as the errors quote it. -/
  quoted : String → String
  isSocketAddress : String → Bool
  network : String → Except String IpNetwork
  networkText : IpNetwork → String
  url : String → Option Url
  /-- `validate_password_hash`. -/
  passwordHash : String → Except String Unit
  /-- The database, the search index, the thumbnail cache where there is one, and the secret. -/
  serverFiles : RawServerConfig → Bool → Except ConfigError Unit
  /-- `read_secret_file`, for the client secret. -/
  clientSecret : String → Except ConfigError String
  /-- `read_ca_file`. -/
  caFile : String → Except ConfigError Unit
  /-- `validate_share_root`. -/
  shareRoot : String → String → Except ConfigError String
  /-- Which of the paths must not lie inside one another. -/
  separatePaths : List Share → Except ConfigError Unit

/-- A check, with what is reported where it fails. -/
def ensure (holds : Bool) (message : String) : Except ConfigError Unit :=
  if holds then .ok () else .error (.validation message)

/-- A check of a number's range. -/
def between (field : String) (low high value : ℕ) : Except ConfigError Unit :=
  ensure (low ≤ value && value ≤ high) s!"{field} must be between {low} and {high}"

/-- The error of another check, reported for a field. -/
def naming {α : Type} (field : String) : Except String α → Except ConfigError α
  | .ok value => .ok value
  | .error reason => .error (.validation s!"{field} {reason}")

@[simp]
theorem ensure_eq_ok {holds : Bool} {message : String} {a : Unit} :
    ensure holds message = .ok a ↔ holds = true := by
  unfold ensure
  split <;> simp_all

@[simp]
theorem naming_eq_ok {α : Type} {field : String} {x : Except String α} {value : α} :
    naming field x = .ok value ↔ x = .ok value := by
  cases x <;> simp [naming]

/-! ### The server -/

/-- The sizes of uploads, previews and rendered documents. -/
def validateSizes (around : Surroundings) (server : RawServerConfig) : Except ConfigError (ℕ × ℕ × ℕ) := do
  let maxUploadSize ← naming "server.max_upload_size" (parseSize around.isNumeric server.maxUploadSize)
  let maxPreviewSize ← naming "server.max_preview_size" (parseSize around.isNumeric server.maxPreviewSize)
  ensure (maxPreviewSize ≤ maxUploadSize)
    "server.max_preview_size must not exceed server.max_upload_size"
  let maxRenderSize ← naming "server.max_render_size" (parseSize around.isNumeric server.maxRenderSize)
  ensure (maxPreviewSize ≤ maxRenderSize)
    "server.max_render_size must not be less than server.max_preview_size"
  ensure (maxRenderSize ≤ hardMaxRenderBytes) "server.max_render_size must not exceed 1 GiB"
  return (maxUploadSize, maxPreviewSize, maxRenderSize)

/-- The limits of sign-in. -/
def validateSignInLimits (server : RawServerConfig) : Except ConfigError Unit := do
  between "server.auth_max_concurrent" 1 16 server.authMaxConcurrent
  between "server.session_idle_timeout_seconds" 60 86400 server.sessionIdleTimeoutSeconds
  between "server.session_absolute_timeout_seconds" 300 2592000 server.sessionAbsoluteTimeoutSeconds
  ensure (server.sessionIdleTimeoutSeconds ≤ server.sessionAbsoluteTimeoutSeconds)
    "server.session_idle_timeout_seconds must not exceed server.session_absolute_timeout_seconds"
  between "server.login_attempts_per_minute" 1 1000 server.loginAttemptsPerMinute
  between "server.login_attempts_per_source_per_minute" 1 10000 server.loginAttemptsPerSourcePerMinute

/-- The networks of `validate_trusted_proxies`, from the given index on. -/
def trustedNetworks (around : Surroundings) : ℕ → List String → Except ConfigError (List IpNetwork)
  | _, [] => .ok []
  | index, entry :: rest => do
    let network ← naming s!"server.trusted_proxies[{index}]" (around.network entry)
    let shown := around.networkText network
    ensure (network.pfx != 0)
      s!"server.trusted_proxies[{index}] ({shown}) trusts every address, which would let any client choose its own address; list only the reverse proxy's addresses"
    return network :: (← trustedNetworks around (index + 1) rest)

/-- `validate_trusted_proxies`. -/
def validateTrustedProxies (around : Surroundings) (entries : List String) :
    Except ConfigError (List IpNetwork) := do
  ensure (entries.length ≤ maxTrustedProxies)
    s!"server.trusted_proxies must list at most {maxTrustedProxies} entries"
  trustedNetworks around 0 entries

/-- The limits of sessions, Trash and connections. -/
def validateResourceLimits (server : RawServerConfig) : Except ConfigError Unit := do
  between "server.max_sessions_per_user" 1 256 server.maxSessionsPerUser
  ensure (server.maxSessionsPerUser ≤ server.maxSessionsTotal && server.maxSessionsTotal ≤ 100000)
    "server.max_sessions_total must be between max_sessions_per_user and 100000"
  between "server.trash_retention_days" 1 3650 server.trashRetentionDays
  between "server.max_connections" 1 65535 server.maxConnections
  between "server.header_read_timeout_seconds" 5 3600 server.headerReadTimeoutSeconds

/-- The checks of `server`. -/
def validateServer (around : Surroundings) (server : RawServerConfig) : Except ConfigError ServerConfig := do
  ensure (around.isSocketAddress server.listen) "server.listen must be an IP socket address"
  let (maxUploadSize, maxPreviewSize, maxRenderSize) ← validateSizes around server
  validateSignInLimits server
  let trustedProxies ← validateTrustedProxies around server.trustedProxies
  validateResourceLimits server
  let maxImageDecodeMemory ← naming "server.max_image_decode_memory"
    (parseSize around.isNumeric server.maxImageDecodeMemory)
  ensure (maxImageDecodeMemory ≤ hardMaxDecodeMemory)
    "server.max_image_decode_memory must not exceed 4 GiB"
  let maxThumbnailCacheSize ← naming "server.max_thumbnail_cache_size"
    (parseSizeOrZero around.isNumeric server.maxThumbnailCacheSize)
  ensure (maxThumbnailCacheSize ≤ hardMaxCacheBytes)
    "server.max_thumbnail_cache_size must not exceed 64 GiB"
  around.serverFiles server (maxThumbnailCacheSize != 0)
  return { maxUploadSize, maxPreviewSize, maxRenderSize, trustedProxies, maxImageDecodeMemory,
           maxThumbnailCacheSize }

/-- What acceptance says about the sizes of a server. -/
structure Sized (around : Surroundings) (raw : RawServerConfig) (server : ServerConfig) : Prop where
  upload : parseSize around.isNumeric raw.maxUploadSize = .ok server.maxUploadSize
  preview : parseSize around.isNumeric raw.maxPreviewSize = .ok server.maxPreviewSize
  decode : parseSize around.isNumeric raw.maxImageDecodeMemory = .ok server.maxImageDecodeMemory
  preview_le_upload : server.maxPreviewSize ≤ server.maxUploadSize
  preview_le_render : server.maxPreviewSize ≤ server.maxRenderSize
  render_le : server.maxRenderSize ≤ hardMaxRenderBytes
  decode_le : server.maxImageDecodeMemory ≤ hardMaxDecodeMemory

/-- An accepted server has the sizes that were written, in the order the checks want. -/
theorem validateServer_sized {around : Surroundings} {raw : RawServerConfig} {server : ServerConfig}
    (h : validateServer around raw = .ok server) : Sized around raw server := by
  obtain ⟨_, -, h⟩ := bind_eq_ok.mp h
  obtain ⟨⟨upload, preview, render⟩, hsizes, h⟩ := bind_eq_ok.mp h
  obtain ⟨_, -, h⟩ := bind_eq_ok.mp h
  obtain ⟨proxies, -, h⟩ := bind_eq_ok.mp h
  obtain ⟨_, -, h⟩ := bind_eq_ok.mp h
  obtain ⟨decode, hdecode, h⟩ := bind_eq_ok.mp h
  obtain ⟨_, hdecode_le, h⟩ := bind_eq_ok.mp h
  obtain ⟨cache, -, h⟩ := bind_eq_ok.mp h
  obtain ⟨_, -, h⟩ := bind_eq_ok.mp h
  obtain ⟨_, -, h⟩ := bind_eq_ok.mp h
  obtain rfl := Except.ok.inj h
  obtain ⟨upload', hupload, hsizes⟩ := bind_eq_ok.mp hsizes
  obtain ⟨preview', hpreview, hsizes⟩ := bind_eq_ok.mp hsizes
  obtain ⟨_, hpreview_le, hsizes⟩ := bind_eq_ok.mp hsizes
  obtain ⟨render', -, hsizes⟩ := bind_eq_ok.mp hsizes
  obtain ⟨_, hrender_ge, hsizes⟩ := bind_eq_ok.mp hsizes
  obtain ⟨_, hrender_le, hsizes⟩ := bind_eq_ok.mp hsizes
  obtain ⟨⟨⟩⟩ := Except.ok.inj hsizes
  simp only [ensure_eq_ok, naming_eq_ok, decide_eq_true_eq] at *
  exact ⟨hupload, hpreview, hdecode, hpreview_le, hrender_ge, hrender_le, hdecode_le⟩

/-! ### Sign-in -/

/-- `validate_https_url`. -/
def validateHttpsUrl (around : Surroundings) (value field : String) : Except ConfigError Url :=
  match around.url value with
  | none => .error (.validation s!"{field} must be an HTTPS URL")
  | some url => do
    ensure (url.scheme == "https" && url.hasHost && url.username == "" && !url.hasPassword &&
        !url.hasFragment && !url.hasQuery)
      s!"{field} must be an HTTPS URL without credentials, query, or fragment"
    return url

/-- The checks of `auth.passkeys`. -/
def validatePasskeys (around : Surroundings) (origin : String) : Except ConfigError Unit := do
  let url ← validateHttpsUrl around origin "auth.passkeys.origin"
  ensure (url.path == "/") "auth.passkeys.origin must have no path"

/-- The checks of `auth.oidc`. -/
def validateOidc (around : Surroundings) (oidc : RawOidcConfig) : Except ConfigError Unit := do
  let _ ← validateHttpsUrl around oidc.issuer "auth.oidc.issuer"
  let redirectUri ← validateHttpsUrl around oidc.redirectUri "auth.oidc.redirect_uri"
  ensure (redirectUri.path == "/api/v1/auth/oidc/callback" && !redirectUri.hasQuery)
    "auth.oidc.redirect_uri must use /api/v1/auth/oidc/callback without a query"
  ensure (!oidc.clientId.isEmpty && oidc.clientId.utf8ByteSize ≤ 256)
    "auth.oidc.client_id must contain 1 to 256 bytes"
  let clientSecret ← around.clientSecret oidc.clientSecretFile
  ensure (!(trim clientSecret.toList).isEmpty && !clientSecret.toList.any (fun c => c == '\n' || c == '\r'))
    "auth.oidc.client_secret_file contains an invalid secret"
  match oidc.caFile with
  | none => return ()
  | some path => around.caFile path

/-- The checks of `auth`. -/
def validateAuth (around : Surroundings) (auth : RawAuthConfig) : Except ConfigError Unit := do
  ensure (auth.passwordEnabled || auth.oidcEnabled) "both password and OIDC sign-in are disabled"
  ensure (auth.oidcEnabled == auth.oidc.isSome)
    "auth.oidc is required exactly when OIDC sign-in is enabled"
  match auth.passkeys with
  | none => pure ()
  | some origin => validatePasskeys around origin
  match auth.oidc with
  | none => pure ()
  | some oidc => validateOidc around oidc

/-! ### Users -/

/-- `validate_identifier`. -/
def validateIdentifier (kind value : String) : Except ConfigError Unit :=
  ensure (1 ≤ value.utf8ByteSize && value.utf8ByteSize ≤ 64 &&
      value.toList.all (fun c => isAsciiAlphanumeric c || c == '-' || c == '_' || c == '.') &&
      value != "." && value != "..")
    s!"{kind} must contain 1 to 64 ASCII letters, digits, dots, underscores, or hyphens"

/-- `validate_oidc_subject`. -/
def validateOidcSubject (around : Surroundings) (username subject : String) (hasEmail : Bool) :
    Except ConfigError Unit := do
  let shown := around.quoted username
  ensure (!subject.isEmpty && subject.utf8ByteSize ≤ 255 &&
      subject.toList.all (fun c => '!' ≤ c && c ≤ '~'))
    s!"oidc_subject for user {shown} must contain 1 to 255 printable ASCII characters without spaces"
  ensure hasEmail s!"oidc_subject for user {shown} requires an email binding"

/-- The checks of an email address. -/
def validateEmail (around : Surroundings) (username : String) (emails : List String) (email : String) :
    Except ConfigError String := do
  let shown := around.quoted username
  let normalized := String.ofList (asciiLower email)
  ensure (trim email.toList == email.toList && email.utf8ByteSize ≤ 254 &&
      email.toList.all (·.toNat < 128) && email.toList.contains '@' && !email.toList.any isWhitespace &&
      !email.toList.any fun c => c == '<' || c == '>' || c == ',')
    s!"invalid email for user {shown}"
  ensure (!emails.contains normalized) s!"duplicate email for user {shown}"
  return normalized

/-- The checks of one user, beside the names and addresses of those before. -/
def validateUser (around : Surroundings) (auth : RawAuthConfig) (usernames emails : List String)
    (user : RawUser) : Except ConfigError User := do
  let shown := around.quoted user.username
  validateIdentifier "username" user.username
  ensure (!usernames.contains user.username) s!"duplicate username {shown}"
  match user.passwordHash with
  | none => pure ()
  | some hash => naming s!"password_hash for user {shown}" (around.passwordHash hash)
  let email ← match user.email with
    | none => pure none
    | some email => some <$> validateEmail around user.username emails email
  match user.oidcSubject with
  | none => pure ()
  | some subject => validateOidcSubject around user.username subject email.isSome
  ensure (user.disabled || (auth.passwordEnabled && user.passwordHash.isSome) ||
      (auth.oidc.isSome && email.isSome))
    s!"enabled user {shown} has no usable sign-in method"
  return { user with email }

/-- The loop over the users. -/
def validateUserList (around : Surroundings) (auth : RawAuthConfig) :
    List String → List String → List RawUser → Except ConfigError (List User)
  | _, _, [] => .ok []
  | usernames, emails, raw :: rest => do
    let user ← validateUser around auth usernames emails raw
    return user :: (← validateUserList around auth (user.username :: usernames)
      (user.email.toList ++ emails) rest)

/-- The checks of `users`. -/
def validateUsers (around : Surroundings) (auth : RawAuthConfig) (raw : List RawUser) :
    Except ConfigError (List User) := do
  ensure (!raw.isEmpty) "at least one user must be configured"
  let users ← validateUserList around auth [] [] raw
  let enabled := users.filter (!·.disabled)
  ensure (enabled.isEmpty || !auth.passwordEnabled || enabled.any (·.passwordHash.isSome))
    "password sign-in is enabled but no enabled user has a password"
  ensure (enabled.isEmpty || auth.oidc.isNone || enabled.any (·.email.isSome))
    "OIDC sign-in is enabled but no enabled user has an email"
  return users

/-! ### Shares -/

/-- `validate_share_id`. -/
def validateShareId (value : String) : Except ConfigError Unit :=
  ensure (ShareId.new value).toOption.isSome
    "share id must contain 1 to 64 ASCII letters, digits, dots, underscores, or hyphens and start with a letter or digit"

/-- `validate_display_name`. -/
def validateDisplayName (around : Surroundings) (id name : String) : Except ConfigError Unit :=
  let shown := around.quoted id
  ensure (1 ≤ name.length && name.length ≤ 128 && trim name.toList == name.toList &&
      !name.toList.any isControl)
    s!"display name for share {shown} must contain 1 to 128 characters, no control characters, and no leading or trailing whitespace"

/-- The loop over the grants of a share. -/
def validateGrants (around : Surroundings) (usernames : List String) (id : String) :
    List (String × Permission) → List RawGrant → Except ConfigError (List (String × Permission))
  | grants, [] => .ok grants
  | grants, grant :: rest => do
    let shown := around.quoted id
    let user := around.quoted grant.user
    ensure (usernames.contains grant.user) s!"share {shown} grants access to unknown user {user}"
    ensure (!(grants.map Prod.fst).contains grant.user)
      s!"share {shown} has duplicate grants for user {user}"
    validateGrants around usernames id ((grant.user, grant.permission) :: grants) rest

/-- The checks of one share, beside the identifiers of those before. -/
def validateShare (around : Surroundings) (usernames shareIds : List String) (share : RawShare) :
    Except ConfigError Share := do
  let shown := around.quoted share.id
  validateShareId share.id
  ensure (!reservedShareIds.any fun reserved => asciiLower share.id == reserved.toList)
    s!"share id {shown} is reserved because it is a top-level URL of the app"
  validateDisplayName around share.id share.name
  ensure (!shareIds.contains share.id) s!"duplicate share id {shown}"
  let root ← around.shareRoot share.id share.path
  let grants ← validateGrants around usernames share.id [] share.grants
  return { id := share.id, name := share.name, root, readOnly := share.readOnly, grants }

/-- The loop over the shares. -/
def validateShares (around : Surroundings) (usernames : List String) :
    List String → List RawShare → Except ConfigError (List Share)
  | _, [] => .ok []
  | shareIds, raw :: rest => do
    let share ← validateShare around usernames shareIds raw
    return share :: (← validateShares around usernames (share.id :: shareIds) rest)

/-- What acceptance says about a share: it has an identifier that is not reserved, and a name without
control characters that is not only whitespace. -/
structure Share.Named (share : Share) : Prop where
  id : isShareId share.id = true
  unreserved : ∀ reserved ∈ reservedShareIds, asciiLower share.id ≠ reserved.toList
  nonempty : trim share.name.toList ≠ []
  printable : share.name.toList.any isControl = false

/-- An accepted share keeps its name. -/
theorem validateShare_named {around : Surroundings} {usernames shareIds : List String} {raw : RawShare}
    {share : Share} (h : validateShare around usernames shareIds raw = .ok share) :
    share.Named ∧ share.name = raw.name := by
  obtain ⟨_, hid, h⟩ := bind_eq_ok.mp h
  obtain ⟨_, hreserved, h⟩ := bind_eq_ok.mp h
  obtain ⟨_, hname, h⟩ := bind_eq_ok.mp h
  obtain ⟨_, -, h⟩ := bind_eq_ok.mp h
  obtain ⟨root, -, h⟩ := bind_eq_ok.mp h
  obtain ⟨grants, -, h⟩ := bind_eq_ok.mp h
  obtain rfl := Except.ok.inj h
  simp only [validateDisplayName, ensure_eq_ok, Bool.and_eq_true, decide_eq_true_eq, beq_iff_eq,
    Bool.not_eq_true'] at hname
  obtain ⟨⟨⟨hpositive, -⟩, htrimmed⟩, hprintable⟩ := hname
  refine ⟨⟨?_, ?_, ?_, hprintable⟩, rfl⟩
  · simp only [validateShareId, ensure_eq_ok, ShareId.new] at hid
    split at hid
    · assumption
    · cases hid
  · intro reserved hmem heq
    rw [ensure_eq_ok, Bool.not_eq_true', List.any_eq_false] at hreserved
    exact hreserved reserved hmem (beq_iff_eq.mpr heq)
  · intro hempty
    rw [htrimmed] at hempty
    rw [← String.length_toList, hempty] at hpositive
    cases hpositive

/-- Accepted shares keep their names. -/
theorem validateShares_named {around : Surroundings} {usernames : List String} {raws : List RawShare} :
    ∀ {shareIds : List String} {shares : List Share},
      validateShares around usernames shareIds raws = .ok shares →
        (∀ share ∈ shares, share.Named) ∧ shares.map (·.name) = raws.map (·.name) := by
  induction raws with
  | nil =>
    intro shareIds shares h
    obtain rfl := Except.ok.inj h
    exact ⟨nofun, rfl⟩
  | cons raw rest ih =>
    intro shareIds shares h
    obtain ⟨share, hshare, h⟩ := bind_eq_ok.mp h
    obtain ⟨others, hothers, h⟩ := bind_eq_ok.mp h
    obtain rfl := Except.ok.inj h
    obtain ⟨hnamed, hname⟩ := validateShare_named hshare
    obtain ⟨hall, hnames⟩ := ih hothers
    refine ⟨fun other hother => ?_, by rw [List.map_cons, List.map_cons, hname, hnames]⟩
    rcases List.mem_cons.mp hother with rfl | hother
    · exact hnamed
    · exact hall other hother

/-! ### The whole -/

/-- `Config::validate`. -/
def validate (around : Surroundings) (raw : RawConfig) : Except ConfigError Config :=
  if raw.version ≠ configVersion then .error (.unsupportedVersion raw.version)
  else do
    let server ← validateServer around raw.server
    validateAuth around raw.auth
    let users ← validateUsers around raw.auth raw.users
    let shares ← validateShares around (users.map (·.username)) [] raw.shares
    around.separatePaths shares
    return { server, users, shares }

/-- What acceptance says about a configuration. -/
theorem validate_spec {around : Surroundings} {raw : RawConfig} {config : Config}
    (h : validate around raw = .ok config) :
    Sized around raw.server config.server ∧ (∀ share ∈ config.shares, share.Named) ∧
      config.shares.map (·.name) = raw.shares.map (·.name) := by
  obtain ⟨-, h⟩ := ite_error_eq_ok.mp h
  obtain ⟨server, hserver, h⟩ := bind_eq_ok.mp h
  obtain ⟨_, -, h⟩ := bind_eq_ok.mp h
  obtain ⟨users, -, h⟩ := bind_eq_ok.mp h
  obtain ⟨shares, hshares, h⟩ := bind_eq_ok.mp h
  obtain ⟨_, -, h⟩ := bind_eq_ok.mp h
  obtain rfl := Except.ok.inj h
  exact ⟨validateServer_sized hserver, validateShares_named hshares⟩

end Crabinet.Startup
