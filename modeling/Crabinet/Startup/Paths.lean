import Crabinet.Startup.Components
import Mathlib.Data.List.Pairwise

/-!
# The paths of a configuration

Which of the configured paths must stay apart. The paths are canonical: the directories above a
name, compared component by component.
-/

namespace Crabinet.Startup

open Crabinet.Library

/-- A canonical path that is not the root. -/
structure FilePath where
  directory : List String
  name : String
deriving DecidableEq, Repr

namespace FilePath

def components (path : FilePath) : List String := path.directory ++ [path.name]

/-- `Path::starts_with`. -/
def startsWith (path base : FilePath) : Bool := base.components.isPrefixOf path.components

/-- A path in the same directory. -/
def beside (path : FilePath) (name : String) : FilePath := { path with name }

/-- The path lies in a directory, at any depth. -/
def Inside (path base : FilePath) : Prop := base.components <+: path.directory

instance (path base : FilePath) : Decidable (path.Inside base) :=
  inferInstanceAs (Decidable (base.components <+: path.directory))

end FilePath

/-- `sqlite_paths`. -/
def sqlitePaths (path : FilePath) : List FilePath :=
  [path, path.beside (path.name ++ "-wal"), path.beside (path.name ++ "-shm")]

/-- The files of OIDC sign-in. -/
structure OidcFiles where
  clientSecretFile : FilePath
  caFile : Option FilePath

/-- The paths of a configuration other than the roots of shares. -/
structure ConfigPaths where
  source : FilePath
  databasePath : FilePath
  searchIndexPath : FilePath
  thumbnailCachePath : Option FilePath
  sessionSecretFile : FilePath
  oidc : Option OidcFiles

/-- The files of OIDC sign-in, where it is enabled. -/
def ConfigPaths.oidcFiles (paths : ConfigPaths) : List FilePath :=
  match paths.oidc with
  | some settings => settings.clientSecretFile :: settings.caFile.toList
  | none => []

/-- The paths that a configuration names, or their defaults beside the database. -/
def RawConfig.paths (raw : RawConfig) (canonical : String → FilePath) (isNumeric : Char → Bool)
    (source : FilePath) : ConfigPaths :=
  let databasePath := canonical raw.server.databasePath
  { source, databasePath
    searchIndexPath := (raw.server.searchIndexPath.map canonical).getD (databasePath.beside "search.sqlite3")
    thumbnailCachePath :=
      match parseSizeOrZero isNumeric raw.server.maxThumbnailCacheSize with
      | .ok 0 => none
      | _ => some ((raw.server.thumbnailCachePath.map canonical).getD (databasePath.beside "thumbnails"))
    sessionSecretFile := canonical raw.server.sessionSecretFile
    oidc := raw.auth.oidc.map fun oidc => ⟨canonical oidc.clientSecretFile, oidc.caFile.map canonical⟩ }

/-- A share with its canonical root. -/
structure PlacedShare where
  id : String
  root : FilePath

/-! ### The checks -/

/-- The first checks of the search index, beside the other files of the server. -/
def checkSearchIndexPath (paths : ConfigPaths) : Except ConfigError Unit := do
  ensure (paths.searchIndexPath ≠ paths.databasePath && paths.searchIndexPath ≠ paths.source)
    "server.search_index_path must be separate from the database and configuration"
  ensure (paths.searchIndexPath ≠ paths.sessionSecretFile)
    "server.search_index_path must be separate from the session secret"

/-- `reject_overlapping_roots`. -/
def rejectOverlappingRoots (quoted : String → String) : List PlacedShare → Except ConfigError Unit
  | [] => .ok ()
  | first :: rest => do
    rest.forM fun second =>
      let firstId := quoted first.id
      let secondId := quoted second.id
      ensure (!(first.root.startsWith second.root || second.root.startsWith first.root))
        s!"share roots {firstId} and {secondId} overlap"
    rejectOverlappingRoots quoted rest

/-- What the search index is kept apart from. -/
def sensitivePaths (paths : ConfigPaths) : List FilePath :=
  [paths.source, paths.sessionSecretFile] ++ sqlitePaths paths.databasePath ++ paths.oidcFiles

/-- The configuration file, the database and the session secret, with their names in errors. -/
def labelledPaths (paths : ConfigPaths) : List (String × FilePath) :=
  [("configuration file", paths.source), ("database", paths.databasePath),
    ("session secret", paths.sessionSecretFile)]

/-- `reject_sensitive_paths_inside_shares`. -/
def rejectSensitivePathsInsideShares (quoted : String → String) (paths : ConfigPaths)
    (shares : List PlacedShare) : Except ConfigError Unit :=
  shares.forM fun share => do
    let shown := quoted share.id
    (labelledPaths paths).forM fun (label, path) =>
      ensure (!path.startsWith share.root) s!"{label} must not be located inside share {shown}"
    ensure (!(paths.oidc.any fun settings => settings.clientSecretFile.startsWith share.root))
      s!"OIDC client secret must not be located inside share {shown}"
    -- a share writer could otherwise add a trust anchor for the provider
    ensure (!((paths.oidc.bind OidcFiles.caFile).any fun path => path.startsWith share.root))
      s!"auth.oidc.ca_file must not be located inside share {shown}"

/-- The checks of the thumbnail cache, where there is one. -/
def checkThumbnailCachePath (quoted : String → String) (paths : ConfigPaths) (shares : List PlacedShare)
    (cache : FilePath) : Except ConfigError Unit := do
  shares.forM fun share =>
    let shown := quoted share.id
    ensure (!(cache.startsWith share.root || share.root.startsWith cache))
      s!"server.thumbnail_cache_path must not overlap share {shown}"
  (labelledPaths paths).forM fun (label, path) =>
    ensure (!path.startsWith cache) s!"the {label} must not be located inside server.thumbnail_cache_path"

/-- What `Config::validate` checks once the shares are known. -/
def checkPathsApart (quoted : String → String) (paths : ConfigPaths) (shares : List PlacedShare) :
    Except ConfigError Unit := do
  rejectOverlappingRoots quoted shares
  ensure (!(sqlitePaths paths.searchIndexPath).any fun path => path ∈ sensitivePaths paths)
    "search index and its SQLite sidecars must be separate from configuration, secrets, and account state"
  shares.forM fun share =>
    ensure (!paths.searchIndexPath.startsWith share.root)
      "server.search_index_path must be outside every share"
  ensure (!((paths.thumbnailCachePath.any fun cache => paths.searchIndexPath.startsWith cache) ||
      (paths.oidc.any fun settings => settings.clientSecretFile = paths.searchIndexPath ||
        settings.caFile = some paths.searchIndexPath)))
    "server.search_index_path must be separate from secrets and the thumbnail cache"
  rejectSensitivePathsInsideShares quoted paths shares
  match paths.thumbnailCachePath with
  | some cache => checkThumbnailCachePath quoted paths shares cache
  | none => return ()

/-- The roots of shares as they are compared. -/
def placed (canonical : String → FilePath) (shares : List Share) : List PlacedShare :=
  shares.map fun share => ⟨share.id, canonical share.root⟩

/-- The checks of paths, beside what else the file system says about them. -/
def Surroundings.withPaths (around : Surroundings) (canonical : String → FilePath) (paths : ConfigPaths) :
    Surroundings :=
  { around with
    serverFiles := fun server enabled => do
      around.serverFiles server enabled
      checkSearchIndexPath paths
    separatePaths := fun shares => checkPathsApart around.quoted paths (placed canonical shares) }

/-! ### What the checks establish -/

/-- The files of the server itself, beside the sidecars of its databases. -/
def stateFiles (paths : ConfigPaths) : List FilePath :=
  paths.searchIndexPath :: (labelledPaths paths).map Prod.snd

/-- The files that SQLite keeps beside the databases. -/
def sidecars (paths : ConfigPaths) : List FilePath :=
  (sqlitePaths paths.databasePath).tail ++ (sqlitePaths paths.searchIndexPath).tail

/-- The paths of an accepted configuration. -/
structure PathsApart (paths : ConfigPaths) (roots : List FilePath) : Prop where
  search_apart : ∀ file ∈ sqlitePaths paths.searchIndexPath, file ∉ sensitivePaths paths
  search_distinct : (sqlitePaths paths.searchIndexPath).Nodup
  database_distinct : (sqlitePaths paths.databasePath).Nodup
  outside_shares : ∀ root ∈ roots, ∀ file ∈ stateFiles paths ++ paths.oidcFiles, ¬file.startsWith root
  sidecars_outside_shares : ∀ root ∈ roots, ∀ file ∈ sidecars paths, ¬file.Inside root
  outside_cache : ∀ cache ∈ paths.thumbnailCachePath, ∀ file ∈ stateFiles paths, ¬file.startsWith cache
  sidecars_outside_cache : ∀ cache ∈ paths.thumbnailCachePath, ∀ file ∈ sidecars paths, ¬file.Inside cache
  roots_apart : roots.Pairwise fun first second => ¬first.startsWith second ∧ ¬second.startsWith first
  cache_apart : ∀ cache ∈ paths.thumbnailCachePath, ∀ root ∈ roots,
    ¬cache.startsWith root ∧ ¬root.startsWith cache

variable {quoted : String → String} {paths : ConfigPaths} {shares : List PlacedShare} {path base : FilePath}

/-- A database and its sidecars have three names. -/
theorem nodup_sqlitePaths (path : FilePath) : (sqlitePaths path).Nodup := by
  have hne {suffix : String} (hsuffix : suffix.length ≠ 0) : path.name ≠ path.name ++ suffix := by
    intro heq
    have hlength := congrArg String.length heq
    rw [String.length_append] at hlength
    omega
  have hsuffixes : path.name ++ "-wal" ≠ path.name ++ "-shm" := by simp
  have hname (first second : String) (h : first ≠ second) : path.beside first ≠ path.beside second :=
    fun heq => h (congrArg FilePath.name heq)
  have hself (suffix : String) (hsuffix : suffix.length ≠ 0) : path ≠ path.beside (path.name ++ suffix) :=
    fun heq => hne hsuffix (congrArg FilePath.name heq)
  simp [sqlitePaths, hself "-wal" (by decide), hself "-shm" (by decide), hname _ _ hsuffixes]

/-- What is in a directory starts with its path, and so does what lies beside it. -/
theorem startsWith_of_beside_inside {name : String} (h : (path.beside name).Inside base) :
    path.startsWith base = true := by
  rw [FilePath.startsWith, List.isPrefixOf_iff_prefix]
  exact h.trans (List.prefix_append _ _)

theorem rejectOverlappingRoots_ok (h : rejectOverlappingRoots quoted shares = .ok ()) :
    shares.Pairwise fun first second =>
      ¬first.root.startsWith second.root ∧ ¬second.root.startsWith first.root := by
  induction shares with
  | nil => exact List.Pairwise.nil
  | cons first rest ih =>
    obtain ⟨_, hfirst, hrest⟩ := bind_eq_ok.mp h
    refine List.pairwise_cons.mpr ⟨fun second hsecond => ?_, ih hrest⟩
    have hapart := forM_eq_ok.mp hfirst second hsecond
    simpa using hapart

theorem rejectSensitivePathsInsideShares_ok
    (h : rejectSensitivePathsInsideShares quoted paths shares = .ok ()) :
    ∀ share ∈ shares, ∀ file ∈ (labelledPaths paths).map Prod.snd ++ paths.oidcFiles,
      ¬file.startsWith share.root := by
  intro share hshare file hfile
  obtain ⟨_, hlabelled, hoidc⟩ := bind_eq_ok.mp (forM_eq_ok.mp h share hshare)
  obtain ⟨_, hsecret, hca⟩ := bind_eq_ok.mp hoidc
  rcases List.mem_append.mp hfile with hfile | hfile
  · obtain ⟨⟨label, path⟩, hmem, rfl⟩ := List.mem_map.mp hfile
    simpa using forM_eq_ok.mp hlabelled _ hmem
  · rw [ConfigPaths.oidcFiles] at hfile
    cases hsettings : paths.oidc with
    | none =>
      rw [hsettings] at hfile
      cases hfile
    | some settings =>
      rw [hsettings] at hfile hsecret hca
      rcases List.mem_cons.mp hfile with rfl | hfile
      · simpa using hsecret
      · rw [Option.mem_toList] at hfile
        simpa [Option.mem_def.mp hfile] using hca

theorem checkThumbnailCachePath_ok {cache : FilePath}
    (h : checkThumbnailCachePath quoted paths shares cache = .ok ()) :
    (∀ share ∈ shares, ¬cache.startsWith share.root ∧ ¬share.root.startsWith cache) ∧
      ∀ file ∈ (labelledPaths paths).map Prod.snd, ¬file.startsWith cache := by
  obtain ⟨_, hshares, hlabelled⟩ := bind_eq_ok.mp h
  refine ⟨fun share hshare => ?_, fun file hfile => ?_⟩
  · simpa using forM_eq_ok.mp hshares share hshare
  · obtain ⟨⟨label, path⟩, hmem, rfl⟩ := List.mem_map.mp hfile
    simpa using forM_eq_ok.mp hlabelled _ hmem

/-- A sidecar is inside a directory only with its database. -/
theorem sidecar_not_inside (hdatabase : ¬paths.databasePath.startsWith base)
    (hsearch : ¬paths.searchIndexPath.startsWith base) : ∀ file ∈ sidecars paths, ¬file.Inside base := by
  intro file hfile hinside
  rcases List.mem_append.mp hfile with hfile | hfile
  · simp only [sqlitePaths, List.tail_cons, List.mem_cons, List.not_mem_nil, or_false] at hfile
    rcases hfile with rfl | rfl <;> exact hdatabase (startsWith_of_beside_inside hinside)
  · simp only [sqlitePaths, List.tail_cons, List.mem_cons, List.not_mem_nil, or_false] at hfile
    rcases hfile with rfl | rfl <;> exact hsearch (startsWith_of_beside_inside hinside)

/-- What passes the checks is apart. -/
theorem checkPathsApart_ok (h : checkPathsApart quoted paths shares = .ok ()) :
    PathsApart paths (shares.map (·.root)) := by
  obtain ⟨_, hroots, h⟩ := bind_eq_ok.mp h
  obtain ⟨_, hsearch, h⟩ := bind_eq_ok.mp h
  obtain ⟨_, houtside, h⟩ := bind_eq_ok.mp h
  obtain ⟨_, hindex, h⟩ := bind_eq_ok.mp h
  obtain ⟨_, hsensitive, h⟩ := bind_eq_ok.mp h
  have hshares : ∀ root ∈ shares.map (·.root), ∀ file ∈ stateFiles paths ++ paths.oidcFiles,
      ¬file.startsWith root := by
    intro root hroot file hfile
    obtain ⟨share, hshare, rfl⟩ := List.mem_map.mp hroot
    rcases List.mem_cons.mp hfile with rfl | hfile
    · simpa using forM_eq_ok.mp houtside share hshare
    · exact rejectSensitivePathsInsideShares_ok hsensitive share hshare file hfile
  have hcache : ∀ cache ∈ paths.thumbnailCachePath,
      (∀ share ∈ shares, ¬cache.startsWith share.root ∧ ¬share.root.startsWith cache) ∧
      ∀ file ∈ stateFiles paths, ¬file.startsWith cache := by
    intro cache hcache
    rw [Option.mem_def] at hcache
    rw [hcache] at h hindex
    obtain ⟨hoverlap, hlabelled⟩ := checkThumbnailCachePath_ok h
    refine ⟨hoverlap, fun file hfile => ?_⟩
    rcases List.mem_cons.mp hfile with rfl | hfile
    · simp only [Option.any_some, ensure_eq_ok, Bool.not_eq_true', Bool.or_eq_false_iff] at hindex
      simp [hindex.1]
    · exact hlabelled file hfile
  have hdatabase : paths.databasePath ∈ stateFiles paths := by simp [stateFiles, labelledPaths]
  have hself : paths.searchIndexPath ∈ stateFiles paths := List.mem_cons_self
  refine
    { search_apart := by simpa using hsearch
      search_distinct := nodup_sqlitePaths _
      database_distinct := nodup_sqlitePaths _
      outside_shares := hshares
      sidecars_outside_shares := fun root hroot => sidecar_not_inside
        (hshares root hroot _ (List.mem_append_left _ hdatabase))
        (hshares root hroot _ (List.mem_append_left _ hself))
      outside_cache := fun cache hmem => (hcache cache hmem).2
      sidecars_outside_cache := fun cache hmem => sidecar_not_inside
        ((hcache cache hmem).2 _ hdatabase) ((hcache cache hmem).2 _ hself)
      roots_apart := List.pairwise_map.mpr (rejectOverlappingRoots_ok hroots)
      cache_apart := fun cache hmem root hroot => ?_ }
  obtain ⟨share, hshare, rfl⟩ := List.mem_map.mp hroot
  exact (hcache cache hmem).1 share hshare

/-- The paths of an accepted configuration are apart: the search index with its sidecars is none of
the other files, no file of the server or of sign-in lies in a share, no file of the server in the
thumbnail cache, and the cache and the shares do not contain one another. -/
theorem accepted_paths_apart {around : Surroundings} {canonical : String → FilePath} {source : FilePath}
    {raw : RawConfig} {config : Config}
    (h : validate (around.withPaths canonical (raw.paths canonical around.isNumeric source)) raw =
      .ok config) :
    PathsApart (raw.paths canonical around.isNumeric source)
      (config.shares.map fun share => canonical share.root) := by
  obtain ⟨-, h⟩ := ite_error_eq_ok.mp h
  obtain ⟨server, -, h⟩ := bind_eq_ok.mp h
  obtain ⟨_, -, h⟩ := bind_eq_ok.mp h
  obtain ⟨users, -, h⟩ := bind_eq_ok.mp h
  obtain ⟨shares, -, h⟩ := bind_eq_ok.mp h
  obtain ⟨_, hpaths, h⟩ := bind_eq_ok.mp h
  obtain rfl := Except.ok.inj h
  have hapart := checkPathsApart_ok hpaths
  rwa [placed, List.map_map] at hapart

/-! ### Two configurations -/

/-- The path that a text is without links: its parts between slashes. -/
def pathOf (text : String) : FilePath :=
  let parts := ((text.toList.splitOn '/').filter (· ≠ [])).map String.ofList
  ⟨parts.dropLast, parts.getLastD ""⟩

/-- A machine on which the files of OIDC sign-in are as they should be. -/
def oidcSurroundings : Surroundings :=
  { plainSurroundings with
    url := fun _ => some ⟨"https", true, "", false, false, false, "/api/v1/auth/oidc/callback"⟩
    clientSecret := fun _ => .ok "0123456789abcdef0123456789abcdef"
    caFile := fun _ => .ok () }

/-- The configuration of one share with OIDC sign-in from the given files. -/
def oidcConfig (databasePath sessionSecretFile clientSecretFile caFile : String) : RawConfig :=
  let raw := oneShare "Documents"
  { raw with
    server := { raw.server with databasePath, sessionSecretFile }
    auth :=
      { oidcEnabled := true
        oidc := some
          { issuer := "https://id.example.com", clientId := "crabinet", clientSecretFile
            redirectUri := "https://files.example.com/api/v1/auth/oidc/callback"
            caFile := some caFile } }
    users := [{ username := "ada", passwordHash := some "$argon2id$", email := some "ada@example.com" }] }

/-- Whether a configuration is accepted that is read from `/etc/crabinet/config.toml`. -/
def acceptsConfig (raw : RawConfig) : Bool :=
  let paths := raw.paths pathOf oidcSurroundings.isNumeric (pathOf "/etc/crabinet/config.toml")
  (validate (oidcSurroundings.withPaths pathOf paths) raw).toOption.isSome

theorem accepted_paths_apart_ordinary : ∃ config,
    PathsApart ((oidcConfig "/var/lib/crabinet/state.sqlite3" "/etc/crabinet/session.key"
        "/etc/crabinet/oidc.secret" "/etc/crabinet/ca.pem").paths pathOf oidcSurroundings.isNumeric
        (pathOf "/etc/crabinet/config.toml"))
      ((config : Config).shares.map fun share => pathOf share.root) := by
  have haccepted : acceptsConfig (oidcConfig "/var/lib/crabinet/state.sqlite3" "/etc/crabinet/session.key"
      "/etc/crabinet/oidc.secret" "/etc/crabinet/ca.pem") = true := by
    decide +kernel
  rw [acceptsConfig] at haccepted
  obtain ⟨config, hconfig⟩ := Option.isSome_iff_exists.mp haccepted
  exact ⟨config, accepted_paths_apart (toOption_eq_some.mp hconfig)⟩

/-- The private files of a configuration. -/
def privateFiles (paths : ConfigPaths) : List FilePath :=
  paths.source :: paths.sessionSecretFile :: sqlitePaths paths.databasePath ++
    sqlitePaths paths.searchIndexPath ++ paths.oidcFiles

/-- One file may be the session secret and the client secret, or the database and the configuration,
and the thumbnail cache may have the files of sign-in inside. -/
theorem private_files_together :
    (∀ raw ∈ [oidcConfig "/var/lib/crabinet/state.sqlite3" "/etc/crabinet/secret" "/etc/crabinet/secret"
          "/etc/crabinet/ca.pem",
        oidcConfig "/etc/crabinet/config.toml" "/etc/crabinet/session.key" "/etc/crabinet/oidc.secret"
          "/etc/crabinet/ca.pem"],
      acceptsConfig raw = true ∧ ¬(privateFiles (raw.paths pathOf oidcSurroundings.isNumeric
        (pathOf "/etc/crabinet/config.toml"))).Nodup) ∧
    (∀ raw ∈ [oidcConfig "/var/lib/crabinet/state.sqlite3" "/etc/crabinet/session.key"
        "/var/lib/crabinet/thumbnails/oidc.secret" "/var/lib/crabinet/thumbnails/ca.pem"],
      acceptsConfig raw = true ∧
        let paths := raw.paths pathOf oidcSurroundings.isNumeric (pathOf "/etc/crabinet/config.toml")
        ∃ cache ∈ paths.thumbnailCachePath, ∀ file ∈ paths.oidcFiles, file.Inside cache) := by
  decide +kernel

end Crabinet.Startup
