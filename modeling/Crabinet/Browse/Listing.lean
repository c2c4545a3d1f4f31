import Crabinet.Filesystem.Tree
import Crabinet.Tokens.DirectoryCursor
import Mathlib.Data.List.Sort

/-!
# Directory listings in pages

Every page is cut from a listing that is read, filtered and sorted anew. The order in which
the file system enumerates a directory may differ each time; the fingerprint in a cursor
tells whether the listing is still the one that the cursor belongs to.
-/

namespace Crabinet.Browse

open Crabinet.Filesystem Crabinet.Library Crabinet.Tokens

/-- `BrowseLimits`, as far as a listing uses them. -/
structure BrowseLimits where
  defaultPageSize : ℕ
  maxPageSize : ℕ
  maxDirectoryEntries : ℕ
  fits : maxDirectoryEntries < 2 ^ 64

/-- What a directory enumerates: a name, none where it is not UTF-8, and what its metadata says. -/
structure RawEntry where
  name : Option String
  status : FsResult Entry
deriving DecidableEq

/-- `DirectoryEntry`. -/
structure DirectoryEntry where
  name : EntryName
  kind : EntryKind
  size : ℕ
  modified : Option SystemTime
  fileId : UInt64
deriving DecidableEq

/-- `supported_entry`. -/
def supportedEntry (tables : UnicodeTables) (raw : RawEntry) : FsResult (Option DirectoryEntry) :=
  match raw.name with
  | none => .ok none
  | some name =>
    if isReservedName name then .ok none
    else if !EntryName.accepts tables name then .ok none
    else
      match raw.status with
      | .error .notFound => .ok none
      | .error error => .error error
      | .ok entry =>
        match entry.metadata with
        | .error _ => .ok none
        | .ok found =>
          .ok (some ⟨⟨name⟩, found.kind, found.size, found.modified, UInt64.ofNat found.fileId⟩)

/-- The scan of `list_bounded`. -/
def scan (tables : UnicodeTables) (maxEntries : ℕ) : ℕ → List RawEntry → FsResult (List DirectoryEntry)
  | _, [] => .ok []
  | scanned, raw :: rest =>
    if scanned = maxEntries then .error .tooLarge
    else do
      let entry ← supportedEntry tables raw
      let entries ← scan tables maxEntries (scanned + 1) rest
      return entry.toList ++ entries

/-- The order of names. -/
def nameOrder (left right : DirectoryEntry) : Prop := left.name.value ≤ right.name.value

/-- The listing order: by kind, then by name. -/
def listingOrder (left right : DirectoryEntry) : Prop :=
  entryKindOrder left.kind < entryKindOrder right.kind ∨
    (left.kind = right.kind ∧ left.name.value ≤ right.name.value)

instance : DecidableRel nameOrder := fun _ _ => inferInstanceAs (Decidable (_ ≤ _))

instance : DecidableRel listingOrder := fun _ _ => inferInstanceAs (Decidable (_ ∨ _))

/-- `list_bounded`. -/
def listBounded (tables : UnicodeTables) (maxEntries : ℕ) (enumerated : List RawEntry) :
    FsResult (List DirectoryEntry) := do
  let entries ← scan tables maxEntries 0 enumerated
  return entries.insertionSort nameOrder

/-- Whether a request leaves an entry out. -/
def isHidden (showHidden : Option Bool) (entry : DirectoryEntry) : Bool :=
  showHidden == some false && entry.name.value.toList.head? == some '.'

/-- The entries that a request shows, in listing order. -/
def listing (tables : UnicodeTables) (maxEntries : ℕ) (showHidden : Option Bool)
    (enumerated : List RawEntry) : FsResult (List DirectoryEntry) := do
  let entries ← listBounded tables maxEntries enumerated
  return (entries.filter fun entry => !isHidden showHidden entry).insertionSort listingOrder

/-- The message of `listing_fingerprint`. -/
def listingFingerprint (entries : List DirectoryEntry) : List UInt8 :=
  beBytes 8 entries.length ++ entries.flatMap fun entry =>
    entryKindOrder entry.kind :: (framed (utf8 entry.name.value) ++ beBytes 8 entry.fileId.toNat)

/-- `parse_query_path`. -/
def parseQueryPath (tables : UnicodeTables) (raw : Option (List Char)) :
    Except AppError (ValidPath tables) :=
  match raw with
  | none | some [] => .ok ⟨.root, fun _ hname => (List.not_mem_nil hname).elim, by decide⟩
  | some text =>
    match h : parsePath (EntryName.accepts tables) text with
    | .error _ => .error .invalidRequest
    | .ok path =>
      .ok ⟨path, (parsePath_eq_ok h).2.1,
        Nat.lt_of_le_of_lt (parsePath_eq_ok h).2.2.2 (by decide)⟩

/-- `map_fs_error`. -/
def mapFsError {α : Type} : FsResult α → Except AppError α
  | .ok a => .ok a
  | .error .tooLarge => .error .tooLarge
  | .error .unavailable => .error .internal
  | .error .invalidPath => .error .invalidRequest
  | .error .tooDeep => .error .pathTooDeep
  | .error _ => .error .notFound

/-- `DirectoryQuery`. -/
structure DirectoryQuery where
  path : Option (List Char)
  limit : Option ℕ
  showHidden : Option Bool
  cursor : Option (List Char)

/-- `DirectoryPage`. -/
structure DirectoryPage where
  entries : List DirectoryEntry
  nextCursor : Option (List Char)

/-- The keyed and the plain hash function, and the caps. -/
structure BrowseState where
  mac : Mac
  sha : List UInt8 → Vector UInt8 32
  limits : BrowseLimits

/-- Who asks, for which share, and with which access. -/
structure Requester where
  subject : Username
  share : ShareId
  access : AccessLevel

variable {tables : UnicodeTables}

/-- What a requester's cursors for a path are bound to. -/
def Requester.scope (requester : Requester) (path : ValidPath tables) : CursorScope tables :=
  ⟨requester.subject, requester.share, path, requester.access⟩

namespace BrowseState

/-- The fingerprint of a listing. -/
def fingerprint (state : BrowseState) (entries : List DirectoryEntry) : Vector UInt8 32 :=
  state.sha (listingFingerprint entries)

/-- Where a page starts. -/
def start (state : BrowseState) (scope : CursorScope tables) (entries : List DirectoryEntry) :
    Option (List Char) → Except AppError ℕ
  | none => .ok 0
  | some cursor => do
    let offset ← scope.decodeCursor state.mac (state.fingerprint entries) cursor
    return offset.toNat

/-- The page of a listing from an offset. -/
def page (state : BrowseState) (scope : CursorScope tables) (entries : List DirectoryEntry)
    (limit offset : ℕ) : Except AppError DirectoryPage :=
  if offset > entries.length then .error .conflict
  else
    let stop := min (offset + limit) entries.length
    .ok
      { entries := (entries.take stop).drop offset
        nextCursor :=
          if stop < entries.length then
            some (scope.encodeCursor state.mac (UInt64.ofNat stop) (state.fingerprint entries))
          else none }

/-- `list_directory`, of a directory as it is enumerated at the time. -/
def listDirectory (state : BrowseState) (tables : UnicodeTables) (requester : Requester)
    (query : DirectoryQuery) (enumerated : FsResult (List RawEntry)) : Except AppError DirectoryPage := do
  let path ← parseQueryPath tables query.path
  let limit := query.limit.getD state.limits.defaultPageSize
  if limit = 0 ∨ limit > state.limits.maxPageSize then .error .invalidRequest
  else do
    let enumerated ← mapFsError enumerated
    let entries ←
      mapFsError (listing tables state.limits.maxDirectoryEntries query.showHidden enumerated)
    let offset ← state.start (requester.scope path) entries query.cursor
    state.page (requester.scope path) entries limit offset

end BrowseState

end Crabinet.Browse
