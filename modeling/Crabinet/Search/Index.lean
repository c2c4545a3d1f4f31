import Crabinet.Filesystem.VirtualPath
import Crabinet.Library.KeyedMap

/-!
# The search index

One row for every indexed entry, over all shares, with a running total of the rows. The
statements of the source select rows by a text range that holds exactly the paths beneath
a path; here the range is that set of paths. Columns that are computed from a row's name
and kind and that no statement below reads are left out.
-/

namespace Crabinet.Search

open Crabinet.Filesystem Crabinet.Library

/-- `MAX_ENTRIES`. -/
def maxEntries : ℤ := 200000

/-- `MAX_PENDING`. -/
def maxPending : ℕ := 4096

/-- `MAX_LISTING`. -/
def maxListing : ℕ := 10000

/-- The largest `i64`. -/
def i64Max : ℕ := 2 ^ 63 - 1

/-- `DirectoryEntry`, as far as the index reads it. -/
structure DirectoryEntry where
  name : EntryName
  kind : EntryKind
  size : ℕ
  modified : Option SystemTime
deriving DecidableEq, Repr

/-- What identifies a row: the share and the path. -/
structure RowKey where
  share : ShareId
  path : VirtualPath
deriving DecidableEq

/-- A row of `entries`. -/
structure Row where
  parent : VirtualPath
  name : EntryName
  kind : EntryKind
  size : Option ℕ
  modified : Option ℕ
deriving DecidableEq, Repr

/-- The rows and `Writer::total`. -/
structure Index where
  rows : KeyedMap RowKey Row
  total : ℤ

/-- The size column: none for a directory or a size beyond `i64`. -/
def indexedSize (entry : DirectoryEntry) : Option ℕ :=
  match entry.kind with
  | .directory => none
  | .file => if entry.size ≤ i64Max then some entry.size else none

/-- `unix_seconds`. -/
def unixSeconds (time : Option SystemTime) : Option ℕ :=
  (time.bind SystemTime.secondsSinceEpoch).filter fun seconds => seconds ≤ i64Max

/-- The paths in `["path/", "path0")`: those beneath a path, and none for the root's empty text. -/
def inRange (path other : VirtualPath) : Bool := path != .root && other.isUnder path

/-- Delete the rows that satisfy `gone`, and say how many there were. -/
def deleteRows (rows : KeyedMap RowKey Row) (gone : RowKey → Bool) : KeyedMap RowKey Row × ℕ :=
  let kept := rows.retain fun key _ => !gone key
  (kept, rows.size - kept.size)

/-- `forget`. -/
def Index.forget (index : Index) (share : ShareId) (path : VirtualPath) : Index :=
  let (rows, removed) := deleteRows index.rows fun key =>
    key.share = share && (key.path == path || inRange path key.path)
  { rows, total := index.total - removed }

/-- The rows of one parent by name, as `reconcile` selects them. -/
def snapshot (rows : KeyedMap RowKey Row) (share : ShareId) (parent : VirtualPath) :
    KeyedMap EntryName Row :=
  rows.entries.foldl (fun selected entry =>
    if entry.1.share = share ∧ entry.2.parent = parent then selected.insert entry.2.name entry.2
    else selected) .empty

/-- The state of `reconcile`'s loops. -/
structure Reconciling where
  rows : KeyedMap RowKey Row
  count : ℤ
  existing : KeyedMap EntryName Row
  directories : List (VirtualPath × Bool)
  capped : Bool

/-- Delete everything beneath a path. -/
def Reconciling.removeBelow (state : Reconciling) (share : ShareId) (path : VirtualPath) :
    Reconciling :=
  let (rows, removed) := deleteRows state.rows fun key => key.share = share && inRange path key.path
  { state with rows, count := state.count - removed }

/-- Note a subdirectory, and whether it was not indexed before. -/
def Reconciling.push (state : Reconciling) (path : VirtualPath) (kind : EntryKind) (new : Bool) :
    Reconciling :=
  if kind = .directory then { state with directories := state.directories ++ [(path, new)] }
  else state

/-- One entry of the listing. -/
def Reconciling.visit (state : Reconciling) (share : ShareId) (parent : VirtualPath)
    (entry : DirectoryEntry) : Reconciling :=
  let path := parent.join entry.name
  let key : RowKey := ⟨share, path⟩
  let row : Row := ⟨parent, entry.name, entry.kind, indexedSize entry, unixSeconds entry.modified⟩
  if path.depth > maxPathDepth then { state with capped := true }
  else
    match state.existing.get? entry.name with
    | some old =>
      let state := { state with existing := state.existing.erase entry.name }
      if old.kind ≠ entry.kind then
        let state := if old.kind = .directory then state.removeBelow share path else state
        { state with rows := state.rows.insert key row }.push path entry.kind true
      else if old.size = row.size ∧ old.modified = row.modified then state.push path entry.kind false
      else { state with rows := state.rows.insert key row }.push path entry.kind false
    | none =>
      if state.count < maxEntries then
        { state with rows := state.rows.insert key row, count := state.count + 1 }.push path
          entry.kind true
      else { state with capped := true }

/-- One name that the listing no longer has. -/
def Reconciling.vanish (state : Reconciling) (share : ShareId) (parent : VirtualPath)
    (gone : EntryName × Row) : Reconciling :=
  let path := parent.join gone.1
  let (rows, removed) := deleteRows state.rows fun key => key = ⟨share, path⟩
  let state := { state with rows, count := state.count - removed }
  if gone.2.kind = .directory then state.removeBelow share path else state

/-- `reconcile`: the subdirectories, whether each is new, and whether a bound was hit. -/
def Index.reconcile (index : Index) (share : ShareId) (parent : VirtualPath)
    (entries : List DirectoryEntry) : Index × List (VirtualPath × Bool) × Bool :=
  let start : Reconciling :=
    ⟨index.rows, index.total, snapshot index.rows share parent, [], false⟩
  let visited := entries.foldl (fun state entry => state.visit share parent entry) start
  let done := visited.existing.entries.foldl (fun state gone => state.vanish share parent gone) visited
  ({ rows := done.rows, total := done.count }, done.directories, done.capped)

end Crabinet.Search
