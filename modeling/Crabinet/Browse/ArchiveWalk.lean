import Crabinet.Browse.Pagination
import Crabinet.Filesystem.PathText
import Crabinet.Filesystem.Walks

/-!
# Walks of archived folders

A walk lists what lies beneath a folder, depth first and in the order of names, and stops at the first
of its limits. What it meets in a directory is an argument: a name may not be UTF-8, an entry may vanish
before it is opened, and a directory may not be readable.
-/

namespace Crabinet.Browse

open Crabinet.Filesystem Crabinet.Library

/-- `ArchiveLimits`. -/
structure ArchiveLimits where
  maxEntries : ℕ
  maxBytes : ℕ
  maxNameBytes : ℕ

/-- `ArchiveItem`. -/
structure ArchiveItem where
  relative : String
  kind : EntryKind
  size : ℕ
  modified : Option SystemTime
deriving DecidableEq

/-- `ArchiveWalk`. -/
structure ArchiveWalk where
  items : List ArchiveItem
  scanned : ℕ
  bytes : ℕ
  nameBytes : ℕ
deriving DecidableEq

/-- How an entry opens as a directory, and whether it can be read. -/
inductive Opening where
  | vanished
  | failed (error : FsErrorCode)
  | opened
deriving DecidableEq

/-- What a walk meets in a directory, and in the directories in it. -/
inductive Scan where
  | done
  /-- The next entry cannot be read. -/
  | fault (error : FsErrorCode)
  | entry (raw : RawEntry) (opening : Opening) (inside rest : Scan)

/-- A child of a directory, and the visit to what lies in it: of a prefix and a depth. -/
structure Child where
  entry : DirectoryEntry
  opening : Opening
  visit : String → ℕ → ArchiveWalk → FsResult ArchiveWalk

namespace ArchiveWalk

/-- Another entry is scanned. -/
def scan (limits : ArchiveLimits) (walk : ArchiveWalk) : FsResult ArchiveWalk :=
  if walk.scanned + 1 > limits.maxEntries then .error .tooLarge
  else .ok { walk with scanned := walk.scanned + 1 }

/-- The path of a child, from the prefix of its directory. -/
def childPath (before : String) (name : EntryName) : String :=
  if before.isEmpty then name.value else before ++ "/" ++ name.value

/-- `ArchiveWalk::add`. -/
def add (limits : ArchiveLimits) (before : String) (depth : ℕ) (skipVanished : Bool)
    (walk : ArchiveWalk) (child : Child) : FsResult ArchiveWalk :=
  let relative := childPath before child.entry.name
  let nameBytes := min (walk.nameBytes + relative.utf8ByteSize) u64Max
  if nameBytes > limits.maxNameBytes then .error .tooLarge
  else
    let walk := { walk with nameBytes }
    let item : ArchiveItem := ⟨relative, child.entry.kind, child.entry.size, child.entry.modified⟩
    match child.entry.kind with
    | .file =>
      let bytes := min (walk.bytes + child.entry.size) u64Max
      if bytes > limits.maxBytes then .error .tooLarge
      else .ok { walk with bytes, items := walk.items ++ [item] }
    | .directory =>
      match child.opening with
      | .vanished => if skipVanished then .ok walk else .error .notFound
      | .failed error => .error error
      | .opened => child.visit relative (depth + 1) { walk with items := walk.items ++ [item] }

/-- `ArchiveWalk::visit`, of the children that the scan of a directory collects. -/
def visit (limits : ArchiveLimits) (children : ArchiveWalk → FsResult (ArchiveWalk × List Child))
    (before : String) (depth : ℕ) (walk : ArchiveWalk) : FsResult ArchiveWalk := do
  let (walk, children) ← children walk
  if !children.isEmpty ∧ depth ≥ maxPathDepth then .error .tooDeep
  else
    (children.insertionSort fun left right => nameOrder left.entry right.entry).foldlM
      (add limits before depth true) walk

end ArchiveWalk

/-- The scan of a directory: its supported entries, with the visits to what lies in them. -/
def Scan.children (tables : UnicodeTables) (limits : ArchiveLimits) :
    Scan → ArchiveWalk → FsResult (ArchiveWalk × List Child)
  | done, walk => .ok (walk, [])
  | fault error, walk => do
    let _ ← walk.scan limits
    .error error
  | entry raw opening inside rest, walk => do
    let walk ← walk.scan limits
    let found ← supportedEntry tables raw
    let (walk, others) ← rest.children tables limits walk
    match found with
    | none => return (walk, others)
    | some child =>
      return (walk, ⟨child, opening, fun before depth walk =>
        walk.visit limits (inside.children tables limits) before depth⟩ :: others)

/-- The walk of one directory. -/
def Scan.visit (tables : UnicodeTables) (limits : ArchiveLimits) (scan : Scan) (before : String)
    (depth : ℕ) (walk : ArchiveWalk) : FsResult ArchiveWalk :=
  walk.visit limits (scan.children tables limits) before depth

/-- A walk that has not begun. -/
def ArchiveWalk.new : ArchiveWalk := ⟨[], 0, 0, 0⟩

/-- `archive_items`, of a directory at a depth. -/
def archiveItems (tables : UnicodeTables) (limits : ArchiveLimits) (scan : Scan) (depth : ℕ) :
    FsResult (List ArchiveItem) := do
  let walk ← scan.visit tables limits "" depth .new
  return walk.items

/-- What a walk meets at a selected name. -/
structure Selected where
  found : FsResult EntryMetadata
  opening : Opening
  inside : Scan

/-- The order of selected names. -/
def nameLe (left right : EntryName) : Prop := left.value ≤ right.value

instance : DecidableRel nameLe := fun _ _ => inferInstanceAs (Decidable (_ ≤ _))

/-- `windows(2).any` of two equal names. -/
def adjacentEqual : List EntryName → Bool
  | first :: second :: rest => first == second || adjacentEqual (second :: rest)
  | _ => false

/-- One selected name of `archive_selection`. -/
def ArchiveWalk.select (tables : UnicodeTables) (limits : ArchiveLimits) (depth : ℕ)
    (selected : EntryName → Selected) (walk : ArchiveWalk) (name : EntryName) : FsResult ArchiveWalk := do
  let walk ← walk.scan limits
  let found ← (selected name).found
  let child : DirectoryEntry := ⟨name, found.kind, found.size, found.modified, UInt64.ofNat found.fileId⟩
  walk.add limits "" depth false
    ⟨child, (selected name).opening, fun before depth walk =>
      (selected name).inside.visit tables limits before depth walk⟩

/-- `archive_selection`, of names of a directory at a depth. -/
def archiveSelection (tables : UnicodeTables) (limits : ArchiveLimits) (depth : ℕ)
    (selected : EntryName → Selected) (names : List EntryName) : FsResult (List ArchiveItem) :=
  let sorted := names.insertionSort nameLe
  if sorted.isEmpty || adjacentEqual sorted then .error .invalidPath
  else do
    let walk ← sorted.foldlM (ArchiveWalk.select tables limits depth selected) .new
    return walk.items

/-! ### Directories that do not change -/

namespace ArchiveTree

variable (tables : UnicodeTables)

/-- The directory entry that a walk makes of an entry, if it is supported. -/
def entryOf (name : EntryName) (entry : Entry) : Option DirectoryEntry :=
  listed tables ⟨some name.value, .ok entry⟩

/-- What a walk meets in contents that do not change. -/
def scanOf : Contents → Scan
  | .empty => .done
  | .leaf name type stat rest => .entry ⟨some name.value, .ok (.leaf type stat)⟩ (.failed .notFound) .done (scanOf rest)
  | .directory name stat inside rest =>
    .entry ⟨some name.value, .ok (.directory stat inside)⟩ .opened (scanOf inside) (scanOf rest)

/-- The supported entries of a directory, with what lies in them. -/
def supported : Contents → List (DirectoryEntry × Contents)
  | .empty => []
  | .leaf name type stat rest =>
    ((entryOf tables name (.leaf type stat)).map fun entry => (entry, .empty)).toList ++ supported rest
  | .directory name stat inside rest =>
    ((entryOf tables name (.directory stat inside)).map fun entry => (entry, inside)).toList ++ supported rest

/-- Everything that is supported beneath a folder, with the names that lead to it: what each entry of the
folder contributes. -/
def offers : Contents → List (DirectoryEntry × (List EntryName → List (List EntryName × DirectoryEntry)))
  | .empty => []
  | .leaf name type stat rest =>
    ((entryOf tables name (.leaf type stat)).map fun entry =>
      (entry, fun path => [(path ++ [entry.name], entry)])).toList ++ offers rest
  | .directory name stat inside rest =>
    ((entryOf tables name (.directory stat inside)).map fun entry =>
      (entry, fun path => (path ++ [entry.name], entry) ::
        ((offers inside).insertionSort fun left right => nameOrder left.1 right.1).flatMap fun offer =>
          offer.2 (path ++ [entry.name]))).toList ++ offers rest

/-- What an archive of a folder holds, from a path on. -/
def archived (contents : Contents) (path : List EntryName) : List (List EntryName × DirectoryEntry) :=
  ((offers tables contents).insertionSort fun left right => nameOrder left.1 right.1).flatMap fun offer =>
    offer.2 path

/-- The number of entries that a walk scans. -/
def visited : Contents → ℕ
  | .empty => 0
  | .leaf _ _ _ rest => 1 + visited rest
  | .directory name stat inside rest =>
    1 + (if (entryOf tables name (.directory stat inside)).isSome then visited inside else 0) + visited rest

end ArchiveTree

end Crabinet.Browse
