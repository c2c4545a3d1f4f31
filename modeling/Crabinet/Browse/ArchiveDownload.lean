import Crabinet.Browse.ArchiveRequest
import Crabinet.Browse.ArchiveStream
import Crabinet.Browse.ArchivedFolders

/-!
# Downloads of archives

A request is walked before anything is sent: the layout has the sources of the archive in their order, and
what leads from their names back to their paths. The share is one that does not change.
-/

namespace Crabinet.Browse

open Crabinet.Filesystem Crabinet.Library
open Crabinet.Zip (Source ZipSource)
open ArchiveTree

/-- A share that does not change. -/
structure StillShare where
  shareId : String
  modified : Option SystemTime
  root : Contents
  data : VirtualPath → List UInt8
  distinct : Distinct root
  /-- Each file has as many bytes as its size says. -/
  length_data : ∀ path stat, root.entryAt path = .ok (.leaf .file stat) → (data path).length = stat.size

/-- `ArchiveLayout`. -/
structure ArchiveLayout where
  sources : List ZipSource
  base : VirtualPath
  prefixLen : ℕ
  filename : String

/-- How an entry opens as a directory. -/
def openingOf : Entry → Opening
  | .leaf _ _ => .failed .notFound
  | .directory _ _ => .opened

/-- What a walk meets at a name of a directory. -/
def selectedOf (inside : Contents) (name : EntryName) : Selected :=
  match inside.get? name with
  | none => ⟨.error .notFound, .failed .notFound, .done⟩
  | some entry => ⟨entry.metadata, openingOf entry, scanOf (insideOf entry)⟩

/-- The source of an item, with what stands before its path. -/
def sourceOf (before : String) (item : ArchiveItem) : ZipSource :=
  ⟨before ++ item.relative, if item.kind = .file then some item.size else none, item.modified⟩

namespace StillShare

/-- A directory: its modification time and its contents. -/
def openDirectory (share : StillShare) (path : VirtualPath) : FsResult (Option SystemTime × Contents) :=
  if path = .root then .ok (share.modified, share.root)
  else do
    match ← share.root.entryAt path with
    | .directory stat inside => return (stat.modified, inside)
    | .leaf _ _ => .error .notFound

/-- `file_name`, or the name of the share. -/
def nameOf (share : StillShare) (path : VirtualPath) : String :=
  path.components.getLast?.elim share.shareId (·.value)

/-- `folder_layout`. -/
def folderLayout (share : StillShare) (tables : UnicodeTables) (limits : ArchiveLimits) (folder : VirtualPath) :
    FsResult ArchiveLayout := do
  let (modified, inside) ← share.openDirectory folder
  let items ← archiveItems tables limits (scanOf inside) folder.depth
  let rootName := share.nameOf folder
  return {
    sources := ⟨rootName, none, modified⟩ :: items.map (sourceOf (rootName ++ "/"))
    base := folder
    prefixLen := rootName.utf8ByteSize + 1
    filename := rootName ++ ".zip" }

/-- `archive_layout`, of selected names. -/
def selectionLayout (share : StillShare) (tables : UnicodeTables) (limits : ArchiveLimits) (parent : VirtualPath)
    (names : List EntryName) : FsResult ArchiveLayout :=
  let sorted := names.insertionSort nameLe
  if sorted.isEmpty || adjacentEqual sorted then .error .invalidPath
  else do
    let (_, inside) ← share.openDirectory parent
    let items ← archiveSelection tables limits parent.depth (selectedOf inside) names
    let filename := match names with
      | [only] => only.value
      | _ => share.nameOf parent
    return {
      sources := items.map (sourceOf "")
      base := parent
      prefixLen := 0
      filename := filename ++ ".zip" }

/-- `archive_layout`. -/
def archiveLayout (share : StillShare) (tables : UnicodeTables) (limits : ArchiveLimits) :
    ArchiveRequest → FsResult ArchiveLayout
  | .root => share.folderLayout tables limits .root
  | .single path => do
    let entry ← share.root.entryAt path
    let found ← entry.metadata
    match splitParent path with
    | some (parent, name) =>
      if found.kind ≠ .directory then share.selectionLayout tables limits parent [name]
      else share.folderLayout tables limits path
    | none => share.folderLayout tables limits path
  | .selection parent names => share.selectionLayout tables limits parent names

/-- `open_file`; reads of a file give as many bytes as `reads` has it. -/
def openFile (share : StillShare) (reads : ℕ → ℕ) (path : VirtualPath) : Option OpenedFile :=
  match share.root.entryAt path with
  | .ok (.leaf .file stat) => if stat.links = 1 then some ⟨stat.size, ⟨share.data path, reads⟩⟩ else none
  | _ => none

/-- What an archive of the share is streamed with. -/
def host {σ : Type} (share : StillShare) (tables : UnicodeTables) (compressor : StreamCompressor σ)
    (reads : ℕ → ℕ → ℕ) : ArchiveHost σ where
  compressor := compressor
  tables := tables
  openFile index path := share.openFile (reads index) path

end StillShare

/-! ### Selections that do not change -/

namespace ArchiveTree

variable {tables : UnicodeTables} {limits : ArchiveLimits} {inside : Contents} {depth : ℕ}
  {walk next : ArchiveWalk} {name : EntryName} {names : List EntryName} {child : Child}

/-- Whether vanished directories are skipped makes no difference where none vanishes. -/
theorem add_of_opening {before : String} (h : child.opening ≠ .vanished) :
    walk.add limits before depth false child = walk.add limits before depth true child := by
  unfold ArchiveWalk.add
  cases hopening : child.opening with
  | vanished => exact absurd hopening h
  | failed error => rfl
  | opened => rfl

/-- The supported entry of an accepted name. -/
theorem entryOf_of_metadata {entry : Entry} {found : EntryMetadata}
    (haccepts : EntryName.accepts tables name.value = true) (hfound : entry.metadata = .ok found) :
    entryOf tables name entry =
      some ⟨name, found.kind, found.size, found.modified, UInt64.ofNat found.fileId⟩ := by
  have hreserved : isReservedName name.value = false := by
    simp only [EntryName.accepts, Bool.not_eq_true', Bool.or_eq_false_iff] at haccepts
    exact haccepts.2
  unfold entryOf listed supportedEntry
  dsimp only
  rw [hreserved, haccepts, hfound]
  rfl

/-- A supported entry is the child that its directory has. -/
theorem childOf_of_entryOf {entry : Entry} {found : DirectoryEntry} (h : entryOf tables name entry = some found) :
    (⟨found, openingOf entry, fun before depth walk =>
      (scanOf (insideOf entry)).visit tables limits before depth walk⟩ : Child) =
      childOf tables limits (found, insideOf entry) := by
  obtain ⟨-, -, metadata, hmetadata, hkind, -⟩ := entryOf_eq_some h
  have hopening : openingOf entry = if found.kind = .directory then .opened else .failed .notFound := by
    cases entry with
    | leaf type stat =>
      cases type with
      | other => cases hmetadata
      | file =>
        rw [Entry.metadata] at hmetadata
        split at hmetadata
        · obtain rfl := Except.ok.inj hmetadata
          rw [hkind]
          rfl
        · cases hmetadata
    | directory stat contents =>
      obtain rfl := Except.ok.inj hmetadata
      rw [hkind]
      rfl
  rw [hopening]
  rfl

/-- The walk of a selected name is that of a supported entry of the directory. -/
theorem select_eq (haccepts : EntryName.accepts tables name.value = true)
    (h : walk.select tables limits depth (selectedOf inside) name = .ok next) :
    ∃ pair, MadeOf tables pair (inside.get? name) ∧ pair.1.name = name ∧ walk.scanned + 1 ≤ limits.maxEntries ∧
      { walk with scanned := walk.scanned + 1 }.add limits "" depth true (childOf tables limits pair) = .ok next := by
  obtain ⟨scanned, hscanned, h⟩ := bind_eq_ok.mp h
  obtain ⟨hroom, rfl⟩ := scan_eq_ok.mp hscanned
  obtain ⟨found, hfound, h⟩ := bind_eq_ok.mp h
  cases hget : inside.get? name with
  | none =>
    rw [selectedOf, hget] at hfound
    cases hfound
  | some entry =>
    have hselected : selectedOf inside name = ⟨entry.metadata, openingOf entry, scanOf (insideOf entry)⟩ := by
      rw [selectedOf, hget]
    rw [hselected] at hfound h
    have hentry := entryOf_of_metadata haccepts hfound
    dsimp only at h
    generalize DirectoryEntry.mk name found.kind found.size found.modified (UInt64.ofNat found.fileId) = child
      at hentry h
    have hopening : openingOf entry ≠ .vanished := by
      cases entry with
      | leaf type stat =>
        intro heq
        cases heq
      | directory stat contents =>
        intro heq
        cases heq
    rw [add_of_opening hopening] at h
    exact ⟨(child, insideOf entry), ⟨entry, rfl, (entryOf_eq_some hentry).1 ▸ hentry, rfl⟩,
      (entryOf_eq_some hentry).1, hroom, childOf_of_entryOf hentry ▸ h⟩

end ArchiveTree

end Crabinet.Browse
