import Crabinet.Filesystem.VirtualPath
import Crabinet.Library.Outcome

/-!
# Directory trees

The contents of a directory, in the order in which it lists its entries. Names are looked
up without following links, so an entry that is no directory ends a path.
-/

namespace Crabinet.Filesystem

open Crabinet.Library
open scoped List

/-- What the file system records of an entry besides its type. -/
structure Stat where
  size : ℕ
  modified : Option SystemTime
  fileId : ℕ
  links : ℕ
deriving DecidableEq, Repr

/-- An entry that is no directory: a regular file, or a link, device or socket. -/
inductive LeafType where
  | file | other
deriving DecidableEq, Repr

/-- The contents of a directory. -/
inductive Contents where
  | empty
  | leaf (name : EntryName) (type : LeafType) (stat : Stat) (rest : Contents)
  | directory (name : EntryName) (stat : Stat) (inside : Contents) (rest : Contents)
deriving DecidableEq, Repr

/-- An entry by itself. -/
inductive Entry where
  | leaf (type : LeafType) (stat : Stat)
  | directory (stat : Stat) (inside : Contents)
deriving DecidableEq, Repr

namespace Entry

/-- `metadata_in_parent_raw`: the metadata of a directory or of a file with one name. -/
def metadata : Entry → FsResult EntryMetadata
  | leaf .file stat =>
    if stat.links = 1 then .ok ⟨.file, stat.size, stat.modified, stat.fileId⟩
    else .error .unsupportedEntry
  | leaf .other _ => .error .unsupportedEntry
  | directory stat _ => .ok ⟨.directory, stat.size, stat.modified, stat.fileId⟩

/-- An entry that is there may be refused, but not as missing. -/
theorem metadata_ne_notFound (entry : Entry) : entry.metadata ≠ .error .notFound := by
  cases entry with
  | leaf type stat =>
    cases type with
    | file =>
      rw [metadata]
      split <;> simp
    | other => simp [metadata]
  | directory stat inside => simp [metadata]

end Entry

namespace Contents

/-- The entry of a name. -/
def get? : Contents → EntryName → Option Entry
  | empty, _ => none
  | leaf other type stat rest, name =>
    if other = name then some (.leaf type stat) else rest.get? name
  | directory other stat inside rest, name =>
    if other = name then some (.directory stat inside) else rest.get? name

/-- Add an entry. -/
def insert (contents : Contents) (name : EntryName) : Entry → Contents
  | .leaf type stat => leaf name type stat contents
  | .directory stat inside => directory name stat inside contents

/-- Remove the entry of a name. -/
def erase : Contents → EntryName → Contents
  | empty, _ => empty
  | leaf other type stat rest, name =>
    if other = name then rest else leaf other type stat (rest.erase name)
  | directory other stat inside rest, name =>
    if other = name then rest else directory other stat inside (rest.erase name)

/-- Change the inside of the directory of a name. -/
def mapDirectory (change : Contents → Contents) : Contents → EntryName → Contents
  | empty, _ => empty
  | leaf other type stat rest, name =>
    if other = name then leaf other type stat rest
    else leaf other type stat (rest.mapDirectory change name)
  | directory other stat inside rest, name =>
    if other = name then directory other stat (change inside) rest
    else directory other stat inside (rest.mapDirectory change name)

/-- `open_directory`: the directory at the end of the components. -/
def openDirectory : Contents → List EntryName → FsResult Contents
  | contents, [] => .ok contents
  | contents, name :: rest =>
    match contents.get? name with
    | some (.directory _ inside) => inside.openDirectory rest
    | _ => .error .notFound

/-- Change the contents of the directory at the end of the components. -/
def modifyAt (change : Contents → Contents) : List EntryName → Contents → Contents
  | [], contents => change contents
  | name :: rest, contents => contents.mapDirectory (modifyAt change rest) name

/-- The depth of the deepest entry, counted from the directory itself. -/
def height : Contents → ℕ
  | empty => 0
  | leaf _ _ _ rest => max 1 rest.height
  | directory _ _ inside rest => max (inside.height + 1) rest.height

/-- The number of entries at all depths. -/
def count : Contents → ℕ
  | empty => 0
  | leaf _ _ _ rest => rest.count + 1
  | directory _ _ inside rest => inside.count + 1 + rest.count

/-- The file identities of all entries. -/
def fileIds : Contents → List ℕ
  | empty => []
  | leaf _ _ stat rest => stat.fileId :: rest.fileIds
  | directory _ stat inside rest => stat.fileId :: inside.fileIds ++ rest.fileIds

end Contents

namespace Entry

/-- The height of what lies in an entry. -/
def height : Entry → ℕ
  | leaf _ _ => 0
  | directory _ inside => inside.height

/-- The number of entries that an entry is and holds. -/
def count : Entry → ℕ
  | leaf _ _ => 1
  | directory _ inside => inside.count + 1

/-- The file identities of an entry and of what it holds. -/
def fileIds : Entry → List ℕ
  | leaf _ stat => [stat.fileId]
  | directory stat inside => stat.fileId :: inside.fileIds

end Entry

namespace VirtualPath

/-- `split_file`: the parent's components and the name; the root has none. -/
def splitFile (path : VirtualPath) : FsResult (List EntryName × EntryName) :=
  match path.components.getLast? with
  | some name => .ok (path.components.dropLast, name)
  | none => .error .invalidPath

/-- A path splits into its parent's components and its name. -/
theorem splitFile_eq_ok {path : VirtualPath} {parents : List EntryName} {name : EntryName} :
    path.splitFile = .ok (parents, name) ↔ path.components = parents ++ [name] := by
  obtain ⟨components⟩ := path
  rcases List.eq_nil_or_concat components with rfl | ⟨init, last, rfl⟩
  · simp [splitFile]
  · simp [splitFile, List.concat_eq_append]

theorem depth_of_splitFile {path : VirtualPath} {parents : List EntryName} {name : EntryName}
    (h : path.splitFile = .ok (parents, name)) : path.depth = parents.length + 1 := by
  rw [depth, splitFile_eq_ok.mp h]
  simp

end VirtualPath

namespace Contents

/-- `open_parent`, with the path to the parent: its components, its contents and the name. -/
def openParent (root : Contents) (path : VirtualPath) :
    FsResult (List EntryName × Contents × EntryName) := do
  let (parents, name) ← path.splitFile
  let parent ← root.openDirectory parents
  return (parents, parent, name)

/-- The entry at a path. -/
def entryAt (root : Contents) (path : VirtualPath) : FsResult Entry := do
  let (_, parent, name) ← root.openParent path
  match parent.get? name with
  | some entry => return entry
  | none => .error .notFound

/-- Put an entry at a path. -/
def insertAt (root : Contents) (path : VirtualPath) (entry : Entry) : Contents :=
  match path.splitFile with
  | .ok (parents, name) => root.modifyAt (fun parent => parent.insert name entry) parents
  | .error _ => root

/-- Take the entry at a path away. -/
def eraseAt (root : Contents) (path : VirtualPath) : Contents :=
  match path.splitFile with
  | .ok (parents, name) => root.modifyAt (fun parent => parent.erase name) parents
  | .error _ => root

/-! ### Opening -/

/-- A directory is opened by opening its parent and then its name. -/
theorem openDirectory_append_singleton {root inside : Contents} {parents : List EntryName}
    {name : EntryName} : root.openDirectory (parents ++ [name]) = .ok inside ↔
      ∃ parent stat, root.openDirectory parents = .ok parent ∧
        parent.get? name = some (.directory stat inside) := by
  induction parents generalizing root with
  | nil =>
    simp only [List.nil_append, openDirectory]
    constructor
    · intro h
      split at h
      · rename_i stat child hchild
        obtain rfl := Except.ok.inj h
        exact ⟨root, stat, rfl, hchild⟩
      · cases h
    · rintro ⟨parent, stat, hparent, hchild⟩
      obtain rfl := Except.ok.inj hparent
      rw [hchild]
  | cons first rest ih =>
    simp only [List.cons_append, openDirectory]
    split
    · exact ih
    · simp

/-- The parent of an entry is a directory that has its name. -/
theorem openParent_eq_ok {root parent : Contents} {path : VirtualPath} {parents : List EntryName}
    {name : EntryName} : root.openParent path = .ok (parents, parent, name) ↔
      path.splitFile = .ok (parents, name) ∧ root.openDirectory parents = .ok parent := by
  unfold openParent
  constructor
  · intro h
    obtain ⟨⟨parents', name'⟩, hsplit, h⟩ := bind_eq_ok.mp h
    obtain ⟨parent', hparent, h⟩ := bind_eq_ok.mp h
    obtain ⟨rfl, hrest⟩ := Prod.mk.inj (Except.ok.inj h)
    obtain ⟨rfl, rfl⟩ := Prod.mk.inj hrest
    exact ⟨hsplit, hparent⟩
  · rintro ⟨hsplit, hparent⟩
    simp only [hsplit, ok_bind, hparent]
    rfl

theorem entryAt_eq_ok {root : Contents} {path : VirtualPath} {entry : Entry} :
    root.entryAt path = .ok entry ↔
      ∃ parents parent name, root.openParent path = .ok (parents, parent, name) ∧
        parent.get? name = some entry := by
  unfold entryAt
  constructor
  · intro h
    obtain ⟨⟨parents, parent, name⟩, hparent, h⟩ := bind_eq_ok.mp h
    dsimp only at h
    split at h
    · rename_i found hfound
      obtain rfl := Except.ok.inj h
      exact ⟨parents, parent, name, hparent, hfound⟩
    · cases h
  · rintro ⟨parents, parent, name, hparent, hentry⟩
    simp only [hparent, ok_bind, hentry]
    rfl

@[simp] theorem get?_insert_self (contents : Contents) (name : EntryName) (entry : Entry) :
    (contents.insert name entry).get? name = some entry := by
  cases entry <;> simp [insert, get?]

theorem get?_mapDirectory_self {change : Contents → Contents} {contents inside : Contents}
    {name : EntryName} {stat : Stat} (h : contents.get? name = some (.directory stat inside)) :
    (contents.mapDirectory change name).get? name = some (.directory stat (change inside)) := by
  induction contents with
  | empty => cases h
  | leaf other type otherStat rest ih =>
    unfold get? at h
    unfold mapDirectory
    split at h
    · cases h
    · rename_i hne
      rw [if_neg hne, get?, if_neg hne]
      exact ih h
  | directory other otherStat otherInside rest _ ih =>
    unfold get? at h
    unfold mapDirectory
    split at h
    · rename_i heq
      obtain ⟨rfl, rfl⟩ := Entry.directory.inj (Option.some.inj h)
      rw [if_pos heq, get?, if_pos heq]
    · rename_i hne
      rw [if_neg hne, get?, if_neg hne]
      exact ih h

/-- A changed directory is opened in its changed form. -/
theorem openDirectory_modifyAt {change : Contents → Contents} {root inside : Contents}
    {components : List EntryName} (h : root.openDirectory components = .ok inside) :
    (root.modifyAt change components).openDirectory components = .ok (change inside) := by
  induction components generalizing root with
  | nil =>
    obtain rfl := Except.ok.inj h
    rfl
  | cons name rest ih =>
    unfold openDirectory at h
    split at h
    · rename_i stat child hchild
      rw [modifyAt, openDirectory, get?_mapDirectory_self hchild]
      exact ih h
    · cases h

/-- What is put at a path is found there. -/
theorem entryAt_insertAt {root parent : Contents} {path : VirtualPath} {parents : List EntryName}
    {name : EntryName} (h : root.openParent path = .ok (parents, parent, name)) (entry : Entry) :
    (root.insertAt path entry).entryAt path = .ok entry := by
  obtain ⟨hsplit, hparent⟩ := openParent_eq_ok.mp h
  rw [insertAt, hsplit]
  exact entryAt_eq_ok.mpr ⟨parents, parent.insert name entry, name,
    openParent_eq_ok.mpr ⟨hsplit, openDirectory_modifyAt hparent⟩, get?_insert_self _ _ _⟩

/-! ### Heights -/

@[simp] theorem height_insert (contents : Contents) (name : EntryName) (entry : Entry) :
    (contents.insert name entry).height = max (entry.height + 1) contents.height := by
  cases entry <;> rfl

theorem height_erase_le (contents : Contents) (name : EntryName) :
    (contents.erase name).height ≤ contents.height := by
  induction contents with
  | empty => exact le_rfl
  | leaf other type stat rest ih =>
    unfold erase
    split <;> simp only [height] <;> omega
  | directory other stat inside rest _ ih =>
    unfold erase
    split <;> simp only [height] <;> omega

/-- An entry of a directory is less high than the directory. -/
theorem height_of_get? {contents : Contents} {name : EntryName} {entry : Entry}
    (h : contents.get? name = some entry) : entry.height + 1 ≤ contents.height := by
  induction contents with
  | empty => cases h
  | leaf other type stat rest ih =>
    unfold get? at h
    split at h
    · obtain rfl := Option.some.inj h
      simp only [height, Entry.height]
      omega
    · have := ih h
      simp only [height]
      omega
  | directory other stat inside rest _ ih =>
    unfold get? at h
    split at h
    · obtain rfl := Option.some.inj h
      simp only [height, Entry.height]
      omega
    · have := ih h
      simp only [height]
      omega

/-- The directory at the end of some components lies that much lower. -/
theorem height_of_openDirectory {root inside : Contents} {components : List EntryName}
    (h : root.openDirectory components = .ok inside) :
    components.length + inside.height ≤ root.height := by
  induction components generalizing root with
  | nil =>
    obtain rfl := Except.ok.inj h
    simp
  | cons name rest ih =>
    unfold openDirectory at h
    split at h
    · rename_i stat child hchild
      have hrest := ih h
      have hheight := height_of_get? hchild
      simp only [Entry.height] at hheight
      simp only [List.length_cons]
      omega
    · cases h

/-- The entry at a path lies at the path's depth. -/
theorem height_of_entryAt {root : Contents} {path : VirtualPath} {entry : Entry}
    (h : root.entryAt path = .ok entry) : path.depth + entry.height ≤ root.height := by
  obtain ⟨parents, parent, name, hopen, hentry⟩ := entryAt_eq_ok.mp h
  obtain ⟨hsplit, hparent⟩ := openParent_eq_ok.mp hopen
  have hroot := height_of_openDirectory hparent
  have hname := height_of_get? hentry
  rw [VirtualPath.depth_of_splitFile hsplit]
  omega

theorem height_mapDirectory_le {change : Contents → Contents} {bound : ℕ}
    (hchange : ∀ inside, (change inside).height ≤ max inside.height bound) (contents : Contents)
    (name : EntryName) : (contents.mapDirectory change name).height ≤ max contents.height (bound + 1) := by
  induction contents with
  | empty => simp [mapDirectory, height]
  | leaf other type stat rest ih =>
    unfold mapDirectory
    split <;> simp only [height] <;> omega
  | directory other stat inside rest _ ih =>
    have hinside := hchange inside
    unfold mapDirectory
    split <;> simp only [height] <;> omega

theorem height_modifyAt_le {change : Contents → Contents} {bound : ℕ}
    (hchange : ∀ inside, (change inside).height ≤ max inside.height bound)
    (components : List EntryName) (contents : Contents) :
    (contents.modifyAt change components).height ≤ max contents.height (components.length + bound) := by
  induction components generalizing contents with
  | nil => simpa [modifyAt] using hchange contents
  | cons name rest ih =>
    have hmap := height_mapDirectory_le (fun inside => ih inside) contents name
    simp only [modifyAt, List.length_cons]
    omega

/-- Putting an entry at a path makes nothing deeper than the entry at that path. -/
theorem height_insertAt_le (root : Contents) (path : VirtualPath) (entry : Entry) :
    (root.insertAt path entry).height ≤ max root.height (path.depth + entry.height) := by
  unfold insertAt
  split
  · rename_i parents name hsplit
    have hchange (inside : Contents) :
        (inside.insert name entry).height ≤ max inside.height (entry.height + 1) := by
      rw [height_insert]
      exact le_of_eq (max_comm _ _)
    have hmodify := height_modifyAt_le hchange parents root
    rw [VirtualPath.depth_of_splitFile hsplit]
    omega
  · exact le_max_left _ _

theorem height_mapDirectory_le_self {change : Contents → Contents}
    (hchange : ∀ inside, (change inside).height ≤ inside.height) (contents : Contents)
    (name : EntryName) : (contents.mapDirectory change name).height ≤ contents.height := by
  induction contents with
  | empty => exact le_rfl
  | leaf other type stat rest ih =>
    unfold mapDirectory
    split <;> simp only [height] <;> omega
  | directory other stat inside rest _ ih =>
    have hinside := hchange inside
    unfold mapDirectory
    split <;> simp only [height] <;> omega

/-- Taking an entry away makes nothing deeper. -/
theorem height_eraseAt_le (root : Contents) (path : VirtualPath) :
    (root.eraseAt path).height ≤ root.height := by
  unfold eraseAt
  split
  · rename_i parents name hsplit
    clear hsplit
    induction parents generalizing root with
    | nil => exact height_erase_le root name
    | cons first rest ih => exact height_mapDirectory_le_self ih root first
  · exact le_rfl

/-! ### Identities -/

theorem fileIds_insert (contents : Contents) (name : EntryName) (entry : Entry) :
    (contents.insert name entry).fileIds = entry.fileIds ++ contents.fileIds := by
  cases entry <;> simp [insert, fileIds, Entry.fileIds]

/-- Taking an entry out of a directory takes its identities. -/
theorem fileIds_erase {contents : Contents} {name : EntryName} {entry : Entry}
    (h : contents.get? name = some entry) :
    (entry.fileIds ++ (contents.erase name).fileIds).Perm contents.fileIds := by
  induction contents with
  | empty => cases h
  | leaf other type stat rest ih =>
    unfold get? at h
    unfold erase
    split at h
    · rename_i heq
      obtain rfl := Option.some.inj h
      rw [if_pos heq]
      exact List.Perm.refl _
    · rename_i hne
      rw [if_neg hne, fileIds, fileIds]
      exact List.perm_middle.trans ((ih h).cons _)
  | directory other stat inside rest _ ih =>
    unfold get? at h
    unfold erase
    split at h
    · rename_i heq
      obtain rfl := Option.some.inj h
      rw [if_pos heq]
      exact List.Perm.refl _
    · rename_i hne
      rw [if_neg hne, fileIds, fileIds, ← List.append_assoc]
      calc entry.fileIds ++ (stat.fileId :: inside.fileIds) ++ (rest.erase name).fileIds
        _ ~ (stat.fileId :: inside.fileIds) ++ entry.fileIds ++ (rest.erase name).fileIds :=
          List.perm_append_comm.append_right _
        _ ~ (stat.fileId :: inside.fileIds) ++ (entry.fileIds ++ (rest.erase name).fileIds) := by
          rw [List.append_assoc]
        _ ~ (stat.fileId :: inside.fileIds) ++ rest.fileIds := (ih h).append_left _

/-- A change inside one directory changes the identities in that directory only. -/
theorem fileIds_mapDirectory {contents inside : Contents} {name : EntryName} {stat : Stat}
    (h : contents.get? name = some (.directory stat inside)) :
    ∃ others, ∀ change : Contents → Contents,
      (contents.mapDirectory change name).fileIds.Perm ((change inside).fileIds ++ others) := by
  induction contents with
  | empty => cases h
  | leaf other type otherStat rest ih =>
    unfold get? at h
    split at h
    · cases h
    · rename_i hne
      obtain ⟨others, hothers⟩ := ih h
      refine ⟨otherStat.fileId :: others, fun change => ?_⟩
      rw [mapDirectory, if_neg hne, fileIds]
      exact ((hothers change).cons _).trans List.perm_middle.symm
  | directory other otherStat otherInside rest _ ih =>
    unfold get? at h
    split at h
    · rename_i heq
      obtain ⟨rfl, rfl⟩ := Entry.directory.inj (Option.some.inj h)
      refine ⟨otherStat.fileId :: rest.fileIds, fun change => ?_⟩
      rw [mapDirectory, if_pos heq, fileIds]
      exact List.perm_middle.symm
    · rename_i hne
      obtain ⟨others, hothers⟩ := ih h
      refine ⟨(otherStat.fileId :: otherInside.fileIds) ++ others, fun change => ?_⟩
      rw [mapDirectory, if_neg hne, fileIds, ← List.append_assoc]
      calc (otherStat.fileId :: otherInside.fileIds) ++ (rest.mapDirectory change name).fileIds
        _ ~ (otherStat.fileId :: otherInside.fileIds) ++ ((change inside).fileIds ++ others) :=
          (hothers change).append_left _
        _ ~ (change inside).fileIds ++ (otherStat.fileId :: otherInside.fileIds) ++ others := by
          rw [← List.append_assoc]
          exact List.perm_append_comm.append_right _

theorem mapDirectory_id (contents : Contents) (name : EntryName) :
    contents.mapDirectory id name = contents := by
  induction contents with
  | empty => rfl
  | leaf other type stat rest ih => simp [mapDirectory, ih]
  | directory other stat inside rest _ ih => simp [mapDirectory, ih]

theorem modifyAt_id (components : List EntryName) (contents : Contents) :
    contents.modifyAt id components = contents := by
  induction components generalizing contents with
  | nil => rfl
  | cons name rest ih =>
    have hid : modifyAt id rest = id := funext ih
    rw [modifyAt, hid, mapDirectory_id]

theorem mapDirectory_mapDirectory (first second : Contents → Contents) (contents : Contents)
    (name : EntryName) : (contents.mapDirectory first name).mapDirectory second name =
      contents.mapDirectory (second ∘ first) name := by
  induction contents with
  | empty => rfl
  | leaf other type stat rest ih =>
    by_cases h : other = name
    · simp [mapDirectory, h]
    · simp [mapDirectory, h, ih]
  | directory other stat inside rest _ ih =>
    by_cases h : other = name
    · simp [mapDirectory, h]
    · simp [mapDirectory, h, ih]

theorem modifyAt_modifyAt (first second : Contents → Contents) (components : List EntryName)
    (contents : Contents) : (contents.modifyAt first components).modifyAt second components =
      contents.modifyAt (second ∘ first) components := by
  induction components generalizing contents with
  | nil => rfl
  | cons name rest ih =>
    rw [modifyAt, modifyAt, modifyAt, mapDirectory_mapDirectory]
    congr 1
    exact funext ih

/-- What was put at a path is taken away again without a trace. -/
theorem eraseAt_insertAt (root : Contents) (path : VirtualPath) (entry : Entry) :
    (root.insertAt path entry).eraseAt path = root := by
  unfold insertAt eraseAt
  split
  · rename_i parents name _
    have hid : ((fun parent : Contents => parent.erase name) ∘ fun parent => parent.insert name entry) =
        id := by
      funext parent
      cases entry <;> simp [insert, erase]
    rw [modifyAt_modifyAt, hid, modifyAt_id]
  · rfl

theorem fileIds_modifyAt {root inside : Contents} {components : List EntryName}
    (h : root.openDirectory components = .ok inside) :
    ∃ others, ∀ change : Contents → Contents,
      (root.modifyAt change components).fileIds.Perm ((change inside).fileIds ++ others) := by
  induction components generalizing root with
  | nil =>
    obtain rfl := Except.ok.inj h
    exact ⟨[], fun change => by rw [modifyAt, List.append_nil]⟩
  | cons name rest ih =>
    unfold openDirectory at h
    split at h
    · rename_i stat child hchild
      obtain ⟨inner, hinner⟩ := ih h
      obtain ⟨outer, houter⟩ := fileIds_mapDirectory hchild
      refine ⟨inner ++ outer, fun change => ?_⟩
      rw [modifyAt, ← List.append_assoc]
      exact (houter _).trans ((hinner change).append_right _)
    · cases h

/-- Putting an entry at a path adds its identities. -/
theorem fileIds_insertAt {root parent : Contents} {path : VirtualPath} {parents : List EntryName}
    {name : EntryName} (h : root.openParent path = .ok (parents, parent, name)) (entry : Entry) :
    (root.insertAt path entry).fileIds.Perm (entry.fileIds ++ root.fileIds) := by
  obtain ⟨hsplit, hparent⟩ := openParent_eq_ok.mp h
  obtain ⟨others, hothers⟩ := fileIds_modifyAt hparent
  have hroot := hothers id
  rw [modifyAt_id] at hroot
  rw [insertAt, hsplit]
  have hinserted := hothers fun parent => parent.insert name entry
  rw [fileIds_insert, List.append_assoc] at hinserted
  exact hinserted.trans (hroot.symm.append_left _)

/-- Taking the entry at a path away takes its identities. -/
theorem fileIds_eraseAt {root : Contents} {path : VirtualPath} {entry : Entry}
    (h : root.entryAt path = .ok entry) :
    (entry.fileIds ++ (root.eraseAt path).fileIds).Perm root.fileIds := by
  obtain ⟨parents, parent, name, hopen, hentry⟩ := entryAt_eq_ok.mp h
  obtain ⟨hsplit, hparent⟩ := openParent_eq_ok.mp hopen
  obtain ⟨others, hothers⟩ := fileIds_modifyAt hparent
  have hroot := hothers id
  rw [modifyAt_id] at hroot
  rw [eraseAt, hsplit]
  have herased := (hothers fun parent => parent.erase name).append_left entry.fileIds
  rw [← List.append_assoc] at herased
  exact herased.trans (((fileIds_erase hentry).append_right _).trans hroot.symm)

/-- The parent of what was taken away can still be opened. -/
theorem openParent_eraseAt {root : Contents} {path : VirtualPath} {entry : Entry}
    (h : root.entryAt path = .ok entry) :
    ∃ parents parent name, (root.eraseAt path).openParent path = .ok (parents, parent, name) := by
  obtain ⟨parents, parent, name, hopen, -⟩ := entryAt_eq_ok.mp h
  obtain ⟨hsplit, hparent⟩ := openParent_eq_ok.mp hopen
  refine ⟨parents, parent.erase name, name, openParent_eq_ok.mpr ⟨hsplit, ?_⟩⟩
  rw [eraseAt, hsplit]
  exact openDirectory_modifyAt hparent

end Contents

end Crabinet.Filesystem
