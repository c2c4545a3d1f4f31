import Crabinet.Browse.ArchiveDownload
import Crabinet.Browse.ArchiveStreamRuns

/-!
# What a download holds

An archive of a share that does not change is refused before anything is sent, or is sent whole, unless
a file's path is longer than the grammar allows: the walk does not check the length of the full paths.
-/

namespace Crabinet.Browse

open Crabinet.Filesystem Crabinet.Library

/-! ### Paths beneath a directory -/

section Paths

variable {root inside : Contents} {first second : List EntryName} {entry : Entry}

/-- The text of one path beneath another. -/
theorem pathText_append (hfirst : first ≠ []) (hsecond : second ≠ []) :
    pathText ⟨first ++ second⟩ = pathText ⟨first⟩ ++ '/' :: pathText ⟨second⟩ := by
  unfold pathText
  dsimp only
  induction first with
  | nil => exact absurd rfl hfirst
  | cons name rest ih =>
    cases rest with
    | nil =>
      cases second with
      | nil => exact absurd rfl hsecond
      | cons next more => simp
    | cons next rest =>
      have hrest := ih (List.cons_ne_nil _ _)
      simp only [List.cons_append, List.map_cons, List.intercalate_cons_cons] at hrest ⊢
      rw [hrest]
      simp

/-- A directory beneath a directory. -/
theorem openDirectory_append (h : root.openDirectory first = .ok inside) :
    root.openDirectory (first ++ second) = inside.openDirectory second := by
  induction first generalizing root with
  | nil =>
    obtain rfl := Except.ok.inj h
    rfl
  | cons name rest ih =>
    rw [Contents.openDirectory] at h
    split at h
    · rename_i stat child hchild
      rw [List.cons_append, Contents.openDirectory, hchild]
      exact ih h
    · cases h

/-- An entry beneath a directory. -/
theorem entryAt_append (h : root.openDirectory first = .ok inside) (hentry : inside.entryAt ⟨second⟩ = .ok entry) :
    root.entryAt ⟨first ++ second⟩ = .ok entry := by
  obtain ⟨parents, parent, name, hopen, hget⟩ := Contents.entryAt_eq_ok.mp hentry
  obtain ⟨hsplit, hparent⟩ := Contents.openParent_eq_ok.mp hopen
  have hsecond : second = parents ++ [name] := VirtualPath.splitFile_eq_ok.mp hsplit
  refine Contents.entryAt_eq_ok.mpr ⟨first ++ parents, parent, name, Contents.openParent_eq_ok.mpr ⟨?_, ?_⟩, hget⟩
  · refine VirtualPath.splitFile_eq_ok.mpr ?_
    rw [hsecond, List.append_assoc]
  · rwa [openDirectory_append h]

end Paths

namespace ArchiveTree

/-- What is offered is an entry of the tree with the kind and the size that are listed. -/
theorem entryAt_of_offered {tables : UnicodeTables} {contents : Contents} {path : List EntryName}
    {child : DirectoryEntry} (h : offered tables contents path = some child) :
    (∀ name ∈ path, EntryName.accepts tables name.value = true) ∧
      ∃ entry found, contents.entryAt ⟨path⟩ = .ok entry ∧ entry.metadata = .ok found ∧
        child.kind = found.kind ∧ child.size = found.size := by
  induction path generalizing contents with
  | nil => cases h
  | cons name rest ih =>
    rw [offered] at h
    obtain ⟨entry, hentry, h⟩ := Option.bind_eq_some_iff.mp h
    obtain ⟨first, hfirst, h⟩ := Option.bind_eq_some_iff.mp h
    obtain ⟨-, haccepts, found, hfound, hkind, hsize, -⟩ := entryOf_eq_some hfirst
    split at h
    · rename_i hnil
      obtain rfl := Option.some.inj h
      subst hnil
      refine ⟨List.forall_mem_singleton.mpr haccepts, entry, found, ?_, hfound, hkind, hsize⟩
      exact Contents.entryAt_eq_ok.mpr ⟨[], contents, name, Contents.openParent_eq_ok.mpr
        ⟨VirtualPath.splitFile_eq_ok.mpr rfl, rfl⟩, hentry⟩
    · obtain ⟨hrest, last, found', hlast, hfound', hkind', hsize'⟩ := ih h
      refine ⟨List.forall_mem_cons.mpr ⟨haccepts, hrest⟩, last, found', ?_, hfound', hkind', hsize'⟩
      have hopen : contents.openDirectory [name] = .ok (insideOf entry) := by
        cases entry with
        | leaf type stat =>
          cases rest with
          | nil => cases h
          | cons next more => cases h
        | directory stat inside =>
          rw [Contents.openDirectory, hentry]
          rfl
      exact entryAt_append hopen hlast

variable {tables : UnicodeTables} {limits : ArchiveLimits} {inside : Contents} {depth : ℕ}
  {walk result : ArchiveWalk} {names : List EntryName} {pair : DirectoryEntry × Contents} {found : Found}

/-- What an entry contributes is offered under its name. -/
theorem mem_contribution (hdistinct : Distinct inside) (hpair : MadeOf tables pair (inside.get? pair.1.name)) :
    found ∈ contribution tables [] pair ↔
      offered tables inside found.1 = some found.2 ∧ found.1.head? = some pair.1.name := by
  have hmem := (mem_supported hdistinct).mpr hpair
  obtain ⟨entry, hentry, hchild, hinside⟩ := hpair
  have harchived : found ∈ archived tables pair.2 [pair.1.name] ↔ _ :=
    mem_archived (distinct_of_mem_supported hdistinct hmem)
  rw [contribution, List.nil_append, List.mem_cons, harchived]
  have hoffered : ∀ rest, offered tables inside (pair.1.name :: rest) =
      if rest = [] then some pair.1 else offered tables pair.2 rest := by
    intro rest
    rw [offered, hentry, hinside]
    simp [hchild]
  constructor
  · rintro (rfl | ⟨rest, hpath, hrest⟩)
    · exact ⟨by rw [hoffered, if_pos rfl], rfl⟩
    · have hnonempty : rest ≠ [] := by
        rintro rfl
        cases hrest
      rw [hpath, List.singleton_append, hoffered, if_neg hnonempty]
      exact ⟨hrest, rfl⟩
  · obtain ⟨path, child⟩ := found
    rintro ⟨hfound, hhead⟩
    cases path with
    | nil => cases hhead
    | cons name rest =>
      obtain rfl := Option.some.inj hhead
      dsimp only at hfound
      rw [hoffered] at hfound
      split at hfound
      · rename_i hnil
        rw [hnil, Option.some.inj hfound]
        exact .inl rfl
      · exact .inr ⟨rest, rfl, hfound⟩

/-- The walk of selected names that do not change. -/
theorem foldlM_select_eq (hdistinct : Distinct inside) (hwithin : Within limits walk)
    (haccepts : ∀ name ∈ names, EntryName.accepts tables name.value = true)
    (h : names.foldlM (ArchiveWalk.select tables limits depth (selectedOf inside)) walk = .ok result) :
    ∃ pairs : List (DirectoryEntry × Contents), pairs.map (·.1.name) = names ∧ (∀ pair ∈ pairs, MadeOf tables pair (inside.get? pair.1.name)) ∧
      (∀ pair ∈ pairs, Shallow [] depth (archived tables pair.2 [pair.1.name])) ∧
      ∃ scanned, result = after walk scanned (pairs.flatMap (contribution tables [])) := by
  induction names generalizing walk with
  | nil =>
    obtain rfl := Except.ok.inj h
    exact ⟨[], rfl, nofun, nofun, 0, (after_nil hwithin).symm⟩
  | cons name rest ih =>
    rw [List.foldlM_cons] at h
    obtain ⟨next, hnext, h⟩ := bind_eq_ok.mp h
    obtain ⟨hname, hrest⟩ := List.forall_mem_cons.mp haccepts
    obtain ⟨pair, hpair, rfl, hroom, hadd⟩ := select_eq hname hnext
    obtain ⟨-, hnonempty, hfile⟩ := of_mem_supported ((mem_supported hdistinct).mpr hpair)
    have hscanned : Within limits { walk with scanned := walk.scanned + 1 } := { hwithin with scanned_le := hroom }
    have hroot : ∀ name ∈ ([] : List EntryName), name.value ≠ "" := nofun
    have hempty : "" = textOf [] := by decide
    rw [hempty] at hadd
    obtain ⟨hfits, hshallow, rfl⟩ := (add_eq_ok hscanned hroot hnonempty hfile (visitExact pair.2)).mp hadd
    obtain ⟨pairs, rfl, hpairs, hdeep, scanned, rfl⟩ := ih hfits hrest h
    refine ⟨pair :: pairs, rfl, List.forall_mem_cons.mpr ⟨hpair, hpairs⟩,
      List.forall_mem_cons.mpr ⟨hshallow, hdeep⟩, 1 + visited tables pair.2 + scanned, ?_⟩
    rw [List.flatMap_cons, ← after_after]
    refine congrArg (fun first => after first scanned _) ?_
    simp [after, Nat.add_assoc]

/-- A selection of a directory that does not change lists what is offered under the selected names, in the
order of the paths. -/
theorem archive_selection_still (hdistinct : Distinct inside) {items : List ArchiveItem}
    (hdepth : depth < maxPathDepth) (haccepts : ∀ name ∈ names, EntryName.accepts tables name.value = true)
    (h : archiveSelection tables limits depth (selectedOf inside) names = .ok items) :
    ∃ listed : List Found,
      (∀ found, found ∈ listed ↔
        offered tables inside found.1 = some found.2 ∧ ∃ name ∈ names, found.1.head? = some name) ∧
      (listed.Pairwise fun left right => PathBefore left.1 right.1) ∧
      (∀ found ∈ listed, depth + found.1.length ≤ maxPathDepth) ∧ items = listed.map itemOf := by
  obtain ⟨hnames, h⟩ := ite_error_eq_ok.mp h
  obtain ⟨walk, hwalk, h⟩ := bind_eq_ok.mp h
  obtain rfl := Except.ok.inj h
  have hperm := List.perm_insertionSort nameLe names
  obtain ⟨-, hadjacent⟩ := Bool.or_eq_false_iff.mp (Bool.eq_false_iff.mpr hnames)
  have hnodup := nodup_of_adjacentEqual (pairwise_nameLe names) hadjacent
  obtain ⟨pairs, hsorted, hpairs, hshallow, scanned, rfl⟩ := foldlM_select_eq hdistinct within_new
    (fun name hname => haccepts name (hperm.mem_iff.mp hname)) hwalk
  have hmem : ∀ found, found ∈ pairs.flatMap (contribution tables []) ↔
      offered tables inside found.1 = some found.2 ∧ ∃ name ∈ names, found.1.head? = some name := by
    intro found
    rw [List.mem_flatMap]
    constructor
    · rintro ⟨pair, hpair, hfound⟩
      obtain ⟨hoffered, hhead⟩ := (mem_contribution hdistinct (hpairs pair hpair)).mp hfound
      exact ⟨hoffered, _, hperm.mem_iff.mp (hsorted ▸ List.mem_map_of_mem hpair), hhead⟩
    · rintro ⟨hoffered, name, hname, hhead⟩
      obtain ⟨pair, hpair, rfl⟩ := List.mem_map.mp (hsorted.symm ▸ hperm.mem_iff.mpr hname)
      exact ⟨pair, hpair, (mem_contribution hdistinct (hpairs pair hpair)).mpr ⟨hoffered, hhead⟩⟩
  have hinside : ∀ pair ∈ pairs, Distinct pair.2 ∧
      (archived tables pair.2 ([] ++ [pair.1.name])).Pairwise fun left right => PathBefore left.1 right.1 := by
    intro pair hpair
    have hpair' := distinct_of_mem_supported hdistinct ((mem_supported hdistinct).mpr (hpairs pair hpair))
    exact ⟨hpair', pairwise_archived hpair'⟩
  have hlt : pairs.Pairwise fun left right => left.1.name.value < right.1.name.value := by
    have hle := pairwise_nameLe names
    rw [← hsorted] at hle hnodup
    exact ((List.pairwise_map.mp hle).and (List.pairwise_map.mp hnodup)).imp fun h => value_lt h.1 h.2
  refine ⟨_, hmem, pairwise_flatMap_contribution hlt hinside, fun found hfound => ?_, by simp [after, ArchiveWalk.new]⟩
  obtain ⟨pair, hpair, hfound⟩ := List.mem_flatMap.mp hfound
  rcases List.mem_cons.mp hfound with rfl | hfound
  · exact hdepth
  · have hle := hshallow pair hpair found hfound
    rw [List.length_nil] at hle
    omega

end ArchiveTree

/-! ### Layouts -/

open ArchiveTree
open Crabinet.Zip (ZipSource ZipEntry ZipPlan ArchiveCompression Planned Inflate Lossless ReadEntry restored
  readArchive methodStored)

variable {tables : UnicodeTables} {limits : ArchiveLimits} {share : StillShare} {layout : ArchiveLayout}
  {request : ArchiveRequest} {tops : List ZipSource} {before : String} {chosen : Option (List EntryName)}
  {listed : List Found} {found : Found}

/-- The directory of a request, and the names chosen in it where it is not archived as a whole. -/
def ArchiveRequest.Covers (request : ArchiveRequest) (base : VirtualPath) (chosen : Option (List EntryName)) :
    Prop :=
  match request with
  | .root => base = .root ∧ chosen = none
  | .single path => base = path ∧ chosen = none ∨
    ∃ parent name, path = VirtualPath.join parent name ∧ base = parent ∧ chosen = some [name]
  | .selection parent names => base = parent ∧ chosen = some names

/-- A layout has a source for everything that is offered in its directory under the chosen names, in the
order of the paths; an archive of the whole directory has the directory itself before them. -/
structure StillShare.Lays (share : StillShare) (tables : UnicodeTables) (layout : ArchiveLayout)
    (chosen : Option (List EntryName)) (tops : List ZipSource) (before : String) (listed : List Found) : Prop where
  canonical : layout.base.Canonical (EntryName.accepts tables)
  mem_iff : ∃ modified inside, share.openDirectory layout.base = .ok (modified, inside) ∧
    ∀ found, found ∈ listed ↔ offered tables inside found.1 = some found.2 ∧
      ∀ names ∈ chosen, ∃ name ∈ names, found.1.head? = some name
  ordered : listed.Pairwise fun left right => PathBefore left.1 right.1
  depth_le : ∀ found ∈ listed, layout.base.depth + found.1.length ≤ maxPathDepth
  tops_eq : chosen = none → ∃ modified, tops = [⟨share.nameOf layout.base, none, modified⟩] ∧
    before = share.nameOf layout.base ++ "/"
  tops_nil : chosen ≠ none → tops = [] ∧ before = ""
  prefixLen_eq : layout.prefixLen = before.utf8ByteSize
  sources_eq : layout.sources = tops ++ listed.map fun found => sourceOf before (itemOf found)

theorem StillShare.openDirectory_eq_ok {path : VirtualPath} {modified : Option SystemTime} {inside : Contents}
    (h : share.openDirectory path = .ok (modified, inside)) : share.root.openDirectory path.components = .ok inside := by
  unfold openDirectory at h
  split at h
  · rename_i hroot
    obtain ⟨-, rfl⟩ := Prod.mk.inj (Except.ok.inj h)
    rw [hroot]
    rfl
  · obtain ⟨entry, hentry, h⟩ := bind_eq_ok.mp h
    cases entry with
    | leaf type stat => cases h
    | directory stat contents =>
      obtain ⟨-, rfl⟩ := Prod.mk.inj (Except.ok.inj h)
      obtain ⟨parents, parent, name, hopen, hget⟩ := Contents.entryAt_eq_ok.mp hentry
      obtain ⟨hsplit, hparent⟩ := Contents.openParent_eq_ok.mp hopen
      rw [VirtualPath.splitFile_eq_ok.mp hsplit]
      exact Contents.openDirectory_append_singleton.mpr ⟨parent, stat, hparent, hget⟩

/-- A directory of a share has different names. -/
theorem distinct_of_openDirectory {root inside : Contents} {components : List EntryName} (hroot : Distinct root)
    (h : root.openDirectory components = .ok inside) : Distinct inside := by
  induction components generalizing root with
  | nil =>
    obtain rfl := Except.ok.inj h
    exact hroot
  | cons name rest ih =>
    rw [Contents.openDirectory] at h
    split at h
    · rename_i stat child hchild
      refine ih ?_ h
      clear ih h
      induction root with
      | empty => cases hchild
      | leaf other type stat others ih =>
        rw [Contents.get?] at hchild
        split at hchild
        · cases hchild
        · exact ih hroot.2 hchild
      | directory other stat contents others _ ih =>
        rw [Contents.get?] at hchild
        split at hchild
        · obtain ⟨-, rfl⟩ := Entry.directory.inj (Option.some.inj hchild)
          exact hroot.2.1
        · exact ih hroot.2.2 hchild
    · cases h

/-- The layout of a folder. -/
theorem folderLayout_lays {folder : VirtualPath} (hfolder : folder.Canonical (EntryName.accepts tables))
    (h : share.folderLayout tables limits folder = .ok layout) :
    layout.base = folder ∧ ∃ tops before listed, share.Lays tables layout none tops before listed := by
  obtain ⟨⟨modified, inside⟩, hopen, h⟩ := bind_eq_ok.mp h
  obtain ⟨items, hitems, h⟩ := bind_eq_ok.mp h
  obtain rfl := Except.ok.inj h
  have hdistinct := distinct_of_openDirectory share.distinct (StillShare.openDirectory_eq_ok hopen)
  obtain ⟨listed, hmem, hordered, -, -, -, hdepth, rfl⟩ := (archive_items_exact hdistinct).mp hitems
  refine ⟨rfl, [⟨share.nameOf folder, none, modified⟩], share.nameOf folder ++ "/", listed, hfolder,
    ⟨modified, inside, hopen, fun found => (hmem found).trans ?_⟩, hordered, hdepth, fun _ => ⟨modified, rfl, rfl⟩,
    fun h => absurd rfl h, ?_, ?_⟩
  · exact ⟨fun h => ⟨h, nofun⟩, And.left⟩
  · rw [String.utf8ByteSize_append]
    rfl
  · rw [List.map_map]
    rfl

/-- The layout of a selection. -/
theorem selectionLayout_lays {parent : VirtualPath} {names : List EntryName}
    (hnames : ∀ name ∈ names, Parsable tables (parent.join name)) (hnonempty : names ≠ [])
    (h : share.selectionLayout tables limits parent names = .ok layout) :
    layout.base = parent ∧ ∃ tops before listed, share.Lays tables layout (some names) tops before listed := by
  obtain ⟨-, h⟩ := ite_error_eq_ok.mp h
  obtain ⟨⟨modified, inside⟩, hopen, h⟩ := bind_eq_ok.mp h
  obtain ⟨items, hitems, h⟩ := bind_eq_ok.mp h
  obtain rfl := Except.ok.inj h
  have hdistinct := distinct_of_openDirectory share.distinct (StillShare.openDirectory_eq_ok hopen)
  obtain ⟨name, hname⟩ := List.exists_mem_of_ne_nil _ hnonempty
  have hparsable := hnames name hname
  have hdepth : parent.depth < maxPathDepth := by
    have hle := hparsable.depth_le
    rw [VirtualPath.depth_join] at hle
    omega
  have hcomponents : ∀ {name : EntryName}, name ∈ names → ∀ other ∈ parent.components ++ [name],
      EntryName.accepts tables other.value = true := fun hname => (hnames _ hname).canonical
  obtain ⟨listed, hmem, hordered, hdeep, rfl⟩ := archive_selection_still hdistinct hdepth
    (fun name hname => hcomponents hname name (List.mem_append_right _ (List.mem_singleton_self _))) hitems
  refine ⟨rfl, [], "", listed, fun other hother => hcomponents hname other (List.mem_append_left _ hother),
    ⟨modified, inside, hopen, fun found => (hmem found).trans ?_⟩, hordered, hdeep, nofun, fun _ => ⟨rfl, rfl⟩,
    rfl, ?_⟩
  · refine and_congr_right fun _ => ⟨?_, fun h => h names rfl⟩
    rintro h names ⟨⟩
    exact h
  · rw [List.map_map]
    rfl

/-- The layout of a valid request. -/
theorem archiveLayout_lays (hvalid : request.Valid tables)
    (h : share.archiveLayout tables limits request = .ok layout) :
    ∃ chosen tops before listed, request.Covers layout.base chosen ∧
      share.Lays tables layout chosen tops before listed := by
  have hfolder : ∀ {folder : VirtualPath}, folder.Canonical (EntryName.accepts tables) →
      request.Covers folder none → share.folderLayout tables limits folder = .ok layout →
        ∃ chosen tops before listed, request.Covers layout.base chosen ∧
          share.Lays tables layout chosen tops before listed := by
    intro folder hcanonical hcovers hlayout
    obtain ⟨hbase, tops, before, listed, hlays⟩ := folderLayout_lays hcanonical hlayout
    exact ⟨none, tops, before, listed, hbase ▸ hcovers, hlays⟩
  have hselection : ∀ {parent : VirtualPath} {names : List EntryName},
      (∀ name ∈ names, Parsable tables (parent.join name)) → names ≠ [] → request.Covers parent (some names) →
        share.selectionLayout tables limits parent names = .ok layout →
          ∃ chosen tops before listed, request.Covers layout.base chosen ∧
            share.Lays tables layout chosen tops before listed := by
    intro parent names hnames hnonempty hcovers hlayout
    obtain ⟨hbase, tops, before, listed, hlays⟩ := selectionLayout_lays hnames hnonempty hlayout
    exact ⟨some names, tops, before, listed, hbase ▸ hcovers, hlays⟩
  cases request with
  | root =>
    have hroot : VirtualPath.root.Canonical (EntryName.accepts tables) := fun name hname => by cases hname
    exact hfolder hroot ⟨rfl, rfl⟩ h
  | single path =>
    obtain ⟨parent, name, rfl⟩ := exists_join hvalid.ne_root
    obtain ⟨entry, -, h⟩ := bind_eq_ok.mp h
    obtain ⟨found, -, h⟩ := bind_eq_ok.mp h
    rw [splitParent_join] at h
    dsimp only at h
    split at h
    · exact hselection (List.forall_mem_singleton.mpr hvalid) (List.cons_ne_nil _ _)
        (.inr ⟨parent, name, rfl, rfl, rfl⟩) h
    · exact hfolder hvalid.canonical (.inl ⟨rfl, rfl⟩) h
  | selection parent names =>
    refine hselection hvalid.2.2.2 ?_ ⟨rfl, rfl⟩ h
    rintro rfl
    exact absurd hvalid.1 (by decide)

/-! ### Files -/

/-- The path of an entry's name in the archive, if it is not too long. -/
theorem entryPath_eq {base : VirtualPath} {path : List EntryName} (before : String)
    (hbase : base.Canonical (EntryName.accepts tables)) (hpath : path ≠ [])
    (haccepts : ∀ name ∈ path, EntryName.accepts tables name.value = true)
    (hdepth : base.depth + path.length ≤ maxPathDepth) :
    entryPath tables base before.utf8ByteSize (before ++ textOf path) =
      if pathBytes ⟨base.components ++ path⟩ ≤ maxVirtualPathBytes then some ⟨base.components ++ path⟩
      else none := by
  have hseparable := separable_accepts tables
  have hrelative : strFrom (before ++ textOf path).toList before.utf8ByteSize = some (pathText ⟨path⟩) := by
    rw [String.toList_append, textOf, String.toList_ofList, utf8ByteSize_eq_sum]
    exact strFrom_append _ _
  have htext : (if base = .root then pathText ⟨path⟩ else pathText base ++ '/' :: pathText ⟨path⟩) =
      pathText ⟨base.components ++ path⟩ := by
    split
    · rename_i hroot
      rw [hroot]
      rfl
    · rename_i hroot
      exact (pathText_append (fun hnil => hroot (congrArg VirtualPath.mk hnil)) hpath).symm
  have hcanonical : VirtualPath.Canonical (EntryName.accepts tables) ⟨base.components ++ path⟩ := by
    intro name hname
    exact (List.mem_append.mp hname).elim (hbase name) (haccepts name)
  rw [entryPath, hrelative, Option.bind_eq_bind, Option.bind_some, htext]
  dsimp only
  split
  · rename_i hbytes
    have hroot : (⟨base.components ++ path⟩ : VirtualPath) ≠ .root := fun heq =>
      hpath (List.append_eq_nil_iff.mp (congrArg VirtualPath.components heq)).2
    have hlength : VirtualPath.depth ⟨base.components ++ path⟩ ≤ maxPathDepth :=
      (List.length_append).le.trans hdepth
    rw [parsePath_pathText hseparable hcanonical hroot hbytes hlength]
    rfl
  · rename_i hbytes
    cases hparse : parsePath (EntryName.accepts tables) (pathText ⟨base.components ++ path⟩) with
    | error error => rfl
    | ok parsed =>
      obtain ⟨htext', -, -, hle⟩ := parsePath_eq_ok hparse
      rw [← sum_pathText, htext', sum_pathText] at hle
      exact absurd hle hbytes

/-- The bytes of a file that is listed; a directory has none. -/
def StillShare.bytesOf (share : StillShare) (base : VirtualPath) (found : Found) : Option (List UInt8) :=
  if found.2.kind = .file then some (share.data ⟨base.components ++ found.1⟩) else none

/-- What is listed: its names are canonical, and a file opens with the size that is listed. -/
theorem StillShare.Lays.of_mem (h : share.Lays tables layout chosen tops before listed) (hfound : found ∈ listed) :
    found.1 ≠ [] ∧ (∀ name ∈ found.1, EntryName.accepts tables name.value = true) ∧
      (found.2.kind = .file → (share.data ⟨layout.base.components ++ found.1⟩).length = found.2.size ∧
        ∀ reads, share.openFile reads ⟨layout.base.components ++ found.1⟩ =
          some ⟨found.2.size, ⟨share.data ⟨layout.base.components ++ found.1⟩, reads⟩⟩) := by
  obtain ⟨modified, inside, hopen, hmem⟩ := h.mem_iff
  obtain ⟨hoffered, -⟩ := (hmem found).mp hfound
  obtain ⟨haccepts, entry, metadata, hentry, hmetadata, hkind, hsize⟩ := entryAt_of_offered hoffered
  have hroot := entryAt_append (StillShare.openDirectory_eq_ok hopen) hentry
  refine ⟨?_, haccepts, fun hfile => ?_⟩
  · intro hnil
    rw [hnil] at hoffered
    cases hoffered
  · cases entry with
    | directory stat contents =>
      obtain rfl := Except.ok.inj hmetadata
      cases hfile.symm.trans hkind
    | leaf type stat =>
      cases type with
      | other => cases hmetadata
      | file =>
        rw [Entry.metadata] at hmetadata
        split at hmetadata
        · rename_i hlinks
          obtain rfl := Except.ok.inj hmetadata
          refine ⟨(share.length_data _ _ hroot).trans hsize.symm, fun reads => ?_⟩
          rw [openFile, hroot, hsize]
          exact if_pos hlinks
        · cases hmetadata

/-- The directory before the entries has no size. -/
theorem StillShare.Lays.size_of_mem_tops {top : ZipSource}
    (h : share.Lays tables layout chosen tops before listed) (htop : top ∈ tops) : top.size = none := by
  by_cases hchosen : chosen = none
  · obtain ⟨modified, htops, -⟩ := h.tops_eq hchosen
    rw [htops] at htop
    rw [List.mem_singleton.mp htop]
  · rw [(h.tops_nil hchosen).1] at htop
    cases htop

section Streams

variable {σ : Type} {compressor : StreamCompressor σ} {encodes : List UInt8 → List UInt8 → Prop} {bound : ℕ → ℕ}
  {inflate : Inflate} {reads : ℕ → ℕ → ℕ} {chunkBytes : ℕ} {plan : ZipPlan}
  {compression : ArchiveCompression} {entry : ZipEntry} {index : ℕ}

/-- The stream of a layout. -/
def ArchiveLayout.stream (layout : ArchiveLayout) (plan : ZipPlan) (chunkBytes : ℕ) : ArchiveStream σ :=
  .new layout.base layout.prefixLen plan chunkBytes

/-- The entries of the plan: the directory before the others, and one for each thing listed. -/
theorem StillShare.Lays.getElem?_entries (h : share.Lays tables layout chosen tops before listed)
    (hplan : ZipPlan.new layout.sources compression = some plan) (hentry : plan.entries[index]? = some entry) :
    index < tops.length ∧ entry.size = none ∨ tops.length ≤ index ∧
      ∃ found, listed[index - tops.length]? = some found ∧
        if found.2.kind = .file then entry.size = some found.2.size ∧ entry.name = before ++ textOf found.1
        else entry.size = none := by
  have hfresh := ZipPlan.new_fresh hplan
  obtain ⟨hindex, rfl⟩ := List.getElem?_eq_some_iff.mp hentry
  have hsources : index < layout.sources.length := by rw [hfresh.planned.length_eq]; exact hindex
  have hplanned : Planned compression layout.sources[index] plan.entries[index] :=
    hfresh.planned.get hsources hindex
  have hsource := List.getElem?_eq_getElem hsources
  generalize layout.sources[index] = source at hplanned hsource
  rw [h.sources_eq] at hsource
  by_cases hlt : index < tops.length
  · rw [List.getElem?_append_left hlt] at hsource
    exact .inl ⟨hlt, hplanned.size_eq.trans (h.size_of_mem_tops (List.mem_of_getElem? hsource))⟩
  · have hle := Nat.le_of_not_lt hlt
    rw [List.getElem?_append_right hle, List.getElem?_map] at hsource
    obtain ⟨found, hfound, rfl⟩ := Option.map_eq_some_iff.mp hsource
    refine .inr ⟨hle, found, hfound, ?_⟩
    have hsize := hplanned.size_eq
    have hname := hplanned.name_eq
    split
    · rename_i hfile
      have hsome : (sourceOf before (itemOf found)).size = some found.2.size := if_pos hfile
      rw [hsome] at hsize hname
      exact ⟨hsize, hname⟩
    · rename_i hfile
      exact hsize.trans (if_neg hfile)

/-- The file that is opened for an entry of the archive. -/
theorem StillShare.Lays.fileOf_eq (h : share.Lays tables layout chosen tops before listed)
    (hfound : found ∈ listed) (hfile : found.2.kind = .file) (hname : entry.name = before ++ textOf found.1) :
    (share.host tables compressor reads).fileOf (layout.stream plan chunkBytes) index entry =
      if pathBytes ⟨layout.base.components ++ found.1⟩ ≤ maxVirtualPathBytes then
        some ⟨found.2.size, ⟨share.data ⟨layout.base.components ++ found.1⟩, reads index⟩⟩
      else none := by
  obtain ⟨hpath, haccepts, hopens⟩ := h.of_mem hfound
  have hentryPath := entryPath_eq before h.canonical hpath haccepts (h.depth_le found hfound)
  rw [ArchiveHost.fileOf, ArchiveHost.opened, hname, ArchiveLayout.stream, ArchiveStream.new]
  dsimp only [StillShare.host]
  rw [h.prefixLen_eq, hentryPath]
  split
  · exact (hopens hfile).2 _
  · rfl

theorem StillShare.Lays.length_entries (h : share.Lays tables layout chosen tops before listed)
    (hplan : ZipPlan.new layout.sources compression = some plan) :
    plan.entries.length = tops.length + listed.length := by
  rw [← (ZipPlan.new_fresh hplan).planned.length_eq, h.sources_eq, List.length_append, List.length_map]

/-- The files are as planned if and only if no path of a file is longer than the grammar allows. -/
theorem StillShare.Lays.filesPlanned_iff (h : share.Lays tables layout chosen tops before listed)
    (hplan : ZipPlan.new layout.sources compression = some plan) :
    (share.host tables compressor reads).FilesPlanned (layout.stream plan chunkBytes) ↔
      ∀ found ∈ listed, found.2.kind = .file →
        pathBytes ⟨layout.base.components ++ found.1⟩ ≤ maxVirtualPathBytes := by
  constructor
  · intro hplanned found hfound hfile
    obtain ⟨index, hindex, rfl⟩ := List.getElem_of_mem hfound
    have hlt : tops.length + index < plan.entries.length := by
      rw [h.length_entries hplan]
      omega
    have hentry := List.getElem?_eq_getElem hlt
    rcases h.getElem?_entries hplan hentry with ⟨hbefore, -⟩ | ⟨-, found, hsame, hread⟩
    · omega
    · rw [Nat.add_sub_cancel_left, List.getElem?_eq_getElem hindex] at hsame
      obtain rfl := Option.some.inj hsame
      rw [if_pos hfile] at hread
      obtain ⟨file, hopened, -⟩ := hplanned _ _ _ hentry hread.1
      rw [h.fileOf_eq hfound hfile hread.2] at hopened
      by_contra hlong
      rw [if_neg hlong] at hopened
      cases hopened
  · intro hshort index entry size hentry hsize
    rcases h.getElem?_entries hplan hentry with ⟨-, hnone⟩ | ⟨-, found, hfound, hread⟩
    · cases hsize.symm.trans hnone
    · split at hread
      · rename_i hfile
        have hmem := List.mem_of_getElem? hfound
        obtain rfl := Option.some.inj (hsize.symm.trans hread.1)
        refine ⟨_, (h.fileOf_eq hmem hfile hread.2).trans (if_pos (hshort found hmem hfile)), rfl, ?_⟩
        exact ((h.of_mem hmem).2.2 hfile).1
      · cases hsize.symm.trans hread

/-- The bytes that are read back: none of a directory, and the bytes of each file. -/
theorem StillShare.Lays.files_eq (h : share.Lays tables layout chosen tops before listed)
    (hplan : ZipPlan.new layout.sources compression = some plan)
    (hshort : ∀ found ∈ listed, found.2.kind = .file →
      pathBytes ⟨layout.base.components ++ found.1⟩ ≤ maxVirtualPathBytes) :
    (share.host tables compressor reads).files (layout.stream plan chunkBytes) =
      tops.map (fun _ => none) ++ listed.map (share.bytesOf layout.base) := by
  refine List.ext_getElem? fun index => ?_
  rw [ArchiveHost.getElem?_files]
  change (plan.entries[index]?).map _ = _
  cases hentry : plan.entries[index]? with
  | none =>
    have hlength := List.getElem?_eq_none_iff.mp hentry
    rw [h.length_entries hplan] at hlength
    refine (List.getElem?_eq_none ?_).symm
    rw [List.length_append, List.length_map, List.length_map]
    exact hlength
  | some entry =>
    rw [Option.map_some]
    rcases h.getElem?_entries hplan hentry with ⟨hlt, hnone⟩ | ⟨hle, found, hfound, hread⟩
    · rw [hnone, List.getElem?_append_left (by rwa [List.length_map]), List.getElem?_map,
        List.getElem?_eq_getElem hlt]
      rfl
    · have hmem := List.mem_of_getElem? hfound
      rw [List.getElem?_append_right (by rwa [List.length_map]), List.length_map, List.getElem?_map, hfound,
        Option.map_some, StillShare.bytesOf]
      split at hread
      · rename_i hfile
        rw [hread.1, Option.bind_some, h.fileOf_eq hmem hfile hread.2, if_pos (hshort found hmem hfile),
          if_pos hfile]
        rfl
      · rename_i hfile
        rw [hread, if_neg hfile]
        rfl

/-- The entries that are read of an archive: the directory before the others, where there is one, and
everything that is listed, with the bytes of its files. -/
theorem StillShare.Lays.zipWith_restored (h : share.Lays tables layout chosen tops before listed) :
    List.zipWith (restored compression) layout.sources
        (tops.map (fun _ => none) ++ listed.map (share.bytesOf layout.base)) =
      tops.map (fun top => ⟨top.name.push '/', methodStored, none⟩) ++ listed.map fun found =>
        restored compression (sourceOf before (itemOf found)) (share.bytesOf layout.base found) := by
  rw [h.sources_eq, List.zipWith_append (by rw [List.length_map])]
  congr 1
  · rw [List.zipWith_map_right, List.zipWith_self]
    refine List.map_congr_left fun top htop => ?_
    simp [restored, h.size_of_mem_tops htop]
  · rw [List.zipWith_map, List.zipWith_self]

/-- The download of an archive from a share that does not change. It has the directory of the request and
exactly what is offered beneath it, under the chosen names, in the order of the paths. Its body ends; a body
that is complete is read back as these entries with the bytes of their files, and one that is aborted has a
file whose full path is longer than the grammar allows, or would be longer than a `u64`. -/
theorem archive_download (hvalid : request.Valid tables)
    (hlayout : share.archiveLayout tables limits request = .ok layout)
    (hplan : ZipPlan.new layout.sources compression = some plan) (lawful : compressor.Lawful encodes bound)
    (hlossless : Lossless encodes inflate) (hchunk : 0 < chunkBytes) :
    ∃ chosen tops before listed, request.Covers layout.base chosen ∧
      share.Lays tables layout chosen tops before listed ∧ ∃ count chunks ending,
        (∀ more, count ≤ more →
          (share.host tables compressor reads).polls more (layout.stream plan chunkBytes) = (chunks, some ending)) ∧
        (ending = .complete → (∀ found ∈ listed, found.2.kind = .file →
            pathBytes ⟨layout.base.components ++ found.1⟩ ≤ maxVirtualPathBytes) ∧
          readArchive inflate chunks.flatten =
            some (tops.map (fun top => ⟨top.name.push '/', methodStored, none⟩) ++ listed.map fun found =>
              restored compression (sourceOf before (itemOf found)) (share.bytesOf layout.base found))) ∧
        (∀ error, ending = .aborted error → (∃ found ∈ listed, found.2.kind = .file ∧
            maxVirtualPathBytes < pathBytes ⟨layout.base.components ++ found.1⟩) ∨
          plan.isVariable = true ∧ ∃ contents, contents.length = plan.entries.length ∧
            (share.host tables compressor reads).ServesAll (layout.stream plan chunkBytes) contents ∧
              u64Max < (plan.done (plan.entries.zip contents)).len) := by
  obtain ⟨chosen, tops, before, listed, hcovers, hlays⟩ := archiveLayout_lays hvalid hlayout
  have hstream := @ArchiveHost.archive_stream _ (share.host tables compressor reads) _ _ _ _ _ _ lawful hlossless
    hplan layout.base layout.prefixLen chunkBytes hchunk
  obtain ⟨count, chunks, ending, hpolls, -, -, hcomplete, haborted⟩ := hstream
  refine ⟨chosen, tops, before, listed, hcovers, hlays, count, chunks, ending, hpolls, fun hending => ?_,
    fun error hending => ?_⟩
  · obtain ⟨hfiles, hread⟩ := hcomplete hending
    have hshort := (hlays.filesPlanned_iff hplan).mp hfiles
    have hbytes : (share.host tables compressor reads).files (layout.stream plan chunkBytes) = _ :=
      hlays.files_eq hplan hshort
    refine ⟨hshort, hread.trans (congrArg some ?_)⟩
    rw [← hlays.zipWith_restored, ← hbytes]
    rfl
  · refine (haborted error hending).imp_left fun hfiles => ?_
    by_contra hnone
    refine hfiles ((hlays.filesPlanned_iff hplan).mpr fun found hfound hfile => ?_)
    by_contra hlong
    exact hnone ⟨found, hfound, hfile, Nat.lt_of_not_le hlong⟩

end Streams

/-! ### A share of one file -/

/-- A file of two bytes. -/
def tinyRoot : Contents := .leaf ⟨"a"⟩ .file ⟨2, none, 7, 1⟩ .empty

/-- A share of the file. -/
def tinyShare : StillShare where
  shareId := "s"
  modified := none
  root := tinyRoot
  data path := match tinyRoot.entryAt path with
    | .ok (.leaf .file stat) => List.replicate stat.size 65
    | _ => []
  distinct := ⟨rfl, trivial⟩
  length_data := by
    intro path stat h
    rw [h]
    exact List.length_replicate

/-- The layout of the share as a folder. -/
def tinyLayout : ArchiveLayout := ⟨[⟨"s", none, none⟩, ⟨"s/a", some 2, none⟩], .root, 2, "s.zip"⟩

theorem archive_download_tiny : ∃ plan count chunks,
    ZipPlan.new tinyLayout.sources .off = some plan ∧
    (tinyShare.host BrowseState.asciiTables Zip.storingCompressor fun _ _ => 1).polls count
      (tinyLayout.stream plan 16) = (chunks, some .complete) ∧
    readArchive Zip.inflateStored chunks.flatten =
      some [⟨"s/", methodStored, none⟩, ⟨"s/a", methodStored, some [65, 65]⟩] := by
  obtain ⟨plan, hplan, hfixed⟩ : ∃ plan, ZipPlan.new tinyLayout.sources .off = some plan ∧
      plan.isVariable = false := by
    have hany : (ZipPlan.new tinyLayout.sources .off).any (fun plan => !plan.isVariable) = true := by
      decide +kernel
    rcases hplan : ZipPlan.new tinyLayout.sources .off with _ | plan
    · rw [hplan] at hany
      cases hany
    · rw [hplan, Option.any_some, Bool.not_eq_true'] at hany
      exact ⟨plan, rfl, hany⟩
  have hlayout : tinyShare.archiveLayout BrowseState.asciiTables ⟨10, 10, 10⟩ .root = .ok tinyLayout := rfl
  obtain ⟨chosen, tops, before, listed, ⟨-, rfl⟩, hlays, count, chunks, ending, hpolls, hcomplete, haborted⟩ :=
    @archive_download BrowseState.asciiTables ⟨10, 10, 10⟩ tinyShare tinyLayout .root _ Zip.storingCompressor _ _
      Zip.inflateStored (fun _ _ => 1) 16 plan .off trivial hlayout hplan Zip.storingCompressor_lawful
      Zip.stored_lossless (by decide)
  obtain ⟨modified, rfl, rfl⟩ := hlays.tops_eq rfl
  have hlisted : listed = archived BrowseState.asciiTables tinyShare.root [] := by
    obtain ⟨_, inside, hopen, hmem⟩ := hlays.mem_iff
    obtain ⟨-, rfl⟩ := Prod.mk.inj (Except.ok.inj hopen)
    refine eq_of_pairwise (fun found => ?_) hlays.ordered (pairwise_archived tinyShare.distinct)
    rw [hmem, mem_archived_nil tinyShare.distinct]
    exact ⟨And.left, fun h => ⟨h, nofun⟩⟩
  have harchived : archived BrowseState.asciiTables tinyShare.root [] =
      [([⟨"a"⟩], ⟨⟨"a"⟩, .file, 2, none, 7⟩)] := rfl
  rw [hlisted, harchived] at hcomplete haborted
  cases hending : ending with
  | complete =>
    refine ⟨plan, count, chunks, hplan, hending ▸ hpolls count le_rfl, (hcomplete hending).2.trans ?_⟩
    rw [List.map_singleton, List.map_singleton]
    dsimp only
    decide +kernel
  | aborted error =>
    rcases haborted error hending with ⟨found, hfound, -, hlong⟩ | ⟨htrue, -⟩
    · rw [List.mem_singleton.mp hfound] at hlong
      exact absurd hlong (by decide)
    · cases htrue.symm.trans hfixed

end Crabinet.Browse
