import Crabinet.Browse.ArchiveWalkSafety
import Crabinet.Library.UriComponents

/-!
# Requests for archives

A query names the share root, one entry, or several entries of one directory.
-/

namespace Crabinet.Browse

open Crabinet.Filesystem Crabinet.Library
open Crabinet.Library.UriComponents (Params)
open Crabinet.Tokens (AppError)

/-- `MAX_ARCHIVE_QUERY_BYTES`. -/
def maxArchiveQueryBytes : ℕ := 256 * 1024

/-- `MAX_ARCHIVE_PATHS`. -/
def maxArchivePaths : ℕ := 1000

/-- `ArchiveRequest`. -/
inductive ArchiveRequest where
  | root
  | single (path : VirtualPath)
  | selection (parent : VirtualPath) (names : List EntryName)
deriving DecidableEq

/-- `split_parent`. -/
def splitParent (path : VirtualPath) : Option (VirtualPath × EntryName) :=
  path.splitFile.toOption.map fun split => (⟨split.1⟩, split.2)

/-- The directory of the paths so far, and their names. -/
structure Gathered where
  parent : Option VirtualPath
  names : List EntryName

/-- One more path of a selection. -/
def Gathered.add (tables : UnicodeTables) (gathered : Gathered) (value : List Char) : Except AppError Gathered := do
  let path ← mapFsError (parsePath (EntryName.accepts tables) value)
  match splitParent path with
  | none => .error .invalidRequest
  | some (pathParent, name) =>
    if gathered.parent.any (· ≠ pathParent) then .error .invalidRequest
    else return ⟨some (gathered.parent.getD pathParent), gathered.names ++ [name]⟩

/-- The branch of `parse_archive_query` for one path. -/
def parseSingle (tables : UnicodeTables) (only : List Char) : Except AppError ArchiveRequest := do
  let path ← mapFsError (parsePath (EntryName.accepts tables) only)
  return .single path

/-- The branch of `parse_archive_query` for several paths. -/
def parseSelection (tables : UnicodeTables) (values : List (List Char)) : Except AppError ArchiveRequest := do
  let gathered ← values.foldlM (Gathered.add tables) ⟨none, []⟩
  if adjacentEqual (gathered.names.insertionSort nameLe) then .error .invalidRequest
  else
    match gathered.parent with
    | none => .error .invalidRequest
    | some parent => return .selection parent gathered.names

/-- `parse_archive_query`. -/
def parseArchiveQuery (tables : UnicodeTables) (raw : Option (List Char)) : Except AppError ArchiveRequest :=
  let raw := raw.getD []
  if (raw.map Char.utf8Size).sum > maxArchiveQueryBytes then .error .tooLarge
  else
    let values := ((Params.parse raw).filter fun entry => entry.1 = "path".toList).map Prod.snd
    if values.length > maxArchivePaths then .error .tooLarge
    else
      match values with
      | [] | [[]] => .ok .root
      | [only] => parseSingle tables only
      | _ => parseSelection tables values

/-! ### What is parsed -/

/-- A path that the grammar accepts. -/
structure Parsable (tables : UnicodeTables) (path : VirtualPath) : Prop where
  canonical : path.Canonical (EntryName.accepts tables)
  ne_root : path ≠ .root
  bytes_le : pathBytes path ≤ maxVirtualPathBytes
  depth_le : path.depth ≤ maxPathDepth

/-- A request that names distinct entries of one directory. -/
def ArchiveRequest.Valid (tables : UnicodeTables) : ArchiveRequest → Prop
  | .root => True
  | .single path => Parsable tables path
  | .selection parent names => 2 ≤ names.length ∧ names.length ≤ maxArchivePaths ∧ names.Nodup ∧
    ∀ name ∈ names, Parsable tables (parent.join name)

/-- The texts of the paths that a request names. -/
def ArchiveRequest.paths : ArchiveRequest → List (List Char)
  | .root => []
  | .single path => [pathText path]
  | .selection parent names => names.map fun name => pathText (parent.join name)

variable {tables : UnicodeTables} {path parent : VirtualPath} {names : List EntryName} {name : EntryName}
  {raw text : List Char} {request : ArchiveRequest} {gathered : Gathered} {values : List (List Char)}

/-- The grammar accepts the texts of the paths that are parsable, and no others. -/
theorem parsePath_iff : parsePath (EntryName.accepts tables) text = .ok path ↔
    Parsable tables path ∧ pathText path = text := by
  constructor
  · intro h
    obtain ⟨htext, hcanonical, hroot, hbytes⟩ := parsePath_eq_ok h
    exact ⟨⟨hcanonical, hroot, hbytes, depth_of_parsePath (separable_accepts tables) h⟩, htext⟩
  · rintro ⟨h, rfl⟩
    exact parsePath_pathText (separable_accepts tables) h.canonical h.ne_root h.bytes_le h.depth_le

theorem splitParent_join (parent : VirtualPath) (name : EntryName) :
    splitParent (parent.join name) = some (parent, name) := by
  have hsplit : (parent.join name).splitFile = .ok (parent.components, name) :=
    VirtualPath.splitFile_eq_ok.mpr rfl
  rw [splitParent, hsplit]
  rfl

/-- Every path but the root is a name in a directory. -/
theorem exists_join (h : path ≠ .root) : ∃ parent name, path = VirtualPath.join parent name := by
  obtain ⟨components⟩ := path
  rcases List.eq_nil_or_concat components with rfl | ⟨init, last, rfl⟩
  · exact absurd rfl h
  · exact ⟨⟨init⟩, last, congrArg VirtualPath.mk List.concat_eq_append⟩

/-- One more path is gathered if and only if it is parsable and in the same directory. -/
theorem add_eq_ok_iff {next : Gathered} : gathered.add tables text = .ok next ↔
    ∃ parent name, Parsable tables (VirtualPath.join parent name) ∧ pathText (parent.join name) = text ∧
      (∀ other ∈ gathered.parent, other = parent) ∧ next = ⟨some parent, gathered.names ++ [name]⟩ := by
  have hany : ∀ parent, ¬gathered.parent.any (· ≠ parent) = true ↔ ∀ other ∈ gathered.parent, other = parent := by
    intro parent
    cases gathered.parent <;> simp
  have hnext : ∀ parent name, (∀ other ∈ gathered.parent, other = parent) →
      Gathered.mk (some (gathered.parent.getD parent)) (gathered.names ++ [name]) =
        ⟨some parent, gathered.names ++ [name]⟩ := by
    intro parent name hsame
    cases hgathered : gathered.parent with
    | none => rfl
    | some other =>
      rw [hsame other hgathered]
      rfl
  unfold Gathered.add
  rw [bind_eq_ok]
  constructor
  · rintro ⟨path, hpath, h⟩
    obtain ⟨hparsable, rfl⟩ := parsePath_iff.mp (mapFsError_eq_ok.mp hpath)
    obtain ⟨parent, name, rfl⟩ := exists_join hparsable.ne_root
    rw [splitParent_join] at h
    obtain ⟨hsame, h⟩ := ite_error_eq_ok.mp h
    obtain rfl := Except.ok.inj h
    exact ⟨parent, name, hparsable, rfl, (hany parent).mp hsame, hnext parent name ((hany parent).mp hsame)⟩
  · rintro ⟨parent, name, hparsable, rfl, hsame, rfl⟩
    refine ⟨_, mapFsError_eq_ok.mpr (parsePath_iff.mpr ⟨hparsable, rfl⟩), ?_⟩
    rw [splitParent_join]
    exact ite_error_eq_ok.mpr ⟨(hany parent).mpr hsame, congrArg Except.ok (hnext parent name hsame)⟩

/-- More paths of a directory. -/
theorem foldlM_add_some {gathered : Gathered} :
    values.foldlM (Gathered.add tables) ⟨some parent, names⟩ = .ok gathered ↔
      ∃ more, (∀ name ∈ more, Parsable tables (parent.join name)) ∧
        values = more.map (fun name => pathText (parent.join name)) ∧ gathered = ⟨some parent, names ++ more⟩ := by
  induction values generalizing names with
  | nil =>
    rw [List.foldlM_nil]
    constructor
    · intro h
      obtain rfl := Except.ok.inj h
      exact ⟨[], by simp⟩
    · rintro ⟨more, -, hmore, rfl⟩
      obtain rfl := List.map_eq_nil_iff.mp hmore.symm
      rw [List.append_nil]
      rfl
  | cons value rest ih =>
    rw [List.foldlM_cons, bind_eq_ok]
    constructor
    · rintro ⟨next, hnext, h⟩
      obtain ⟨other, name, hparsable, rfl, hsame, rfl⟩ := add_eq_ok_iff.mp hnext
      obtain rfl := hsame parent rfl
      obtain ⟨more, hmore, rfl, rfl⟩ := ih.mp h
      exact ⟨name :: more, List.forall_mem_cons.mpr ⟨hparsable, hmore⟩, rfl, by simp⟩
    · rintro ⟨more, hmore, hvalues, rfl⟩
      cases more with
      | nil => cases hvalues
      | cons name more =>
        obtain ⟨rfl, rfl⟩ := List.cons.inj hvalues
        obtain ⟨hname, hmore⟩ := List.forall_mem_cons.mp hmore
        refine ⟨_, add_eq_ok_iff.mpr ⟨parent, name, hname, rfl, ?_, rfl⟩, ih.mpr ⟨more, hmore, rfl, by simp⟩⟩
        rintro other ⟨⟩
        rfl

/-- Paths are gathered if and only if they are parsable entries of one directory. -/
theorem foldlM_add_none {value : List Char} {gathered : Gathered} :
    (value :: values).foldlM (Gathered.add tables) ⟨none, []⟩ = .ok gathered ↔
      ∃ parent names, (∀ name ∈ names, Parsable tables (VirtualPath.join parent name)) ∧
        value :: values = names.map (fun name => pathText (parent.join name)) ∧
        gathered = ⟨some parent, names⟩ := by
  rw [List.foldlM_cons, bind_eq_ok]
  constructor
  · rintro ⟨next, hnext, h⟩
    obtain ⟨parent, name, hparsable, rfl, -, rfl⟩ := add_eq_ok_iff.mp hnext
    obtain ⟨more, hmore, rfl, rfl⟩ := foldlM_add_some.mp h
    exact ⟨parent, name :: more, List.forall_mem_cons.mpr ⟨hparsable, hmore⟩, rfl, rfl⟩
  · rintro ⟨parent, names, hnames, hvalues, rfl⟩
    cases names with
    | nil => cases hvalues
    | cons name more =>
      obtain ⟨rfl, rfl⟩ := List.cons.inj hvalues
      obtain ⟨hname, hmore⟩ := List.forall_mem_cons.mp hnames
      refine ⟨_, add_eq_ok_iff.mpr ⟨parent, name, hname, rfl, ?_, rfl⟩, foldlM_add_some.mpr ⟨more, hmore, rfl, rfl⟩⟩
      rintro other ⟨⟩

/-- Sorted names have equal neighbours if and only if some name is there twice. -/
theorem adjacentEqual_sorted : adjacentEqual (names.insertionSort nameLe) = false ↔ names.Nodup := by
  have hperm := List.perm_insertionSort nameLe names
  constructor
  · intro h
    exact hperm.nodup_iff.mp (ArchiveTree.nodup_of_adjacentEqual (ArchiveTree.pairwise_nameLe names) h)
  · intro h
    have hnodup := hperm.nodup_iff.mpr h
    generalize names.insertionSort nameLe = sorted at hnodup
    fun_induction adjacentEqual sorted with
    | case1 first second rest ih =>
      obtain ⟨hfirst, hrest⟩ := List.nodup_cons.mp hnodup
      have hne : first ≠ second := fun heq => hfirst (heq ▸ List.mem_cons_self)
      rw [ih hrest, Bool.or_false]
      exact beq_eq_false_iff_ne.mpr hne
    | case2 => rfl

/-- The paths of a query. -/
def archivePaths (raw : List Char) : List (List Char) :=
  ((Params.parse raw).filter fun entry => entry.1 = "path".toList).map Prod.snd

theorem paths_ne_of_valid (h : request.Valid tables) : [] ∉ request.paths := by
  have hne : ∀ {path : VirtualPath}, Parsable tables path → pathText path ≠ [] := fun h =>
    pathText_ne_nil (separable_accepts tables) h.canonical h.ne_root
  cases request with
  | root => exact List.not_mem_nil
  | single path =>
    intro hmem
    exact hne h (List.mem_singleton.mp hmem).symm
  | selection parent names =>
    intro hmem
    obtain ⟨name, hname, hnil⟩ := List.mem_map.mp hmem
    exact hne (h.2.2.2 name hname) hnil

/-- Several paths are accepted if and only if they are those of a valid request. -/
theorem parseSelection_eq_ok {value second : List Char} (hmost : (value :: second :: values).length ≤ maxArchivePaths) :
    parseSelection tables (value :: second :: values) = .ok request ↔
      request.Valid tables ∧ value :: second :: values = request.paths := by
  rw [parseSelection, bind_eq_ok]
  constructor
  · rintro ⟨gathered, hgathered, h⟩
    obtain ⟨parent, names, hnames, hvalues, rfl⟩ := foldlM_add_none.mp hgathered
    obtain ⟨hadjacent, h⟩ := ite_error_eq_ok.mp h
    obtain rfl := Except.ok.inj h
    have hcount : names.length = (value :: second :: values).length := by rw [hvalues, List.length_map]
    refine ⟨⟨?_, by rwa [hcount], adjacentEqual_sorted.mp (Bool.eq_false_iff.mpr hadjacent), hnames⟩, hvalues⟩
    rw [hcount, List.length_cons, List.length_cons]
    omega
  · rintro ⟨hvalid, hpaths⟩
    cases request with
    | root => cases hpaths
    | single path => cases hpaths
    | selection parent names =>
      obtain ⟨-, -, hnodup, hnames⟩ := hvalid
      refine ⟨_, foldlM_add_none.mpr ⟨parent, names, hnames, hpaths, rfl⟩, ite_error_eq_ok.mpr ⟨?_, rfl⟩⟩
      rw [adjacentEqual_sorted.mpr hnodup]
      exact Bool.false_ne_true

/-- One path is accepted if and only if it is that of a valid request. -/
theorem parseSingle_eq_ok :
    parseSingle tables text = .ok request ↔ request.Valid tables ∧ [text] = request.paths := by
  rw [parseSingle, bind_eq_ok]
  constructor
  · rintro ⟨path, hpath, h⟩
    obtain rfl := Except.ok.inj h
    obtain ⟨hparsable, htext⟩ := parsePath_iff.mp (mapFsError_eq_ok.mp hpath)
    exact ⟨hparsable, congrArg (fun text => [text]) htext.symm⟩
  · rintro ⟨hvalid, hpaths⟩
    cases request with
    | root => cases hpaths
    | single path =>
      exact ⟨path, mapFsError_eq_ok.mpr (parsePath_iff.mpr ⟨hvalid, (List.cons.inj hpaths).1.symm⟩), rfl⟩
    | selection parent names =>
      have hlength := congrArg List.length hpaths
      rw [ArchiveRequest.paths, List.length_map, List.length_singleton] at hlength
      exact absurd hvalid.1 (by omega)

/-- No path names the share root only. -/
theorem eq_root_of_paths (hvalid : request.Valid tables) (hpaths : request.paths = []) : request = .root := by
  cases request with
  | root => rfl
  | single path => cases hpaths
  | selection parent names =>
    obtain rfl := List.map_eq_nil_iff.mp hpaths
    exact absurd hvalid.1 (by decide)

/-- A query is accepted if and only if it is not too long and its paths are those of a valid request; the
share root may also be named by one empty path. -/
theorem parse_archive_query {raw : Option (List Char)} : parseArchiveQuery tables raw = .ok request ↔
    ((raw.getD []).map Char.utf8Size).sum ≤ maxArchiveQueryBytes ∧ request.Valid tables ∧
      (archivePaths (raw.getD []) = request.paths ∨ request = .root ∧ archivePaths (raw.getD []) = [[]]) := by
  have hroot : (.ok .root : Except AppError ArchiveRequest) = .ok request ↔ request = .root :=
    ⟨fun h => (Except.ok.inj h).symm, fun h => h ▸ rfl⟩
  have hmost : ∀ {values : List (List Char)}, values = request.paths → request.Valid tables →
      values.length ≤ maxArchivePaths := by
    rintro _ rfl hvalid
    cases request with
    | root => exact Nat.zero_le _
    | single path => exact Nat.one_le_of_lt (by decide : 0 < maxArchivePaths)
    | selection parent names => exact (List.length_map _).le.trans hvalid.2.1
  have hmany : ∀ value second rest, (value :: second :: rest).length ≤ maxArchivePaths ∧
      parseSelection tables (value :: second :: rest) = .ok request ↔ request.Valid tables ∧
        (value :: second :: rest = request.paths ∨ request = .root ∧ value :: second :: rest = [[]]) := by
    intro value second rest
    constructor
    · rintro ⟨hlength, h⟩
      obtain ⟨hvalid, hpaths⟩ := (parseSelection_eq_ok hlength).mp h
      exact ⟨hvalid, .inl hpaths⟩
    · rintro ⟨hvalid, hpaths | ⟨-, hempty⟩⟩
      · exact ⟨hmost hpaths hvalid, (parseSelection_eq_ok (hmost hpaths hvalid)).mpr ⟨hvalid, hpaths⟩⟩
      · cases hempty
  unfold parseArchiveQuery
  dsimp only
  rw [ite_error_eq_ok, Nat.not_lt, ← archivePaths]
  refine and_congr_right fun _ => ?_
  generalize archivePaths (raw.getD []) = values
  rw [ite_error_eq_ok, Nat.not_lt]
  rcases values with _ | ⟨_ | ⟨c, text⟩, _ | ⟨second, rest⟩⟩
  · rw [hroot]
    refine ⟨?_, fun ⟨hvalid, h⟩ => ⟨Nat.zero_le _, ?_⟩⟩
    · rintro ⟨-, rfl⟩
      exact ⟨trivial, .inl rfl⟩
    · exact h.elim (fun hpaths => eq_root_of_paths hvalid hpaths.symm) fun h => h.1
  · rw [hroot]
    refine ⟨?_, fun ⟨hvalid, h⟩ => ⟨by decide, ?_⟩⟩
    · rintro ⟨-, rfl⟩
      exact ⟨trivial, .inr ⟨rfl, rfl⟩⟩
    · exact h.elim (fun hpaths => absurd (hpaths ▸ List.mem_singleton_self _) (paths_ne_of_valid hvalid)) fun h => h.1
  · exact hmany _ _ _
  · rw [parseSingle_eq_ok]
    refine ⟨fun ⟨_, hvalid, hpaths⟩ => ⟨hvalid, .inl hpaths⟩, fun ⟨hvalid, h⟩ => ?_⟩
    rcases h with hpaths | ⟨-, hempty⟩
    · exact ⟨hmost hpaths hvalid, hvalid, hpaths⟩
    · cases hempty
  · exact hmany _ _ _

end Crabinet.Browse
