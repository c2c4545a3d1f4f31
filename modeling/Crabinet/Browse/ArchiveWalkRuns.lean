import Crabinet.Browse.ArchiveWalk
import Mathlib.Algebra.BigOperators.Group.List.Basic

/-!
# What a walk lists

A walk of a folder that does not change succeeds if and only if four totals are within its limits, and
then lists everything that is supported beneath the folder.
-/

namespace Crabinet.Browse

open Crabinet.Filesystem Crabinet.Library

namespace ArchiveTree

variable {tables : UnicodeTables} {limits : ArchiveLimits} {contents : Contents} {path : List EntryName}
  {pair : DirectoryEntry × Contents} {walk result : ArchiveWalk} {name : EntryName} {entry : Entry}
  {child : DirectoryEntry} {depth : ℕ}

/-! ### Supported entries -/

theorem entryOf_eq_some (h : entryOf tables name entry = some child) :
    child.name = name ∧ EntryName.accepts tables name.value = true ∧
      ∃ found, entry.metadata = .ok found ∧ child.kind = found.kind ∧ child.size = found.size ∧
        child.modified = found.modified := by
  unfold entryOf listed supportedEntry at h
  dsimp only at h
  split at h
  · cases h
  · split at h
    · cases h
    · rename_i haccepts
      split at h
      · cases h
      · rename_i found hfound
        obtain rfl := Option.some.inj h
        exact ⟨rfl, by simpa using haccepts, found, hfound, rfl, rfl, rfl⟩

/-- A supported name is not empty. -/
theorem value_ne_of_entryOf (h : entryOf tables name entry = some child) : child.name.value ≠ "" := by
  obtain ⟨rfl, haccepts, -⟩ := entryOf_eq_some h
  exact (separable_accepts tables).nonempty _ haccepts

/-- An entry contributes itself and what lies in it. -/
theorem offers_eq (contents : Contents) : offers tables contents = (supported tables contents).map fun pair =>
    (pair.1, fun path => (path ++ [pair.1.name], pair.1) :: archived tables pair.2 (path ++ [pair.1.name])) := by
  induction contents with
  | empty => rfl
  | leaf name type stat rest ih =>
    rw [offers, supported, List.map_append, ih]
    cases entryOf tables name (.leaf type stat) <;> rfl
  | directory name stat inside rest _ ih =>
    rw [offers, supported, List.map_append, ih]
    cases entryOf tables name (.directory stat inside) <;> rfl

/-- The supported entries in the order of their names. -/
def sorted (tables : UnicodeTables) (contents : Contents) : List (DirectoryEntry × Contents) :=
  (supported tables contents).insertionSort fun left right => nameOrder left.1 right.1

theorem mem_sorted : pair ∈ sorted tables contents ↔ pair ∈ supported tables contents :=
  List.mem_insertionSort _

/-- What an archive holds is what its entries contribute, one after the other. -/
theorem archived_eq (contents : Contents) (path : List EntryName) : archived tables contents path =
    (sorted tables contents).flatMap fun pair =>
      (path ++ [pair.1.name], pair.1) :: archived tables pair.2 (path ++ [pair.1.name]) := by
  rw [archived, offers_eq, ← List.map_insertionSort (fun left right => nameOrder left.1 right.1), List.flatMap_map]
  · rfl
  · exact fun _ _ _ _ => Iff.rfl

/-- A supported entry is smaller than its directory; a file holds nothing. -/
theorem of_mem_supported (h : pair ∈ supported tables contents) : pair.2.count < contents.count ∧
    pair.1.name.value ≠ "" ∧ (pair.1.kind = .file → pair.2 = .empty) := by
  induction contents with
  | empty => cases h
  | leaf name type stat rest ih =>
    rcases List.mem_append.mp h with hfirst | hrest
    · obtain ⟨child, hchild, rfl⟩ := Option.map_eq_some_iff.mp (Option.mem_toList.mp hfirst)
      exact ⟨Nat.succ_pos _, value_ne_of_entryOf hchild, fun _ => rfl⟩
    · obtain ⟨hsize, hrest⟩ := ih hrest
      exact ⟨Nat.lt_succ_of_lt hsize, hrest⟩
  | directory name stat inside rest _ ih =>
    rcases List.mem_append.mp h with hfirst | hrest
    · obtain ⟨child, hchild, rfl⟩ := Option.map_eq_some_iff.mp (Option.mem_toList.mp hfirst)
      refine ⟨?_, value_ne_of_entryOf hchild, fun hkind => ?_⟩
      · rw [Contents.count]
        dsimp only
        omega
      · obtain ⟨-, -, found, hfound, hkind', -⟩ := entryOf_eq_some hchild
        obtain rfl := Except.ok.inj hfound
        cases hkind.symm.trans hkind'
    · obtain ⟨hsize, hrest⟩ := ih hrest
      refine ⟨?_, hrest⟩
      rw [Contents.count]
      omega

/-! ### The scan of a directory -/

/-- The number of entries of a directory. -/
def breadth : Contents → ℕ
  | .empty => 0
  | .leaf _ _ _ rest => breadth rest + 1
  | .directory _ _ _ rest => breadth rest + 1

theorem visited_eq (contents : Contents) : visited tables contents =
    breadth contents + ((sorted tables contents).map fun pair => visited tables pair.2).sum := by
  have hperm := ((List.perm_insertionSort (fun left right : DirectoryEntry × Contents =>
    nameOrder left.1 right.1) (supported tables contents)).map fun pair => visited tables pair.2).sum_eq
  rw [sorted, hperm]
  clear hperm
  induction contents with
  | empty => rfl
  | leaf name type stat rest ih =>
    rw [visited, breadth, supported, List.map_append, List.sum_append, ih]
    cases entryOf tables name (.leaf type stat) <;> simp [visited] <;> omega
  | directory name stat inside rest _ ih =>
    rw [visited, breadth, supported, List.map_append, List.sum_append, ih]
    cases entryOf tables name (.directory stat inside) <;> simp <;> omega

/-- A supported entry as a child of its directory. -/
def childOf (tables : UnicodeTables) (limits : ArchiveLimits) (pair : DirectoryEntry × Contents) : Child where
  entry := pair.1
  opening := if pair.1.kind = .directory then .opened else .failed .notFound
  visit before depth walk := (scanOf pair.2).visit tables limits before depth walk

theorem supportedEntry_eq (name : EntryName) (entry : Entry) :
    supportedEntry tables ⟨some name.value, .ok entry⟩ = .ok (entryOf tables name entry) := by
  unfold entryOf listed supportedEntry
  dsimp only
  split
  · rfl
  · split
    · rfl
    · cases entry.metadata <;> rfl

theorem scan_eq_ok {next : ArchiveWalk} : walk.scan limits = .ok next ↔
    walk.scanned + 1 ≤ limits.maxEntries ∧ next = { walk with scanned := walk.scanned + 1 } := by
  rw [ArchiveWalk.scan, ite_error_eq_ok, Nat.not_lt]
  exact and_congr_right fun _ => ⟨fun h => (Except.ok.inj h).symm, fun h => h ▸ rfl⟩

/-- One entry of a scan. -/
theorem children_entry {opening : Opening} {inside rest : Scan} {found : ArchiveWalk × List Child} :
    (Scan.entry ⟨some name.value, .ok entry⟩ opening inside rest).children tables limits walk = .ok found ↔
      walk.scanned + 1 ≤ limits.maxEntries ∧ ∃ others,
        rest.children tables limits { walk with scanned := walk.scanned + 1 } = .ok (found.1, others) ∧
          found.2 = ((entryOf tables name entry).map fun child => ⟨child, opening, fun before depth walk =>
            inside.visit tables limits before depth walk⟩).toList ++ others := by
  obtain ⟨last, collected⟩ := found
  rw [Scan.children, bind_eq_ok]
  constructor
  · rintro ⟨next, hnext, h⟩
    obtain ⟨hroom, rfl⟩ := scan_eq_ok.mp hnext
    rw [supportedEntry_eq, ok_bind] at h
    obtain ⟨⟨after, others⟩, hothers, h⟩ := bind_eq_ok.mp h
    refine ⟨hroom, others, ?_⟩
    cases hchild : entryOf tables name entry with
    | none =>
      rw [hchild] at h
      obtain ⟨rfl, rfl⟩ := Prod.mk.inj (Except.ok.inj h)
      exact ⟨hothers, rfl⟩
    | some child =>
      rw [hchild] at h
      obtain ⟨rfl, rfl⟩ := Prod.mk.inj (Except.ok.inj h)
      exact ⟨hothers, rfl⟩
  · rintro ⟨hroom, others, hothers, hcollected⟩
    dsimp only at hothers hcollected
    refine ⟨_, scan_eq_ok.mpr ⟨hroom, rfl⟩, ?_⟩
    rw [supportedEntry_eq, ok_bind, hothers, ok_bind, hcollected]
    cases entryOf tables name entry <;> rfl

/-- A scan within the limit collects the supported entries. -/
theorem children_eq_ok {found : ArchiveWalk × List Child} (hscanned : walk.scanned ≤ limits.maxEntries) :
    (scanOf contents).children tables limits walk = .ok found ↔
      walk.scanned + breadth contents ≤ limits.maxEntries ∧
        found = ({ walk with scanned := walk.scanned + breadth contents },
          (supported tables contents).map (childOf tables limits)) := by
  induction contents generalizing walk found with
  | empty =>
    rw [scanOf, Scan.children]
    exact ⟨fun h => ⟨hscanned, (Except.ok.inj h).symm⟩, fun h => h.2 ▸ rfl⟩
  | leaf name type stat rest ih =>
    obtain ⟨last, collected⟩ := found
    rw [scanOf, children_entry, supported, List.map_append, breadth, Prod.mk.injEq]
    have hchild : (((entryOf tables name (.leaf type stat)).map fun entry => (entry, .empty)).toList.map
        (childOf tables limits)) = ((entryOf tables name (.leaf type stat)).map fun child =>
          ⟨child, .failed .notFound, fun before depth walk =>
            Scan.done.visit tables limits before depth walk⟩).toList := by
      cases hentry : entryOf tables name (.leaf type stat) with
      | none => rfl
      | some child =>
        obtain ⟨-, -, found, hfound, hkind, -⟩ := entryOf_eq_some hentry
        have hfile : child.kind ≠ .directory := by
          cases type with
          | other => cases hfound
          | file =>
            rw [Entry.metadata] at hfound
            split at hfound
            · obtain rfl := Except.ok.inj hfound
              rw [hkind]
              intro h
              cases h
            · cases hfound
        simp only [Option.map_some, Option.toList_some, List.map_cons, List.map_nil, childOf, if_neg hfile]
        rfl
    rw [hchild]
    constructor
    · rintro ⟨hroom, others, hothers, rfl⟩
      obtain ⟨hrest, heq⟩ := (ih hroom).mp hothers
      obtain ⟨rfl, rfl⟩ := Prod.mk.inj heq
      dsimp only at hrest ⊢
      exact ⟨by omega, by rw [Nat.add_assoc, Nat.add_comm 1], rfl⟩
    · rintro ⟨hroom, rfl, rfl⟩
      refine ⟨by omega, _, (ih (by dsimp only; omega)).mpr ⟨by dsimp only; omega, ?_⟩, rfl⟩
      rw [Nat.add_assoc, Nat.add_comm 1]
  | directory name stat inside rest _ ih =>
    obtain ⟨last, collected⟩ := found
    rw [scanOf, children_entry, supported, List.map_append, breadth, Prod.mk.injEq]
    have hchild : (((entryOf tables name (.directory stat inside)).map fun entry =>
        (entry, inside)).toList.map (childOf tables limits)) =
        ((entryOf tables name (.directory stat inside)).map fun child =>
          ⟨child, .opened, fun before depth walk =>
            (scanOf inside).visit tables limits before depth walk⟩).toList := by
      cases hentry : entryOf tables name (.directory stat inside) with
      | none => rfl
      | some child =>
        obtain ⟨-, -, found, hfound, hkind, -⟩ := entryOf_eq_some hentry
        obtain rfl := Except.ok.inj hfound
        simp only [Option.map_some, Option.toList_some, List.map_cons, List.map_nil, childOf, if_pos hkind]
    rw [hchild]
    constructor
    · rintro ⟨hroom, others, hothers, rfl⟩
      obtain ⟨hrest, heq⟩ := (ih hroom).mp hothers
      obtain ⟨rfl, rfl⟩ := Prod.mk.inj heq
      dsimp only at hrest ⊢
      exact ⟨by omega, by rw [Nat.add_assoc, Nat.add_comm 1], rfl⟩
    · rintro ⟨hroom, rfl, rfl⟩
      refine ⟨by omega, _, (ih (by dsimp only; omega)).mpr ⟨by dsimp only; omega, ?_⟩, rfl⟩
      rw [Nat.add_assoc, Nat.add_comm 1]

/-! ### Totals -/

/-- What is found beneath a folder: the names that lead to an entry, and the entry. -/
abbrev Found : Type := List EntryName × DirectoryEntry

/-- The item of what is found. -/
def itemOf (found : Found) : ArchiveItem :=
  ⟨String.ofList (pathText ⟨found.1⟩), found.2.kind, found.2.size, found.2.modified⟩

/-- The sum of the file sizes. -/
def totalBytes (found : List Found) : ℕ :=
  (found.map fun found => if found.2.kind = .file then found.2.size else 0).sum

/-- The sum of the lengths of the paths. -/
def totalNameBytes (found : List Found) : ℕ := (found.map fun found => pathBytes ⟨found.1⟩).sum

/-- The walk after more entries are scanned and found. -/
def after (walk : ArchiveWalk) (scanned : ℕ) (found : List Found) : ArchiveWalk where
  items := walk.items ++ found.map itemOf
  scanned := walk.scanned + scanned
  bytes := min (walk.bytes + totalBytes found) u64Max
  nameBytes := min (walk.nameBytes + totalNameBytes found) u64Max

/-- A walk is within its limits. -/
structure Within (limits : ArchiveLimits) (walk : ArchiveWalk) : Prop where
  scanned_le : walk.scanned ≤ limits.maxEntries
  bytes_le : walk.bytes ≤ limits.maxBytes
  nameBytes_le : walk.nameBytes ≤ limits.maxNameBytes
  bytes_le_max : walk.bytes ≤ u64Max
  nameBytes_le_max : walk.nameBytes ≤ u64Max

/-- No entry found is deeper than the limit, for a folder at a depth. -/
def Shallow (path : List EntryName) (depth : ℕ) (found : List Found) : Prop :=
  ∀ a ∈ found, a.1.length + depth ≤ maxPathDepth + path.length

@[simp] theorem totalBytes_append (first second : List Found) :
    totalBytes (first ++ second) = totalBytes first + totalBytes second := by
  simp [totalBytes]

@[simp] theorem totalNameBytes_append (first second : List Found) :
    totalNameBytes (first ++ second) = totalNameBytes first + totalNameBytes second := by
  simp [totalNameBytes]

/-- What is found in two steps. -/
theorem after_after (walk : ArchiveWalk) (scanned scanned' : ℕ) (first second : List Found) :
    after (after walk scanned first) scanned' second = after walk (scanned + scanned') (first ++ second) := by
  simp only [after, List.append_assoc, List.map_append, totalBytes_append, totalNameBytes_append,
    ArchiveWalk.mk.injEq, true_and]
  omega

theorem after_nil (h : Within limits walk) : after walk 0 [] = walk := by
  have hbytes := h.bytes_le_max
  have hnames := h.nameBytes_le_max
  simp only [after, totalBytes, totalNameBytes, List.map_nil, List.append_nil, List.sum_nil, Nat.add_zero]
  rw [min_eq_left hbytes, min_eq_left hnames]

/-- A walk was within its limits before it went on. -/
theorem Within.of_after {scanned scanned' : ℕ} {first second : List Found}
    (h : Within limits (after walk (scanned + scanned') (first ++ second))) :
    Within limits (after walk scanned first) := by
  obtain ⟨hscanned, hbytes, hnames, -, -⟩ := h
  simp only [after, totalBytes_append, totalNameBytes_append] at hscanned hbytes hnames
  refine ⟨?_, ?_, ?_, min_le_right _ _, min_le_right _ _⟩ <;> simp only [after] <;> omega

/-- The text of a path of names. -/
def textOf (path : List EntryName) : String := String.ofList (pathText ⟨path⟩)

theorem utf8ByteSize_textOf (path : List EntryName) : (textOf path).utf8ByteSize = pathBytes ⟨path⟩ := by
  rw [textOf, utf8ByteSize_eq_sum, String.toList_ofList, sum_pathText]

theorem pathText_append_singleton {path : List EntryName} (hpath : path ≠ []) (name : EntryName) :
    pathText ⟨path ++ [name]⟩ = pathText ⟨path⟩ ++ '/' :: name.value.toList := by
  unfold pathText
  dsimp only
  induction path with
  | nil => exact absurd rfl hpath
  | cons first rest ih =>
    cases rest with
    | nil => simp [List.intercalate]
    | cons second rest =>
      have hrest := ih (List.cons_ne_nil _ _)
      simp only [List.cons_append, List.map_cons, List.intercalate_cons_cons] at hrest ⊢
      rw [hrest]
      simp

/-- A child's path is the path of its names. -/
theorem childPath_eq (hpath : ∀ name ∈ path, name.value ≠ "") (name : EntryName) :
    ArchiveWalk.childPath (textOf path) name = textOf (path ++ [name]) := by
  unfold ArchiveWalk.childPath
  rcases path with _ | ⟨first, rest⟩
  · rw [if_pos (by decide)]
    simp [textOf, pathText, List.intercalate]
  · have hnonempty : (textOf (first :: rest)).isEmpty = false := by
      rw [Bool.eq_false_iff]
      intro hempty
      have hnil : pathText ⟨first :: rest⟩ = [] := by
        simpa [textOf] using hempty
      have hfirst := hpath first List.mem_cons_self
      refine hfirst (String.toList_inj.mp ?_)
      unfold pathText at hnil
      cases rest with
      | nil => simpa [List.intercalate] using hnil
      | cons second rest =>
        simp only [List.map_cons, List.intercalate_cons_cons] at hnil
        simp at hnil
    rw [hnonempty, if_neg Bool.false_ne_true, ← String.toList_inj]
    rw [textOf, textOf, String.toList_ofList, pathText_append_singleton (List.cons_ne_nil _ _)]
    simp

/-! ### Visits -/

/-- What an entry of a directory contributes. -/
def contribution (tables : UnicodeTables) (path : List EntryName) (pair : DirectoryEntry × Contents) :
    List Found :=
  (path ++ [pair.1.name], pair.1) :: archived tables pair.2 (path ++ [pair.1.name])

/-- A visit of these contents succeeds if and only if the totals are within the limits. -/
def VisitExact (tables : UnicodeTables) (limits : ArchiveLimits) (contents : Contents) : Prop :=
  ∀ (walk result : ArchiveWalk) (path : List EntryName) (depth : ℕ), Within limits walk →
    (∀ name ∈ path, name.value ≠ "") →
    ((scanOf contents).visit tables limits (textOf path) depth walk = .ok result ↔
      Within limits (after walk (visited tables contents) (archived tables contents path)) ∧
        Shallow path depth (archived tables contents path) ∧
        result = after walk (visited tables contents) (archived tables contents path))

theorem forall_append_singleton (hpath : ∀ name ∈ path, name.value ≠ "") (hname : name.value ≠ "") :
    ∀ other ∈ path ++ [name], other.value ≠ "" := by
  intro other hother
  rcases List.mem_append.mp hother with hmem | hmem
  · exact hpath other hmem
  · rw [List.mem_singleton.mp hmem]
    exact hname

/-- Adding a child whose visit is exact. -/
theorem add_eq_ok (hwithin : Within limits walk) (hpath : ∀ name ∈ path, name.value ≠ "")
    (hname : pair.1.name.value ≠ "") (hfile : pair.1.kind = .file → pair.2 = .empty)
    (hvisit : VisitExact tables limits pair.2) :
    walk.add limits (textOf path) depth true (childOf tables limits pair) = .ok result ↔
      Within limits (after walk (visited tables pair.2) (contribution tables path pair)) ∧
        Shallow path depth (archived tables pair.2 (path ++ [pair.1.name])) ∧
        result = after walk (visited tables pair.2) (contribution tables path pair) := by
  obtain ⟨hscanned, hbytes, hnames, hbytesMax, hnamesMax⟩ := hwithin
  unfold ArchiveWalk.add
  dsimp only [childOf]
  rw [childPath_eq hpath, utf8ByteSize_textOf, ite_error_eq_ok, Nat.not_lt]
  cases hkind : pair.1.kind with
  | file =>
    have hnone : archived tables pair.2 (path ++ [pair.1.name]) = [] := by
      rw [hfile hkind]
      rfl
    have hzero : visited tables pair.2 = 0 := by
      rw [hfile hkind]
      rfl
    have hafter : after walk (visited tables pair.2) (contribution tables path pair) =
        ⟨walk.items ++ [⟨textOf (path ++ [pair.1.name]), .file, pair.1.size, pair.1.modified⟩], walk.scanned,
          min (walk.bytes + pair.1.size) u64Max,
          min (walk.nameBytes + pathBytes ⟨path ++ [pair.1.name]⟩) u64Max⟩ := by
      rw [contribution, hnone, hzero]
      simp [after, totalBytes, totalNameBytes, itemOf, hkind, textOf]
    rw [hafter, hnone]
    dsimp only
    rw [ite_error_eq_ok, Nat.not_lt]
    constructor
    · rintro ⟨hlength, hsize, h⟩
      exact ⟨⟨hscanned, hsize, hlength, min_le_right _ _, min_le_right _ _⟩, nofun, (Except.ok.inj h).symm⟩
    · rintro ⟨hfits, -, rfl⟩
      exact ⟨hfits.nameBytes_le, hfits.bytes_le, rfl⟩
  | directory =>
    have hafter : ({ walk with
        nameBytes := min (walk.nameBytes + pathBytes ⟨path ++ [pair.1.name]⟩) u64Max
        items := walk.items ++ [⟨textOf (path ++ [pair.1.name]), .directory, pair.1.size, pair.1.modified⟩] } :
        ArchiveWalk) = after walk 0 [(path ++ [pair.1.name], pair.1)] := by
      simp [after, totalBytes, totalNameBytes, itemOf, hkind, textOf, min_eq_left hbytesMax]
    have hsplit : after walk (visited tables pair.2) (contribution tables path pair) =
        after (after walk 0 [(path ++ [pair.1.name], pair.1)]) (visited tables pair.2)
          (archived tables pair.2 (path ++ [pair.1.name])) := by
      rw [after_after, Nat.zero_add]
      rfl
    have hshallow : Shallow (path ++ [pair.1.name]) (depth + 1)
        (archived tables pair.2 (path ++ [pair.1.name])) ↔
        Shallow path depth (archived tables pair.2 (path ++ [pair.1.name])) := by
      unfold Shallow
      rw [List.length_append, List.length_singleton]
      exact forall₂_congr fun a _ => by omega
    dsimp only
    rw [if_pos rfl, hafter, hsplit]
    dsimp only
    constructor
    · rintro ⟨hlength, h⟩
      have hwithin' : Within limits (after walk 0 [(path ++ [pair.1.name], pair.1)]) := by
        rw [← hafter]
        exact ⟨hscanned, hbytes, hlength, hbytesMax, min_le_right _ _⟩
      obtain ⟨hfits, hdeep, rfl⟩ := (hvisit _ _ _ _ hwithin' (forall_append_singleton hpath hname)).mp h
      exact ⟨hfits, hshallow.mp hdeep, rfl⟩
    · rintro ⟨hfits, hdeep, rfl⟩
      have hwithin' : Within limits (after walk 0 [(path ++ [pair.1.name], pair.1)]) := by
        rw [after_after] at hfits
        exact hfits.of_after
      refine ⟨?_, (hvisit _ _ _ _ hwithin' (forall_append_singleton hpath hname)).mpr
        ⟨hfits, hshallow.mpr hdeep, rfl⟩⟩
      have hlength := hwithin'.nameBytes_le
      rw [← hafter] at hlength
      exact hlength

/-- Adding the children of a directory in turn. -/
theorem foldlM_add_eq_ok {pairs : List (DirectoryEntry × Contents)} (hwithin : Within limits walk)
    (hpath : ∀ name ∈ path, name.value ≠ "")
    (hpairs : ∀ pair ∈ pairs, pair.1.name.value ≠ "" ∧ (pair.1.kind = .file → pair.2 = .empty) ∧
      VisitExact tables limits pair.2) :
    (pairs.map (childOf tables limits)).foldlM (ArchiveWalk.add limits (textOf path) depth true) walk =
        .ok result ↔
      Within limits (after walk ((pairs.map fun pair => visited tables pair.2).sum)
        (pairs.flatMap (contribution tables path))) ∧
        (∀ pair ∈ pairs, Shallow path depth (archived tables pair.2 (path ++ [pair.1.name]))) ∧
        result = after walk ((pairs.map fun pair => visited tables pair.2).sum)
          (pairs.flatMap (contribution tables path)) := by
  induction pairs generalizing walk with
  | nil =>
    rw [List.map_nil, List.foldlM_nil, List.map_nil, List.sum_nil, List.flatMap_nil, after_nil hwithin]
    exact ⟨fun h => ⟨hwithin, nofun, (Except.ok.inj h).symm⟩, fun h => h.2.2 ▸ rfl⟩
  | cons pair rest ih =>
    obtain ⟨⟨hname, hfile, hvisit⟩, hrest⟩ := List.forall_mem_cons.mp hpairs
    rw [List.map_cons, List.foldlM_cons, bind_eq_ok, List.map_cons, List.sum_cons, List.flatMap_cons,
      ← after_after, List.forall_mem_cons]
    constructor
    · rintro ⟨next, hnext, h⟩
      obtain ⟨hfits, hdeep, rfl⟩ := (add_eq_ok hwithin hpath hname hfile hvisit).mp hnext
      obtain ⟨hall, hdeeper, rfl⟩ := (ih hfits hrest).mp h
      exact ⟨hall, ⟨hdeep, hdeeper⟩, rfl⟩
    · rintro ⟨hfits, ⟨hdeep, hdeeper⟩, rfl⟩
      have hfirst : Within limits (after walk (visited tables pair.2) (contribution tables path pair)) := by
        rw [after_after] at hfits
        exact hfits.of_after
      exact ⟨_, (add_eq_ok hwithin hpath hname hfile hvisit).mpr ⟨hfirst, hdeep, rfl⟩,
        (ih hfirst hrest).mpr ⟨hfits, hdeeper, rfl⟩⟩

/-- Everything beneath a folder is shallow where its entries and what lies in them are. -/
theorem shallow_archived : Shallow path depth (archived tables contents path) ↔
    (sorted tables contents ≠ [] → depth < maxPathDepth) ∧
      ∀ pair ∈ sorted tables contents, Shallow path depth (archived tables pair.2 (path ++ [pair.1.name])) := by
  rw [archived_eq]
  unfold Shallow
  constructor
  · intro h
    refine ⟨fun hsome => ?_, fun pair hpair a ha =>
      h a (List.mem_flatMap.mpr ⟨pair, hpair, List.mem_cons_of_mem _ ha⟩)⟩
    obtain ⟨pair, hpair⟩ := List.exists_mem_of_ne_nil _ hsome
    have hfirst := h _ (List.mem_flatMap.mpr ⟨pair, hpair, List.mem_cons_self⟩)
    rw [List.length_append, List.length_singleton] at hfirst
    omega
  · rintro ⟨hsome, hinside⟩ a ha
    obtain ⟨pair, hpair, ha⟩ := List.mem_flatMap.mp ha
    rcases List.mem_cons.mp ha with rfl | ha
    · have hdepth := hsome (List.ne_nil_of_mem hpair)
      rw [List.length_append, List.length_singleton]
      omega
    · exact hinside pair hpair a ha

/-- A visit succeeds if and only if what it scans and finds is within the limits. -/
theorem visitExact (contents : Contents) : VisitExact tables limits contents := by
  induction hcount : contents.count using Nat.strong_induction_on generalizing contents with
  | _ count ih =>
    subst hcount
    intro walk result path depth hwithin hpath
    have hpairs : ∀ pair ∈ sorted tables contents, pair.1.name.value ≠ "" ∧
        (pair.1.kind = .file → pair.2 = .empty) ∧ VisitExact tables limits pair.2 := by
      intro pair hpair
      obtain ⟨hlt, hname, hfile⟩ := of_mem_supported (mem_sorted.mp hpair)
      exact ⟨hname, hfile, ih _ hlt _ rfl⟩
    have hmap : ((supported tables contents).map (childOf tables limits)).insertionSort
        (fun left right => nameOrder left.entry right.entry) =
          (sorted tables contents).map (childOf tables limits) :=
      (List.map_insertionSort (fun left right => nameOrder left.1 right.1)
        (fun left right => nameOrder left.entry right.entry) (childOf tables limits) _
        fun _ _ _ _ => Iff.rfl).symm
    have hempty : (!((supported tables contents).map (childOf tables limits)).isEmpty) = true ↔
        sorted tables contents ≠ [] := by
      have hnil : sorted tables contents = [] ↔ supported tables contents = [] := by
        rw [← List.length_eq_zero_iff, sorted, List.length_insertionSort, List.length_eq_zero_iff]
      rw [Bool.not_eq_true', Bool.eq_false_iff, Ne, List.isEmpty_iff, List.map_eq_nil_iff]
      exact not_congr hnil.symm
    have hafter : ∀ (scanned : ℕ) (found : List Found),
        after { walk with scanned := walk.scanned + breadth contents } scanned found =
          after walk (breadth contents + scanned) found := by
      intro scanned found
      simp [after, Nat.add_assoc]
    rw [Scan.visit, ArchiveWalk.visit, bind_eq_ok, shallow_archived, visited_eq, archived_eq]
    constructor
    · rintro ⟨found, hfound, h⟩
      obtain ⟨hroom, rfl⟩ := (children_eq_ok hwithin.scanned_le).mp hfound
      dsimp only at h
      obtain ⟨hdepth, h⟩ := ite_error_eq_ok.mp h
      rw [hempty] at hdepth
      rw [hmap] at h
      have hnext : Within limits { walk with scanned := walk.scanned + breadth contents } :=
        { hwithin with scanned_le := hroom }
      obtain ⟨hfits, hdeep, rfl⟩ := (foldlM_add_eq_ok hnext hpath hpairs).mp h
      rw [hafter] at hfits ⊢
      exact ⟨hfits, ⟨fun hsome => not_le.mp fun hle => hdepth ⟨hsome, hle⟩, hdeep⟩, rfl⟩
    · rintro ⟨hfits, ⟨hdepth, hdeep⟩, rfl⟩
      have hroom : walk.scanned + breadth contents ≤ limits.maxEntries := by
        have hscanned := hfits.scanned_le
        simp only [after] at hscanned
        omega
      have hnext : Within limits { walk with scanned := walk.scanned + breadth contents } :=
        { hwithin with scanned_le := hroom }
      refine ⟨_, (children_eq_ok hwithin.scanned_le).mpr ⟨hroom, rfl⟩, ite_error_eq_ok.mpr ⟨?_, ?_⟩⟩
      · rintro ⟨hsome, hle⟩
        exact absurd (hdepth (hempty.mp hsome)) (not_lt.mpr hle)
      · rw [hmap]
        exact (foldlM_add_eq_ok hnext hpath hpairs).mpr ⟨by rwa [hafter], hdeep, by rw [hafter]; rfl⟩

end ArchiveTree

end Crabinet.Browse
