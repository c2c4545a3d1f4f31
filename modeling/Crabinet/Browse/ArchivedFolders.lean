import Crabinet.Browse.ArchiveWalkRuns
import Mathlib.Data.List.Lex

/-!
# What an archive of a folder holds

A folder that does not change, with different names in each of its directories, is archived as exactly
what is supported beneath it, in the order of the paths, or not at all.
-/

namespace Crabinet.Browse

open Crabinet.Filesystem Crabinet.Library

namespace ArchiveTree

/-- The contents of an entry. -/
def insideOf : Entry → Contents
  | .leaf _ _ => .empty
  | .directory _ inside => inside

/-- Each directory has different names. -/
def Distinct : Contents → Prop
  | .empty => True
  | .leaf name _ _ rest => rest.get? name = none ∧ Distinct rest
  | .directory name _ inside rest => rest.get? name = none ∧ Distinct inside ∧ Distinct rest

/-- The supported entry that a path leads to, through supported directories. -/
def offered (tables : UnicodeTables) : Contents → List EntryName → Option DirectoryEntry
  | _, [] => none
  | contents, name :: rest => do
    let entry ← contents.get? name
    let child ← entryOf tables name entry
    if rest = [] then return child else offered tables (insideOf entry) rest

/-- The order of paths: by the first name that differs, a directory before what lies in it. -/
def PathBefore (left right : List EntryName) : Prop := List.Lex (fun a b => a.value < b.value) left right

variable {tables : UnicodeTables} {limits : ArchiveLimits} {contents : Contents} {path : List EntryName}
  {pair : DirectoryEntry × Contents} {name : EntryName} {entry : Entry} {child : DirectoryEntry}

/-- A pair is made of an entry of a directory. -/
def MadeOf (tables : UnicodeTables) (pair : DirectoryEntry × Contents) (found : Option Entry) : Prop :=
  ∃ entry, found = some entry ∧ entryOf tables pair.1.name entry = some pair.1 ∧ pair.2 = insideOf entry

theorem mem_entry_append {others : List (DirectoryEntry × Contents)} {found : EntryName → Option Entry}
    (hnone : found name = none) (hothers : pair ∈ others ↔ MadeOf tables pair (found pair.1.name)) :
    pair ∈ ((entryOf tables name entry).map fun child => (child, insideOf entry)).toList ++ others ↔
      MadeOf tables pair (if name = pair.1.name then some entry else found pair.1.name) := by
  have hfirst : pair ∈ ((entryOf tables name entry).map fun child => (child, insideOf entry)).toList ↔
      name = pair.1.name ∧ MadeOf tables pair (some entry) := by
    rw [Option.mem_toList, Option.map_eq_some_iff]
    constructor
    · rintro ⟨child, hchild, rfl⟩
      have hname := (entryOf_eq_some hchild).1
      exact ⟨hname.symm, entry, rfl, hname ▸ hchild, rfl⟩
    · rintro ⟨rfl, other, hother, hchild, hinside⟩
      obtain rfl := Option.some.inj hother
      exact ⟨pair.1, hchild, Prod.ext rfl hinside.symm⟩
  rw [List.mem_append, hfirst, hothers]
  by_cases hname : name = pair.1.name
  · rw [if_pos hname, ← hname, hnone]
    refine ⟨?_, fun h => .inl ⟨rfl, h⟩⟩
    rintro (⟨-, h⟩ | ⟨other, hother, -⟩)
    · exact h
    · cases hother
  · rw [if_neg hname]
    exact ⟨fun h => h.resolve_left fun h => hname h.1, .inr⟩

/-- The supported entries are those of the names of the directory. -/
theorem mem_supported (hdistinct : Distinct contents) :
    pair ∈ supported tables contents ↔ MadeOf tables pair (contents.get? pair.1.name) := by
  induction contents with
  | empty => exact ⟨nofun, fun ⟨_, h, _⟩ => nomatch h⟩
  | leaf name type stat rest ih => exact mem_entry_append hdistinct.1 (ih hdistinct.2)
  | directory name stat inside rest _ ih => exact mem_entry_append hdistinct.1 (ih hdistinct.2.2)

/-- The names of the supported entries are different. -/
theorem pairwise_supported (hdistinct : Distinct contents) :
    (supported tables contents).Pairwise fun left right => left.1.name ≠ right.1.name := by
  have hcons : ∀ {name : EntryName} {entry : Entry} {rest : Contents}, rest.get? name = none →
      Distinct rest → ((supported tables rest).Pairwise fun left right => left.1.name ≠ right.1.name) →
        (((entryOf tables name entry).map fun child => (child, insideOf entry)).toList ++
          supported tables rest).Pairwise fun left right => left.1.name ≠ right.1.name := by
    intro name entry rest hnone hrest ih
    cases hchild : entryOf tables name entry with
    | none => exact ih
    | some child =>
      refine List.pairwise_cons.mpr ⟨fun pair hpair hname => ?_, ih⟩
      obtain ⟨other, hother, -⟩ := (mem_supported hrest).mp hpair
      rw [← hname, (entryOf_eq_some hchild).1, hnone] at hother
      cases hother
  induction contents with
  | empty => exact .nil
  | leaf name type stat rest ih => exact hcons hdistinct.1 hdistinct.2 (ih hdistinct.2)
  | directory name stat inside rest _ ih => exact hcons hdistinct.1 hdistinct.2.2 (ih hdistinct.2.2)

/-- The order of different names is strict. -/
theorem value_lt {left right : EntryName} (hle : left.value ≤ right.value) (hne : left ≠ right) :
    left.value < right.value :=
  String.not_le.mp fun hge => hne (congrArg EntryName.mk (String.le_antisymm hle hge))

/-- In the order of names, each supported entry has a greater name than those before it. -/
theorem pairwise_sorted (hdistinct : Distinct contents) :
    (sorted tables contents).Pairwise fun left right => left.1.name.value < right.1.name.value := by
  have hle : (sorted tables contents).Pairwise fun left right => nameOrder left.1 right.1 := by
    have htotal : Std.Total fun left right : DirectoryEntry × Contents => nameOrder left.1 right.1 :=
      ⟨fun left right => String.le_total _ _⟩
    have htrans : IsTrans (DirectoryEntry × Contents) fun left right => nameOrder left.1 right.1 :=
      ⟨fun _ _ _ h h' => String.le_trans h h'⟩
    exact List.pairwise_insertionSort _ _
  have hne : (sorted tables contents).Pairwise fun left right => left.1.name ≠ right.1.name :=
    (List.perm_insertionSort _ _).symm.pairwise (pairwise_supported hdistinct) fun h => h.symm
  exact (hle.and hne).imp fun h => value_lt h.1 h.2

/-- A directory of different names has different names in its directories. -/
theorem distinct_of_mem_supported (hdistinct : Distinct contents) (h : pair ∈ supported tables contents) :
    Distinct pair.2 := by
  induction contents with
  | empty => cases h
  | leaf name type stat rest ih =>
    rcases List.mem_append.mp h with hfirst | hrest
    · obtain ⟨child, -, rfl⟩ := Option.map_eq_some_iff.mp (Option.mem_toList.mp hfirst)
      trivial
    · exact ih hdistinct.2 hrest
  | directory name stat inside rest _ ih =>
    rcases List.mem_append.mp h with hfirst | hrest
    · obtain ⟨child, -, rfl⟩ := Option.map_eq_some_iff.mp (Option.mem_toList.mp hfirst)
      exact hdistinct.2.1
    · exact ih hdistinct.2.2 hrest

/-- Everything that an archive holds is offered, and everything offered is in it. -/
theorem mem_archived {found : Found} (hdistinct : Distinct contents) :
    found ∈ archived tables contents path ↔
      ∃ rest, found.1 = path ++ rest ∧ offered tables contents rest = some found.2 := by
  induction hcount : contents.count using Nat.strong_induction_on generalizing contents path with
  | _ count ih =>
    subst hcount
    rw [archived_eq, List.mem_flatMap]
    constructor
    · rintro ⟨pair, hpair, hfound⟩
      have hmem := mem_sorted.mp hpair
      obtain ⟨entry, hentry, hchild, hinside⟩ := (mem_supported hdistinct).mp hmem
      rcases List.mem_cons.mp hfound with rfl | hfound
      · refine ⟨[pair.1.name], rfl, ?_⟩
        simp [offered, hentry, hchild]
      · obtain ⟨rest, hrest, hoffered⟩ := (ih _ (of_mem_supported hmem).1
          (distinct_of_mem_supported hdistinct hmem) rfl).mp hfound
        refine ⟨pair.1.name :: rest, by rw [hrest, List.append_assoc]; rfl, ?_⟩
        have hnonempty : rest ≠ [] := by
          rintro rfl
          cases hoffered
        simp [offered, hentry, hchild, hnonempty, ← hinside, hoffered]
    · rintro ⟨rest, hrest, hoffered⟩
      cases rest with
      | nil => cases hoffered
      | cons name rest =>
        rw [offered] at hoffered
        obtain ⟨entry, hentry, hoffered⟩ := Option.bind_eq_some_iff.mp hoffered
        obtain ⟨child, hchild, hoffered⟩ := Option.bind_eq_some_iff.mp hoffered
        have hname := (entryOf_eq_some hchild).1
        have hmem : (child, insideOf entry) ∈ supported tables contents :=
          (mem_supported hdistinct).mpr ⟨entry, by rwa [hname], by rwa [hname], rfl⟩
        refine ⟨_, mem_sorted.mpr hmem, ?_⟩
        split at hoffered
        · rename_i hnil
          obtain rfl := Option.some.inj hoffered
          exact List.mem_cons.mpr (.inl (Prod.ext (by rw [hrest, hnil, hname]) rfl))
        · refine List.mem_cons_of_mem _ ((ih _ (of_mem_supported hmem).1
            (distinct_of_mem_supported hdistinct hmem) rfl).mpr ⟨rest, ?_, hoffered⟩)
          rw [hrest, hname, List.append_assoc]
          rfl

/-- The path of what an entry contributes begins with its name. -/
theorem prefix_of_mem_contribution {found : Found} (hdistinct : Distinct pair.2)
    (h : found ∈ contribution tables path pair) : ∃ rest, found.1 = path ++ pair.1.name :: rest := by
  rcases List.mem_cons.mp h with rfl | h
  · exact ⟨[], rfl⟩
  · obtain ⟨rest, hrest, -⟩ := (mem_archived hdistinct).mp h
    exact ⟨rest, by rw [hrest, List.append_assoc]; rfl⟩

/-- What entries contribute in the order of their names is in the order of the paths. -/
theorem pairwise_flatMap_contribution {pairs : List (DirectoryEntry × Contents)}
    (hnames : pairs.Pairwise fun left right => left.1.name.value < right.1.name.value)
    (hinside : ∀ pair ∈ pairs, Distinct pair.2 ∧
      (archived tables pair.2 (path ++ [pair.1.name])).Pairwise fun left right => PathBefore left.1 right.1) :
    (pairs.flatMap (contribution tables path)).Pairwise fun left right => PathBefore left.1 right.1 := by
  rw [List.pairwise_flatMap]
  refine ⟨fun pair hpair => List.pairwise_cons.mpr ⟨fun found hfound => ?_, (hinside pair hpair).2⟩, ?_⟩
  · obtain ⟨rest, hrest, hoffered⟩ := (mem_archived (hinside pair hpair).1).mp hfound
    rw [hrest]
    cases rest with
    | nil => cases hoffered
    | cons name rest =>
      have hnil : List.Lex (fun a b : EntryName => a.value < b.value) [] (name :: rest) := .nil
      have hbefore := List.Lex.append_left _ hnil (path ++ [pair.1.name])
      rwa [List.append_nil] at hbefore
  · refine hnames.imp_of_mem fun {left right} hleft hright hlt first hfirst second hsecond => ?_
    obtain ⟨rest, hrest⟩ := prefix_of_mem_contribution (hinside left hleft).1 hfirst
    obtain ⟨rest', hrest'⟩ := prefix_of_mem_contribution (hinside right hright).1 hsecond
    rw [hrest, hrest']
    exact List.Lex.append_left (fun a b : EntryName => a.value < b.value) (.rel hlt) path

/-- An archive holds its entries in the order of their paths. -/
theorem pairwise_archived (hdistinct : Distinct contents) :
    (archived tables contents path).Pairwise fun left right => PathBefore left.1 right.1 := by
  induction hcount : contents.count using Nat.strong_induction_on generalizing contents path with
  | _ count ih =>
    subst hcount
    rw [archived_eq]
    refine pairwise_flatMap_contribution (pairwise_sorted hdistinct) fun pair hpair => ?_
    have hmem := mem_sorted.mp hpair
    have hinside := distinct_of_mem_supported hdistinct hmem
    exact ⟨hinside, ih _ (of_mem_supported hmem).1 hinside rfl⟩

theorem PathBefore.asymm {left right : List EntryName} (h : PathBefore left right) : ¬PathBefore right left := by
  have hvalue : Std.Asymm fun a b : EntryName => a.value < b.value :=
    ⟨fun _ _ h h' => String.lt_irrefl _ (String.lt_trans h h')⟩
  exact fun h' => (List.Lex.asymm fun a b : EntryName => a.value < b.value).asymm _ _ h h'

/-- A list in the order of the paths has different paths. -/
theorem nodup_of_pairwise {listed : List Found}
    (h : listed.Pairwise fun left right => PathBefore left.1 right.1) : listed.Nodup :=
  h.imp fun {left right} hbefore heq => by
    subst heq
    exact hbefore.asymm hbefore

/-- What is offered has one list in the order of the paths. -/
theorem eq_of_pairwise {listed other : List Found} (hmem : ∀ found, found ∈ listed ↔ found ∈ other)
    (hlisted : listed.Pairwise fun left right => PathBefore left.1 right.1)
    (hother : other.Pairwise fun left right => PathBefore left.1 right.1) : listed = other :=
  ((List.perm_ext_iff_of_nodup (nodup_of_pairwise hlisted) (nodup_of_pairwise hother)).mpr hmem).eq_of_pairwise
    (fun _ _ _ _ h h' => absurd h' h.asymm) hlisted hother

/-- An archive of a folder holds what the folder offers. -/
theorem mem_archived_nil (hdistinct : Distinct contents) (found : Found) :
    found ∈ archived tables contents [] ↔ offered tables contents found.1 = some found.2 := by
  rw [mem_archived hdistinct]
  constructor
  · rintro ⟨rest, hpath, h⟩
    rwa [hpath]
  · exact fun h => ⟨found.1, rfl, h⟩

/-- A walk from its beginning is within its limits where its totals are. -/
theorem within_after_new {scanned : ℕ} {found : List Found} : Within limits (after .new scanned found) ↔
    scanned ≤ limits.maxEntries ∧ min (totalBytes found) u64Max ≤ limits.maxBytes ∧
      min (totalNameBytes found) u64Max ≤ limits.maxNameBytes := by
  have hafter : after .new scanned found = ⟨found.map itemOf, scanned, min (totalBytes found) u64Max,
      min (totalNameBytes found) u64Max⟩ := by
    simp [after, ArchiveWalk.new]
  rw [hafter]
  exact ⟨fun h => ⟨h.scanned_le, h.bytes_le, h.nameBytes_le⟩, fun h =>
    ⟨h.1, h.2.1, h.2.2, min_le_right _ _, min_le_right _ _⟩⟩

/-- A folder archive lists exactly what is supported beneath the folder, in the order of the paths, and
succeeds if and only if the scanned entries, the sizes, the names and the depths are within their limits. -/
theorem archive_items_exact (hdistinct : Distinct contents) {items : List ArchiveItem} {depth : ℕ} :
    archiveItems tables limits (scanOf contents) depth = .ok items ↔
      ∃ listed : List Found,
        (∀ found, found ∈ listed ↔ offered tables contents found.1 = some found.2) ∧
        (listed.Pairwise fun left right => PathBefore left.1 right.1) ∧
        visited tables contents ≤ limits.maxEntries ∧
        min (totalBytes listed) u64Max ≤ limits.maxBytes ∧
        min (totalNameBytes listed) u64Max ≤ limits.maxNameBytes ∧
        (∀ found ∈ listed, depth + found.1.length ≤ maxPathDepth) ∧
        items = listed.map itemOf := by
  have hvisit : ∀ result, (scanOf contents).visit tables limits "" depth .new = .ok result ↔ _ :=
    fun result => visitExact contents .new result [] depth
      ⟨Nat.zero_le _, Nat.zero_le _, Nat.zero_le _, Nat.zero_le _, Nat.zero_le _⟩ nofun
  have hmem : ∀ found, found ∈ archived tables contents [] ↔ _ := mem_archived_nil hdistinct
  have hpairwise : (archived tables contents []).Pairwise _ := pairwise_archived hdistinct
  have hshallow : Shallow [] depth (archived tables contents []) ↔
      ∀ found ∈ archived tables contents [], depth + found.1.length ≤ maxPathDepth := by
    unfold Shallow
    exact forall₂_congr fun found _ => by rw [Nat.add_comm depth, List.length_nil, Nat.add_zero]
  rw [archiveItems, bind_eq_ok]
  constructor
  · rintro ⟨result, hresult, h⟩
    obtain ⟨hfits, hdeep, rfl⟩ := (hvisit result).mp hresult
    obtain rfl := Except.ok.inj h
    obtain ⟨hscanned, hbytes, hnames⟩ := within_after_new.mp hfits
    exact ⟨_, hmem, hpairwise, hscanned, hbytes, hnames, hshallow.mp hdeep, rfl⟩
  · rintro ⟨listed, hlisted, hordered, hscanned, hbytes, hnames, hdeep, rfl⟩
    obtain rfl : listed = archived tables contents [] :=
      eq_of_pairwise (fun found => (hlisted found).trans (hmem found).symm) hordered hpairwise
    exact ⟨_, (hvisit _).mpr ⟨within_after_new.mpr ⟨hscanned, hbytes, hnames⟩, hshallow.mpr hdeep, rfl⟩, rfl⟩

/-- A directory with a file and a link. -/
def smallFolder : Contents :=
  .leaf ⟨"l"⟩ .other ⟨0, none, 9, 1⟩ (.directory ⟨"d"⟩ ⟨0, none, 3, 2⟩ (.leaf ⟨"f"⟩ .file ⟨5, none, 7, 1⟩ .empty)
    .empty)

theorem archive_items_exact_smallFolder : ∃ listed : List Found,
    (∀ found, found ∈ listed ↔ offered BrowseState.asciiTables smallFolder found.1 = some found.2) ∧
      listed.map itemOf = [⟨"d", .directory, 0, none⟩, ⟨"d/f", .file, 5, none⟩] := by
  have hdistinct : Distinct smallFolder := ⟨rfl, rfl, ⟨rfl, trivial⟩, trivial⟩
  have hitems : archiveItems BrowseState.asciiTables ⟨10, 10, 10⟩ (scanOf smallFolder) 0 =
      .ok [⟨"d", .directory, 0, none⟩, ⟨"d/f", .file, 5, none⟩] := by
    rfl
  obtain ⟨listed, hlisted, -, -, -, -, -, hmap⟩ := (archive_items_exact hdistinct).mp hitems
  exact ⟨listed, hlisted, hmap.symm⟩

end ArchiveTree

end Crabinet.Browse
