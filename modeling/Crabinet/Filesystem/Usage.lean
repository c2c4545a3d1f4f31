import Crabinet.Filesystem.PathGrammar
import Crabinet.Filesystem.Walks
import Mathlib.Algebra.Group.Nat.Defs
import Mathlib.Algebra.Group.Prod
import Mathlib.Tactic.Abel

/-!
# What a measurement counts

The entries that a measurement of a directory visits and the bytes that it charges, apart from
its limits. A change in one directory changes the tally of the whole tree by as much as that of
the directory.
-/

namespace Crabinet.Filesystem

open Crabinet.Library

/-- A name of a path is none of the service's own. -/
theorem isOwnInternalName_of_accepts {tables : UnicodeTables} {value : String}
    (h : EntryName.accepts tables value = true) : isOwnInternalName value = false := by
  have hreserved := (accepts_iff.mp h).reserved
  unfold isReservedName at hreserved
  rw [Bool.or_eq_false_iff, Bool.or_eq_false_iff] at hreserved
  obtain ⟨⟨hdirectory, hlegacy⟩, htemporary⟩ := hreserved
  rw [Bool.eq_false_iff] at hdirectory hlegacy htemporary ⊢
  intro hown
  unfold isOwnInternalName at hown
  rw [Bool.or_eq_true, Bool.or_eq_true, beq_iff_eq, beq_iff_eq] at hown
  rcases hown with (rfl | rfl) | hown
  · exact hdirectory (by decide +kernel)
  · exact hlegacy (by decide +kernel)
  · unfold isInternalTempName at hown
    split at hown
    case h_1 suffix hdrop =>
      obtain ⟨front, hjoin, hfront⟩ := List.dropPrefix?_eq_some_iff.mp hdrop
      obtain rfl := beq_iff_eq.mp hfront
      have hlower : ".index-tmp-".toList.map Char.toLower = ".index-tmp-".toList := by
        decide +kernel
      refine htemporary (List.isPrefixOf_iff_prefix.mpr ?_)
      rw [asciiLower, hjoin, List.map_append, hlower]
      exact List.prefix_append _ _
    case h_2 => cases hown

/-- The bytes that a measurement charges for an entry that is no directory. -/
def LeafType.charge (stat : Stat) : LeafType → ℕ
  | .file => stat.size
  | .other => 0

namespace Contents

/-- The entries that a measurement visits and the bytes that it charges. -/
def tally : Contents → ℕ × ℕ
  | empty => 0
  | leaf name type stat rest =>
    (1, 0) + ((if isOwnInternalName name.value then 0 else (0, type.charge stat)) + rest.tally)
  | directory name _ inside rest =>
    (1, 0) + ((if isOwnInternalName name.value then 0 else (0, directoryQuotaBytes) + inside.tally) +
      rest.tally)

/-- No entry that a measurement charges, or looks into, lies at the depth limit. -/
def Shallow : Contents → ℕ → Prop
  | empty, _ => True
  | leaf name _ _ rest, depth =>
    (isOwnInternalName name.value = false → depth < maxPathDepth) ∧ rest.Shallow depth
  | directory name _ inside rest, depth =>
    (isOwnInternalName name.value = false → depth < maxPathDepth ∧ inside.Shallow (depth + 1)) ∧
      rest.Shallow depth

end Contents

namespace Entry

/-- The entries and the bytes of an entry under a name that is not internal. -/
def tally : Entry → ℕ × ℕ
  | leaf type stat => (1, 0) + (0, type.charge stat)
  | directory _ inside => (1, 0) + ((0, directoryQuotaBytes) + inside.tally)

end Entry

/-- Only a regular file has the metadata of one. -/
theorem Entry.of_metadata_file {entry : Entry} {metadata : EntryMetadata}
    (h : entry.metadata = .ok metadata) (hkind : metadata.kind = .file) :
    ∃ stat, entry = .leaf .file stat ∧ stat.size = metadata.size := by
  cases entry with
  | leaf type stat =>
    cases type with
    | file =>
      rw [Entry.metadata] at h
      split at h
      · obtain rfl := Except.ok.inj h
        exact ⟨stat, rfl, rfl⟩
      · cases h
    | other => cases h
  | directory stat inside =>
    obtain rfl := Except.ok.inj h
    cases hkind

namespace UsageScan

/-- The scan may visit so many entries more, and its limits are numbers of 64 bits. -/
structure Fits (scan : UsageScan) (entries : ℕ) : Prop where
  entries_le : scan.entries + entries ≤ scan.maxEntries
  maxEntries_le : scan.maxEntries ≤ u64Max
  bytes_le : scan.bytes ≤ scan.maxBytes
  maxBytes_le : scan.maxBytes ≤ u64Max

/-- The scan after some entries and bytes, which may be too many bytes. -/
def advance (scan : UsageScan) (tally : ℕ × ℕ) : Except UsageError UsageScan :=
  if scan.bytes + tally.2 ≤ scan.maxBytes then
    .ok { scan with entries := scan.entries + tally.1, bytes := scan.bytes + tally.2 }
  else .error .limitExceeded

theorem advance_zero {scan : UsageScan} {entries : ℕ} (h : scan.Fits entries) :
    scan.advance 0 = .ok scan := if_pos h.bytes_le

theorem visit_eq {scan : UsageScan} {entries : ℕ} (h : scan.Fits (1 + entries)) :
    scan.visit = scan.advance (1, 0) := by
  have hentries := h.entries_le
  have hmax := h.maxEntries_le
  rw [visit, if_neg (by omega), if_neg (by omega)]
  exact (if_pos h.bytes_le).symm

theorem charge_eq {scan : UsageScan} {entries : ℕ} (h : scan.Fits entries) (bytes : ℕ) :
    scan.charge bytes = scan.advance (0, bytes) := by
  have hmax := h.maxBytes_le
  rw [charge, advance]
  by_cases hfits : scan.bytes + bytes ≤ scan.maxBytes
  · rw [if_neg (by omega), if_neg (by omega), if_pos hfits]
    rfl
  · rw [if_neg hfits, if_pos (Nat.lt_of_not_le hfits), ite_self]

/-- Two measurements one after the other. -/
theorem advance_bind {scan : UsageScan} {first second : ℕ × ℕ} (h : scan.Fits (first + second).1)
    {next : UsageScan → Except UsageError UsageScan}
    (hnext : ∀ middle : UsageScan, middle.Fits second.1 → next middle = middle.advance second) :
    (scan.advance first >>= next) = scan.advance (first + second) := by
  have hentries := h.entries_le
  have hmax := h.maxBytes_le
  rw [Prod.fst_add] at hentries
  unfold advance
  by_cases hfits : scan.bytes + first.2 ≤ scan.maxBytes
  · have hmiddle : UsageScan.Fits ⟨scan.entries + first.1, scan.maxEntries, scan.bytes + first.2,
        scan.maxBytes⟩ second.1 := ⟨by dsimp only; omega, h.maxEntries_le, hfits, hmax⟩
    rw [if_pos hfits, ok_bind, hnext _ hmiddle, advance]
    simp only [Prod.fst_add, Prod.snd_add, Nat.add_assoc]
  · rw [if_neg hfits, error_bind, if_neg]
    rw [Prod.snd_add]
    omega

end UsageScan

namespace Contents

/-- A measurement visits and charges what there is, unless that is too much. -/
theorem measureDirectory_eq {contents : Contents} {depth : ℕ} (hshallow : contents.Shallow depth)
    {scan : UsageScan} (h : scan.Fits contents.tally.1) :
    contents.measureDirectory scan depth = scan.advance contents.tally := by
  induction contents generalizing depth scan with
  | empty => exact (UsageScan.advance_zero h).symm
  | leaf name type stat rest ih =>
    obtain ⟨hdepth, hrest⟩ := hshallow
    rw [measureDirectory, UsageScan.visit_eq h, tally]
    refine UsageScan.advance_bind h fun middle hmiddle => ?_
    by_cases hinternal : isOwnInternalName name.value = true
    · rw [if_pos hinternal, zero_add] at hmiddle
      rw [if_pos hinternal, if_pos hinternal, zero_add]
      exact ih hrest hmiddle
    · rw [if_neg hinternal] at hmiddle
      rw [if_neg hinternal, if_neg hinternal,
        if_neg (Nat.not_le.mpr (hdepth (Bool.eq_false_iff.mpr hinternal)))]
      cases type with
      | file =>
        dsimp only
        rw [UsageScan.charge_eq hmiddle]
        exact UsageScan.advance_bind hmiddle fun last hlast => ih hrest hlast
      | other =>
        have hzero : ((0, LeafType.other.charge stat) : ℕ × ℕ) = 0 := rfl
        rw [hzero, zero_add] at hmiddle ⊢
        exact ih hrest hmiddle
  | directory name stat inside rest ihInside ih =>
    obtain ⟨hinside, hrest⟩ := hshallow
    rw [measureDirectory, UsageScan.visit_eq h, tally]
    refine UsageScan.advance_bind h fun middle hmiddle => ?_
    by_cases hinternal : isOwnInternalName name.value = true
    · rw [if_pos hinternal, zero_add] at hmiddle
      rw [if_pos hinternal, if_pos hinternal, zero_add]
      exact ih hrest hmiddle
    · obtain ⟨hdepth, hinside⟩ := hinside (Bool.eq_false_iff.mpr hinternal)
      rw [if_neg hinternal, add_assoc] at hmiddle
      rw [if_neg hinternal, if_neg hinternal, if_neg (Nat.not_le.mpr hdepth), add_assoc,
        UsageScan.charge_eq hmiddle]
      refine UsageScan.advance_bind hmiddle fun inner hinner => ?_
      rw [ihInside hinside ⟨?_, hinner.maxEntries_le, hinner.bytes_le, hinner.maxBytes_le⟩]
      · exact UsageScan.advance_bind hinner fun last hlast => ih hrest hlast
      · have := hinner.entries_le
        rw [Prod.fst_add] at this
        omega

/-! ### Changes -/

variable {contents root inside : Contents} {name : EntryName} {parents : List EntryName}
  {depth : ℕ}

theorem tally_insert (hname : isOwnInternalName name.value = false) (contents : Contents)
    (entry : Entry) : (contents.insert name entry).tally = entry.tally + contents.tally := by
  cases entry with
  | leaf type stat =>
    rw [insert, tally, hname, Entry.tally, add_assoc]
    rfl
  | directory stat inside =>
    rw [insert, tally, hname, Entry.tally, add_assoc]
    rfl

/-- Taking an entry away takes what it counts for. -/
theorem tally_erase (hname : isOwnInternalName name.value = false) {entry : Entry}
    (h : contents.get? name = some entry) :
    entry.tally + (contents.erase name).tally = contents.tally := by
  induction contents with
  | empty => cases h
  | leaf other type stat rest ih =>
    unfold get? at h
    unfold erase
    by_cases heq : other = name
    · rw [if_pos heq] at h ⊢
      obtain rfl := Option.some.inj h
      rw [tally, heq, hname, Entry.tally, add_assoc]
      rfl
    · rw [if_neg heq] at h ⊢
      rw [tally, tally, ← ih h]
      abel
  | directory other stat inside rest _ ih =>
    unfold get? at h
    unfold erase
    by_cases heq : other = name
    · rw [if_pos heq] at h ⊢
      obtain rfl := Option.some.inj h
      rw [tally, heq, hname, Entry.tally, add_assoc]
      rfl
    · rw [if_neg heq] at h ⊢
      rw [tally, tally, ← ih h]
      abel

/-- A change inside one directory counts as much as it does there. -/
theorem tally_mapDirectory (hname : isOwnInternalName name.value = false) {stat : Stat}
    (h : contents.get? name = some (.directory stat inside)) (change : Contents → Contents) :
    (contents.mapDirectory change name).tally + inside.tally =
      contents.tally + (change inside).tally := by
  induction contents with
  | empty => cases h
  | leaf other type otherStat rest ih =>
    unfold get? at h
    unfold mapDirectory
    by_cases heq : other = name
    · rw [if_pos heq] at h
      cases h
    · rw [if_neg heq] at h ⊢
      rw [tally, tally, add_assoc, add_assoc, ih h]
      abel
  | directory other otherStat otherInside rest _ ih =>
    unfold get? at h
    unfold mapDirectory
    by_cases heq : other = name
    · rw [if_pos heq] at h ⊢
      obtain ⟨rfl, rfl⟩ := Entry.directory.inj (Option.some.inj h)
      rw [tally, tally, heq, hname]
      simp only [Bool.false_eq_true, if_false]
      abel
    · rw [if_neg heq] at h ⊢
      rw [tally, tally, add_assoc, add_assoc, ih h]
      abel

/-- A change in one directory of a tree counts as much as it does there. -/
theorem tally_modifyAt (hparents : ∀ parent ∈ parents, isOwnInternalName parent.value = false)
    (h : root.openDirectory parents = .ok inside) (change : Contents → Contents) :
    (root.modifyAt change parents).tally + inside.tally = root.tally + (change inside).tally := by
  induction parents generalizing root with
  | nil =>
    obtain rfl := Except.ok.inj h
    exact add_comm _ _
  | cons first rest ih =>
    obtain ⟨hfirst, hrest⟩ := List.forall_mem_cons.mp hparents
    unfold openDirectory at h
    split at h
    case h_1 stat child hchild =>
      have hmap := tally_mapDirectory hfirst hchild (modifyAt change rest)
      have hinner := ih hrest h
      rw [modifyAt]
      refine add_right_cancel (b := child.tally) ?_
      rw [add_right_comm, hmap, add_assoc, hinner]
      abel
    case h_2 => cases h

theorem shallow_insert {type : LeafType} {stat : Stat} (hdepth : depth < maxPathDepth)
    (h : contents.Shallow depth) : (contents.insert name (.leaf type stat)).Shallow depth :=
  ⟨fun _ => hdepth, h⟩

theorem shallow_erase (h : contents.Shallow depth) (name : EntryName) :
    (contents.erase name).Shallow depth := by
  induction contents with
  | empty => trivial
  | leaf other type stat rest ih =>
    unfold erase
    split
    · exact h.2
    · exact ⟨h.1, ih h.2⟩
  | directory other stat inside rest _ ih =>
    unfold erase
    split
    · exact h.2
    · exact ⟨h.1, ih h.2⟩

theorem shallow_mapDirectory {change : Contents → Contents}
    (hchange : ∀ inside : Contents, inside.Shallow (depth + 1) → (change inside).Shallow (depth + 1))
    (h : contents.Shallow depth) (name : EntryName) :
    (contents.mapDirectory change name).Shallow depth := by
  induction contents with
  | empty => trivial
  | leaf other type stat rest ih =>
    unfold mapDirectory
    split
    · exact h
    · exact ⟨h.1, ih h.2⟩
  | directory other stat inside rest _ ih =>
    unfold mapDirectory
    split
    · exact ⟨fun hname => (h.1 hname).imp id (hchange inside), h.2⟩
    · exact ⟨h.1, ih h.2⟩

/-- A change of one directory that keeps to the depth limit there does so in the tree. -/
theorem shallow_modifyAt {change : Contents → Contents} {parents : List EntryName}
    (hchange : ∀ inside : Contents, inside.Shallow (depth + parents.length) →
      (change inside).Shallow (depth + parents.length))
    (h : contents.Shallow depth) : (contents.modifyAt change parents).Shallow depth := by
  induction parents generalizing contents depth with
  | nil => exact hchange contents h
  | cons first rest ih =>
    refine shallow_mapDirectory (fun inside hinside => ih (fun inner hinner => ?_) hinside) h first
    rw [List.length_cons, Nat.add_comm rest.length, ← Nat.add_assoc] at hchange
    exact hchange inner hinner

section Paths

variable {path : VirtualPath} {parent : Contents}

/-- Putting an entry at a path adds what it counts for. -/
theorem tally_insertAt (hnames : ∀ name ∈ path.components, isOwnInternalName name.value = false)
    (h : root.openParent path = .ok (parents, parent, name)) (entry : Entry) :
    (root.insertAt path entry).tally = entry.tally + root.tally := by
  obtain ⟨hsplit, hparent⟩ := openParent_eq_ok.mp h
  rw [VirtualPath.splitFile_eq_ok.mp hsplit] at hnames
  obtain ⟨hparents, hname⟩ := List.forall_mem_append.mp hnames
  have hmodify := tally_modifyAt hparents hparent fun contents => contents.insert name entry
  rw [tally_insert (hname name List.mem_cons_self), ← add_assoc] at hmodify
  rw [insertAt, hsplit, add_comm entry.tally]
  exact add_right_cancel hmodify

/-- Taking the entry at a path away takes what it counts for. -/
theorem tally_eraseAt (hnames : ∀ name ∈ path.components, isOwnInternalName name.value = false)
    (h : root.openParent path = .ok (parents, parent, name)) {entry : Entry}
    (hentry : parent.get? name = some entry) :
    entry.tally + (root.eraseAt path).tally = root.tally := by
  obtain ⟨hsplit, hparent⟩ := openParent_eq_ok.mp h
  rw [VirtualPath.splitFile_eq_ok.mp hsplit] at hnames
  obtain ⟨hparents, hname⟩ := List.forall_mem_append.mp hnames
  have hmodify := tally_modifyAt hparents hparent fun contents => contents.erase name
  rw [← tally_erase (hname name List.mem_cons_self) hentry, ← add_assoc] at hmodify
  rw [eraseAt, hsplit, add_comm entry.tally]
  exact add_right_cancel hmodify

theorem shallow_insertAt {type : LeafType} {stat : Stat} (hdepth : path.depth ≤ maxPathDepth)
    (h : root.Shallow 0) : (root.insertAt path (.leaf type stat)).Shallow 0 := by
  unfold insertAt
  split
  case h_1 parents name hsplit =>
    rw [VirtualPath.depth_of_splitFile hsplit, Nat.add_one_le_iff] at hdepth
    refine shallow_modifyAt (fun inside hinside => shallow_insert ?_ hinside) h
    rwa [Nat.zero_add]
  case h_2 => exact h

theorem shallow_eraseAt (h : root.Shallow 0) : (root.eraseAt path).Shallow 0 := by
  unfold eraseAt
  split
  case h_1 parents name hsplit =>
    exact shallow_modifyAt (fun inside hinside => shallow_erase hinside name) h
  case h_2 => exact h

end Paths

end Contents

end Crabinet.Filesystem
