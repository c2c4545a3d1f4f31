import Crabinet.Search.Index

/-!
# What `forget` and `reconcile` preserve

A sound index counts its rows, keeps every row at its own path, and has a directory row
for every row's parent. Deleting a path with everything beneath it preserves this, and so
does reconciling a listing whose directory still has its row.
-/

namespace Crabinet.Search

open Crabinet.Filesystem Crabinet.Library

/-- Every row is stored under its own path. -/
def WellPlaced (rows : KeyedMap RowKey Row) : Prop :=
  ∀ key row, rows.get? key = some row → key.path = row.parent.join row.name

/-- The path has a directory row. -/
def HasDirectory (rows : KeyedMap RowKey Row) (share : ShareId) (path : VirtualPath) : Prop :=
  ∃ row, rows.get? ⟨share, path⟩ = some row ∧ row.kind = .directory

/-- A directory that may hold rows: the share root, or a path with a directory row. -/
def Anchored (rows : KeyedMap RowKey Row) (share : ShareId) (path : VirtualPath) : Prop :=
  path = .root ∨ HasDirectory rows share path

instance (rows : KeyedMap RowKey Row) (share : ShareId) (path : VirtualPath) :
    Decidable (HasDirectory rows share path) :=
  decidable_of_iff ((rows.get? ⟨share, path⟩).any fun row => row.kind = .directory) (by
    rw [Option.any_eq_true]
    simp [HasDirectory])

instance (rows : KeyedMap RowKey Row) (share : ShareId) (path : VirtualPath) :
    Decidable (Anchored rows share path) :=
  inferInstanceAs (Decidable (_ ∨ _))

/-- Every row's parent is anchored. -/
def Closed (rows : KeyedMap RowKey Row) : Prop :=
  ∀ key row, rows.get? key = some row → Anchored rows key.share row.parent

/-- The tree invariant of the index. -/
structure Index.Sound (index : Index) : Prop where
  total_eq : index.total = index.rows.size
  placed : WellPlaced index.rows
  closed : Closed index.rows

section Deletion

variable {rows : KeyedMap RowKey Row} {gone : RowKey → Bool}

theorem deleteRows_get? (key : RowKey) :
    (deleteRows rows gone).1.get? key = if gone key then none else rows.get? key := by
  rw [deleteRows, KeyedMap.get?_retain]
  cases rows.get? key <;> cases gone key <;> simp

theorem get?_of_deleteRows {key : RowKey} {row : Row}
    (h : (deleteRows rows gone).1.get? key = some row) :
    gone key = false ∧ rows.get? key = some row := by
  rw [deleteRows_get?] at h
  cases hgone : gone key with
  | true => simp [hgone] at h
  | false => exact ⟨rfl, by simpa [hgone] using h⟩

/-- What is left and what was deleted add up. -/
theorem deleteRows_size : ((deleteRows rows gone).1.size : ℤ) = rows.size - (deleteRows rows gone).2 := by
  have hle : (deleteRows rows gone).1.size ≤ rows.size := rows.size_retain_le _
  have hremoved : (deleteRows rows gone).2 = rows.size - (deleteRows rows gone).1.size := rfl
  omega

/-- Two deletions are one. -/
theorem deleteRows_deleteRows (also : RowKey → Bool) :
    (deleteRows (deleteRows rows gone).1 also).1 =
      (deleteRows rows fun key => gone key || also key).1 := by
  simp only [deleteRows, KeyedMap.retain, List.filter_filter, Bool.not_or, Bool.and_comm]

theorem deleteRows_deleteRows_removed (also : RowKey → Bool) :
    (deleteRows rows gone).2 + (deleteRows (deleteRows rows gone).1 also).2 =
      (deleteRows rows fun key => gone key || also key).2 := by
  have hfirst : (deleteRows rows gone).1.size ≤ rows.size := rows.size_retain_le _
  have hsecond : (deleteRows (deleteRows rows gone).1 also).1.size ≤ (deleteRows rows gone).1.size :=
    (deleteRows rows gone).1.size_retain_le _
  have hone : (deleteRows rows gone).2 = rows.size - (deleteRows rows gone).1.size := rfl
  have htwo : (deleteRows (deleteRows rows gone).1 also).2 =
    (deleteRows rows gone).1.size - (deleteRows (deleteRows rows gone).1 also).1.size := rfl
  have hboth : (deleteRows rows fun key => gone key || also key).2 =
    rows.size - (deleteRows rows fun key => gone key || also key).1.size := rfl
  rw [deleteRows_deleteRows] at hsecond htwo
  omega

theorem WellPlaced.deleteRows (h : WellPlaced rows) : WellPlaced (deleteRows rows gone).1 :=
  fun key row hrow => h key row (get?_of_deleteRows hrow).2

/-- Deleting keeps the parents of what is left, when rows go with their parents. -/
theorem Closed.deleteRows (h : Closed rows)
    (hgone : ∀ key row, rows.get? key = some row → row.parent ≠ .root →
      gone ⟨key.share, row.parent⟩ = true → gone key = true) :
    Closed (deleteRows rows gone).1 := by
  intro key row hrow
  obtain ⟨hkept, hrow⟩ := get?_of_deleteRows hrow
  rcases h key row hrow with hroot | ⟨parentRow, hparent, hkind⟩
  · exact .inl hroot
  · by_cases hroot : row.parent = .root
    · exact .inl hroot
    · refine .inr ⟨parentRow, ?_, hkind⟩
      rw [deleteRows_get?, if_neg, hparent]
      intro hparentGone
      rw [hgone key row hrow hroot hparentGone] at hkept
      cases hkept

end Deletion

theorem inRange_iff {path other : VirtualPath} :
    inRange path other = true ↔ path ≠ .root ∧ other.isUnder path = true := by
  simp [inRange]

/-- Joining onto what lies in a range stays in the range. -/
theorem inRange_join {path other : VirtualPath} (h : inRange path other = true) (name : EntryName) :
    inRange path (other.join name) = true := by
  rw [inRange_iff] at *
  exact ⟨h.1, VirtualPath.join_isUnder_iff.mpr (VirtualPath.isUnder_iff.mp h.2).1⟩

/-- All proper ancestors of a row have directory rows. -/
theorem Closed.ancestor {rows : KeyedMap RowKey Row} (hclosed : Closed rows)
    (hplaced : WellPlaced rows) {share : ShareId} {path ancestor : VirtualPath} {row : Row}
    (hrow : rows.get? ⟨share, path⟩ = some row) (hunder : inRange ancestor path = true) :
    HasDirectory rows share ancestor := by
  induction hdepth : path.depth generalizing path row with
  | zero =>
    have hpath := hplaced _ _ hrow
    have := congrArg VirtualPath.depth hpath
    simp [hdepth] at this
  | succ depth ih =>
    have hpath : path = row.parent.join row.name := hplaced _ _ hrow
    obtain ⟨hne, hunder⟩ := inRange_iff.mp hunder
    have hstarts : row.parent.startsWith ancestor = true :=
      VirtualPath.join_isUnder_iff.mp (hpath ▸ hunder)
    have hparentNe : row.parent ≠ .root := by
      intro hroot
      rw [hroot] at hstarts
      exact hne (VirtualPath.startsWith_antisymm (by simp) hstarts)
    rcases hclosed _ _ hrow with hroot | ⟨parentRow, hparent, hkind⟩
    · exact absurd hroot hparentNe
    · by_cases heq : row.parent = ancestor
      · exact ⟨parentRow, heq ▸ hparent, hkind⟩
      · refine ih hparent (inRange_iff.mpr ⟨hne, VirtualPath.isUnder_iff.mpr ⟨hstarts, heq⟩⟩) ?_
        have hlen := congrArg VirtualPath.depth hpath
        rw [hdepth, VirtualPath.depth_join] at hlen
        omega

/-- Forgetting a path preserves soundness. -/
theorem Index.Sound.forget {index : Index} (h : index.Sound) (share : ShareId) (path : VirtualPath) :
    (index.forget share path).Sound := by
  refine ⟨?_, h.placed.deleteRows, h.closed.deleteRows fun key row hrow hroot hparent => ?_⟩
  · rw [Index.forget]
    simp only [deleteRows_size, h.total_eq]
  · have hpath := h.placed key row hrow
    simp only [Bool.and_eq_true, decide_eq_true_eq, Bool.or_eq_true, beq_iff_eq] at hparent ⊢
    obtain ⟨hshare, hparent | hparent⟩ := hparent
    · refine ⟨hshare, .inr (inRange_iff.mpr ⟨hparent ▸ hroot, ?_⟩)⟩
      rw [hpath, hparent]
      exact VirtualPath.join_isUnder path row.name
    · exact ⟨hshare, .inr (hpath ▸ inRange_join hparent row.name)⟩

/-! ### The loops of `reconcile` -/

/-- The snapshot holds the children of the parent by name. -/
theorem snapshot_get? {rows : KeyedMap RowKey Row} (hplaced : WellPlaced rows) (share : ShareId)
    (parent : VirtualPath) (name : EntryName) :
    (snapshot rows share parent).get? name = rows.get? ⟨share, parent.join name⟩ := by
  have hgeneral (entries : List (RowKey × Row)) (selected : KeyedMap EntryName Row)
      (hnodup : (entries.map Prod.fst).Nodup)
      (hplaced : ∀ entry ∈ entries, entry.1.path = entry.2.parent.join entry.2.name) :
      (entries.foldl (fun selected entry =>
        if entry.1.share = share ∧ entry.2.parent = parent then
          selected.insert entry.2.name entry.2
        else selected) selected).get? name =
      (entries.lookup ⟨share, parent.join name⟩).or (selected.get? name) := by
    induction entries generalizing selected with
    | nil => rfl
    | cons entry rest ih =>
      obtain ⟨key, row⟩ := entry
      rw [List.map_cons, List.nodup_cons] at hnodup
      have hpath : key.path = row.parent.join row.name := hplaced (key, row) List.mem_cons_self
      rw [List.foldl_cons, ih _ hnodup.2 fun entry hmem => hplaced entry (List.mem_cons_of_mem _ hmem)]
      by_cases hkey : key = ⟨share, parent.join name⟩
      · obtain ⟨hparent, hname⟩ := VirtualPath.join_inj.mp (hpath.symm.trans (congrArg RowKey.path hkey))
        have hnone : rest.lookup (⟨share, parent.join name⟩ : RowKey) = none := by
          rw [List.lookup_eq_none_iff]
          intro other hother
          have hne : (⟨share, parent.join name⟩ : RowKey) ≠ other.1 := fun heq =>
            hnodup.1 (hkey ▸ heq ▸ List.mem_map.mpr ⟨other, hother, rfl⟩)
          simpa using hne
        rw [hnone, if_pos ⟨congrArg RowKey.share hkey, hparent⟩, hname, ← hkey]
        simp
      · have hbeq : ((⟨share, parent.join name⟩ : RowKey) == key) = false := by
          simpa using Ne.symm hkey
        rw [List.lookup_cons, hbeq]
        split
        · rename_i hselected
          have hname : name ≠ row.name := by
            rintro rfl
            exact hkey (by rw [← hselected.1, ← hselected.2, ← hpath])
          rw [KeyedMap.get?_insert_ne _ hname]
        · rfl
  have hentries : ∀ entry ∈ rows.entries, entry.1.path = entry.2.parent.join entry.2.name :=
    fun entry hentry => hplaced entry.1 entry.2 (KeyedMap.get?_eq_some.mpr hentry)
  rw [snapshot, hgeneral rows.entries .empty rows.nodup hentries, KeyedMap.get?_empty, Option.or_none]
  rfl

/-- The state of the loops over the children of one directory: counted, placed and closed, with
rows elsewhere unchanged or deleted. -/
structure Mid (base : KeyedMap RowKey Row) (share : ShareId) (parent : VirtualPath)
    (rows : KeyedMap RowKey Row) (count : ℤ) : Prop where
  count_eq : count = rows.size
  placed : WellPlaced rows
  closed : Closed rows
  anchored : Anchored rows share parent
  outside : ∀ key row, rows.get? key = some row →
    (key.share = share → ∀ name, key.path ≠ parent.join name) → base.get? key = some row
  foreign : ∀ key, key.share ≠ share → rows.get? key = base.get? key

section Loops

variable {base rows : KeyedMap RowKey Row} {share : ShareId} {parent : VirtualPath} {count : ℤ}

/-- Nothing above or beside a child lies beneath it. -/
theorem inRange_child_parent (name : EntryName) : inRange (parent.join name) parent = false := by
  rw [← Bool.not_eq_true, inRange_iff]
  rintro ⟨-, hunder⟩
  have hself := (VirtualPath.isUnder_iff.mp hunder).1
  have hback : (parent.join name).startsWith parent = true := VirtualPath.join_startsWith parent name
  exact VirtualPath.join_ne parent name (VirtualPath.startsWith_antisymm hback hself)

theorem inRange_child_child (name other : EntryName) :
    inRange (parent.join name) (parent.join other) = false := by
  rw [← Bool.not_eq_true, inRange_iff]
  rintro ⟨-, hunder⟩
  have hstarts := VirtualPath.join_isUnder_iff.mp hunder
  have hback : (parent.join name).startsWith parent = true := VirtualPath.join_startsWith parent name
  exact VirtualPath.join_ne parent name (VirtualPath.startsWith_antisymm hback hstarts)

theorem HasDirectory.of_get?_eq {other : KeyedMap RowKey Row} {path : VirtualPath}
    (h : HasDirectory rows share path) (heq : other.get? ⟨share, path⟩ = rows.get? ⟨share, path⟩) :
    HasDirectory other share path := by
  obtain ⟨row, hrow, hkind⟩ := h
  exact ⟨row, heq.trans hrow, hkind⟩

/-- Deleting rows at or beneath children, with everything beneath them, keeps the loop state. -/
theorem Mid.deleteRows (h : Mid base share parent rows count) {gone : RowKey → Bool}
    (hshare : ∀ key, gone key = true → key.share = share)
    (hparent : gone ⟨share, parent⟩ = false)
    (hdown : ∀ key row, rows.get? key = some row → row.parent ≠ .root →
      gone ⟨key.share, row.parent⟩ = true → gone key = true) :
    Mid base share parent (Search.deleteRows rows gone).1 (count - (Search.deleteRows rows gone).2) where
  count_eq := by rw [deleteRows_size, h.count_eq]
  placed := h.placed.deleteRows
  closed := h.closed.deleteRows hdown
  anchored := h.anchored.imp_right fun hdir =>
    hdir.of_get?_eq (by rw [deleteRows_get?, hparent]; rfl)
  outside := fun key row hrow => h.outside key row (get?_of_deleteRows hrow).2
  foreign := fun key hkey => by
    rw [deleteRows_get?, if_neg (fun hgone => hkey (hshare key hgone)), h.foreign key hkey]

/-- Deleting everything beneath a child keeps the loop state. -/
theorem Mid.removeBelow (h : Mid base share parent rows count) (name : EntryName) :
    Mid base share parent
      (Search.deleteRows rows fun key => key.share = share && inRange (parent.join name) key.path).1
      (count - (Search.deleteRows rows fun key =>
        key.share = share && inRange (parent.join name) key.path).2) := by
  refine h.deleteRows (fun key hkey => ?_) ?_ fun key row hrow hroot hgone => ?_
  · simp only [Bool.and_eq_true, decide_eq_true_eq] at hkey
    exact hkey.1
  · simp [inRange_child_parent]
  · simp only [Bool.and_eq_true, decide_eq_true_eq] at hgone ⊢
    exact ⟨hgone.1, h.placed key row hrow ▸ inRange_join hgone.2 row.name⟩

/-- Setting a child's row keeps the loop state, when a file has nothing beneath it. -/
theorem Mid.setChild (h : Mid base share parent rows count) {name : EntryName} {row : Row}
    {count' : ℤ} (hplace : row.parent = parent ∧ row.name = name)
    (hfile : row.kind = .file → ∀ key other, rows.get? key = some other → key.share = share →
      other.parent ≠ parent.join name)
    (hcount : count' = (rows.insert ⟨share, parent.join name⟩ row).size) :
    Mid base share parent (rows.insert ⟨share, parent.join name⟩ row) count' := by
  have hkeep (path : VirtualPath) (hne : path ≠ parent.join name) :
      (rows.insert ⟨share, parent.join name⟩ row).get? ⟨share, path⟩ = rows.get? ⟨share, path⟩ :=
    KeyedMap.get?_insert_ne _ (by simpa using hne) row
  have hanchored : Anchored (rows.insert ⟨share, parent.join name⟩ row) share parent :=
    h.anchored.imp_right fun hdir =>
      hdir.of_get?_eq (hkeep parent (VirtualPath.join_ne parent name).symm)
  refine ⟨hcount, ?_, ?_, hanchored, ?_, ?_⟩
  · intro key other hother
    by_cases hkey : key = ⟨share, parent.join name⟩
    · subst hkey
      rw [KeyedMap.get?_insert_self] at hother
      obtain rfl := Option.some.inj hother
      rw [hplace.1, hplace.2]
    · rw [KeyedMap.get?_insert_ne _ hkey] at hother
      exact h.placed key other hother
  · intro key other hother
    by_cases hkey : key = ⟨share, parent.join name⟩
    · subst hkey
      rw [KeyedMap.get?_insert_self] at hother
      obtain rfl := Option.some.inj hother
      exact hplace.1 ▸ hanchored
    · rw [KeyedMap.get?_insert_ne _ hkey] at hother
      rcases h.closed key other hother with hroot | ⟨parentRow, hparent, hkind⟩
      · exact .inl hroot
      · by_cases hat : (⟨key.share, other.parent⟩ : RowKey) = ⟨share, parent.join name⟩
        · refine .inr ⟨row, by rw [hat, KeyedMap.get?_insert_self], ?_⟩
          obtain ⟨hshare, hpath⟩ := RowKey.mk.inj hat
          cases hrow : row.kind with
          | directory => rfl
          | file => exact absurd hpath (hfile hrow key other hother hshare)
        · exact .inr ⟨parentRow, by rw [KeyedMap.get?_insert_ne _ hat, hparent], hkind⟩
  · intro key other hother houtside
    have hkey : key ≠ ⟨share, parent.join name⟩ := by
      rintro rfl
      exact houtside rfl name rfl
    rw [KeyedMap.get?_insert_ne _ hkey] at hother
    exact h.outside key other hother houtside
  · intro key hkey
    rw [KeyedMap.get?_insert_ne _ (fun heq => hkey (congrArg RowKey.share heq)), h.foreign key hkey]

/-- A row that the listing has, with its kind, and noted when it is a directory. -/
def Listed (listing : List DirectoryEntry) (directories : List (VirtualPath × Bool))
    (parent : VirtualPath) (name : EntryName) (row : Row) : Prop :=
  ∃ entry ∈ listing, entry.name = name ∧ entry.kind = row.kind ∧
    (entry.kind = .directory → ∃ new, (parent.join name, new) ∈ directories)

theorem Listed.mono {listing : List DirectoryEntry} {first second : List (VirtualPath × Bool)}
    {name : EntryName} {row : Row} (h : Listed listing first parent name row)
    (hsub : ∀ directory ∈ first, directory ∈ second) : Listed listing second parent name row := by
  obtain ⟨entry, hentry, hname, hkind, hnoted⟩ := h
  refine ⟨entry, hentry, hname, hkind, fun hdirectory => ?_⟩
  obtain ⟨new, hmem⟩ := hnoted hdirectory
  exact ⟨new, hsub _ hmem⟩

/-- The children before the remaining entries are visited: still as in the snapshot, or settled by
an entry that was visited. -/
structure Visiting (base : KeyedMap RowKey Row) (share : ShareId) (parent : VirtualPath)
    (listing todo : List DirectoryEntry) (state : Reconciling) : Prop where
  mid : Mid base share parent state.rows state.count
  agrees : ∀ name, state.rows.get? ⟨share, parent.join name⟩ = state.existing.get? name ∨
    (state.existing.get? name = none ∧ name ∉ todo.map DirectoryEntry.name ∧
      ∀ row, state.rows.get? ⟨share, parent.join name⟩ = some row →
        Listed listing state.directories parent name row)

/-- A directory row is what rows beneath a path need above them. -/
theorem Mid.no_rows_in (h : Mid base share parent rows count) {name : EntryName}
    (hnot : ∀ row, rows.get? ⟨share, parent.join name⟩ = some row → row.kind ≠ .directory)
    (key : RowKey) (other : Row) (hother : rows.get? key = some other) (hshare : key.share = share) :
    other.parent ≠ parent.join name := by
  intro hparent
  rcases h.closed key other hother with hroot | ⟨row, hrow, hkind⟩
  · exact VirtualPath.join_ne_root parent name (hparent.symm.trans hroot)
  · rw [hshare, hparent] at hrow
    exact hnot row hrow hkind

/-- After an entry's row is set and noted, its name is settled and the other names are as before. -/
theorem Visiting.settle {listing todo : List DirectoryEntry} {entry : DirectoryEntry}
    {before after : Reconciling} (h : Visiting base share parent listing (entry :: todo) before)
    (hentry : entry ∈ listing) (hfresh : entry.name ∉ todo.map DirectoryEntry.name)
    (hmid : Mid base share parent after.rows after.count)
    (hrows : ∀ name, name ≠ entry.name → after.rows.get? ⟨share, parent.join name⟩ =
      before.rows.get? ⟨share, parent.join name⟩)
    (hexisting : ∀ name, after.existing.get? name =
      if name = entry.name then none else before.existing.get? name)
    (hself : ∀ row, after.rows.get? ⟨share, parent.join entry.name⟩ = some row →
      row.kind = entry.kind)
    {new : Bool} (hdirectories : after.directories = before.directories ++
      if entry.kind = .directory then [(parent.join entry.name, new)] else []) :
    Visiting base share parent listing todo after := by
  have hsub : ∀ directory ∈ before.directories, directory ∈ after.directories := by
    intro directory hmem
    rw [hdirectories]
    exact List.mem_append_left _ hmem
  refine ⟨hmid, fun name => ?_⟩
  by_cases hname : name = entry.name
  · subst hname
    refine .inr ⟨by rw [hexisting, if_pos rfl], hfresh, fun row hrow => ?_⟩
    refine ⟨entry, hentry, rfl, (hself row hrow).symm, fun hdirectory => ⟨new, ?_⟩⟩
    rw [hdirectories, if_pos hdirectory]
    exact List.mem_append_right _ List.mem_cons_self
  · rw [hrows name hname, hexisting, if_neg hname]
    rcases h.agrees name with heq | ⟨hnone, hnot, hlisted⟩
    · exact .inl heq
    · refine .inr ⟨hnone, fun hmem => hnot (List.mem_cons_of_mem _ hmem), fun row hrow => ?_⟩
      exact (hlisted row hrow).mono hsub

@[simp] theorem push_rows (state : Reconciling) (path : VirtualPath) (kind : EntryKind) (new : Bool) :
    (state.push path kind new).rows = state.rows := by
  unfold Reconciling.push
  split <;> rfl

@[simp] theorem push_count (state : Reconciling) (path : VirtualPath) (kind : EntryKind) (new : Bool) :
    (state.push path kind new).count = state.count := by
  unfold Reconciling.push
  split <;> rfl

@[simp] theorem push_existing (state : Reconciling) (path : VirtualPath) (kind : EntryKind)
    (new : Bool) : (state.push path kind new).existing = state.existing := by
  unfold Reconciling.push
  split <;> rfl

theorem push_directories (state : Reconciling) (path : VirtualPath) (kind : EntryKind) (new : Bool) :
    (state.push path kind new).directories =
      state.directories ++ if kind = .directory then [(path, new)] else [] := by
  unfold Reconciling.push
  split
  · rfl
  · exact (List.append_nil _).symm

/-- A state that only hit a bound is as before. -/
theorem Visiting.skip {listing todo : List DirectoryEntry} {entry : DirectoryEntry}
    {state : Reconciling} (h : Visiting base share parent listing (entry :: todo) state) :
    Visiting base share parent listing todo { state with capped := true } := by
  refine ⟨h.mid, fun name => ?_⟩
  rcases h.agrees name with heq | ⟨hnone, hnot, hlisted⟩
  · exact .inl heq
  · exact .inr ⟨hnone, fun hmem => hnot (List.mem_cons_of_mem _ hmem), hlisted⟩

theorem erase_get? {map : KeyedMap EntryName Row} (name other : EntryName) :
    (map.erase name).get? other = if other = name then none else map.get? other := by
  by_cases h : other = name
  · rw [if_pos h, h, KeyedMap.get?_erase_self]
  · rw [if_neg h, KeyedMap.get?_erase_ne _ h]

/-- Setting one child leaves the other children alone. -/
theorem insert_child_get? (rows : KeyedMap RowKey Row) {name other : EntryName} (h : other ≠ name)
    (row : Row) : (rows.insert ⟨share, parent.join name⟩ row).get? ⟨share, parent.join other⟩ =
      rows.get? ⟨share, parent.join other⟩ := by
  refine KeyedMap.get?_insert_ne _ (fun heq => h ?_) row
  exact (VirtualPath.join_inj.mp (RowKey.mk.inj heq).2).2

/-- Visiting one entry settles its name. -/
theorem Visiting.visit {listing todo : List DirectoryEntry} {entry : DirectoryEntry}
    {state : Reconciling} (h : Visiting base share parent listing (entry :: todo) state)
    (hentry : entry ∈ listing) (hfresh : entry.name ∉ todo.map DirectoryEntry.name) :
    Visiting base share parent listing todo (state.visit share parent entry) := by
  have hagrees : state.rows.get? ⟨share, parent.join entry.name⟩ =
      state.existing.get? entry.name := by
    rcases h.agrees entry.name with heq | ⟨-, hnot, -⟩
    · exact heq
    · exact absurd (List.mem_cons_self) hnot
  have hset (rows : KeyedMap RowKey Row) (row : Row) (hkind : row.kind = entry.kind) :
      ∀ other, (rows.insert ⟨share, parent.join entry.name⟩ row).get?
        ⟨share, parent.join entry.name⟩ = some other → other.kind = entry.kind := by
    intro other hother
    rw [KeyedMap.get?_insert_self] at hother
    exact Option.some.inj hother ▸ hkind
  unfold Reconciling.visit
  dsimp only
  split
  · exact h.skip
  · rcases hold : state.existing.get? entry.name with _ | old
    · -- The name is new: its row is inserted, unless the index is full.
      dsimp only
      rw [hold] at hagrees
      split
      · refine h.settle hentry hfresh ?_ (fun name hname => ?_) (fun name => ?_) ?_
          (push_directories _ _ _ _)
        · simp only [push_rows, push_count]
          refine h.mid.setChild ⟨rfl, rfl⟩ (fun _ => h.mid.no_rows_in (by simp [hagrees])) ?_
          rw [KeyedMap.size_insert_of_none hagrees, h.mid.count_eq]
          push_cast
          rfl
        · rw [push_rows]
          exact insert_child_get? _ hname _
        · rw [push_existing]
          split
          · rename_i hname
            rw [hname, hold]
          · rfl
        · rw [push_rows]
          exact hset _ _ rfl
      · exact h.skip
    · dsimp only
      rw [hold] at hagrees
      have hexisting (name : EntryName) : (state.existing.erase entry.name).get? name =
          if name = entry.name then none else state.existing.get? name := erase_get? _ _
      split
      · rename_i hkind
        split
        · -- A directory became a file: everything beneath it goes.
          rename_i hdirectory
          have hbelow := h.mid.removeBelow entry.name
          set kept := deleteRows state.rows fun key =>
            key.share = share && inRange (parent.join entry.name) key.path with hkept
          have hchild (name : EntryName) : kept.1.get? ⟨share, parent.join name⟩ =
              state.rows.get? ⟨share, parent.join name⟩ := by
            rw [hkept, deleteRows_get?, if_neg]
            simp [inRange_child_child]
          refine h.settle hentry hfresh ?_ (fun name hname => ?_) (fun name => ?_) ?_
            (push_directories _ _ _ _)
          · simp only [push_rows, push_count]
            refine hbelow.setChild ⟨rfl, rfl⟩ (fun _ key other hother hshare hparent => ?_) ?_
            · obtain ⟨hnot, hother⟩ := get?_of_deleteRows hother
              have hpath := h.mid.placed key other hother
              rw [hparent] at hpath
              have hrange : inRange (parent.join entry.name) key.path = true := by
                rw [inRange_iff, hpath]
                exact ⟨VirtualPath.join_ne_root _ _, VirtualPath.join_isUnder _ _⟩
              simp [hshare, hrange] at hnot
            · have hpresent : kept.1.get? ⟨share, parent.join entry.name⟩ = some old :=
                (hchild entry.name).trans hagrees
              rw [KeyedMap.size_insert_of_some hpresent]
              exact hbelow.count_eq
          · rw [push_rows]
            exact (insert_child_get? _ hname _).trans (hchild name)
          · rw [push_existing]
            exact hexisting name
          · rw [push_rows]
            exact hset _ _ rfl
        · -- A file became a directory: nothing lies beneath it yet.
          rename_i hfile
          refine h.settle hentry hfresh ?_ (fun name hname => ?_) (fun name => ?_) ?_
            (push_directories _ _ _ _)
          · simp only [push_rows, push_count]
            refine h.mid.setChild ⟨rfl, rfl⟩ (fun _ => h.mid.no_rows_in fun row hrow => ?_) ?_
            · exact Option.some.inj (hagrees.symm.trans hrow) ▸ hfile
            · rw [KeyedMap.size_insert_of_some hagrees]
              exact h.mid.count_eq
          · rw [push_rows]
            exact insert_child_get? _ hname _
          · rw [push_existing]
            exact hexisting name
          · rw [push_rows]
            exact hset _ _ rfl
      · rename_i hkind
        rw [not_not] at hkind
        split
        · refine h.settle hentry hfresh ?_ (fun name hname => ?_) (fun name => ?_) ?_
            (push_directories _ _ _ _)
          · simp only [push_rows, push_count]
            exact h.mid
          · rw [push_rows]
          · rw [push_existing]
            exact hexisting name
          · rw [push_rows]
            exact fun row hrow => Option.some.inj (hagrees.symm.trans hrow) ▸ hkind
        · refine h.settle hentry hfresh ?_ (fun name hname => ?_) (fun name => ?_) ?_
            (push_directories _ _ _ _)
          · simp only [push_rows, push_count]
            refine h.mid.setChild ⟨rfl, rfl⟩ (fun hfile => h.mid.no_rows_in fun row hrow => ?_) ?_
            · have hold' := Option.some.inj (hagrees.symm.trans hrow)
              rw [← hold', hkind]
              exact fun hdirectory => by simp [hdirectory] at hfile
            · rw [KeyedMap.size_insert_of_some hagrees]
              exact h.mid.count_eq
          · rw [push_rows]
            exact insert_child_get? _ hname _
          · rw [push_existing]
            exact hexisting name
          · rw [push_rows]
            exact hset _ _ rfl

/-- The listing loop settles every name of the listing. -/
theorem Visiting.visits {listing todo : List DirectoryEntry} {state : Reconciling}
    (h : Visiting base share parent listing todo state) (hsub : ∀ entry ∈ todo, entry ∈ listing)
    (hnodup : (todo.map DirectoryEntry.name).Nodup) :
    Visiting base share parent listing []
      (todo.foldl (fun state entry => state.visit share parent entry) state) := by
  induction todo generalizing state with
  | nil => exact h
  | cons entry todo ih =>
    rw [List.map_cons, List.nodup_cons] at hnodup
    exact ih (h.visit (hsub entry List.mem_cons_self) hnodup.1)
      (fun other hother => hsub other (List.mem_cons_of_mem _ hother)) hnodup.2

/-- The children before the remaining leftovers are deleted: a leftover, or settled. -/
structure Vanishing (base : KeyedMap RowKey Row) (share : ShareId) (parent : VirtualPath)
    (listing : List DirectoryEntry) (todo : List (EntryName × Row)) (state : Reconciling) : Prop where
  mid : Mid base share parent state.rows state.count
  agrees : ∀ name, state.rows.get? ⟨share, parent.join name⟩ = todo.lookup name ∨
    (todo.lookup name = none ∧
      ∀ row, state.rows.get? ⟨share, parent.join name⟩ = some row →
        Listed listing state.directories parent name row)

/-- The rows that go with a leftover. -/
def vanishing (share : ShareId) (path : VirtualPath) (kind : EntryKind) (key : RowKey) : Bool :=
  key = ⟨share, path⟩ || (kind = .directory && (key.share = share && inRange path key.path))

/-- Deleting a leftover is one deletion, of its row and for a directory of everything beneath it. -/
theorem vanish_eq (state : Reconciling) (gone : EntryName × Row) :
    state.vanish share parent gone =
      { state with
        rows := (deleteRows state.rows (vanishing share (parent.join gone.1) gone.2.kind)).1
        count := state.count -
          (deleteRows state.rows (vanishing share (parent.join gone.1) gone.2.kind)).2 } := by
  unfold Reconciling.vanish
  dsimp only
  split
  · rename_i hkind
    have hgone : vanishing share (parent.join gone.1) gone.2.kind = fun key =>
        decide (key = ⟨share, parent.join gone.1⟩) ||
          (key.share = share && inRange (parent.join gone.1) key.path) := by
      funext key
      simp [vanishing, hkind]
    rw [hgone, ← deleteRows_deleteRows, ← deleteRows_deleteRows_removed]
    simp only [Reconciling.removeBelow]
    push_cast
    congr 1
    omega
  · rename_i hkind
    have hgone : vanishing share (parent.join gone.1) gone.2.kind =
        fun key => decide (key = ⟨share, parent.join gone.1⟩) := by
      funext key
      simp [vanishing, hkind]
    rw [hgone]

/-- Deleting a leftover settles its name. -/
theorem Vanishing.vanish {listing : List DirectoryEntry} {gone : EntryName × Row}
    {todo : List (EntryName × Row)} {state : Reconciling}
    (h : Vanishing base share parent listing (gone :: todo) state)
    (hfresh : gone.1 ∉ todo.map Prod.fst) :
    Vanishing base share parent listing todo (state.vanish share parent gone) := by
  obtain ⟨name, row⟩ := gone
  have hrow : state.rows.get? ⟨share, parent.join name⟩ = some row := by
    rcases h.agrees name with heq | ⟨hnone, -⟩
    · simpa using heq
    · simp at hnone
  have hchild (key : RowKey) (other : Row) (hother : state.rows.get? key = some other)
      (hgone : vanishing share (parent.join name) row.kind ⟨key.share, other.parent⟩ = true) :
      vanishing share (parent.join name) row.kind key = true := by
    have hpath := h.mid.placed key other hother
    simp only [vanishing, Bool.or_eq_true, decide_eq_true_eq, Bool.and_eq_true] at hgone ⊢
    rcases hgone with hat | ⟨hkind, hshare, hrange⟩
    · -- The row lies directly in the leftover, so the leftover is a directory.
      obtain ⟨hshare, hparent⟩ := RowKey.mk.inj hat
      have hkind : row.kind = .directory := by
        by_contra hne
        exact h.mid.no_rows_in (fun found hfound => Option.some.inj (hrow.symm.trans hfound) ▸ hne)
          key other hother hshare hparent
      refine .inr ⟨hkind, hshare, inRange_iff.mpr ⟨VirtualPath.join_ne_root _ _, ?_⟩⟩
      rw [hpath, hparent]
      exact VirtualPath.join_isUnder _ _
    · exact .inr ⟨hkind, hshare, hpath ▸ inRange_join hrange other.name⟩
  rw [vanish_eq]
  refine ⟨h.mid.deleteRows ?_ ?_ fun key other hother _ hgone => hchild key other hother hgone, fun other => ?_⟩
  · intro key hkey
    simp only [vanishing, Bool.or_eq_true, decide_eq_true_eq, Bool.and_eq_true] at hkey
    rcases hkey with rfl | ⟨-, hshare, -⟩
    · rfl
    · exact hshare
  · simp [vanishing, inRange_child_parent, (VirtualPath.join_ne parent name).symm]
  · by_cases hname : other = name
    · subst hname
      refine .inr ⟨List.lookup_eq_none_iff.mpr fun entry hentry => ?_, fun found hfound => ?_⟩
      · have hne : other ≠ entry.1 := fun heq =>
          hfresh (heq ▸ List.mem_map.mpr ⟨entry, hentry, rfl⟩)
        simpa using hne
      · have hgone := (get?_of_deleteRows hfound).1
        simp [vanishing] at hgone
    · have hkept : (Search.deleteRows state.rows (vanishing share (parent.join name) row.kind)).1.get?
          ⟨share, parent.join other⟩ = state.rows.get? ⟨share, parent.join other⟩ := by
        rw [deleteRows_get?, if_neg]
        simp [vanishing, inRange_child_child, VirtualPath.join_inj, hname]
      have hbeq : (other == name) = false := by simpa using hname
      have hagrees := h.agrees other
      rw [List.lookup_cons, hbeq] at hagrees
      dsimp only at hagrees ⊢
      rw [hkept]
      exact hagrees

/-- The loop over the leftovers settles every name. -/
theorem Vanishing.vanishes {listing : List DirectoryEntry} {todo : List (EntryName × Row)}
    {state : Reconciling} (h : Vanishing base share parent listing todo state)
    (hnodup : (todo.map Prod.fst).Nodup) :
    Vanishing base share parent listing []
      (todo.foldl (fun state gone => state.vanish share parent gone) state) := by
  induction todo generalizing state with
  | nil => exact h
  | cons gone todo ih =>
    rw [List.map_cons, List.nodup_cons] at hnodup
    exact ih (h.vanish hnodup.1) hnodup.2

end Loops

/-- What reconciling a listing of an anchored directory comes to. -/
structure Reconciled (before after : Index) (share : ShareId) (parent : VirtualPath)
    (listing : List DirectoryEntry) (directories : List (VirtualPath × Bool)) : Prop where
  sound : after.Sound
  anchored : Anchored after.rows share parent
  listed : ∀ name row, after.rows.get? ⟨share, parent.join name⟩ = some row →
    Listed listing directories parent name row
  outside : ∀ key row, after.rows.get? key = some row →
    (key.share = share → ∀ name, key.path ≠ parent.join name) → before.rows.get? key = some row
  foreign : ∀ key, key.share ≠ share → after.rows.get? key = before.rows.get? key

/-- Reconciling a listing of an anchored directory settles its children and nothing else. -/
theorem Index.Sound.reconcile {index : Index} (h : index.Sound) {share : ShareId}
    {parent : VirtualPath} (hanchored : Anchored index.rows share parent)
    {listing : List DirectoryEntry} (hnodup : (listing.map DirectoryEntry.name).Nodup) :
    Reconciled index (index.reconcile share parent listing).1 share parent listing
      (index.reconcile share parent listing).2.1 := by
  have hstart : Visiting index.rows share parent listing listing
      ⟨index.rows, index.total, snapshot index.rows share parent, [], false⟩ :=
    ⟨⟨h.total_eq, h.placed, h.closed, hanchored, fun _ _ hrow _ => hrow, fun _ _ => rfl⟩,
      fun name => .inl (snapshot_get? h.placed share parent name).symm⟩
  have hvisited := hstart.visits (fun _ hentry => hentry) hnodup
  set visited := listing.foldl (fun (state : Reconciling) entry => state.visit share parent entry)
    ⟨index.rows, index.total, snapshot index.rows share parent, [], false⟩ with hvisitedEq
  have hleft : Vanishing index.rows share parent listing visited.existing.entries visited := by
    refine ⟨hvisited.mid, fun name => ?_⟩
    rcases hvisited.agrees name with heq | ⟨hnone, -, hlisted⟩
    · exact .inl heq
    · exact .inr ⟨hnone, hlisted⟩
  have hdone := hleft.vanishes visited.existing.nodup
  set done := visited.existing.entries.foldl
    (fun (state : Reconciling) gone => state.vanish share parent gone) visited with hdoneEq
  have hafter : index.reconcile share parent listing =
      (⟨done.rows, done.count⟩, done.directories, done.capped) := rfl
  rw [hafter]
  refine ⟨⟨hdone.mid.count_eq, hdone.mid.placed, hdone.mid.closed⟩, hdone.mid.anchored,
    fun name row hrow => ?_, hdone.mid.outside, hdone.mid.foreign⟩
  rcases hdone.agrees name with heq | ⟨-, hlisted⟩
  · rw [heq] at hrow
    cases hrow
  · exact hlisted row hrow

/-- The listing would insert nothing: every entry is too deep, or the index is full. -/
def NothingToInsert (index : Index) (path : VirtualPath) (entries : List DirectoryEntry) : Prop :=
  ∀ entry ∈ entries, (path.join entry.name).depth > maxPathDepth ∨ maxEntries ≤ index.total

instance (index : Index) (path : VirtualPath) (entries : List DirectoryEntry) :
    Decidable (NothingToInsert index path entries) :=
  inferInstanceAs (Decidable (∀ entry ∈ entries, _))

section Unanchored

variable {index : Index} {share : ShareId} {parent : VirtualPath}

/-- A directory without a row has no children's rows. -/
theorem Index.Sound.no_child (h : index.Sound) (hnot : ¬Anchored index.rows share parent)
    (name : EntryName) : index.rows.get? ⟨share, parent.join name⟩ = none := by
  by_contra hsome
  obtain ⟨row, hrow⟩ := Option.ne_none_iff_exists'.mp hsome
  have hparent := (VirtualPath.join_inj.mp (h.placed _ _ hrow)).1
  have hanchored := h.closed _ _ hrow
  rw [← hparent] at hanchored
  exact hnot hanchored

/-- Reconciling a listing that inserts nothing, for a directory without a row, changes nothing. -/
theorem Index.Sound.reconcile_unanchored (h : index.Sound)
    (hnot : ¬Anchored index.rows share parent) {entries : List DirectoryEntry}
    (hnothing : NothingToInsert index parent entries) :
    index.reconcile share parent entries = (index, [], !entries.isEmpty) := by
  have hexisting (name : EntryName) : (snapshot index.rows share parent).get? name = none := by
    rw [snapshot_get? h.placed, h.no_child hnot]
  have hempty : (snapshot index.rows share parent).entries = [] := by
    rw [List.eq_nil_iff_forall_not_mem]
    rintro ⟨name, row⟩ hmem
    rw [← KeyedMap.get?_eq_some, hexisting] at hmem
    cases hmem
  have hvisits (todo : List DirectoryEntry) (capped : Bool) (hsub : ∀ entry ∈ todo, entry ∈ entries) :
      todo.foldl (fun (state : Reconciling) entry => state.visit share parent entry)
        ⟨index.rows, index.total, snapshot index.rows share parent, [], capped⟩ =
        ⟨index.rows, index.total, snapshot index.rows share parent, [], capped || !todo.isEmpty⟩ := by
    induction todo generalizing capped with
    | nil => simp
    | cons entry todo ih =>
      have hvisit : Reconciling.visit
          ⟨index.rows, index.total, snapshot index.rows share parent, [], capped⟩ share parent entry =
          ⟨index.rows, index.total, snapshot index.rows share parent, [], true⟩ := by
        unfold Reconciling.visit
        dsimp only
        rw [hexisting]
        rcases hnothing entry (hsub entry List.mem_cons_self) with hdepth | hfull
        · rw [if_pos hdepth]
        · have hcount : ¬index.total < maxEntries := Int.not_lt.mpr hfull
          dsimp only
          rw [if_neg hcount]
          split <;> rfl
      rw [List.foldl_cons, hvisit, ih true fun other hother => hsub other (List.mem_cons_of_mem _ hother)]
      simp
  unfold Index.reconcile
  dsimp only
  rw [hvisits entries false fun _ hentry => hentry]
  dsimp only
  rw [hempty]
  simp

end Unanchored

end Crabinet.Search
