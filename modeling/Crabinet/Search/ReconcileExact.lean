import Crabinet.Search.PathRange

/-!
# What `reconcile` leaves

One visit sets the row of its entry, and deletes what lies beneath when a directory became a
file; one leftover takes its row and what lies beneath with it. Over both loops every key has
the row that the listing gives it, none beneath what went, or the row it had.
-/

namespace Crabinet.Search

open Crabinet.Filesystem Crabinet.Library Crabinet.Tokens

/-- The row of a listed entry. -/
def DirectoryEntry.row (parent : VirtualPath) (entry : DirectoryEntry) : Row :=
  ⟨parent, entry.name, entry.kind, indexedSize entry, unixSeconds entry.modified⟩

/-- The entries of a listing that are not too deep for the index. -/
def indexable (parent : VirtualPath) (listing : List DirectoryEntry) : List DirectoryEntry :=
  listing.filter fun entry => (parent.join entry.name).depth ≤ maxPathDepth

/-- The number of entries without a row. -/
def unindexed (rows : KeyedMap RowKey Row) (share : ShareId) (parent : VirtualPath)
    (listing : List DirectoryEntry) : ℕ :=
  listing.countP fun entry => (rows.get? ⟨share, parent.join entry.name⟩).isNone

/-- A directory's row, and a file's entry. -/
def turns (rows : KeyedMap RowKey Row) (share : ShareId) (parent : VirtualPath)
    (entry : DirectoryEntry) : Bool :=
  (rows.get? ⟨share, parent.join entry.name⟩).any (fun old => old.kind = .directory) &&
    entry.kind = .file

/-- A name that had a row and has no entry, or a directory's row and a file's entry. -/
def Dropped (rows : KeyedMap RowKey Row) (share : ShareId) (parent : VirtualPath)
    (listing : List DirectoryEntry) (name : EntryName) : Prop :=
  ((rows.get? ⟨share, parent.join name⟩).isSome = true ∧ ∀ entry ∈ listing, entry.name ≠ name) ∨
    ∃ entry ∈ listing, entry.name = name ∧ turns rows share parent entry = true

section Visits

variable {base : KeyedMap RowKey Row} {share : ShareId} {parent : VirtualPath}
  {state : Reconciling} {entry : DirectoryEntry}

/-- Beneath a path of the share. -/
def below (share : ShareId) (path : VirtualPath) (key : RowKey) : Bool :=
  key.share = share && inRange path key.path

theorem below_child (name other : EntryName) :
    below share (parent.join name) ⟨share, parent.join other⟩ = false := by
  simp [below, inRange_child_child]

/-- What the visit of an entry needs to know of the index. -/
structure Visitable (base : KeyedMap RowKey Row) (share : ShareId) (parent : VirtualPath)
    (state : Reconciling) (entry : DirectoryEntry) : Prop where
  depth : (parent.join entry.name).depth ≤ maxPathDepth
  placed : WellPlaced base
  existing : state.existing.get? entry.name = base.get? ⟨share, parent.join entry.name⟩
  row : state.rows.get? ⟨share, parent.join entry.name⟩ = base.get? ⟨share, parent.join entry.name⟩
  room : base.get? ⟨share, parent.join entry.name⟩ = none → state.count < maxEntries

/-- A visit inserts the row, replaces it, or finds it as it should be; what a directory had beneath
it goes when it became a file. -/
theorem Visitable.visit_cases (h : Visitable base share parent state entry) :
    let key : RowKey := ⟨share, parent.join entry.name⟩
    let after := state.visit share parent entry
    (base.get? key = none ∧ after.rows = state.rows.insert key (entry.row parent) ∧
        after.count = state.count + 1) ∨
      (turns base share parent entry = true ∧
        after.rows = (deleteRows state.rows (below share key.path)).1.insert key (entry.row parent) ∧
        after.count = state.count - (deleteRows state.rows (below share key.path)).2) ∨
      ((base.get? key).isSome = true ∧ turns base share parent entry = false ∧
        after.rows = state.rows.insert key (entry.row parent) ∧ after.count = state.count) ∨
      (base.get? key = some (entry.row parent) ∧ turns base share parent entry = false ∧
        after.rows = state.rows ∧ after.count = state.count) := by
  intro key after
  simp only [after, Reconciling.visit]
  rw [if_neg (Nat.not_lt.mpr h.depth), h.existing]
  cases hold : base.get? key with
  | none =>
    dsimp only
    rw [if_pos (h.room hold)]
    exact .inl ⟨rfl, by rw [push_rows]; rfl, by rw [push_count]⟩
  | some old =>
    dsimp only
    have hturns : turns base share parent entry = (decide (old.kind = .directory) && decide (entry.kind = .file)) := by
      rw [turns, hold]
      rfl
    rw [hturns]
    by_cases hkind : old.kind = entry.kind
    · rw [if_neg (not_not.mpr hkind)]
      have hnot : (decide (old.kind = .directory) && decide (entry.kind = .file)) = false := by
        rw [hkind]
        cases entry.kind <;> rfl
      split
      · -- Nothing to write: the row is already the entry's.
        rename_i hsame
        obtain ⟨hparent, hname⟩ := VirtualPath.join_inj.mp (h.placed _ _ hold)
        refine .inr (.inr (.inr ⟨?_, hnot, by rw [push_rows], by rw [push_count]⟩))
        obtain ⟨hsize, hmodified⟩ := hsame
        cases old
        simp_all [DirectoryEntry.row]
      · exact .inr (.inr (.inl ⟨rfl, hnot, by rw [push_rows]; rfl, by rw [push_count]⟩))
    · rw [if_pos hkind]
      by_cases hdirectory : old.kind = .directory
      · have hfile : entry.kind = .file := by
          cases hentry : entry.kind with
          | file => rfl
          | directory => exact absurd (hdirectory.trans hentry.symm) hkind
        rw [if_pos hdirectory]
        refine .inr (.inl ⟨by simp [hdirectory, hfile], ?_, ?_⟩)
        · rw [push_rows]
          rfl
        · rw [push_count]
          rfl
      · rw [if_neg hdirectory]
        exact .inr (.inr (.inl ⟨rfl, by simp [hdirectory], by rw [push_rows]; rfl, by rw [push_count]⟩))

/-- The rows after a visit. -/
theorem Visitable.visit_get? (h : Visitable base share parent state entry) (key : RowKey) :
    (state.visit share parent entry).rows.get? key =
      if key = ⟨share, parent.join entry.name⟩ then some (entry.row parent)
      else if turns base share parent entry && below share (parent.join entry.name) key then none
      else state.rows.get? key := by
  have hset (rows : KeyedMap RowKey Row) : (rows.insert ⟨share, parent.join entry.name⟩ (entry.row parent)).get? key =
      if key = ⟨share, parent.join entry.name⟩ then some (entry.row parent) else rows.get? key := by
    split
    · rename_i hkey
      rw [hkey, KeyedMap.get?_insert_self]
    · rename_i hkey
      exact KeyedMap.get?_insert_ne _ hkey _
  rcases h.visit_cases with ⟨hnone, hrows, -⟩ | ⟨hturns, hrows, -⟩ | ⟨-, hturns, hrows, -⟩ |
    ⟨hsome, hturns, hrows, -⟩
  · have hturns : turns base share parent entry = false := by rw [turns, hnone]; rfl
    rw [hrows, hset, hturns]
    rfl
  · rw [hrows, hset, hturns, deleteRows_get?]
    rfl
  · rw [hrows, hset, hturns]
    rfl
  · rw [hrows, hturns]
    split
    · rename_i hkey
      rw [hkey, h.row, hsome]
    · rfl

/-- A visit keeps the count, and counts no more than a new row. -/
theorem Visitable.visit_count (h : Visitable base share parent state entry)
    (hcount : state.count = state.rows.size) :
    (state.visit share parent entry).count = (state.visit share parent entry).rows.size ∧
      (state.visit share parent entry).count ≤
        state.count + if (base.get? ⟨share, parent.join entry.name⟩).isNone then 1 else 0 := by
  rcases h.visit_cases with ⟨hnone, hrows, hafter⟩ | ⟨hturns, hrows, hafter⟩ | ⟨hsome, -, hrows, hafter⟩ |
    ⟨hsome, -, hrows, hafter⟩
  · have hrow := h.row.trans hnone
    rw [hrows, hafter, KeyedMap.size_insert_of_none hrow, hnone, hcount]
    simp
  · obtain ⟨old, hold⟩ : ∃ old, base.get? ⟨share, parent.join entry.name⟩ = some old := by
      cases hold : base.get? ⟨share, parent.join entry.name⟩ with
      | none => simp [turns, hold] at hturns
      | some old => exact ⟨old, rfl⟩
    have hkept : (deleteRows state.rows (below share (parent.join entry.name))).1.get?
        ⟨share, parent.join entry.name⟩ = some old := by
      rw [deleteRows_get?, below_child, if_neg Bool.false_ne_true, h.row, hold]
    rw [hrows, hafter, KeyedMap.size_insert_of_some hkept, deleteRows_size, hcount, hold]
    refine ⟨rfl, ?_⟩
    simp
  · obtain ⟨old, hold⟩ := Option.isSome_iff_exists.mp hsome
    rw [hrows, hafter, KeyedMap.size_insert_of_some (h.row.trans hold), hold, hcount]
    simp
  · rw [hrows, hafter, hsome, hcount]
    simp

/-- A visit takes its name from the snapshot. -/
theorem Visitable.visit_existing (h : Visitable base share parent state entry) (name : EntryName) :
    (state.visit share parent entry).existing.get? name =
      if name = entry.name then none else state.existing.get? name := by
  rw [← erase_get?]
  simp only [Reconciling.visit]
  rw [if_neg (Nat.not_lt.mpr h.depth)]
  cases hold : state.existing.get? entry.name with
  | none =>
    have herase : state.existing.erase entry.name = state.existing :=
      KeyedMap.erase_of_not_mem (KeyedMap.get?_eq_none.mp hold)
    dsimp only
    rw [herase]
    split
    · rw [push_existing]
    · rfl
  | some old =>
    dsimp only
    split
    · rw [push_existing]
      split <;> rfl
    · split
      · rw [push_existing]
      · rw [push_existing]

/-- An entry that is too deep leaves the rows, the count and the snapshot. -/
theorem visit_deep (hdepth : ¬(parent.join entry.name).depth ≤ maxPathDepth) :
    state.visit share parent entry = { state with capped := true } := by
  rw [Reconciling.visit, if_pos (Nat.lt_of_not_le hdepth)]

end Visits

section Listing

variable {base : KeyedMap RowKey Row} {share : ShareId} {parent : VirtualPath}

/-- The rows once some of the listing's entries are visited. -/
def settled (base : KeyedMap RowKey Row) (share : ShareId) (parent : VirtualPath)
    (done : List DirectoryEntry) (key : RowKey) : Option Row :=
  match done.find? fun entry => key = ⟨share, parent.join entry.name⟩ with
  | some entry => some (entry.row parent)
  | none =>
    if done.any (fun entry => turns base share parent entry && below share (parent.join entry.name) key)
    then none
    else base.get? key

/-- The entry found for a key. -/
theorem of_find?_child {done : List DirectoryEntry} {key : RowKey} {entry : DirectoryEntry}
    (h : done.find? (fun entry => decide (key = ⟨share, parent.join entry.name⟩)) = some entry) :
    entry ∈ done ∧ key = ⟨share, parent.join entry.name⟩ := by
  have hkey := List.find?_some h
  exact ⟨List.mem_of_find?_eq_some h, of_decide_eq_true hkey⟩

/-- The loop over the listing: counted, with the rows settled, the snapshot's other names, and room
for the entries to come. -/
structure Settling (base : KeyedMap RowKey Row) (share : ShareId) (parent : VirtualPath)
    (done todo : List DirectoryEntry) (state : Reconciling) : Prop where
  count_eq : state.count = state.rows.size
  room : state.count + unindexed base share parent todo ≤ maxEntries
  existing : ∀ name, state.existing.get? name =
    if name ∈ done.map DirectoryEntry.name then none else base.get? ⟨share, parent.join name⟩
  rows : ∀ key, state.rows.get? key = settled base share parent done key

/-- An entry of another name does not settle a child's key. -/
theorem settled_of_notMem {done : List DirectoryEntry} {name : EntryName}
    (h : name ∉ done.map DirectoryEntry.name) :
    settled base share parent done ⟨share, parent.join name⟩ = base.get? ⟨share, parent.join name⟩ := by
  have hfind : done.find? (fun entry =>
      decide ((⟨share, parent.join name⟩ : RowKey) = ⟨share, parent.join entry.name⟩)) = none := by
    refine List.find?_eq_none.mpr fun entry hentry heq => ?_
    have hname := (VirtualPath.join_inj.mp (RowKey.mk.inj (of_decide_eq_true heq)).2).2
    exact h (hname ▸ List.mem_map_of_mem hentry)
  rw [settled, hfind]
  dsimp only
  rw [if_neg]
  simp [below_child]

/-- Visiting one more entry settles its key, and what a directory had beneath it. -/
theorem settled_append {done : List DirectoryEntry} {entry : DirectoryEntry}
    (hfresh : entry.name ∉ done.map DirectoryEntry.name) (key : RowKey) :
    settled base share parent (done ++ [entry]) key =
      if key = ⟨share, parent.join entry.name⟩ then some (entry.row parent)
      else if turns base share parent entry && below share (parent.join entry.name) key then none
      else settled base share parent done key := by
  unfold settled
  rw [List.find?_append, List.any_append]
  cases hfind : done.find? fun entry => decide (key = ⟨share, parent.join entry.name⟩) with
  | some other =>
    obtain ⟨hother, hkey⟩ := of_find?_child hfind
    have hne : key ≠ ⟨share, parent.join entry.name⟩ := by
      intro heq
      have hname := (VirtualPath.join_inj.mp (RowKey.mk.inj (hkey.symm.trans heq)).2).2
      exact hfresh (hname ▸ List.mem_map_of_mem hother)
    have hout : (turns base share parent entry && below share (parent.join entry.name) key) = false := by
      rw [hkey, below_child, Bool.and_false]
    rw [if_neg hne, hout]
    rfl
  | none =>
    by_cases hkey : key = ⟨share, parent.join entry.name⟩
    · simp [hkey]
    · rw [List.find?_singleton, decide_eq_false hkey, if_neg hkey, List.any_cons, List.any_nil]
      cases turns base share parent entry && below share (parent.join entry.name) key <;> simp

/-- The loop visits one entry. -/
theorem Settling.visit (hplaced : WellPlaced base) {done todo : List DirectoryEntry}
    {entry : DirectoryEntry} {state : Reconciling}
    (h : Settling base share parent done (entry :: todo) state)
    (hdepth : (parent.join entry.name).depth ≤ maxPathDepth)
    (hfresh : entry.name ∉ done.map DirectoryEntry.name) :
    Settling base share parent (done ++ [entry]) todo (state.visit share parent entry) := by
  have hroom := h.room
  rw [unindexed, List.countP_cons] at hroom
  have hvisitable : Visitable base share parent state entry :=
    { depth := hdepth
      placed := hplaced
      existing := by rw [h.existing, if_neg hfresh]
      row := by rw [h.rows, settled_of_notMem hfresh]
      room := fun hnone => by
        rw [hnone] at hroom
        simp only [Option.isNone_none, if_true] at hroom
        omega }
  obtain ⟨hcount, hle⟩ := hvisitable.visit_count h.count_eq
  refine ⟨hcount, ?_, fun name => ?_, fun key => ?_⟩
  · rw [unindexed]
    push_cast at hroom
    omega
  · rw [hvisitable.visit_existing, h.existing, List.map_append, List.map_singleton]
    by_cases hname : name = entry.name
    · simp [hname]
    · simp [hname]
  · rw [hvisitable.visit_get?, settled_append hfresh, h.rows]

/-- The loop over a listing settles its entries within the depth limit. -/
theorem Settling.visits (hplaced : WellPlaced base) {done todo : List DirectoryEntry}
    {state : Reconciling} (h : Settling base share parent done (indexable parent todo) state)
    (hnodup : ((done ++ todo).map DirectoryEntry.name).Nodup) :
    Settling base share parent (done ++ indexable parent todo) []
      (todo.foldl (fun state entry => state.visit share parent entry) state) := by
  induction todo generalizing done state with
  | nil => simpa [indexable] using h
  | cons entry todo ih =>
    rw [List.foldl_cons]
    by_cases hdepth : (parent.join entry.name).depth ≤ maxPathDepth
    · have hindexable : indexable parent (entry :: todo) = entry :: indexable parent todo :=
        List.filter_cons_of_pos (decide_eq_true hdepth)
      have hfresh : entry.name ∉ done.map DirectoryEntry.name := by
        rw [List.map_append, List.map_cons, List.nodup_append] at hnodup
        exact fun hmem => hnodup.2.2 _ hmem _ List.mem_cons_self rfl
      rw [hindexable] at h ⊢
      have hnext := ih (h.visit hplaced hdepth hfresh) (by simpa using hnodup)
      simpa using hnext
    · have hindexable : indexable parent (entry :: todo) = indexable parent todo :=
        List.filter_cons_of_neg (by simpa using hdepth)
      rw [hindexable] at h ⊢
      rw [visit_deep hdepth]
      refine ih ⟨h.count_eq, h.room, h.existing, h.rows⟩ (hnodup.sublist ?_)
      exact ((List.Sublist.refl done).append (List.sublist_cons_self entry todo)).map _

end Listing

section Leftovers

variable {share : ShareId} {parent : VirtualPath}

/-- The loop over the leftovers takes each one's row, and what a directory had beneath it. -/
theorem vanishes_get? (todo : List (EntryName × Row)) (state : Reconciling) (key : RowKey) :
    (todo.foldl (fun state gone => state.vanish share parent gone) state).rows.get? key =
      if todo.any (fun gone => vanishing share (parent.join gone.1) gone.2.kind key) then none
      else state.rows.get? key := by
  induction todo generalizing state with
  | nil => rfl
  | cons gone todo ih =>
    rw [List.foldl_cons, ih, vanish_eq, List.any_cons]
    dsimp only
    rw [deleteRows_get?]
    cases hgone : vanishing share (parent.join gone.1) gone.2.kind key with
    | false => rw [Bool.false_or, if_neg Bool.false_ne_true]
    | true => simp

/-- The loop over the leftovers keeps the count. -/
theorem vanishes_count {todo : List (EntryName × Row)} {state : Reconciling}
    (h : state.count = state.rows.size) :
    (todo.foldl (fun state gone => state.vanish share parent gone) state).count =
      (todo.foldl (fun state gone => state.vanish share parent gone) state).rows.size := by
  induction todo generalizing state with
  | nil => exact h
  | cons gone todo ih =>
    rw [List.foldl_cons]
    refine ih ?_
    rw [vanish_eq]
    dsimp only
    rw [deleteRows_size, h]

end Leftovers

/-- The new entries of a listing fit under the row cap. -/
def BelowCap (index : Index) (share : ShareId) (parent : VirtualPath) (listing : List DirectoryEntry) :
    Prop := index.total + unindexed index.rows share parent listing ≤ maxEntries

instance (index : Index) (share : ShareId) (parent : VirtualPath) (listing : List DirectoryEntry) :
    Decidable (BelowCap index share parent listing) :=
  inferInstanceAs (Decidable (_ ≤ _))

section Reconciled

variable {index : Index} {share : ShareId} {parent : VirtualPath} {listing : List DirectoryEntry}

/-- Beneath a file there are no rows. -/
theorem Index.Sound.none_of_inRange_file (h : index.Sound) {path : VirtualPath} {row : Row}
    (hrow : index.rows.get? ⟨share, path⟩ = some row) (hfile : row.kind ≠ .directory)
    {key : RowKey} (hkey : below share path key = true) : index.rows.get? key = none := by
  by_contra hsome
  obtain ⟨other, hother⟩ := Option.ne_none_iff_exists'.mp hsome
  obtain ⟨keyShare, keyPath⟩ := key
  simp only [below, Bool.and_eq_true, decide_eq_true_eq] at hkey
  obtain ⟨rfl, hrange⟩ := hkey
  obtain ⟨directory, hdirectory, hkind⟩ := h.closed.ancestor h.placed hother hrange
  rw [hrow] at hdirectory
  exact hfile (Option.some.inj hdirectory ▸ hkind)

/-- A leftover: a row of a name that the listing no longer has. -/
def Leftover (rows : KeyedMap RowKey Row) (share : ShareId) (parent : VirtualPath)
    (listing : List DirectoryEntry) (name : EntryName) (row : Row) : Prop :=
  name ∉ listing.map DirectoryEntry.name ∧ rows.get? ⟨share, parent.join name⟩ = some row

/-- After both loops, what a leftover takes with it is gone, and the rest is as the listing settled
it. -/
theorem Index.Sound.reconcile_get? (h : index.Sound)
    (hnodup : (listing.map DirectoryEntry.name).Nodup)
    (hcap : BelowCap index share parent (indexable parent listing)) :
    (∀ key name row, Leftover index.rows share parent (indexable parent listing) name row →
      vanishing share (parent.join name) row.kind key = true →
      (index.reconcile share parent listing).1.rows.get? key = none) ∧
    (∀ key, (∀ name row, Leftover index.rows share parent (indexable parent listing) name row →
      vanishing share (parent.join name) row.kind key = false) →
      (index.reconcile share parent listing).1.rows.get? key =
        settled index.rows share parent (indexable parent listing) key) ∧
    (index.reconcile share parent listing).1.total =
      (index.reconcile share parent listing).1.rows.size := by
  have hstart : Settling index.rows share parent [] (indexable parent listing)
      ⟨index.rows, index.total, snapshot index.rows share parent, [], false⟩ :=
    ⟨h.total_eq, hcap, fun name => snapshot_get? h.placed share parent name, fun _ => rfl⟩
  have hvisited := hstart.visits h.placed hnodup
  rw [List.nil_append] at hvisited
  set visited := listing.foldl (fun (state : Reconciling) entry => state.visit share parent entry)
    ⟨index.rows, index.total, snapshot index.rows share parent, [], false⟩ with hvisitedEq
  have hleft (name : EntryName) (row : Row) : (name, row) ∈ visited.existing.entries ↔
      Leftover index.rows share parent (indexable parent listing) name row := by
    rw [← KeyedMap.get?_eq_some, hvisited.existing, Leftover, Option.ite_none_left_eq_some]
  have hrows (key : RowKey) := @vanishes_get? share parent visited.existing.entries visited key
  refine ⟨fun key name row hleftover hgone => ?_, fun key hkept => ?_, vanishes_count hvisited.count_eq⟩
  · refine (hrows key).trans (if_pos ?_)
    exact List.any_eq_true.mpr ⟨(name, row), (hleft name row).mpr hleftover, hgone⟩
  · refine ((hrows key).trans (if_neg ?_)).trans (hvisited.rows key)
    intro hany
    obtain ⟨⟨name, row⟩, hmem, hgone⟩ := List.any_eq_true.mp hany
    rw [hkept name row ((hleft name row).mp hmem)] at hgone
    cases hgone

/-- An entry settles its own key. -/
theorem settled_of_mem {rows : KeyedMap RowKey Row} {done : List DirectoryEntry}
    (hnodup : (done.map DirectoryEntry.name).Nodup) {entry : DirectoryEntry} (hentry : entry ∈ done) :
    settled rows share parent done ⟨share, parent.join entry.name⟩ = some (entry.row parent) := by
  have hsome : (done.find? fun other =>
      decide ((⟨share, parent.join entry.name⟩ : RowKey) = ⟨share, parent.join other.name⟩)).isSome := by
    rw [List.find?_isSome]
    exact ⟨entry, hentry, decide_eq_true rfl⟩
  obtain ⟨other, hfind⟩ := Option.isSome_iff_exists.mp hsome
  obtain ⟨hmem, hkey⟩ := of_find?_child hfind
  have hname := (VirtualPath.join_inj.mp (RowKey.mk.inj hkey).2).2
  have hother : other = entry := List.inj_on_of_nodup_map hnodup hmem hentry hname.symm
  rw [settled, hfind, hother]

/-- What is settled is an entry's row at its own key, or a row from before. -/
theorem eq_or_get?_of_settled {rows : KeyedMap RowKey Row} {done : List DirectoryEntry} {key : RowKey}
    {row : Row} (h : settled rows share parent done key = some row) :
    (∃ entry ∈ done, key = ⟨share, parent.join entry.name⟩ ∧ row = entry.row parent) ∨
      rows.get? key = some row ∧ ∀ entry ∈ done, key ≠ ⟨share, parent.join entry.name⟩ := by
  rw [settled] at h
  cases hfind : done.find? fun entry => decide (key = ⟨share, parent.join entry.name⟩) with
  | some entry =>
    rw [hfind] at h
    obtain ⟨hentry, hkey⟩ := of_find?_child hfind
    exact .inl ⟨entry, hentry, hkey, (Option.some.inj h).symm⟩
  | none =>
    rw [hfind] at h
    have hnone := List.find?_eq_none.mp hfind
    exact .inr ⟨(Option.ite_none_left_eq_some.mp h).2, fun entry hentry hkey =>
      hnone entry hentry (decide_eq_true hkey)⟩

/-- What lies beneath a dropped name is not settled. -/
theorem Index.Sound.settled_below (h : index.Sound) {entries : List DirectoryEntry}
    {name : EntryName} (hdropped : Dropped index.rows share parent entries name) {key : RowKey}
    (hkey : below share (parent.join name) key = true)
    (hkept : ∀ gone row, Leftover index.rows share parent entries gone row →
      vanishing share (parent.join gone) row.kind key = false) :
    settled index.rows share parent entries key = none := by
  have hfind : entries.find? (fun entry => decide (key = ⟨share, parent.join entry.name⟩)) = none := by
    refine List.find?_eq_none.mpr fun entry _ heq => ?_
    rw [of_decide_eq_true heq, below_child] at hkey
    cases hkey
  rw [settled, hfind]
  dsimp only
  rcases hdropped with ⟨hsome, hnot⟩ | ⟨entry, hentry, rfl, hturns⟩
  · obtain ⟨row, hrow⟩ := Option.isSome_iff_exists.mp hsome
    have hnotMem : name ∉ entries.map DirectoryEntry.name := by
      intro hmem
      obtain ⟨entry, hentry, hname⟩ := List.mem_map.mp hmem
      exact hnot entry hentry hname
    have hfile : row.kind ≠ .directory := by
      intro hdirectory
      have hgone := hkept name row ⟨hnotMem, hrow⟩
      have hrange : (key.share = share && inRange (parent.join name) key.path) = true := hkey
      simp [vanishing, hdirectory, hrange] at hgone
    rw [h.none_of_inRange_file hrow hfile hkey, ite_self]
  · exact if_pos (List.any_eq_true.mpr ⟨entry, hentry, by rw [hturns, hkey]; rfl⟩)

section Exact

variable (h : index.Sound) (hnodup : (listing.map DirectoryEntry.name).Nodup)
  (hcap : BelowCap index share parent (indexable parent listing))

include h hnodup hcap

/-- The directory's rows come from the listing: a row from before is a leftover, which took itself. -/
theorem exists_entry_of_reconciled {key : RowKey} {row : Row}
    (hrow : (index.reconcile share parent listing).1.rows.get? key = some row)
    (hshare : key.share = share) (hparent : row.parent = parent) :
    ∃ entry ∈ indexable parent listing, key = ⟨share, parent.join entry.name⟩ ∧
      row = entry.row parent := by
  obtain ⟨hgone, hkept, -⟩ := h.reconcile_get? hnodup hcap
  have hsettled : settled index.rows share parent (indexable parent listing) key = some row := by
    rw [← hkept key fun name leftover hleftover => ?_]
    · exact hrow
    · rw [← Bool.not_eq_true]
      intro hvanishing
      rw [hgone key name leftover hleftover hvanishing] at hrow
      cases hrow
  refine (eq_or_get?_of_settled hsettled).resolve_right ?_
  rintro ⟨hold, hnot⟩
  have hkey : key = ⟨share, parent.join row.name⟩ := by
    have hpath := h.placed key row hold
    rw [hparent] at hpath
    exact congrArg₂ RowKey.mk hshare hpath
  have hnotMem : row.name ∉ (indexable parent listing).map DirectoryEntry.name := by
    intro hmem
    obtain ⟨entry, hentry, hname⟩ := List.mem_map.mp hmem
    exact hnot entry hentry (hname ▸ hkey)
  have hnone := hgone key row.name row ⟨hnotMem, hkey ▸ hold⟩ (by simp [vanishing, hkey])
  rw [hnone] at hrow
  cases hrow

/-- Every entry of the listing has its row. -/
theorem reconciled_of_mem {entry : DirectoryEntry} (hentry : entry ∈ indexable parent listing) :
    (index.reconcile share parent listing).1.rows.get? ⟨share, parent.join entry.name⟩ =
      some (entry.row parent) := by
  obtain ⟨-, hkept, -⟩ := h.reconcile_get? hnodup hcap
  have hentries : ((indexable parent listing).map DirectoryEntry.name).Nodup :=
    hnodup.sublist (List.filter_sublist.map DirectoryEntry.name)
  refine (hkept _ fun name row hleftover => ?_).trans (settled_of_mem hentries hentry)
  have hne : entry.name ≠ name := fun heq => hleftover.1 (heq ▸ List.mem_map_of_mem hentry)
  simp [vanishing, VirtualPath.join_inj, hne, inRange_child_child]

/-- Nothing is left beneath a dropped name. -/
theorem reconciled_below {name : EntryName}
    (hdropped : Dropped index.rows share parent (indexable parent listing) name) {key : RowKey}
    (hkey : below share (parent.join name) key = true) :
    (index.reconcile share parent listing).1.rows.get? key = none := by
  obtain ⟨hgone, hkept, -⟩ := h.reconcile_get? hnodup hcap
  by_cases hleft : ∃ gone row, Leftover index.rows share parent (indexable parent listing) gone row ∧
      vanishing share (parent.join gone) row.kind key = true
  · obtain ⟨gone, row, hleftover, hvanishing⟩ := hleft
    exact hgone key gone row hleftover hvanishing
  · have hnot : ∀ gone row, Leftover index.rows share parent (indexable parent listing) gone row →
        vanishing share (parent.join gone) row.kind key = false := fun gone row hleftover =>
      Bool.eq_false_iff.mpr fun hvanishing => hleft ⟨gone, row, hleftover, hvanishing⟩
    exact (hkept key hnot).trans (h.settled_below hdropped hkey hnot)

/-- What is neither a child nor beneath a dropped name is as it was. -/
theorem reconciled_elsewhere {key : RowKey} (hchild : ∀ name, key ≠ ⟨share, parent.join name⟩)
    (hbelow : ∀ name, Dropped index.rows share parent (indexable parent listing) name →
      below share (parent.join name) key = false) :
    (index.reconcile share parent listing).1.rows.get? key = index.rows.get? key := by
  obtain ⟨-, hkept, -⟩ := h.reconcile_get? hnodup hcap
  have hnot : ∀ gone row, Leftover index.rows share parent (indexable parent listing) gone row →
      vanishing share (parent.join gone) row.kind key = false := by
    intro gone row hleftover
    have hdropped : Dropped index.rows share parent (indexable parent listing) gone :=
      .inl ⟨Option.isSome_iff_exists.mpr ⟨row, hleftover.2⟩, fun entry hentry hname =>
        hleftover.1 (hname ▸ List.mem_map_of_mem hentry)⟩
    have hout : (key.share = share && inRange (parent.join gone) key.path) = false := hbelow gone hdropped
    rw [vanishing, hout, Bool.and_false, Bool.or_false]
    exact decide_eq_false (hchild gone)
  refine (hkept key hnot).trans ?_
  have hfind : (indexable parent listing).find?
      (fun entry => decide (key = ⟨share, parent.join entry.name⟩)) = none :=
    List.find?_eq_none.mpr fun entry _ heq => hchild entry.name (of_decide_eq_true heq)
  rw [settled, hfind]
  refine if_neg fun hany => ?_
  obtain ⟨entry, hentry, hturned⟩ := List.any_eq_true.mp hany
  obtain ⟨hturns, hkey⟩ := Bool.and_eq_true_iff.mp hturned
  rw [hbelow entry.name (.inr ⟨entry, hentry, rfl, hturns⟩)] at hkey
  cases hkey

end Exact

/-- Reconciling a directory gives it exactly the listing's entries within the depth limit, drops
what was beneath a name that went or is a file's now, and changes nothing else; the range of texts
that it deletes is what lies strictly beneath the path. -/
theorem reconcile_exact (h : index.Sound) (hnodup : (listing.map DirectoryEntry.name).Nodup)
    (hcap : BelowCap index share parent (indexable parent listing)) :
    let entries := indexable parent listing
    let after := (index.reconcile share parent listing).1
    (∀ key row, (after.rows.get? key = some row ∧ key.share = share ∧ row.parent = parent) ↔
      ∃ entry ∈ entries, key = ⟨share, parent.join entry.name⟩ ∧ row = entry.row parent) ∧
    (∀ name, Dropped index.rows share parent entries name →
      ∀ key, below share (parent.join name) key = true → after.rows.get? key = none) ∧
    (∀ key, (∀ name, key ≠ ⟨share, parent.join name⟩) →
      (∀ name, Dropped index.rows share parent entries name →
        below share (parent.join name) key = false) →
      after.rows.get? key = index.rows.get? key) ∧
    after.total = after.rows.size ∧
    ∀ canonical, Separable canonical → ∀ name path : VirtualPath, name ≠ .root →
      name.Canonical canonical → path.Canonical canonical →
      (InTextRange name path ↔ path.isUnder name = true) := by
  intro entries after
  refine ⟨fun key row => ⟨?_, ?_⟩, fun name hdropped key hkey => ?_, fun key hchild hbelow => ?_,
    (h.reconcile_get? hnodup hcap).2.2, fun canonical hcanonical path other hroot hpath hother => ?_⟩
  · rintro ⟨hrow, hshare, hparent⟩
    exact exists_entry_of_reconciled h hnodup hcap hrow hshare hparent
  · rintro ⟨entry, hentry, rfl, rfl⟩
    exact ⟨reconciled_of_mem h hnodup hcap hentry, rfl, rfl⟩
  · exact reconciled_below h hnodup hcap hdropped hkey
  · exact reconciled_elsewhere h hnodup hcap hchild hbelow
  · rw [inTextRange_iff hcanonical hpath hother, inRange_iff]
    exact and_iff_right hroot

end Reconciled

/-- A share. -/
def notes : ShareId := ⟨"notes", by decide⟩

/-- The directory `p` with a file in it, and the file `p-x` beside it. -/
def siblings : Index where
  rows := ⟨[(⟨notes, ⟨[⟨"p"⟩]⟩⟩, ⟨.root, ⟨"p"⟩, .directory, none, none⟩),
    (⟨notes, ⟨[⟨"p"⟩, ⟨"a"⟩]⟩⟩, ⟨⟨[⟨"p"⟩]⟩, ⟨"a"⟩, .file, some 1, none⟩),
    (⟨notes, ⟨[⟨"p-x"⟩]⟩⟩, ⟨.root, ⟨"p-x"⟩, .file, some 2, none⟩)], by decide⟩
  total := 3

/-- `p` became a file, and `p0` is new. -/
def siblingsListing : List DirectoryEntry :=
  [⟨⟨"p"⟩, .file, 5, none⟩, ⟨⟨"p-x"⟩, .file, 2, none⟩, ⟨⟨"p0"⟩, .file, 7, none⟩]

theorem siblings_sound : siblings.Sound := by
  refine ⟨rfl, fun key row hrow => ?_, fun key row hrow => ?_⟩
  all_goals
    rw [KeyedMap.get?_eq_some] at hrow
    simp only [siblings, List.mem_cons, List.not_mem_nil, or_false, Prod.mk.injEq] at hrow
    rcases hrow with ⟨rfl, rfl⟩ | ⟨rfl, rfl⟩ | ⟨rfl, rfl⟩ <;> decide

theorem reconcile_exact_siblings :
    (siblings.reconcile notes .root siblingsListing).1.total =
        (siblings.reconcile notes .root siblingsListing).1.rows.size ∧
      (siblings.reconcile notes .root siblingsListing).1.rows.get? ⟨notes, ⟨[⟨"p"⟩, ⟨"a"⟩]⟩⟩ = none := by
  have hexact := @reconcile_exact siblings notes .root siblingsListing siblings_sound (by decide) (by decide)
  refine ⟨hexact.2.2.2.1, hexact.2.1 ⟨"p"⟩ (.inr ⟨⟨⟨"p"⟩, .file, 5, none⟩, ?_, rfl, by decide⟩) _ (by decide)⟩
  decide

/-- A directory at the depth limit gets no row for its entry, which would be below the limit. -/
theorem reconcile_skips_deep_entry :
    let parent : VirtualPath := ⟨List.replicate maxPathDepth ⟨"d"⟩⟩
    let index : Index := ⟨.empty, 0⟩
    let listing : List DirectoryEntry := [⟨⟨"f"⟩, .file, 0, none⟩]
    let after := (index.reconcile notes parent listing).1
    index.Sound ∧ (listing.map DirectoryEntry.name).Nodup ∧ BelowCap index notes parent listing ∧
      ¬∀ key row, (after.rows.get? key = some row ∧ key.share = notes ∧ row.parent = parent) ↔
        ∃ entry ∈ listing, key = ⟨notes, parent.join entry.name⟩ ∧ row = entry.row parent := by
  intro parent index listing after
  refine ⟨⟨rfl, nofun, nofun⟩, by decide, by decide, fun hexact => ?_⟩
  have hrow := ((hexact ⟨notes, parent.join ⟨"f"⟩⟩ _).mpr ⟨_, List.mem_singleton_self _, rfl, rfl⟩).1
  have hnone : after.rows.get? ⟨notes, parent.join ⟨"f"⟩⟩ = none := by decide
  rw [hnone] at hrow
  cases hrow

end Crabinet.Search
