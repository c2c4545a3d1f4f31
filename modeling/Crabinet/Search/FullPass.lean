import Crabinet.Search.Worker

/-!
# What a full pass prunes

A full pass descends from the root. A directory is covered while it or one of its
ancestors is queued for descent; once its own listing is reconciled, no row is left for a
name the listing does not have, nor beneath a name that is no directory.
-/

namespace Crabinet.Search

open Crabinet.Filesystem Crabinet.Library

section Noting

variable (share : ShareId) {parent : VirtualPath}

/-- Visiting an entry notes it when it is a directory, unless a bound was hit. -/
theorem visit_directories (parent : VirtualPath) (state : Reconciling) (entry : DirectoryEntry) :
    ((state.visit share parent entry).capped = true ∧
        (state.visit share parent entry).directories = state.directories) ∨
      ((state.visit share parent entry).capped = state.capped ∧
        ∃ new, (state.visit share parent entry).directories = state.directories ++
          if entry.kind = .directory then [(parent.join entry.name, new)] else []) := by
  have hcapped (state : Reconciling) (path : VirtualPath) (kind : EntryKind) (new : Bool) :
      (state.push path kind new).capped = state.capped := by
    unfold Reconciling.push
    split <;> rfl
  unfold Reconciling.visit
  dsimp only
  split
  · exact .inl ⟨rfl, rfl⟩
  · split
    · refine .inr ?_
      split
      · split
        · exact ⟨by rw [hcapped]; rfl, true, by rw [push_directories]; rfl⟩
        · exact ⟨by rw [hcapped], true, by rw [push_directories]⟩
      · split
        · exact ⟨by rw [hcapped], false, by rw [push_directories]⟩
        · exact ⟨by rw [hcapped], false, by rw [push_directories]⟩
    · split
      · exact .inr ⟨by rw [hcapped], true, by rw [push_directories]⟩
      · exact .inl ⟨rfl, rfl⟩

/-- The visits so far noted the directories of `seen`, or hit a bound. -/
def Noted (parent : VirtualPath) (seen : List DirectoryEntry) (state : Reconciling) : Prop :=
  state.capped = true ∨ ∀ entry ∈ seen, entry.kind = .directory →
    ∃ new, (parent.join entry.name, new) ∈ state.directories

theorem Noted.visits {seen todo : List DirectoryEntry} {state : Reconciling}
    (h : Noted parent seen state) :
    Noted parent (seen ++ todo)
      (todo.foldl (fun (state : Reconciling) entry => state.visit share parent entry) state) := by
  induction todo generalizing seen state with
  | nil =>
    rw [List.append_nil]
    exact h
  | cons entry todo ih =>
    rw [← List.singleton_append, ← List.append_assoc, List.singleton_append, List.foldl_cons]
    apply ih
    rcases visit_directories share parent state entry with
      ⟨hcapped, -⟩ | ⟨hcapped, new, hdirectories⟩
    · exact .inl hcapped
    · rcases h with h | h
      · exact .inl (hcapped.trans h)
      · refine .inr fun other hother hkind => ?_
        rw [hdirectories]
        rcases List.mem_append.mp hother with hseen | hlast
        · obtain ⟨old, hold⟩ := h other hseen hkind
          exact ⟨old, List.mem_append_left _ hold⟩
        · obtain rfl := List.mem_singleton.mp hlast
          exact ⟨new, List.mem_append_right _ (by rw [if_pos hkind]; exact List.mem_singleton_self _)⟩

theorem vanishes_directories (parent : VirtualPath) (leftovers : List (EntryName × Row)) (state : Reconciling) :
    (leftovers.foldl (fun (state : Reconciling) gone => state.vanish share parent gone)
        state).directories = state.directories ∧
      (leftovers.foldl (fun (state : Reconciling) gone => state.vanish share parent gone)
        state).capped = state.capped := by
  induction leftovers generalizing state with
  | nil => exact ⟨rfl, rfl⟩
  | cons gone leftovers ih =>
    rw [List.foldl_cons, vanish_eq]
    exact ih _

/-- Reconciling notes every directory of the listing, unless it hit a bound. -/
theorem reconcile_notes (index : Index) (share : ShareId) (parent : VirtualPath)
    (listing : List DirectoryEntry) :
    (index.reconcile share parent listing).2.2 = true ∨
      ∀ entry ∈ listing, entry.kind = .directory →
        ∃ new, (parent.join entry.name, new) ∈ (index.reconcile share parent listing).2.1 := by
  have hstart : Noted parent []
      ⟨index.rows, index.total, snapshot index.rows share parent, [], false⟩ :=
    .inr fun entry hentry => by cases hentry
  have hvisited : Noted parent ([] ++ listing) (listing.foldl
      (fun (state : Reconciling) entry => state.visit share parent entry) _) := hstart.visits share
  rw [List.nil_append] at hvisited
  unfold Index.reconcile
  dsimp only
  rw [(vanishes_directories _ _ _ _).1, (vanishes_directories _ _ _ _).2]
  exact hvisited

end Noting

section Queue

/-- The queue only grows, and a bound once hit stays hit. -/
theorem enqueue_keeps (pending : List (VirtualPath × Bool)) (recursive hit : Bool)
    (directories : List (VirtualPath × Bool)) :
    (∀ queued ∈ pending, queued ∈ (enqueue pending recursive hit directories).1) ∧
      (hit = true → (enqueue pending recursive hit directories).2 = true) := by
  induction directories generalizing pending hit with
  | nil => exact ⟨fun _ h => h, id⟩
  | cons directory directories ih =>
    unfold enqueue
    split
    · split
      · exact ⟨(ih pending true).1, fun _ => (ih pending true).2 rfl⟩
      · have hrest := ih (pending ++ [(directory.1, true)]) hit
        exact ⟨fun queued h => hrest.1 queued (List.mem_append_left _ h), hrest.2⟩
    · exact ih pending hit

/-- A descent queues every subdirectory, unless a bound is hit. -/
theorem mem_enqueue (pending : List (VirtualPath × Bool)) (hit : Bool)
    {directories : List (VirtualPath × Bool)} {directory : VirtualPath × Bool}
    (h : directory ∈ directories) :
    (directory.1, true) ∈ (enqueue pending true hit directories).1 ∨
      (enqueue pending true hit directories).2 = true := by
  induction directories generalizing pending hit with
  | nil => cases h
  | cons first directories ih =>
    unfold enqueue
    simp only [Bool.true_or, if_true]
    rcases List.mem_cons.mp h with rfl | h
    · split
      · exact .inr ((enqueue_keeps pending true true directories).2 rfl)
      · refine .inl ((enqueue_keeps _ true hit directories).1 _ ?_)
        exact List.mem_append_right _ (List.mem_singleton_self _)
    · split
      · exact ih pending true h
      · exact ih _ hit h

end Queue

/-! ### Names that are gone -/

namespace Disk

/-- The ancestors of a directory are directories. -/
theorem list_ancestor (disk : Disk) {path ancestor : VirtualPath}
    (h : (disk.list path).isSome = true) (hstarts : path.startsWith ancestor = true) :
    (disk.list ancestor).isSome = true := by
  induction hdepth : path.depth generalizing path with
  | zero =>
    rcases path.eq_root_or_join with rfl | ⟨parent, name, rfl⟩
    · have hroot : ancestor = .root := VirtualPath.startsWith_antisymm (by simp) hstarts
      exact hroot ▸ h
    · simp at hdepth
  | succ depth ih =>
    rcases path.eq_root_or_join with rfl | ⟨parent, name, rfl⟩
    · simp at hdepth
    · rcases VirtualPath.join_startsWith_iff.mp hstarts with hstarts | rfl
      · obtain ⟨entries, hlist, -⟩ := (disk.tree parent name).mp h
        exact ih (by rw [hlist]; rfl) hstarts (by simpa using hdepth)
      · exact h

/-- Something at or above a path that is no directory lies in a directory. -/
theorem exists_edge (disk : Disk) {path : VirtualPath} (h : disk.list path = none) :
    ∃ parent name, (disk.list parent).isSome = true ∧ disk.list (parent.join name) = none ∧
      path.startsWith (parent.join name) = true := by
  induction hdepth : path.depth generalizing path with
  | zero =>
    rcases path.eq_root_or_join with rfl | ⟨parent, name, rfl⟩
    · have hroot := disk.root
      rw [h] at hroot
      cases hroot
    · simp at hdepth
  | succ depth ih =>
    rcases path.eq_root_or_join with rfl | ⟨parent, name, rfl⟩
    · simp at hdepth
    · cases hparent : disk.list parent with
      | some entries => exact ⟨parent, name, by rw [hparent]; rfl, h, by simp⟩
      | none =>
        obtain ⟨above, child, habove, hchild, hstarts⟩ := ih hparent (by simpa using hdepth)
        exact ⟨above, child, habove, hchild, VirtualPath.join_startsWith_iff.mpr (.inl hstarts)⟩

end Disk

/-- A directory on disk has an entry for the path. -/
def OnDisk (disk : Disk) (path : VirtualPath) : Prop :=
  ∃ parent entries, disk.list parent = some entries ∧
    ∃ entry ∈ entries, path = parent.join entry.name

/-- The path is not on disk: in the directory `parent` it has no entry, or it would lie beneath
something that is no directory. -/
def Missing (disk : Disk) (parent : VirtualPath) (name : EntryName) (path : VirtualPath) : Prop :=
  (disk.list parent).isSome = true ∧
    ((path = parent.join name ∧
        ∀ entries, disk.list parent = some entries → ∀ entry ∈ entries, entry.name ≠ name) ∨
      (path.isUnder (parent.join name) = true ∧ disk.list (parent.join name) = none))

/-- A path that is not on disk is missing somewhere. -/
theorem exists_missing {disk : Disk} {path : VirtualPath} (hroot : path ≠ .root)
    (h : ¬OnDisk disk path) : ∃ parent name, Missing disk parent name path := by
  rcases path.eq_root_or_join with rfl | ⟨parent, name, rfl⟩
  · exact absurd rfl hroot
  · cases hlist : disk.list parent with
    | some entries =>
      refine ⟨parent, name, by rw [hlist]; rfl, .inl ⟨rfl, fun entries' hlist' entry hentry hname => ?_⟩⟩
      exact h ⟨parent, entries', hlist', entry, hentry, by rw [hname]⟩
    | none =>
      obtain ⟨above, child, habove, hchild, hstarts⟩ := disk.exists_edge hlist
      exact ⟨above, child, habove, .inr ⟨VirtualPath.join_isUnder_iff.mpr hstarts, hchild⟩⟩

namespace Missing

variable {disk : Disk} {parent path : VirtualPath} {name : EntryName}

/-- No listing has an entry for the path. -/
theorem not_listed {directory : VirtualPath} {child : EntryName}
    (h : Missing disk parent name (directory.join child)) {entries : List DirectoryEntry}
    (hlist : disk.list directory = some entries) : ∀ entry ∈ entries, entry.name ≠ child := by
  rcases h.2 with ⟨heq, hnot⟩ | ⟨hunder, hnone⟩
  · obtain ⟨rfl, rfl⟩ := VirtualPath.join_inj.mp heq
    exact hnot entries hlist
  · have hdirectory := disk.list_ancestor (by rw [hlist]; rfl) (VirtualPath.join_isUnder_iff.mp hunder)
    rw [hnone] at hdirectory
    cases hdirectory

/-- The listing of an ancestor shows the way to the parent. -/
theorem entry_toward (h : Missing disk parent name path) {ancestor : VirtualPath}
    {entries : List DirectoryEntry} (hlist : disk.list ancestor = some entries)
    (hunder : parent.isUnder ancestor = true) :
    ∃ entry ∈ entries, entry.kind = .directory ∧
      parent.startsWith (ancestor.join entry.name) = true := by
  obtain ⟨child, hchild⟩ := VirtualPath.exists_child_of_isUnder hunder
  obtain ⟨entries', hlist', entry, hentry, rfl, hkind⟩ :=
    (disk.tree ancestor child).mp (disk.list_ancestor h.1 hchild)
  obtain rfl := Option.some.inj (hlist.symm.trans hlist')
  exact ⟨entry, hentry, hkind, hchild⟩

/-- A sound index whose children of `parent` are all listed has no row for the path. -/
theorem no_row (h : Missing disk parent name path) {index : Index} (hsound : index.Sound)
    {share : ShareId} {entries : List DirectoryEntry} (hlist : disk.list parent = some entries)
    (hlisted : ∀ row, index.rows.get? ⟨share, parent.join name⟩ = some row →
      ∃ entry ∈ entries, entry.name = name ∧ entry.kind = row.kind) :
    index.rows.get? ⟨share, path⟩ = none := by
  by_contra hsome
  obtain ⟨row, hrow⟩ := Option.ne_none_iff_exists'.mp hsome
  rcases h.2 with ⟨rfl, hnot⟩ | ⟨hunder, hnone⟩
  · obtain ⟨entry, hentry, hname, -⟩ := hlisted row hrow
    exact hnot entries hlist entry hentry hname
  · have hrange : inRange (parent.join name) path = true :=
      inRange_iff.mpr ⟨VirtualPath.join_ne_root _ _, hunder⟩
    obtain ⟨top, htop, hkind⟩ := hsound.closed.ancestor hsound.placed hrow hrange
    obtain ⟨entry, hentry, hname, hentryKind⟩ := hlisted top htop
    have hdirectory : (disk.list (parent.join name)).isSome = true :=
      (disk.tree parent name).mpr ⟨entries, hlist, entry, hentry, hname, hentryKind.trans hkind⟩
    rw [hnone] at hdirectory
    cases hdirectory

end Missing

/-! ### The descent of a full pass -/

/-- The loop's `hit`. -/
def Phase.hit : Phase → Bool
  | .idle => false
  | .looping hit => hit
  | .listed hit _ _ _ => hit

/-- The pass hit a bound, or ended incomplete. -/
def ShareWork.Flagged (work : ShareWork) : Prop :=
  (work.fullPass = true ∧ (work.passIncomplete = true ∨ work.phase.hit = true)) ∨
    (work.fullPass = false ∧ work.incomplete = true ∧ work.complete = false)

/-- A directory at or above `parent` is queued for descent, or listed and not yet reconciled. -/
def ShareWork.Covers (work : ShareWork) (parent : VirtualPath) : Prop :=
  work.fullPass = true ∧ ∃ above, parent.startsWith above = true ∧
    ((above, true) ∈ work.pending ∨ ∃ hit entries, work.phase = .listed hit above true entries)

namespace System

/-- During a pass, a path that stays missing has no row, or its directory is still to be reconciled,
or the pass hit a bound. -/
structure Descending (system : System) (share : ShareId) (parent : VirtualPath) (name : EntryName)
    (path : VirtualPath) : Prop where
  seen : ∀ hit directory recursive entries,
    (system.work share).phase = .listed hit directory recursive entries →
      ∃ disk, Missing disk parent name path ∧ disk.list directory = some entries
  progress : system.index.rows.get? ⟨share, path⟩ = none ∨ (system.work share).Flagged ∨
    (system.work share).Covers parent

variable {system next : System} {share : ShareId} {parent path : VirtualPath} {name : EntryName}

/-- A pass that starts covers every directory. -/
theorem Descending.start (hstep : system.step (.startPass share) = some next) :
    next.Descending share parent name path := by
  obtain ⟨⟨hidle, -⟩, hnext⟩ := Option.ite_none_right_eq_some.mp hstep
  obtain rfl := Option.some.inj hnext
  refine ⟨fun hit directory recursive entries hlisted => ?_, .inr (.inr ?_)⟩
  · rw [setWork_self] at hlisted
    simp [hidle] at hlisted
  · rw [setWork_self]
    exact ⟨rfl, .root, by simp, .inl (List.mem_singleton_self _)⟩

/-- Steps that keep the share's work, up to the dirty set, and add no row for the path. -/
theorem Descending.frame (h : system.Descending share parent name path)
    (hwork : ∃ dirty, next.work share = { system.work share with dirty })
    (hrow : system.index.rows.get? ⟨share, path⟩ = none → next.index.rows.get? ⟨share, path⟩ = none) :
    next.Descending share parent name path := by
  obtain ⟨dirty, hwork⟩ := hwork
  refine ⟨fun hit directory recursive entries hlisted => ?_, ?_⟩
  · rw [hwork] at hlisted
    exact h.seen hit directory recursive entries hlisted
  · rw [hwork]
    exact h.progress.imp_left hrow

/-- Another share's work is not touched by setting this one's. -/
theorem Descending.frame_setWork (h : system.Descending share parent name path) {other : ShareId}
    (hother : other ≠ share) (work : ShareWork) :
    (system.setWork other work).Descending share parent name path :=
  h.frame ⟨(system.work share).dirty, setWork_ne system hother.symm work⟩ id

/-- Setting the share's own work without a new listing. -/
theorem Descending.setWork (h : system.Descending share parent name path) {work : ShareWork}
    (hphase : ∀ hit directory recursive entries, work.phase ≠ .listed hit directory recursive entries)
    (hflagged : (system.work share).Flagged → work.Flagged)
    (hcovers : (system.work share).Covers parent → work.Flagged ∨ work.Covers parent) :
    (system.setWork share work).Descending share parent name path := by
  refine ⟨fun hit directory recursive entries hlisted => ?_, ?_⟩
  · rw [setWork_self] at hlisted
    exact absurd hlisted (hphase hit directory recursive entries)
  · rw [setWork_self]
    rcases h.progress with hrow | hflag | hcover
    · exact .inl hrow
    · exact .inr (.inl (hflagged hflag))
    · exact .inr (hcovers hcover)

/-- Reconciling a listing that lacks the path inserts no row for it. -/
theorem reconcile_missing {index : Index} (hsound : index.Sound) {disk : Disk}
    (hmissing : Missing disk parent name path) {directory : VirtualPath}
    {entries : List DirectoryEntry} (hlist : disk.list directory = some entries)
    (htimely : Anchored index.rows share directory ∨ NothingToInsert index directory entries)
    (hrow : index.rows.get? ⟨share, path⟩ = none) :
    (index.reconcile share directory entries).1.rows.get? ⟨share, path⟩ = none := by
  by_cases hanchored : Anchored index.rows share directory
  · have hdone := hsound.reconcile hanchored (disk.nodup directory entries hlist)
    by_contra hsome
    obtain ⟨row, hafter⟩ := Option.ne_none_iff_exists'.mp hsome
    by_cases hchild : ∃ child, path = directory.join child
    · obtain ⟨child, rfl⟩ := hchild
      obtain ⟨entry, hentry, hname, -⟩ := hdone.listed child row hafter
      exact hmissing.not_listed hlist entry hentry hname
    · have hbefore := hdone.outside _ row hafter fun _ child heq => hchild ⟨child, heq⟩
      rw [hrow] at hbefore
      cases hbefore
  · rw [hsound.reconcile_unanchored hanchored (htimely.resolve_left hanchored)]
    exact hrow

/-- Reconciling the directory in which the path is missing removes its row. -/
theorem reconcile_parent {index : Index} (hsound : index.Sound) {disk : Disk}
    (hmissing : Missing disk parent name path) {entries : List DirectoryEntry}
    (hlist : disk.list parent = some entries)
    (htimely : Anchored index.rows share parent ∨ NothingToInsert index parent entries) :
    (index.reconcile share parent entries).1.rows.get? ⟨share, path⟩ = none := by
  by_cases hanchored : Anchored index.rows share parent
  · have hdone := hsound.reconcile hanchored (disk.nodup parent entries hlist)
    refine hmissing.no_row hdone.sound hlist fun row hrow => ?_
    obtain ⟨entry, hentry, hname, hkind, -⟩ := hdone.listed name row hrow
    exact ⟨entry, hentry, hname, hkind⟩
  · rw [hsound.reconcile_unanchored hanchored (htimely.resolve_left hanchored)]
    refine hmissing.no_row hsound hlist fun row hrow => ?_
    rw [hsound.no_child hanchored] at hrow
    cases hrow

/-- Reconciling a listing of the share descends one step. -/
theorem Descending.reconcile (h : system.Descending share parent name path)
    (hsettled : system.Settled) (hstep : system.step (.reconcile share) = some next)
    (htimely : system.Timely (.reconcile share)) : next.Descending share parent name path := by
  obtain ⟨hit, directory, recursive, entries, hphase, hindex, hwork⟩ := step_reconcile hstep
  obtain ⟨disk, hmissing, hlist⟩ := h.seen hit directory recursive entries hphase
  have htimely := htimely.reconcile hphase
  set directories := (system.index.reconcile share directory entries).2.1
  set capped := (system.index.reconcile share directory entries).2.2
  set queue := enqueue (system.work share).pending recursive (hit || capped) directories with hqueue
  have hkeeps := enqueue_keeps (system.work share).pending recursive (hit || capped) directories
  rw [← hqueue] at hkeeps
  have hself : next.work share =
      { system.work share with pending := queue.1, phase := .looping queue.2 } := by
    rw [hwork, Function.update_self]
  refine ⟨fun hit' directory' recursive' entries' hlisted => ?_, ?_⟩
  · rw [hself] at hlisted
    cases hlisted
  · rw [hself, hindex]
    have hflag (hfull : (system.work share).fullPass = true) (hhit : queue.2 = true) :
        ShareWork.Flagged
          { system.work share with pending := queue.1, phase := .looping queue.2 } :=
      .inl ⟨hfull, .inr hhit⟩
    rcases h.progress with hrow | hflagged | ⟨hfull, above, habove, hqueued | ⟨hit', entries', hlisted⟩⟩
    · exact .inl (reconcile_missing hsettled.sound hmissing hlist htimely hrow)
    · refine .inr (.inl ?_)
      rcases hflagged with ⟨hfull, hpass | hhit⟩ | hended
      · exact .inl ⟨hfull, .inl hpass⟩
      · rw [hphase] at hhit
        have hhit : hit = true := hhit
        exact hflag hfull (hkeeps.2 (by rw [hhit, Bool.true_or]))
      · exact .inr hended
    · exact .inr (.inr ⟨hfull, above, habove, .inl (hkeeps.1 _ hqueued)⟩)
    · -- The covering directory is the one that is reconciled.
      obtain ⟨rfl, rfl, rfl, rfl⟩ := Phase.listed.inj (hphase.symm.trans hlisted)
      by_cases hparent : parent = directory
      · subst hparent
        exact .inl (reconcile_parent hsettled.sound hmissing hlist htimely)
      · refine .inr ?_
        obtain ⟨entry, hentry, hkind, hstarts⟩ := hmissing.entry_toward hlist
          (VirtualPath.isUnder_iff.mpr ⟨habove, hparent⟩)
        rcases reconcile_notes system.index share directory entries with hcapped | hnoted
        · have hcapped : capped = true := hcapped
          exact .inl (hflag hfull (hkeeps.2 (by rw [hcapped, Bool.or_true])))
        · obtain ⟨new, hmem⟩ := hnoted entry hentry hkind
          rcases mem_enqueue (system.work share).pending (hit || capped) hmem with hqueued | hhit
          · exact .inr ⟨hfull, directory.join entry.name, hstarts, .inl hqueued⟩
          · exact .inl (hflag hfull hhit)

/-- Listing the next directory of the share keeps the descent. -/
theorem Descending.list (h : system.Descending share parent name path) {outcome : ListOutcome}
    (hstep : system.step (.list share outcome) = some next)
    (hmissing : Missing (system.disk share) parent name path) :
    next.Descending share parent name path := by
  obtain ⟨hit, directory, recursive, pending, hphase, hpending, hnext⟩ := step_list hstep
  have hrest {above : VirtualPath} (hqueued : (above, true) ∈ (system.work share).pending) :
      (above = directory ∧ recursive = true) ∨ (above, true) ∈ pending := by
    rw [hpending] at hqueued
    rcases List.mem_cons.mp hqueued with heq | hqueued
    · obtain ⟨rfl, rfl⟩ := Prod.mk.inj heq
      exact .inl ⟨rfl, rfl⟩
    · exact .inr hqueued
  have hnotListed {above : VirtualPath} :
      ¬∃ hit' entries, (system.work share).phase = .listed hit' above true entries := by
    rintro ⟨hit', entries, hlisted⟩
    rw [hphase] at hlisted
    cases hlisted
  rcases hnext with ⟨entries, hlist, rfl⟩ | ⟨hnone, rfl⟩ | rfl
  · refine ⟨fun hit' directory' recursive' entries' hlisted => ?_, ?_⟩
    · rw [setWork_self] at hlisted
      obtain ⟨-, rfl, -, rfl⟩ := Phase.listed.inj hlisted
      exact ⟨system.disk share, hmissing, hlist⟩
    · rw [setWork_self, setWork_index]
      rcases h.progress with hrow | hflagged | ⟨hfull, above, habove, hqueued | hlisted⟩
      · exact .inl hrow
      · refine .inr (.inl ?_)
        rcases hflagged with ⟨hfull, hpass | hhit⟩ | hended
        · exact .inl ⟨hfull, .inl hpass⟩
        · rw [hphase] at hhit
          exact .inl ⟨hfull, .inr hhit⟩
        · exact .inr hended
      · refine .inr (.inr ⟨hfull, above, habove, ?_⟩)
        rcases hrest hqueued with ⟨rfl, rfl⟩ | hqueued
        · exact .inr ⟨hit, entries, rfl⟩
        · exact .inl hqueued
      · exact absurd hlisted hnotListed
  · refine h.setWork (fun _ _ _ _ hlisted => by cases hlisted) (fun hflagged => ?_) ?_
    · rcases hflagged with ⟨hfull, hpass | hhit⟩ | hended
      · exact .inl ⟨hfull, .inl hpass⟩
      · rw [hphase] at hhit
        exact .inl ⟨hfull, .inr hhit⟩
      · exact .inr hended
    · rintro ⟨hfull, above, habove, hqueued | hlisted⟩
      · rcases hrest hqueued with ⟨rfl, rfl⟩ | hqueued
        · -- The way to the parent is on disk.
          have habove := (system.disk share).list_ancestor hmissing.1 habove
          rw [hnone] at habove
          cases habove
        · exact .inr ⟨hfull, above, habove, .inl hqueued⟩
      · exact absurd hlisted hnotListed
  · refine h.setWork (fun _ _ _ _ hlisted => by cases hlisted) (fun hflagged => ?_) fun hcovers => ?_
    · rcases hflagged with ⟨hfull, -⟩ | hended
      · exact .inl ⟨hfull, .inr rfl⟩
      · exact .inr hended
    · exact .inl (.inl ⟨hcovers.1, .inr rfl⟩)

/-- The end of a slice keeps the descent. -/
theorem Descending.endSlice (h : system.Descending share parent name path)
    (hstep : system.step (.endSlice share) = some next) :
    next.Descending share parent name path := by
  unfold System.step at hstep
  dsimp only at hstep
  split at hstep
  · rename_i hit hphase
    obtain rfl := Option.some.inj hstep
    refine h.setWork (fun _ _ _ _ hlisted => by cases hlisted) (fun hflagged => ?_) ?_
    · unfold ShareWork.Flagged ShareWork.finish
      rcases hflagged with ⟨hfull, hbound⟩ | ⟨hfull, hincomplete, hcomplete⟩
      · have hbound : ((system.work share).passIncomplete || hit) = true := by
          rw [hphase] at hbound
          exact Bool.or_eq_true_iff.mpr hbound
        by_cases hempty : (system.work share).pending.isEmpty = true
        · exact .inr (by simp [hfull, hempty, hbound])
        · exact .inl (by simp [hfull, hempty, hbound])
      · exact .inr (by simp [hfull, hincomplete])
    · rintro ⟨hfull, above, habove, hqueued | ⟨hit', entries, hlisted⟩⟩
      · have hempty : (system.work share).pending.isEmpty = false := by
          rw [List.isEmpty_eq_false_iff]
          exact List.ne_nil_of_mem hqueued
        refine .inr ⟨?_, above, habove, .inl ?_⟩
        · simp [ShareWork.finish, hfull, hempty]
        · simpa [ShareWork.finish, hfull, hempty] using hqueued
      · rw [hphase] at hlisted
        cases hlisted
  · cases hstep

/-- Every timely step of a pass keeps the descent, while the path stays missing. -/
theorem Descending.step (h : system.Descending share parent name path) (hsettled : system.Settled)
    {action : Action} (hstep : system.step action = some next) (htimely : system.Timely action)
    (hmissing : Missing (system.disk share) parent name path) (hpass : action ≠ .startPass share) :
    next.Descending share parent name path := by
  have hsame {other : ShareId} (hother : other ≠ share) (work : ShareWork) :=
    h.frame_setWork hother work
  cases action with
  | change other disk =>
    obtain rfl := Option.some.inj hstep
    exact h.frame ⟨(system.work share).dirty, rfl⟩ id
  | forget other forgotten =>
    obtain rfl := Option.some.inj hstep
    refine h.frame ⟨(system.work share).dirty, rfl⟩ fun hrow => ?_
    unfold Index.forget
    dsimp only
    rw [deleteRows_get?, hrow, ite_self]
  | mark other marked =>
    obtain rfl := Option.some.inj hstep
    by_cases hother : other = share
    · subst hother
      exact h.frame ⟨_, setWork_self _ _ _⟩ id
    · exact hsame hother _
  | startPass other =>
    obtain ⟨-, hnext⟩ := Option.ite_none_right_eq_some.mp hstep
    obtain rfl := Option.some.inj hnext
    exact hsame (fun heq => hpass (heq ▸ rfl)) _
  | drain other order =>
    obtain ⟨⟨hidle, hpending, -⟩, hnext⟩ := Option.ite_none_right_eq_some.mp hstep
    obtain rfl := Option.some.inj hnext
    by_cases hother : other = share
    · subst hother
      refine h.setWork (fun _ _ _ _ hlisted => by simp [hidle] at hlisted) id ?_
      rintro ⟨-, above, -, hqueued | ⟨hit, entries, hlisted⟩⟩
      · simp [hpending] at hqueued
      · simp [hidle] at hlisted
    · exact hsame hother _
  | beginSlice other =>
    obtain ⟨hidle, hnext⟩ := Option.ite_none_right_eq_some.mp hstep
    obtain rfl := Option.some.inj hnext
    by_cases hother : other = share
    · subst hother
      refine h.setWork (fun _ _ _ _ hlisted => by cases hlisted) (fun hflagged => ?_) ?_
      · rcases hflagged with ⟨hfull, hbound | hhit⟩ | hended
        · exact .inl ⟨hfull, .inl hbound⟩
        · simp [hidle, Phase.hit] at hhit
        · exact .inr hended
      · rintro ⟨hfull, above, habove, hqueued | ⟨hit, entries, hlisted⟩⟩
        · exact .inr ⟨hfull, above, habove, .inl hqueued⟩
        · simp [hidle] at hlisted
    · exact hsame hother _
  | list other outcome =>
    by_cases hother : other = share
    · subst hother
      exact h.list hstep hmissing
    · obtain ⟨hit, directory, recursive, pending, -, -, hnext⟩ := step_list hstep
      rcases hnext with ⟨entries, -, rfl⟩ | ⟨-, rfl⟩ | rfl <;> exact hsame hother _
  | reconcile other =>
    by_cases hother : other = share
    · subst hother
      exact h.reconcile hsettled hstep htimely
    · obtain ⟨hit, directory, recursive, entries, hphase, hindex, hwork⟩ := step_reconcile hstep
      refine h.frame ⟨(system.work share).dirty, ?_⟩ fun hrow => ?_
      · rw [hwork, Function.update_of_ne (Ne.symm hother)]
      · rw [hindex]
        by_cases hanchored : Anchored system.index.rows other directory
        · have hdone := hsettled.sound.reconcile hanchored
            (hsettled.distinct other hit directory recursive entries hphase)
          rw [hdone.foreign _ (Ne.symm hother), hrow]
        · have hnothing := (htimely.reconcile hphase).resolve_left hanchored
          rw [hsettled.sound.reconcile_unanchored hanchored hnothing]
          exact hrow
  | endSlice other =>
    by_cases hother : other = share
    · subst hother
      exact h.endSlice hstep
    · unfold System.step at hstep
      dsimp only at hstep
      split at hstep
      · obtain rfl := Option.some.inj hstep
        exact hsame hother _
      · cases hstep
  | fail other recount =>
    obtain rfl := Option.some.inj hstep
    have hset : (system.setWork other (system.work other).abandon).Descending share parent name
        path := by
      by_cases hother : other = share
      · subst hother
        exact h.setWork (fun _ _ _ _ hlisted => by cases hlisted)
          (fun _ => .inr ⟨rfl, rfl, rfl⟩) fun _ => .inl (.inr ⟨rfl, rfl, rfl⟩)
      · exact hsame hother (system.work other).abandon
    exact hset.frame ⟨((system.setWork other (system.work other).abandon).work share).dirty, rfl⟩ id

/-- A pass that ended complete has descended everywhere. -/
theorem Descending.ended (h : system.Descending share parent name path)
    (hfull : (system.work share).fullPass = false) (hcomplete : (system.work share).complete = true) :
    system.index.rows.get? ⟨share, path⟩ = none := by
  rcases h.progress with hrow | (⟨hpass, -⟩ | ⟨-, -, hnot⟩) | ⟨hpass, -⟩
  · exact hrow
  · rw [hfull] at hpass
    cases hpass
  · rw [hcomplete] at hnot
    cases hnot
  · rw [hfull] at hpass
    cases hpass

end System

end Crabinet.Search
