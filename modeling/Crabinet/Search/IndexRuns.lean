import Crabinet.Search.FullPass

/-!
# Runs of the index worker

In a run that reconciles every listing while its directory still has its row, the index is
sound in every state, and a full pass that ends complete has removed every row whose file
is gone. A `forget` between a listing and its reconciliation breaks both.
-/

namespace Crabinet.Search

open Crabinet.Filesystem Crabinet.Library

namespace System

/-- Only a change of the share's disk changes it. -/
theorem step_disk {system next : System} {action : Action} {share : ShareId}
    (hstep : system.step action = some next) (hkeep : ∀ disk, action ≠ .change share disk) :
    next.disk share = system.disk share := by
  cases action with
  | change other disk =>
    obtain rfl := Option.some.inj hstep
    exact Function.update_of_ne (fun heq => hkeep disk (by rw [heq])) _ _
  | forget | mark | fail =>
    obtain rfl := Option.some.inj hstep
    rfl
  | startPass | drain | beginSlice =>
    obtain ⟨-, hnext⟩ := Option.ite_none_right_eq_some.mp hstep
    obtain rfl := Option.some.inj hnext
    rfl
  | list other outcome =>
    obtain ⟨hit, directory, recursive, pending, -, -, hnext⟩ := step_list hstep
    rcases hnext with ⟨entries, -, rfl⟩ | ⟨-, rfl⟩ | rfl <;> rfl
  | reconcile other | endSlice other =>
    unfold step at hstep
    dsimp only at hstep
    split at hstep
    · obtain rfl := Option.some.inj hstep
      rfl
    · cases hstep

/-- A timely run keeps the system settled. -/
theorem Settled.run {system last : System} {actions : List Action} (h : system.Settled)
    (hrun : run System.step system actions = some last)
    (htimely : Along System.step Timely system actions) :
    last.Settled :=
  run_invariant_along (fun _ _ _ hstep hmeets hsettled => hsettled.step hstep hmeets) hrun htimely h

/-- A pass that ends complete has no row for a path that was missing all along. -/
theorem Settled.pass_prunes {started last : System} {share : ShareId} {pass : List Action}
    (h : started.Settled) {parent path : VirtualPath} {name : EntryName}
    (hstart : started.Descending share parent name path)
    (hrun : Library.run System.step started pass = some last) (htimely : Along System.step Timely started pass)
    (hpass : Action.startPass share ∉ pass)
    (hmissing : Along System.step (fun system _ => Missing (system.disk share) parent name path) started pass)
    (hfull : (last.work share).fullPass = false) (hcomplete : (last.work share).complete = true) :
    last.index.rows.get? ⟨share, path⟩ = none := by
  have hnone : Along System.step (fun _ action => action ≠ Action.startPass share) started pass :=
    along_of_forall fun action haction heq => hpass (heq ▸ haction)
  have hkeeps (system : System) (action : Action) (next : System)
      (hstep : system.step action = some next)
      (hmeets : (system.Timely action ∧ Missing (system.disk share) parent name path) ∧
        action ≠ .startPass share)
      (hinv : system.Settled ∧ system.Descending share parent name path) :
      next.Settled ∧ next.Descending share parent name path :=
    ⟨hinv.1.step hstep hmeets.1.1, hinv.2.step hinv.1 hstep hmeets.1.1 hmeets.1.2 hmeets.2⟩
  have hlast := run_invariant_along hkeeps hrun ((htimely.and hmissing).and hnone) ⟨h, hstart⟩
  exact hlast.2.ended hfull hcomplete

/-! ### A sample share -/

def sampleShare : ShareId := ⟨"media", by decide⟩

def albumName : EntryName := ⟨"album"⟩

def songName : EntryName := ⟨"song"⟩

def album : VirtualPath := VirtualPath.root.join albumName

def song : VirtualPath := album.join songName

/-- A directory with one file. -/
def albumDisk : Disk where
  list path :=
    if path = .root then some [⟨albumName, .directory, 0, none⟩]
    else if path = album then some [⟨songName, .file, 1, none⟩]
    else none
  root := rfl
  nodup path entries h := by
    split at h
    · obtain rfl := Option.some.inj h
      decide
    · split at h
      · obtain rfl := Option.some.inj h
        decide
      · cases h
  tree path name := by
    simp only [VirtualPath.join_ne_root, if_false, album, VirtualPath.join_inj]
    constructor
    · intro h
      split at h
      · rename_i hpath
        rw [if_pos hpath.1]
        exact ⟨_, rfl, _, List.mem_singleton_self _, hpath.2.symm, rfl⟩
      · cases h
    · rintro ⟨entries, hlist, entry, hentry, rfl, hkind⟩
      by_cases hpath : path = .root
      · rw [if_pos hpath] at hlist
        obtain rfl := Option.some.inj hlist
        obtain rfl := List.mem_singleton.mp hentry
        rw [if_pos ⟨hpath, rfl⟩]
        rfl
      · rw [if_neg hpath] at hlist
        obtain ⟨-, hsome⟩ := Option.ite_none_right_eq_some.mp hlist
        obtain rfl := Option.some.inj hsome
        obtain rfl := List.mem_singleton.mp hentry
        cases hkind

/-- The share after the directory was removed. -/
def bareDisk : Disk where
  list path := if path = .root then some [] else none
  root := rfl
  nodup path entries h := by
    split at h
    · obtain rfl := Option.some.inj h
      decide
    · cases h
  tree path name := by
    rw [if_neg (VirtualPath.join_ne_root path name)]
    constructor
    · intro h
      cases h
    · rintro ⟨entries, hlist, entry, hentry, -⟩
      split at hlist
      · obtain rfl := Option.some.inj hlist
        cases hentry
      · cases hlist

/-- A new service on a disk. -/
def opened (disk : Disk) (index : Index) : System :=
  { disk := fun _ => disk, index, work := fun _ => .default }

/-- One slice of a full pass that lists `directories` directories. -/
def fullPass (directories : ℕ) : List Action :=
  [.startPass sampleShare, .beginSlice sampleShare] ++
    (List.replicate directories [.list sampleShare .entries, .reconcile sampleShare]).flatten ++
    [.endSlice sampleShare]

/-- The directory is listed, removed and forgotten, and then its listing is reconciled. -/
def forgottenAlbum : List Action :=
  [.startPass sampleShare, .beginSlice sampleShare, .list sampleShare .entries,
    .reconcile sampleShare, .list sampleShare .entries, .change sampleShare bareDisk,
    .forget sampleShare album, .reconcile sampleShare, .endSlice sampleShare]

/-- Run from an opened index without untimely reconciliations: the index is sound, and a full pass
that ended complete left no row for a path that was missing all along; if the disk did not change
meanwhile, every row it left is on disk. -/
theorem index_stays_a_tree {system last : System} {actions : List Action}
    (hsound : system.index.Sound) (hidle : ∀ share, (system.work share).phase = .idle)
    (hrun : Library.run step system actions = some last)
    (htimely : Along step Timely system actions) :
    last.index.Sound ∧
      ∀ share before pass started, actions = before ++ .startPass share :: pass →
        Library.run step system (before ++ [.startPass share]) = some started →
        Action.startPass share ∉ pass →
        (last.work share).fullPass = false → (last.work share).complete = true →
        (∀ parent name path,
          Along step (fun state _ => Missing (state.disk share) parent name path) started pass →
            last.index.rows.get? ⟨share, path⟩ = none) ∧
        ((∀ disk, Action.change share disk ∉ pass) →
          ∀ path row, last.index.rows.get? ⟨share, path⟩ = some row →
            OnDisk (last.disk share) path) := by
  have hsettled : system.Settled :=
    ⟨hsound, fun share hit path recursive entries hlisted => by simp [hidle share] at hlisted⟩
  refine ⟨(hsettled.run hrun htimely).sound, ?_⟩
  rintro share before pass started rfl hbefore hpass hfull hcomplete
  rw [← List.singleton_append, ← List.append_assoc] at hrun htimely
  obtain ⟨htimelyBefore, htimelyPass⟩ := htimely.append
  obtain ⟨started', hstarted', hrunPass⟩ := run_append.mp hrun
  obtain rfl := Option.some.inj (hbefore.symm.trans hstarted')
  have hstarted : started.Settled := hsettled.run hbefore htimelyBefore
  have hstart (parent : VirtualPath) (name : EntryName) (path : VirtualPath) :
      started.Descending share parent name path := by
    obtain ⟨earlier, -, hlast⟩ := run_append.mp hbefore
    obtain ⟨next, hnext, hnil⟩ := run_cons_eq_some.mp hlast
    obtain rfl := Option.some.inj hnil
    exact .start hnext
  have hprunes (parent : VirtualPath) (name : EntryName) (path : VirtualPath)
      (hmissing : Along step (fun state _ => Missing (state.disk share) parent name path) started pass) :
      last.index.rows.get? ⟨share, path⟩ = none :=
    hstarted.pass_prunes (hstart parent name path) hrunPass (htimelyPass started hbefore) hpass hmissing
      hfull hcomplete
  refine ⟨hprunes, fun hstatic path row hrow => ?_⟩
  have hkeep : Along step (fun _ action => ∀ disk, action ≠ Action.change share disk) started pass :=
    along_of_forall fun action haction disk heq => hstatic disk (heq ▸ haction)
  have hdisk : last.disk share = started.disk share :=
    run_invariant_along (fun _ _ _ hstep hmeets hinv => (step_disk hstep hmeets).trans hinv)
      hrunPass hkeep rfl
  have hroot : path ≠ .root := by
    rintro rfl
    exact VirtualPath.join_ne_root _ _ ((hsettled.run hrun htimely).sound.placed _ _ hrow).symm
  by_contra hgone
  obtain ⟨parent, name, hmissing⟩ := exists_missing hroot hgone
  rw [hdisk] at hmissing
  have halong : Along step (fun state _ => state.disk share = started.disk share) started pass :=
    hkeep.invariant (fun _ _ _ hstep hmeets hinv => (step_disk hstep hmeets).trans hinv) rfl
  have hnone := hprunes parent name path (halong.mono fun state _ hsame => hsame.symm ▸ hmissing)
  rw [hnone] at hrow
  cases hrow

/-- Index the share, remove the directory, and let a full pass prune its rows. -/
def removedAlbum : List Action := fullPass 2 ++ [.change sampleShare bareDisk]

theorem index_stays_a_tree_sample :
    ∃ last, Library.run step (opened albumDisk ⟨.empty, 0⟩) (removedAlbum ++ fullPass 1) = some last ∧
      last.index.Sound ∧
      ∀ path row, last.index.rows.get? ⟨sampleShare, path⟩ = some row →
        OnDisk (last.disk sampleShare) path := by
  have hrun : ((Library.run step (opened albumDisk ⟨.empty, 0⟩) (removedAlbum ++ fullPass 1)).map
      fun last => ((last.work sampleShare).fullPass, (last.work sampleShare).complete)) =
        some (false, true) := by decide
  have hstarted : (Library.run step (opened albumDisk ⟨.empty, 0⟩)
      (removedAlbum ++ [.startPass sampleShare])).isSome = true := by decide
  obtain ⟨last, hlast, hfacts⟩ := Option.map_eq_some_iff.mp hrun
  obtain ⟨started, hstarted⟩ := Option.isSome_iff_exists.mp hstarted
  obtain ⟨hfull, hcomplete⟩ := Prod.mk.inj hfacts
  have hempty : (opened albumDisk ⟨.empty, 0⟩).index.Sound := ⟨rfl, nofun, nofun⟩
  obtain ⟨hsound, hpass⟩ := index_stays_a_tree hempty (fun _ => rfl) hlast (by decide)
  refine ⟨last, hlast, hsound, ?_⟩
  exact (hpass sampleShare removedAlbum _ started rfl hstarted (by simp) hfull hcomplete).2 (by simp)

/-- The listing inserts a row below no directory row, and a later full pass does not find it. -/
theorem index_keeps_orphan :
    ∃ last, Library.run step (opened albumDisk ⟨.empty, 0⟩) (forgottenAlbum ++ fullPass 1) = some last ∧
      ¬last.index.Sound ∧ (last.work sampleShare).fullPass = false ∧
      (last.work sampleShare).complete = true ∧
      (last.index.rows.get? ⟨sampleShare, song⟩).isSome = true ∧
      ¬OnDisk (last.disk sampleShare) song := by
  have hrun : ((Library.run step (opened albumDisk ⟨.empty, 0⟩) (forgottenAlbum ++ fullPass 1)).map
      fun last => ((last.work sampleShare).fullPass, (last.work sampleShare).complete,
        (last.index.rows.get? ⟨sampleShare, song⟩).isSome,
        (last.index.rows.get? ⟨sampleShare, album⟩).isNone,
        ((last.disk sampleShare).list album).isNone)) = some (false, true, true, true, true) := by decide
  obtain ⟨last, hlast, hfacts⟩ := Option.map_eq_some_iff.mp hrun
  simp only [Prod.mk.injEq] at hfacts
  obtain ⟨hfull, hcomplete, hsong, halbum, hgone⟩ := hfacts
  rw [Option.isNone_iff_eq_none] at halbum hgone
  refine ⟨last, hlast, fun hsound => ?_, hfull, hcomplete, hsong, ?_⟩
  · obtain ⟨row, hrow⟩ := Option.isSome_iff_exists.mp hsong
    have hparent := (VirtualPath.join_inj.mp (hsound.placed _ _ hrow)).1
    have hanchored := hsound.closed _ _ hrow
    rw [← hparent] at hanchored
    rcases hanchored with hroot | ⟨other, hother, -⟩
    · exact VirtualPath.join_ne_root _ _ hroot
    · rw [halbum] at hother
      cases hother
  · rintro ⟨parent, entries, hlist, entry, -, hpath⟩
    obtain ⟨rfl, -⟩ := VirtualPath.join_inj.mp hpath
    rw [hgone] at hlist
    cases hlist

end System

end Crabinet.Search
