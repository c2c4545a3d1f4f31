import Crabinet.Search.Reconcile
import Crabinet.Library.Transition

/-!
# The index worker

Each share has a queue of directories. The worker lists the next one without the index
lock and reconciles the listing later under it, while requests forget paths and the tree
on disk changes. Time, watches and the operating system decide when a pass starts, which
directories are marked dirty and whether a listing can be read, so these are actions.
-/

namespace Crabinet.Search

open Crabinet.Filesystem Crabinet.Library

/-- One share's tree on disk: the listing of every path that is a directory. The root is held
open and always lists. -/
structure Disk where
  list : VirtualPath → Option (List DirectoryEntry)
  root : (list .root).isSome = true
  nodup : ∀ path entries, list path = some entries → (entries.map DirectoryEntry.name).Nodup
  tree : ∀ path name, (list (path.join name)).isSome = true ↔
    ∃ entries, list path = some entries ∧
      ∃ entry ∈ entries, entry.name = name ∧ entry.kind = .directory

/-- Where the worker is within `advance`. -/
inductive Phase where
  | idle
  /-- In the loop over the queue, with its local `hit`. -/
  | looping (hit : Bool)
  /-- A directory is listed and not yet reconciled. -/
  | listed (hit : Bool) (path : VirtualPath) (recursive : Bool) (entries : List DirectoryEntry)
deriving DecidableEq

/-- `ShareWork`, with the `complete` flag of its share. -/
structure ShareWork where
  pending : List (VirtualPath × Bool)
  dirty : List VirtualPath
  fullPass : Bool
  incomplete : Bool
  passIncomplete : Bool
  indexedOnce : Bool
  complete : Bool
  phase : Phase

/-- The work of a share that was never indexed. -/
def ShareWork.default : ShareWork :=
  ⟨[], [], false, false, false, false, false, .idle⟩

/-- Queue the subdirectories to descend into; the flag is `hit`. -/
def enqueue (pending : List (VirtualPath × Bool)) (recursive hit : Bool) :
    List (VirtualPath × Bool) → List (VirtualPath × Bool) × Bool
  | [] => (pending, hit)
  | (directory, new) :: rest =>
    if recursive || new then
      if pending.length ≥ maxPending then enqueue pending recursive true rest
      else enqueue (pending ++ [(directory, true)]) recursive hit rest
    else enqueue pending recursive hit rest

/-- The end of `advance`. -/
def ShareWork.finish (work : ShareWork) (hit : Bool) : ShareWork :=
  let work :=
    if !work.fullPass then { work with incomplete := work.incomplete || hit }
    else if work.pending.isEmpty then
      { work with fullPass := false, indexedOnce := true, incomplete := work.passIncomplete || hit }
    else { work with passIncomplete := work.passIncomplete || hit }
  { work with complete := work.indexedOnce && !work.incomplete, phase := .idle }

/-- What `step` does when `advance` failed. -/
def ShareWork.abandon (work : ShareWork) : ShareWork :=
  { work with
    pending := [], fullPass := false, indexedOnce := true, incomplete := true, complete := false
    phase := .idle }

/-- What `list_bounded` answered. -/
inductive ListOutcome where
  | entries
  | notFound
  /-- The directory is unreadable or oversized. -/
  | failed
deriving DecidableEq

/-- The disks, the index and the work of every share. -/
structure System where
  disk : ShareId → Disk
  index : Index
  work : ShareId → ShareWork

/-- One step of the worker, of a request or of the disk. -/
inductive Action where
  /-- The tree on disk changed. -/
  | change (share : ShareId) (disk : Disk)
  | forget (share : ShareId) (path : VirtualPath)
  /-- A watch marked a directory dirty. -/
  | mark (share : ShareId) (path : VirtualPath)
  /-- A full pass is due or requested. -/
  | startPass (share : ShareId)
  /-- The dirty directories are queued, in the order of the set. -/
  | drain (share : ShareId) (order : List VirtualPath)
  | beginSlice (share : ShareId)
  /-- The next directory is taken off the queue and listed. -/
  | list (share : ShareId) (outcome : ListOutcome)
  | reconcile (share : ShareId)
  /-- The queue is empty or the slice is used up. -/
  | endSlice (share : ShareId)
  /-- The index database failed; the rows may be counted again. -/
  | fail (share : ShareId) (recount : Bool)

namespace System

/-- Set the work of one share. -/
def setWork (system : System) (share : ShareId) (work : ShareWork) : System :=
  { system with work := Function.update system.work share work }

/-- One step; `none` when the action is not possible. -/
def step (system : System) : Action → Option System
  | .change share disk => some { system with disk := Function.update system.disk share disk }
  | .forget share path => some { system with index := system.index.forget share path }
  | .mark share path =>
    let work := system.work share
    some (system.setWork share { work with dirty := work.dirty.insert path })
  | .startPass share =>
    let work := system.work share
    if work.phase = .idle ∧ work.fullPass = false then
      some (system.setWork share
        { work with fullPass := true, passIncomplete := false, pending := [(.root, true)], dirty := [] })
    else none
  | .drain share order =>
    let work := system.work share
    if work.phase = .idle ∧ work.pending = [] ∧ order.Perm work.dirty then
      some (system.setWork share
        { work with pending := order.map fun path => (path, false), dirty := [] })
    else none
  | .beginSlice share =>
    let work := system.work share
    if work.phase = .idle then some (system.setWork share { work with phase := .looping false })
    else none
  | .list share outcome =>
    let work := system.work share
    match work.phase, work.pending with
    | .looping hit, (path, recursive) :: pending =>
      match outcome, (system.disk share).list path with
      | .entries, some entries =>
        if entries.length ≤ maxListing then
          some (system.setWork share
            { work with pending, phase := .listed hit path recursive entries })
        else none
      | .notFound, none => some (system.setWork share { work with pending, phase := .looping hit })
      | .failed, _ => some (system.setWork share { work with pending, phase := .looping true })
      | _, _ => none
    | _, _ => none
  | .reconcile share =>
    let work := system.work share
    match work.phase with
    | .listed hit path recursive entries =>
      let (index, directories, capped) := system.index.reconcile share path entries
      let (pending, hit) := enqueue work.pending recursive (hit || capped) directories
      some { system.setWork share { work with pending, phase := .looping hit } with index }
    | _ => none
  | .endSlice share =>
    let work := system.work share
    match work.phase with
    | .looping hit => some (system.setWork share (work.finish hit))
    | _ => none
  | .fail share recount =>
    let work := system.work share
    let total := if recount then (system.index.rows.size : ℤ) else system.index.total
    some { system.setWork share work.abandon with index := { system.index with total } }

/-- A listing is reconciled while its directory still has its row, or inserts nothing. -/
def Timely (system : System) : Action → Prop
  | .reconcile share =>
    match (system.work share).phase with
    | .listed _ path _ entries =>
      Anchored system.index.rows share path ∨ NothingToInsert system.index path entries
    | _ => True
  | _ => True

instance (system : System) (action : Action) : Decidable (system.Timely action) := by
  unfold Timely
  split
  · split <;> infer_instance
  · infer_instance

theorem Timely.reconcile {system : System} {share : ShareId}
    (h : system.Timely (.reconcile share)) {hit : Bool} {path : VirtualPath} {recursive : Bool}
    {entries : List DirectoryEntry}
    (hphase : (system.work share).phase = .listed hit path recursive entries) :
    Anchored system.index.rows share path ∨ NothingToInsert system.index path entries := by
  unfold Timely at h
  dsimp only at h
  rw [hphase] at h
  exact h

end System

/-! ### Soundness of every state -/

namespace System

@[simp] theorem setWork_self (system : System) (share : ShareId) (work : ShareWork) :
    (system.setWork share work).work share = work := by
  simp [setWork]

theorem setWork_ne (system : System) {share other : ShareId} (h : other ≠ share) (work : ShareWork) :
    (system.setWork share work).work other = system.work other := by
  simp [setWork, h]

@[simp] theorem setWork_index (system : System) (share : ShareId) (work : ShareWork) :
    (system.setWork share work).index = system.index := rfl

/-- What listing does: it takes a directory off the queue and answers with its entries, with
nothing, or with a bound. -/
theorem step_list {system next : System} {share : ShareId} {outcome : ListOutcome}
    (h : system.step (.list share outcome) = some next) :
    ∃ hit path recursive pending, (system.work share).phase = .looping hit ∧
      (system.work share).pending = (path, recursive) :: pending ∧
      ((∃ entries, (system.disk share).list path = some entries ∧
          next = system.setWork share
            { system.work share with pending, phase := .listed hit path recursive entries }) ∨
        ((system.disk share).list path = none ∧
          next = system.setWork share { system.work share with pending, phase := .looping hit }) ∨
        next = system.setWork share { system.work share with pending, phase := .looping true }) := by
  unfold step at h
  dsimp only at h
  split at h
  · rename_i hit path recursive pending hphase hpending
    refine ⟨hit, path, recursive, pending, hphase, hpending, ?_⟩
    split at h
    · rename_i entries hlist
      split at h
      · exact .inl ⟨entries, hlist, (Option.some.inj h).symm⟩
      · cases h
    · rename_i hlist
      exact .inr (.inl ⟨hlist, (Option.some.inj h).symm⟩)
    · exact .inr (.inr (Option.some.inj h).symm)
    · cases h
  · cases h

/-- What reconciling does: the listing is settled and its subdirectories are queued. -/
theorem step_reconcile {system next : System} {share : ShareId}
    (h : system.step (.reconcile share) = some next) :
    ∃ hit path recursive entries, (system.work share).phase = .listed hit path recursive entries ∧
      next.index = (system.index.reconcile share path entries).1 ∧
      next.work = Function.update system.work share { system.work share with
        pending := (enqueue (system.work share).pending recursive
          (hit || (system.index.reconcile share path entries).2.2)
          (system.index.reconcile share path entries).2.1).1
        phase := .looping (enqueue (system.work share).pending recursive
          (hit || (system.index.reconcile share path entries).2.2)
          (system.index.reconcile share path entries).2.1).2 } := by
  unfold step at h
  dsimp only at h
  split at h
  · rename_i hit path recursive entries hphase
    obtain rfl := Option.some.inj h
    exact ⟨hit, path, recursive, entries, hphase, rfl, rfl⟩
  · cases h

/-- The index is sound, and the listings at hand have distinct names. -/
structure Settled (system : System) : Prop where
  sound : system.index.Sound
  distinct : ∀ share hit path recursive entries,
    (system.work share).phase = .listed hit path recursive entries →
      (entries.map DirectoryEntry.name).Nodup

/-- Setting work without a new listing keeps the listings distinct. -/
theorem Settled.setWork {system : System} (h : system.Settled) {share : ShareId} {work : ShareWork}
    (hphase : ∀ hit path recursive entries, work.phase = .listed hit path recursive entries →
      (entries.map DirectoryEntry.name).Nodup) : (system.setWork share work).Settled := by
  refine ⟨h.sound, fun other hit path recursive entries hlisted => ?_⟩
  by_cases hother : other = share
  · subst hother
    rw [setWork_self] at hlisted
    exact hphase hit path recursive entries hlisted
  · rw [setWork_ne _ hother] at hlisted
    exact h.distinct other hit path recursive entries hlisted

/-- A timely step keeps the system settled. -/
theorem Settled.step {system next : System} {action : Action} (h : system.Settled)
    (hstep : system.step action = some next) (htimely : system.Timely action) : next.Settled := by
  cases action with
  | change share disk =>
    obtain rfl := Option.some.inj hstep
    exact ⟨h.sound, h.distinct⟩
  | forget share path =>
    obtain rfl := Option.some.inj hstep
    exact ⟨h.sound.forget share path, h.distinct⟩
  | mark share path =>
    obtain rfl := Option.some.inj hstep
    exact h.setWork fun hit other recursive entries hlisted =>
      h.distinct share hit other recursive entries hlisted
  | startPass share =>
    obtain ⟨⟨hidle, -⟩, hnext⟩ := Option.ite_none_right_eq_some.mp hstep
    obtain rfl := Option.some.inj hnext
    exact h.setWork fun hit other recursive entries hlisted => by simp [hidle] at hlisted
  | drain share order =>
    obtain ⟨⟨hidle, -⟩, hnext⟩ := Option.ite_none_right_eq_some.mp hstep
    obtain rfl := Option.some.inj hnext
    exact h.setWork fun hit other recursive entries hlisted => by simp [hidle] at hlisted
  | beginSlice share =>
    obtain ⟨-, hnext⟩ := Option.ite_none_right_eq_some.mp hstep
    obtain rfl := Option.some.inj hnext
    exact h.setWork fun hit other recursive entries hlisted => by cases hlisted
  | list share outcome =>
    obtain ⟨hit, path, recursive, pending, hphase, -, hnext⟩ := step_list hstep
    rcases hnext with ⟨entries, hlist, rfl⟩ | ⟨-, rfl⟩ | rfl
    · refine h.setWork fun hit' path' recursive' entries' hlisted => ?_
      obtain ⟨-, -, -, rfl⟩ := Phase.listed.inj hlisted
      exact (system.disk share).nodup path entries hlist
    · exact h.setWork fun _ _ _ _ hlisted => by cases hlisted
    · exact h.setWork fun _ _ _ _ hlisted => by cases hlisted
  | reconcile share =>
    obtain ⟨hit, path, recursive, entries, hphase, hindex, hwork⟩ := step_reconcile hstep
    refine ⟨?_, fun other hit' path' recursive' entries' hlisted => ?_⟩
    · rw [hindex]
      by_cases hanchored : Anchored system.index.rows share path
      · exact (h.sound.reconcile hanchored
          (h.distinct share hit path recursive entries hphase)).sound
      · have hnothing := (htimely.reconcile hphase).resolve_left hanchored
        rw [h.sound.reconcile_unanchored hanchored hnothing]
        exact h.sound
    · rw [hwork] at hlisted
      by_cases hother : other = share
      · subst hother
        simp at hlisted
      · rw [Function.update_of_ne hother] at hlisted
        exact h.distinct other hit' path' recursive' entries' hlisted
  | endSlice share =>
    unfold System.step at hstep
    dsimp only at hstep
    split at hstep
    · obtain rfl := Option.some.inj hstep
      exact h.setWork fun _ _ _ _ hlisted => by cases hlisted
    · cases hstep
  | fail share recount =>
    obtain rfl := Option.some.inj hstep
    have hset : (system.setWork share (system.work share).abandon).Settled :=
      h.setWork fun _ _ _ _ hlisted => by cases hlisted
    refine ⟨⟨?_, h.sound.placed, h.sound.closed⟩, hset.distinct⟩
    dsimp only
    split
    · rfl
    · exact h.sound.total_eq

end System

end Crabinet.Search
