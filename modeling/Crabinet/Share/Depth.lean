import Crabinet.Share.ExtractionBudget
import Crabinet.Library.Transition

/-!
# The depth limit as an invariant

Moves, moves to Trash, restores and extractions measure what they move against the limit.
Creating a directory or writing a file does not: their paths must be within the limit
already, and so must the destination of a move.
-/

namespace Crabinet.Share

open Crabinet.Filesystem Crabinet.Library Crabinet.Trash

/-! ### Extraction -/

/-- The depth alone, as the terms of an extraction. -/
def depthTerms (destination : VirtualPath) (limits : ArchiveLimits) (maxCharge : ℕ) :
    Extraction.Terms :=
  ⟨destination, limits, maxCharge, fun path => destination.depth + path.depth ≤ maxPathDepth⟩

theorem admissible_depthTerms {canonical : String → Bool} {destination : VirtualPath}
    {limits : ArchiveLimits} {maxCharge : ℕ} :
    Extraction.Admissible canonical (depthTerms destination limits maxCharge) := by
  intro raw isDirectory found hpath components _ hbegin
  obtain ⟨-, hdepth, -⟩ := Extraction.path_eq_ok hpath
  exact (Nat.add_le_add_left hbegin.length_le _).trans hdepth

/-- An extraction publishes a tree within the limit below its destination. -/
theorem AuthorizedShare.extract_eq_ok {share next : AuthorizedShare} {canonical : String → Bool}
    {source destination : VirtualPath} {limits : ArchiveLimits} {maxCharge : ℕ}
    {input : ArchiveInput} {stats : VirtualPath → Stat} {rootStat : Stat}
    (h : share.extract canonical source destination limits maxCharge input stats rootStat = .ok next) :
    ∃ tree : Contents, tree.height ≤ maxPathDepth - destination.depth ∧
      next = { share with root := share.root.insertAt destination (.directory rootStat tree) } := by
  obtain ⟨_, -, h⟩ := bind_eq_ok.mp h
  split at h
  next tree hpublished =>
    refine ⟨tree, ?_, (Except.ok.inj h).symm⟩
    have hkept : Extraction.Kept (depthTerms destination limits maxCharge) _ :=
      Extraction.kept_localExtract admissible_depthTerms
        (Program.runs_eval (share.effect_answer source destination stats)
          (Extraction.localExtract canonical source destination limits maxCharge input) .start)
    refine Contents.height_le_of_nodes fun node hnode => ?_
    have hdepth : destination.depth + node.1.length ≤ maxPathDepth :=
      (hkept.published tree hpublished).paths node hnode
    omega
  next => cases h

/-! ### Runs -/

/-- A mutation with its arguments and with what the operating system supplies. -/
inductive Operation where
  | createDirectory (path : VirtualPath) (stat : Stat)
  | writeNew (path : VirtualPath) (staged : Stat)
  | writeReplacement (path : VirtualPath) (staged : Stat) (expected : EntryMetadata)
  | moveEntry (source destination : VirtualPath) (expected : EntryMetadata)
  | moveIntoTrash (path : VirtualPath) (expected : EntryMetadata) (deletedBy : String)
      (retentionDays : ℕ) (now : ℤ) (ids : List TrashId) (published : State)
  | restoreTrash (id : TrashId) (destination : Option VirtualPath)
  | extract (canonical : String → Bool) (source destination : VirtualPath) (limits : ArchiveLimits)
      (maxCharge : ℕ) (input : ArchiveInput) (stats : VirtualPath → Stat) (rootStat : Stat)

namespace AuthorizedShare

/-- A successful mutation; `none` when it is refused. -/
def step (share : AuthorizedShare) : Operation → Option AuthorizedShare
  | .createDirectory path stat => (share.createDirectory path stat).toOption
  | .writeNew path staged => (share.writeNew path staged).toOption
  | .writeReplacement path staged expected => (share.writeReplacement path staged expected).toOption
  | .moveEntry source destination expected => (share.moveEntry source destination expected).toOption
  | .moveIntoTrash path expected deletedBy retentionDays now ids published =>
    (share.moveIntoTrash path expected deletedBy retentionDays now ids published).toOption.map Prod.fst
  | .restoreTrash id destination => (share.restoreTrash id destination).toOption.map Prod.fst
  | .extract canonical source destination limits maxCharge input stats rootStat =>
    (share.extract canonical source destination limits maxCharge input stats rootStat).toOption

/-- The share's entries, and every payload's from depth one, are within the limit. -/
structure Bounded (share : AuthorizedShare) : Prop where
  root : share.root.height ≤ maxPathDepth
  payloads : ∀ id entry, share.trash.payloads.get? id = some entry →
    payloadDepth + entry.height ≤ maxPathDepth

end AuthorizedShare

/-- Paths at which something is created are within the limit. -/
def Operation.WithinLimit : Operation → Prop
  | .createDirectory path _ | .writeNew path _ => path.depth ≤ maxPathDepth
  | .moveEntry _ destination _ => destination.depth ≤ maxPathDepth
  | .extract _ _ destination _ _ _ _ _ => destination.depth ≤ maxPathDepth
  | .writeReplacement _ _ _ | .moveIntoTrash _ _ _ _ _ _ _ | .restoreTrash _ _ => True

namespace AuthorizedShare

variable {share next : AuthorizedShare}

/-- Putting an entry within the limit keeps the share bounded. -/
theorem Bounded.insertAt (h : share.Bounded) {root : Contents} (hroot : root.height ≤ maxPathDepth)
    {path : VirtualPath} {entry : Entry} (hentry : path.depth + entry.height ≤ maxPathDepth) :
    Bounded { share with root := root.insertAt path entry } := by
  refine ⟨?_, h.payloads⟩
  have hheight := root.height_insertAt_le path entry
  dsimp only
  omega

/-- Every mutation within the limit keeps the share bounded. -/
theorem Bounded.step (h : share.Bounded) {operation : Operation} (hwithin : operation.WithinLimit)
    (hstep : share.step operation = some next) : next.Bounded := by
  have hroot := h.root
  cases operation with
  | createDirectory path stat =>
    have hpath : path.depth ≤ maxPathDepth := hwithin
    rw [createDirectory_eq_ok (toOption_eq_some.mp hstep)]
    exact h.insertAt hroot hpath
  | writeNew path staged =>
    have hpath : path.depth ≤ maxPathDepth := hwithin
    rw [writeNew_eq_ok (toOption_eq_some.mp hstep)]
    exact h.insertAt hroot hpath
  | writeReplacement path staged expected =>
    obtain ⟨⟨entry, hentry⟩, hnext⟩ := writeReplacement_eq_ok (toOption_eq_some.mp hstep)
    have hold := Contents.height_of_entryAt hentry
    have herased := share.root.height_eraseAt_le path
    rw [hnext]
    refine h.insertAt (by omega) ?_
    simp only [Entry.height]
    omega
  | moveEntry source destination expected =>
    have hdestination : destination.depth ≤ maxPathDepth := hwithin
    obtain ⟨entry, hentry, hnext, hheight⟩ := moveEntry_eq_ok (toOption_eq_some.mp hstep)
    have hold := Contents.height_of_entryAt hentry
    have herased := share.root.height_eraseAt_le source
    rw [hnext]
    refine h.insertAt (by omega) ?_
    rcases hheight with hfile | hshallower | hchecked <;> omega
  | moveIntoTrash path expected deletedBy retentionDays now ids published =>
    obtain ⟨⟨after, entry⟩, hmove, rfl⟩ := Option.map_eq_some_iff.mp hstep
    obtain ⟨id, payload, hentry, hheight, hnextRoot, hpayloads⟩ :=
      moveIntoTrash_eq_ok (toOption_eq_some.mp hmove)
    have herased := share.root.height_eraseAt_le path
    refine ⟨by rw [hnextRoot]; omega, fun other found hfound => ?_⟩
    rw [hpayloads] at hfound
    by_cases hother : other = id
    · -- The payload was at least one level below the root.
      rw [hother, KeyedMap.get?_insert_self] at hfound
      obtain rfl := Option.some.inj hfound
      obtain ⟨parents, parent, name, hopen, -⟩ := Contents.entryAt_eq_ok.mp hentry
      have hdepth := VirtualPath.depth_of_splitFile (Contents.openParent_eq_ok.mp hopen).1
      unfold payloadDepth maxPathDepth at *
      omega
    · rw [KeyedMap.get?_insert_ne _ hother] at hfound
      exact h.payloads other found hfound
  | restoreTrash id destination =>
    obtain ⟨⟨after, target⟩, hrestore, rfl⟩ := Option.map_eq_some_iff.mp hstep
    obtain ⟨payload, -, hfits, hnextRoot, hpayloads⟩ :=
      restoreTrash_eq_ok (toOption_eq_some.mp hrestore)
    have hheight := share.root.height_insertAt_le target payload
    refine ⟨by rw [hnextRoot]; omega, fun other found hfound => ?_⟩
    rw [hpayloads] at hfound
    exact h.payloads other found (KeyedMap.get?_of_erase hfound)
  | extract canonical source destination limits maxCharge input stats rootStat =>
    have hdestination : destination.depth ≤ maxPathDepth := hwithin
    obtain ⟨tree, htree, hnext⟩ := extract_eq_ok (toOption_eq_some.mp hstep)
    rw [hnext]
    refine h.insertAt hroot ?_
    simp only [Entry.height]
    omega

/-- Mutations within the limit, in any order, keep every entry of the share within it, and every
payload measurable and removable. -/
theorem depth_stays_bounded {last : AuthorizedShare} {operations : List Operation}
    (hbounded : share.Bounded) (hwithin : ∀ operation ∈ operations, operation.WithinLimit)
    (hrun : run step share operations = some last) :
    last.root.height ≤ maxPathDepth ∧
      (∀ names scan, last.trash.measureTrash names scan ≠ .error .tooDeep) ∧
      ∀ id stat inside, last.trash.payloads.get? id = some (.directory stat inside) →
        ∀ fails limit count, (inside.removeTree fails limit count payloadDepth).2.2 ≠ .error .tooDeep := by
  have hlast : last.Bounded := by
    refine run_invariant_along (fun _ _ _ hstep hmeets hinv => ?_) hrun
      (along_of_forall hwithin) hbounded
    exact hinv.step hmeets hstep
  refine ⟨hlast.root, TrashDirectory.measureTrash_ne_tooDeep hlast.payloads, ?_⟩
  intro id stat inside hpayload fails limit count
  exact Contents.removeTree_ne_tooDeep (hlast.payloads id _ hpayload) fails limit count

/-! ### A directory at the limit -/

/-- Directories nested in each other. -/
def nestedDirectories (stat : Stat) : ℕ → Contents
  | 0 => .empty
  | depth + 1 => .directory ⟨"d"⟩ stat (nestedDirectories stat depth) .empty

/-- A writable share with an empty Trash. -/
def withRoot (root : Contents) : AuthorizedShare :=
  { root, trash := ⟨.empty, .empty, .empty, []⟩, readWrite := true }

theorem bounded_withRoot {root : Contents} (h : root.height ≤ maxPathDepth) : (withRoot root).Bounded :=
  ⟨h, fun _ _ hentry => by cases hentry⟩

theorem height_nestedDirectories (stat : Stat) (depth : ℕ) :
    (nestedDirectories stat depth).height = depth := by
  induction depth with
  | zero => rfl
  | succ depth ih => simp [nestedDirectories, Contents.height, ih]

theorem openDirectory_nestedDirectories (stat : Stat) (depth : ℕ) :
    (nestedDirectories stat depth).openDirectory (List.replicate depth ⟨"d"⟩) = .ok .empty := by
  induction depth with
  | zero => rfl
  | succ depth ih =>
    simp only [nestedDirectories, List.replicate_succ, Contents.openDirectory, Contents.get?, if_true]
    exact ih

/-- A file in the deepest directory that the limit allows. -/
def beyondDeepest : VirtualPath := ⟨List.replicate maxPathDepth ⟨"d"⟩ ++ [⟨"upload"⟩]⟩

/-- The share is within the limit, and an upload into its deepest directory leaves it. -/
theorem upload_passes_limit :
    (withRoot (nestedDirectories ⟨0, none, 1, 1⟩ maxPathDepth)).Bounded ∧
      ∃ last, run step (withRoot (nestedDirectories ⟨0, none, 1, 1⟩ maxPathDepth))
          [.writeNew beyondDeepest ⟨1, none, 2, 1⟩] = some last ∧
        ¬last.root.height ≤ maxPathDepth := by
  refine ⟨bounded_withRoot (by rw [height_nestedDirectories]), ?_⟩
  have hopen : (nestedDirectories ⟨0, none, 1, 1⟩ maxPathDepth).openParent beyondDeepest =
      .ok (List.replicate maxPathDepth ⟨"d"⟩, .empty, ⟨"upload"⟩) :=
    Contents.openParent_eq_ok.mpr
      ⟨VirtualPath.splitFile_eq_ok.mpr rfl, openDirectory_nestedDirectories _ _⟩
  refine ⟨withRoot ((nestedDirectories ⟨0, none, 1, 1⟩ maxPathDepth).insertAt beyondDeepest
    (.leaf .file ⟨1, none, 2, 1⟩)), ?_, ?_⟩
  · simp only [run, step, writeNew, withRoot, requireWrite, if_true, ok_bind, hopen]
    rfl
  · have hentry := Contents.height_of_entryAt
      (Contents.entryAt_insertAt hopen (.leaf .file ⟨1, none, 2, 1⟩))
    have hdepth : beyondDeepest.depth = maxPathDepth + 1 := by
      simp [beyondDeepest, VirtualPath.depth]
    rw [hdepth] at hentry
    simp only [withRoot]
    omega

/-- A directory is created, filled and moved to Trash. -/
def sampleOperations : List Operation :=
  [.createDirectory ⟨[⟨"d"⟩]⟩ ⟨0, none, 1, 1⟩, .writeNew ⟨[⟨"d"⟩, ⟨"f"⟩]⟩ ⟨1, none, 2, 1⟩,
    .moveIntoTrash ⟨[⟨"d"⟩]⟩ ⟨.directory, 0, none, 1⟩ "user" 30 0
      [⟨"0123456789abcdef0123456789abcdef", by decide⟩] .live]

theorem depth_stays_bounded_sample :
    ∃ last, run step (withRoot .empty) sampleOperations = some last ∧
      last.root.height ≤ maxPathDepth := by
  have hrun : (run step (withRoot .empty) sampleOperations).isSome = true := by decide
  obtain ⟨last, hlast⟩ := Option.isSome_iff_exists.mp hrun
  have hwithin : ∀ operation ∈ sampleOperations, operation.WithinLimit := by
    simp [sampleOperations, Operation.WithinLimit, VirtualPath.depth, maxPathDepth]
  exact ⟨last, hlast, (depth_stays_bounded (bounded_withRoot (by decide)) hwithin hlast).1⟩

end AuthorizedShare

end Crabinet.Share
