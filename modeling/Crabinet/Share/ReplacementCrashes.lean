import Crabinet.Share.Publication

/-!
# Interrupted replacements and deletes

No other process acts here, but every call may fail, every check may answer anything and a
crash may follow any call. The version that a replacement or a delete displaces is then at
its path or under a name of private staging that recovery keeps, until the removal that
commits the operation.
-/

namespace Crabinet.Share

open Crabinet.Filesystem Crabinet.Library Program Relation

/-- No other process acts. -/
def Alone : World → World → Prop := fun _ _ => False

theorem stable_alone (assertion : World → Prop) : Stable Alone assertion :=
  stable_of_alone fun _ _ => id

/-- An entry is in private staging under a name with the prefix. -/
def World.Retains (world : World) (start : String) (entry : Entry) : Prop :=
  ∃ suffix, world.entryAt (.staged (start ++ suffix)) = some entry

/-! ### Startup recovery -/

/-- What is in the share, or in staging under a retained name, stays there. -/
def KeepsRetained (before after : World) : Prop :=
  (∀ path, after.entryAt (.named path) = before.entryAt (.named path)) ∧
    ∀ name, isRetained name = true → after.entryAt (.staged name) = before.entryAt (.staged name)

theorem KeepsRetained.refl (world : World) : KeepsRetained world world :=
  ⟨fun _ => rfl, fun _ _ => rfl⟩

theorem KeepsRetained.trans {first second third : World} (h : KeepsRetained first second)
    (h' : KeepsRetained second third) : KeepsRetained first third :=
  ⟨fun path => (h'.1 path).trans (h.1 path), fun name hname => (h'.2 name hname).trans (h.2 name hname)⟩

/-- Changing one name that is not retained. -/
theorem keepsRetained_put {world : World} {name : String} (entry : Option Entry)
    (hname : isRetained name = false) : KeepsRetained world (world.put (.staged name) entry) := by
  refine ⟨fun path => world.put_of_ne entry nofun, fun other hother => world.put_of_ne entry ?_⟩
  rintro heq
  obtain rfl := Place.staged.inj heq
  simp [hname] at hother

/-- The names found for removal are not retained. -/
def Recoverable.Sorted (found : Recoverable) : Prop :=
  ∀ name ∈ found.trees ++ found.files, isRetained name = false

theorem Recoverable.visit_sorted {found last : Recoverable} {maxEntries : ℕ}
    {entry : FsResult StagingEntry} (h : found.Sorted)
    (hvisit : found.visit maxEntries entry = .ok last) : last.Sorted := by
  have hadd (name : String) (hname : isRetained name = false) :
      Recoverable.Sorted { found with visited := found.visited + 1, trees := found.trees ++ [name] } ∧
      Recoverable.Sorted { found with visited := found.visited + 1, files := found.files ++ [name] } := by
    constructor <;>
    · intro other hother
      simp only [List.mem_append, List.mem_singleton] at hother
      have := h other
      simp only [List.mem_append] at this
      grind
  rw [visit] at hvisit
  split at hvisit
  · cases hvisit
  obtain ⟨listed, -, hvisit⟩ := bind_eq_ok.mp hvisit
  split at hvisit
  · exact Except.ok.inj hvisit ▸ h
  next name _ =>
    split at hvisit
    · exact Except.ok.inj hvisit ▸ h
    next hname =>
      obtain ⟨fileType, -, hvisit⟩ := bind_eq_ok.mp hvisit
      have hname : isRetained name = false := Bool.not_eq_true _ ▸ hname
      cases fileType with
      | directory =>
        dsimp only at hvisit
        split at hvisit
        · exact Except.ok.inj hvisit ▸ (hadd name hname).1
        · exact Except.ok.inj hvisit ▸ h
      | file =>
        dsimp only at hvisit
        split at hvisit
        · exact Except.ok.inj hvisit ▸ (hadd name hname).2
        · exact Except.ok.inj hvisit ▸ h
      | other => exact Except.ok.inj hvisit ▸ h

theorem Recoverable.foldlM_sorted {entries : List (FsResult StagingEntry)} {maxEntries : ℕ}
    {found last : Recoverable} (h : found.Sorted)
    (hfold : entries.foldlM (fun (found : Recoverable) entry => found.visit maxEntries entry) found =
      .ok last) : last.Sorted := by
  induction entries generalizing found with
  | nil => exact Except.ok.inj hfold ▸ h
  | cons entry rest ih =>
    rw [List.foldlM_cons] at hfold
    obtain ⟨next, hnext, hrest⟩ := bind_eq_ok.mp hfold
    exact ih (visit_sorted h hnext) hrest

section Recovery

variable {sees : Sees} {world : World} {α : Type}

/-- The obligation of recovery: whatever it ends with, no retained name was touched. -/
abbrev RecoverySafe (sees : Sees) (steps : Steps FsErrorCode α) (world : World) : Prop :=
  SafeOr (Effect sees) Alone KeepsRetained (fun _ _ => True) (fun _ _ => True) steps world

theorem recoverySafe_ask {call : Script (FsResult α)}
    (h : Safe (Effect sees) Alone KeepsRetained (fun _ _ => True) call world) :
    RecoverySafe sees (ask call) world :=
  safe_attempt (h.weaken fun answer _ _ => by cases answer <;> trivial)

theorem recoverySafe_of_reads {call : Call} (hreads : call.Reads) :
    Safe (Effect sees) Alone KeepsRetained (fun _ _ => True) (perform call) world :=
  Safe.perform_of_keeps fun before _ _ hstep =>
    hstep.eq_of_reads hreads ▸ KeepsRetained.refl before

theorem recoverySafe_removeFile {name : String} (hname : isRetained name = false) :
    Safe (Effect sees) Alone KeepsRetained (fun _ _ => True) (removeFile (.staged name)) world := by
  refine Safe.perform_of_keeps fun before answer after hstep => ?_
  cases answer with
  | error code =>
    obtain rfl : after = before := hstep
    exact .refl after
  | ok done =>
    obtain ⟨type, stat, -, rfl⟩ := hstep
    have hput : KeepsRetained before (before.put (.staged name) none) := keepsRetained_put none hname
    exact ⟨hput.1, hput.2⟩

theorem recoverySafe_cleanTree {name : String} (hname : isRetained name = false) :
    Safe (Effect sees) Alone KeepsRetained (fun _ _ => True) (cleanTree name) world := by
  refine Safe.perform_of_keeps fun before answer after hstep => ?_
  obtain ⟨left, rfl, -⟩ := hstep
  exact keepsRetained_put left hname

theorem recoverySafe_cleanTrees {names : List String} (h : ∀ name ∈ names, isRetained name = false) :
    RecoverySafe sees (cleanTrees names) world := by
  induction names generalizing world with
  | nil => exact SafeOr.pure (stable_alone _) trivial
  | cons name rest ih =>
    refine SafeOr.bind (recoverySafe_ask (recoverySafe_cleanTree (h name List.mem_cons_self)))
      fun whole _ _ => ?_
    cases whole with
    | true => exact ih fun other hother => h other (List.mem_cons_of_mem _ hother)
    | false => exact SafeOr.throw (stable_alone _) trivial

theorem recoverySafe_removeFiles {names : List String} (h : ∀ name ∈ names, isRetained name = false) :
    RecoverySafe sees (removeFiles names) world := by
  induction names generalizing world with
  | nil => exact SafeOr.pure (stable_alone _) trivial
  | cons name rest ih =>
    exact SafeOr.bind (recoverySafe_ask (recoverySafe_removeFile (h name List.mem_cons_self)))
      fun _ _ _ => ih fun other hother => h other (List.mem_cons_of_mem _ hother)

theorem recoverySafe (maxEntries : ℕ) :
    RecoverySafe sees (recoverStagingDirectory maxEntries) world := by
  refine SafeOr.bind (recoverySafe_ask (recoverySafe_of_reads trivial)) fun entries world _ => ?_
  split
  · exact SafeOr.throw (stable_alone _) trivial
  next found hfound =>
    have hsorted : found.Sorted := Recoverable.foldlM_sorted (fun _ h => absurd h List.not_mem_nil) hfound
    refine SafeOr.bind (recoverySafe_cleanTrees fun name hname => hsorted name
      (List.mem_append_left _ hname)) fun _ world _ => ?_
    refine SafeOr.bind (recoverySafe_removeFiles fun name hname => hsorted name
      (List.mem_append_right _ hname)) fun _ world _ => ?_
    refine SafeOr.bind (?_ : RecoverySafe sees _ world) fun _ world _ =>
      SafeOr.pure (stable_alone _) trivial
    split
    · exact recoverySafe_ask (recoverySafe_of_reads trivial)
    · exact SafeOr.pure (stable_alone _) trivial

/-- A run of recovery, up to any point. -/
def Recovers (before after : World) : Prop :=
  ∃ maxEntries rest, Runs (Effect Unreliable) Alone (recoverStagingDirectory maxEntries).run before
    rest after

/-- Recovery after recovery, each finished or not, keeps the retained names. -/
theorem keepsRetained_of_recovers {before after : World} (h : ReflTransGen Recovers before after) :
    KeepsRetained before after := by
  induction h with
  | refl => exact .refl before
  | @tail middle last _ hstep ih =>
    obtain ⟨maxEntries, rest, hruns⟩ := hstep
    exact ih.trans (hruns.invariant (recoverySafe maxEntries)
      (stable_alone _) (fun _ _ hstep hkept => hkept.trans hstep) (.refl middle))

end Recovery

/-! ### Replacements -/

/-- What a replacement is to keep: the version at its destination, while it publishes another. -/
structure Replacement where
  path : VirtualPath
  old : Option Entry
  new : Entry

namespace Replacement

/-- The destination holds its version still, or again. -/
def Untouched (change : Replacement) (world : World) : Prop :=
  world.entryAt (.named change.path) = change.old

/-- The versions are swapped, and the old one is in staging. -/
def Exchanged (change : Replacement) (name : String) (world : World) : Prop :=
  world.entryAt (.named change.path) = some change.new ∧ world.entryAt (.staged name) = change.old

/-- The old version is removed, and the new one is in its place. -/
def Committed (change : Replacement) (world : World) : Prop :=
  world.entryAt (.named change.path) = some change.new ∧
    ∀ entry, change.old = some entry → entry ∈ world.unlinked

/-- Where a crash may leave the versions. -/
def Kept (change : Replacement) (world : World) : Prop :=
  change.Untouched world ∨ (∃ suffix, change.Exchanged (internalReplacePrefix ++ suffix) world) ∨
    change.Committed world

variable {change : Replacement} {sees : Sees} {world : World} {α : Type}

/-- The obligation of a part of a replacement. -/
abbrev StepsSafe (change : Replacement) (sees : Sees) (post : α → World → Prop)
    (fail : PendingWrite.Failure → World → Prop) (steps : Steps PendingWrite.Failure α)
    (world : World) : Prop :=
  SafeOr (Effect sees) Alone (fun _ after => change.Kept after) post fail steps world

/-- What a replacement leaves when it fails, before the staged file is dropped. -/
def Failed (change : Replacement) (failure : PendingWrite.Failure) (world : World) : Prop :=
  change.Untouched world ∨
    failure.2.published = true ∧ ∃ suffix, change.Exchanged (internalReplacePrefix ++ suffix) world

/-- What a replacement leaves when it succeeds. -/
def Done (change : Replacement) (result : EntryMetadata × PendingWrite) (world : World) : Prop :=
  result.2.published = true ∧ change.Committed world

/-- Reading keeps what holds. -/
theorem safe_read {call : Call} {pre : World → Prop} (hreads : call.Reads)
    (hkept : ∀ current, pre current → change.Kept current) (hpre : pre world) :
    Safe (Effect sees) Alone (fun _ after => change.Kept after) (fun _ last => pre last)
      (perform call) world :=
  safe_of_reads hreads (fun _ _ _ => id) (stable_alone pre) hkept hpre

/-- Reading before the exchange; a failure leaves the destination as it was. -/
theorem safe_attempt_read {self : PendingWrite} {call : Script (FsResult α)} {pre : World → Prop}
    (huntouched : ∀ current, pre current → change.Untouched current)
    (h : Safe (Effect sees) Alone (fun _ after => change.Kept after) (fun _ last => pre last) call
      world) :
    change.StepsSafe sees (fun _ last => pre last) change.Failed (self.attempt call) world :=
  safe_attempt (h.weaken fun answer last hlast => by
    cases answer with
    | ok value => exact hlast
    | error code => exact .inl (huntouched last hlast))

theorem safe_rollbackExchange {self : PendingWrite} (hpath : self.destination = change.path)
    (hname : ∃ suffix, self.temporaryName = internalReplacePrefix ++ suffix)
    (h : change.Exchanged self.temporaryName world) :
    Safe (Effect sees) Alone (fun _ after => change.Kept after)
      (fun answer last => match answer with
        | .ok _ => change.Untouched last
        | .error _ => change.Exchanged self.temporaryName last)
      self.rollbackExchange world := by
  obtain ⟨suffix, hsuffix⟩ := hname
  refine Safe.perform (stable_alone _) (fun _ => stable_alone _) h
    fun before answer after hbefore hstep => ?_
  cases answer with
  | error code =>
    obtain rfl : after = before := hstep
    exact ⟨.inr (.inl ⟨suffix, hsuffix ▸ hbefore⟩), hbefore⟩
  | ok done =>
    obtain ⟨-, -, rfl⟩ := hstep
    have huntouched : change.Untouched (before.exchange (.staged self.temporaryName)
        (.named self.destination)) := by
      rw [Untouched, ← hpath, World.exchange, World.put_self]
      exact hbefore.2
    exact ⟨.inl huntouched, huntouched⟩

theorem safe_abandon {self : PendingWrite} {code : FsErrorCode} (hpath : self.destination = change.path)
    (hname : ∃ suffix, self.temporaryName = internalReplacePrefix ++ suffix)
    (h : change.Exchanged self.temporaryName world) :
    change.StepsSafe sees change.Done change.Failed (self.abandon code) world := by
  refine SafeOr.bind (SafeOr.lift (safe_rollbackExchange hpath hname h)) fun answer middle hmiddle => ?_
  obtain ⟨suffix, hsuffix⟩ := hname
  cases answer with
  | error other =>
    exact SafeOr.throw (stable_alone _) (.inr ⟨rfl, suffix, hsuffix ▸ hmiddle⟩)
  | ok done => exact SafeOr.throw (stable_alone _) (.inl hmiddle)

theorem safe_validExchange {self : PendingWrite} {replacement expected : EntryMetadata}
    {pre : World → Prop} (hkept : ∀ current, pre current → change.Kept current) (hpre : pre world) :
    Safe (Effect sees) Alone (fun _ after => change.Kept after) (fun _ last => pre last)
      (self.validExchange replacement expected) world := by
  refine Safe.bind (safe_read trivial hkept hpre) fun answer middle hmiddle => ?_
  split
  · refine Safe.bind (safe_read trivial hkept (hmiddle middle .refl)) fun other last hlast => ?_
    exact Safe.done (stable_alone pre) (hlast last .refl)
  · exact Safe.done (stable_alone pre) (hmiddle middle .refl)

/-- The removal that commits. -/
theorem safe_commit {self : PendingWrite}
    (hname : ∃ suffix, self.temporaryName = internalReplacePrefix ++ suffix)
    (h : change.Exchanged self.temporaryName world) :
    Safe (Effect sees) Alone (fun _ after => change.Kept after)
      (fun answer last => match answer with
        | .ok _ => change.Committed last
        | .error _ => change.Exchanged self.temporaryName last)
      (removeFile (.staged self.temporaryName)) world := by
  obtain ⟨suffix, hsuffix⟩ := hname
  refine Safe.perform (stable_alone _) (fun _ => stable_alone _) h
    fun before answer after hbefore hstep => ?_
  cases answer with
  | error code =>
    obtain rfl : after = before := hstep
    exact ⟨.inr (.inl ⟨suffix, hsuffix ▸ hbefore⟩), hbefore⟩
  | ok done =>
    obtain ⟨type, stat, hentry, rfl⟩ := hstep
    have hcommitted : change.Committed (before.unlink (.staged self.temporaryName)
        (.leaf type stat)) := by
      refine ⟨by simpa using hbefore.1, fun entry hold => ?_⟩
      rw [← hbefore.2, hentry] at hold
      exact Option.some.inj hold ▸ List.mem_cons_self
    exact ⟨.inr (.inr hcommitted), hcommitted⟩

/-- The staged file is under its name, and the destination is as it was. -/
def Ready (change : Replacement) (name : String) (world : World) : Prop :=
  change.Untouched world ∧ world.entryAt (.staged name) = some change.new

theorem safe_renameExchange {self : PendingWrite} (hpath : self.destination = change.path)
    (hname : ∃ suffix, self.temporaryName = internalReplacePrefix ++ suffix)
    (h : change.Ready self.temporaryName world) :
    Safe (Effect sees) Alone (fun _ after => change.Kept after)
      (fun answer last => match answer with
        | .ok _ => change.Exchanged self.temporaryName last
        | .error _ => change.Untouched last)
      (renameExchange (.staged self.temporaryName) (.named self.destination)) world := by
  obtain ⟨suffix, hsuffix⟩ := hname
  refine Safe.perform (stable_alone _) (fun _ => stable_alone _) h
    fun before answer after hbefore hstep => ?_
  cases answer with
  | error code =>
    obtain rfl : after = before := hstep
    exact ⟨.inl hbefore.1, hbefore.1⟩
  | ok done =>
    obtain ⟨-, -, rfl⟩ := hstep
    have hexchanged : change.Exchanged self.temporaryName
        (before.exchange (.staged self.temporaryName) (.named self.destination)) := by
      rw [World.exchange, Exchanged, hpath, World.put_self, World.put_named_staged, World.put_self]
      exact ⟨hbefore.2, hbefore.1⟩
    exact ⟨.inr (.inl ⟨suffix, hsuffix ▸ hexchanged⟩), hexchanged⟩

theorem safe_exchangeSteps {self : PendingWrite} {replacement expected : EntryMetadata}
    (hpath : self.destination = change.path)
    (hname : ∃ suffix, self.temporaryName = internalReplacePrefix ++ suffix)
    (h : change.Ready self.temporaryName world) :
    change.StepsSafe sees change.Done change.Failed (self.exchangeSteps replacement expected) world := by
  have hkept (current : World) (hcurrent : change.Exchanged self.temporaryName current) :
      change.Kept current := by
    obtain ⟨suffix, hsuffix⟩ := hname
    exact .inr (.inl ⟨suffix, hsuffix ▸ hcurrent⟩)
  have hexchange : change.StepsSafe sees (fun _ last => change.Exchanged self.temporaryName last)
      change.Failed (self.attempt (renameExchange (.staged self.temporaryName)
        (.named self.destination))) world :=
    safe_attempt ((safe_renameExchange hpath hname h).weaken fun answer last hlast => by
      cases answer with
      | ok done => exact hlast
      | error code => exact .inl hlast)
  refine SafeOr.bind hexchange fun _ middle hmiddle => ?_
  refine SafeOr.bind (SafeOr.lift (safe_validExchange hkept hmiddle)) fun valid middle hmiddle => ?_
  cases valid with
  | false => exact safe_abandon hpath hname hmiddle
  | true =>
    refine SafeOr.bind (SafeOr.lift (safe_commit hname hmiddle)) fun answer middle hmiddle => ?_
    cases answer with
    | error code => exact safe_abandon hpath hname hmiddle
    | ok done =>
      have hcommitted (current : World) (hcurrent : change.Committed current) : change.Kept current :=
        .inr (.inr hcurrent)
      refine SafeOr.bind (SafeOr.lift (safe_read trivial hcommitted hmiddle)) fun _ middle hmiddle => ?_
      refine SafeOr.bind (SafeOr.lift (safe_read trivial hcommitted hmiddle)) fun _ middle hmiddle => ?_
      exact SafeOr.pure (stable_alone _) ⟨rfl, hmiddle⟩

/-- The staged file takes a name that recovery keeps. -/
theorem safe_renameStaged {self : PendingWrite} {name : String}
    (h : change.Ready self.temporaryName world) :
    Safe (Effect sees) Alone (fun _ after => change.Kept after)
      (fun answer last => match answer with
        | .ok _ => change.Ready name last
        | .error _ => change.Untouched last)
      (renameNoReplace (.staged self.temporaryName) (.staged name)) world := by
  refine Safe.perform (stable_alone _) (fun _ => stable_alone _) h
    fun before answer after hbefore hstep => ?_
  cases answer with
  | error code =>
    obtain rfl : after = before := hstep
    exact ⟨.inl hbefore.1, hbefore.1⟩
  | ok done =>
    obtain ⟨-, -, rfl⟩ := hstep
    have huntouched : change.Untouched
        (before.rename (.staged self.temporaryName) (.staged name)) := by
      rw [Untouched, World.rename, World.put_staged_named, World.put_staged_named]
      exact hbefore.1
    refine ⟨.inl huntouched, huntouched, ?_⟩
    rw [World.rename, World.put_self]
    exact hbefore.2

/-- A name for the staged file that recovery keeps. -/
theorem safe_randomInternalName {self : PendingWrite} (h : change.Ready self.temporaryName world) :
    change.StepsSafe sees (fun name last => change.Ready self.temporaryName last ∧
      ∃ suffix, name = internalReplacePrefix ++ suffix) change.Failed
      (self.attempt (randomInternalName internalReplacePrefix)) world := by
  refine safe_attempt (Safe.perform (stable_alone _) (fun _ => stable_alone _) h
    fun before answer after hbefore hstep => ?_)
  obtain ⟨rfl, hname⟩ := hstep
  refine ⟨.inl hbefore.1, ?_⟩
  cases answer with
  | error code => exact .inl hbefore.1
  | ok name => exact ⟨hbefore, hname name rfl⟩

theorem safe_publishReplacementSteps {self : PendingWrite} {expected : EntryMetadata}
    (hpath : self.destination = change.path) (h : change.Ready self.temporaryName world) :
    change.StepsSafe sees change.Done change.Failed (self.publishReplacementSteps expected) world := by
  have huntouched (current : World) (hcurrent : change.Ready self.temporaryName current) :
      change.Untouched current := hcurrent.1
  have hkept (current : World) (hcurrent : change.Ready self.temporaryName current) :
      change.Kept current := .inl hcurrent.1
  refine SafeOr.bind (safe_attempt_read huntouched (safe_read (by trivial) hkept h))
    fun _ middle hmiddle => ?_
  refine SafeOr.bind (safe_attempt_read huntouched (safe_read (by trivial) hkept hmiddle))
    fun replacement middle hmiddle => ?_
  refine SafeOr.bind (safe_attempt_read huntouched (safe_read (by trivial) hkept hmiddle))
    fun _ middle hmiddle => ?_
  refine SafeOr.bind (safe_attempt_read huntouched (safe_read (by trivial) hkept hmiddle))
    fun current middle hmiddle => ?_
  split
  · exact SafeOr.throw (stable_alone _) (.inl hmiddle.1)
  refine SafeOr.bind (safe_randomInternalName hmiddle) fun name middle hmiddle => ?_
  have hrename : change.StepsSafe sees (fun _ last => change.Ready name last) change.Failed
      (self.attempt (renameNoReplace (.staged self.temporaryName) (.staged name))) middle :=
    safe_attempt ((safe_renameStaged hmiddle.1).weaken fun answer last hlast => by
      cases answer with
      | ok done => exact hlast
      | error code => exact .inl hlast)
  refine SafeOr.bind hrename fun _ last hlast => ?_
  exact safe_exchangeSteps hpath hmiddle.2 hlast

/-- Dropping the staged file leaves the destination alone. -/
theorem safe_drop {self : PendingWrite} (h : change.Untouched world) :
    Safe (Effect sees) Alone (fun _ after => change.Kept after) (fun _ last => change.Untouched last)
      self.drop world := by
  have hremove : Safe (Effect sees) Alone (fun _ after => change.Kept after)
      (fun _ last => change.Untouched last) (removeFile (.staged self.temporaryName)) world := by
    refine Safe.perform (stable_alone _) (fun _ => stable_alone _) h
      fun before answer after hbefore hstep => ?_
    have huntouched : change.Untouched after := by
      cases answer with
      | error code =>
        obtain rfl : after = before := hstep
        exact hbefore
      | ok done =>
        obtain ⟨type, stat, -, rfl⟩ := hstep
        simpa [Untouched] using hbefore
    exact ⟨.inl huntouched, huntouched⟩
  rw [PendingWrite.drop]
  split
  · exact Safe.bind hremove fun _ middle hmiddle => Safe.done (stable_alone _) (hmiddle middle .refl)
  · exact Safe.done (stable_alone _) h

/-- A published staged file is not removed. -/
theorem drop_of_published {self : PendingWrite} (h : self.published = true) :
    self.drop = Program.done () := by
  rw [PendingWrite.drop, h]
  rfl

theorem safe_publishReplacement {self : PendingWrite} {expected : EntryMetadata}
    (hpath : self.destination = change.path) (h : change.Ready self.temporaryName world) :
    Safe (Effect sees) Alone (fun _ after => change.Kept after)
      (fun result last => match result with
        | .ok _ => change.Committed last
        | .error _ => change.Untouched last ∨
            ∃ suffix, change.Exchanged (internalReplacePrefix ++ suffix) last)
      (self.publishReplacement expected) world := by
  refine Safe.bind (safe_publishReplacementSteps hpath h) fun result middle hmiddle => ?_
  have hmiddle := hmiddle middle .refl
  cases result with
  | ok result =>
    obtain ⟨hpublished, hcommitted⟩ := hmiddle
    dsimp only
    rw [drop_of_published hpublished]
    exact Safe.done (stable_alone _) hcommitted
  | error failure =>
    dsimp only
    rcases hmiddle with huntouched | ⟨hpublished, hexchanged⟩
    · refine Safe.bind (safe_drop huntouched) fun _ last hlast => ?_
      exact Safe.done (stable_alone _) (.inl (hlast last .refl))
    · rw [drop_of_published hpublished]
      exact Safe.done (stable_alone _) (.inr hexchanged)

/-- Where a run of a replacement leaves the versions, finished or not. -/
theorem of_runs {self : PendingWrite} {expected : EntryMetadata} {last : World}
    {rest : Script (FsResult EntryMetadata)} (hpath : self.destination = change.path)
    (h : change.Ready self.temporaryName world)
    (hruns : Runs (Effect sees) Alone (self.publishReplacement expected) world rest last) :
    change.Committed last ∨ (∀ metadata, rest ≠ .done (.ok metadata)) ∧
      (change.Untouched last ∨ ∃ suffix, change.Exchanged (internalReplacePrefix ++ suffix) last) := by
  have hsafe : Safe (Effect sees) Alone _ _ (self.publishReplacement expected) world :=
    safe_publishReplacement hpath h
  have hkept : change.Kept last :=
    hruns.invariant hsafe (stable_alone _) (fun _ _ h _ => h) (.inl h.1)
  by_cases hok : ∃ metadata, rest = .done (.ok metadata)
  · obtain ⟨metadata, rfl⟩ := hok
    exact .inl (hruns.post hsafe)
  · rcases hkept with huntouched | hexchanged | hcommitted
    · exact .inr ⟨fun metadata hrest => hok ⟨metadata, hrest⟩, .inl huntouched⟩
    · exact .inr ⟨fun metadata hrest => hok ⟨metadata, hrest⟩, .inr hexchanged⟩
    · exact .inl hcommitted

/-- A replacement that failed has committed nothing. -/
theorem of_runs_error {self : PendingWrite} {expected : EntryMetadata} {last : World}
    {code : FsErrorCode} (hpath : self.destination = change.path)
    (h : change.Ready self.temporaryName world)
    (hruns : Runs (Effect sees) Alone (self.publishReplacement expected) world
      (.done (.error code)) last) :
    change.Untouched last ∨ ∃ suffix, change.Exchanged (internalReplacePrefix ++ suffix) last :=
  hruns.post (safe_publishReplacement hpath h)

end Replacement

/-! ### Deletes -/

/-- What a delete displaces. -/
structure Deletion where
  path : VirtualPath
  old : Option Entry

namespace Deletion

/-- The entry is at its path still, or again. -/
def Untouched (change : Deletion) (world : World) : Prop :=
  world.entryAt (.named change.path) = change.old

/-- The entry is in staging. -/
def Staged (change : Deletion) (name : String) (world : World) : Prop :=
  world.entryAt (.named change.path) = none ∧ world.entryAt (.staged name) = change.old

/-- The entry is removed. -/
def Committed (change : Deletion) (world : World) : Prop :=
  world.entryAt (.named change.path) = none ∧
    ∀ entry, change.old = some entry → entry ∈ world.unlinked

/-- What a delete leaves when it fails. -/
def Failed (change : Deletion) (world : World) : Prop :=
  change.Untouched world ∨ ∃ suffix, change.Staged (internalDeletePrefix ++ suffix) world

/-- Where a crash may leave the entry. -/
def Kept (change : Deletion) (world : World) : Prop := change.Failed world ∨ change.Committed world

variable {change : Deletion} {sees : Sees} {world : World} {α : Type}

/-- The obligation of a part of a delete. -/
abbrev StepsSafe (change : Deletion) (sees : Sees) (post : α → World → Prop)
    (steps : Steps FsErrorCode α) (world : World) : Prop :=
  SafeOr (Effect sees) Alone (fun _ after => change.Kept after) post
    (fun _ last => change.Failed last) steps world

theorem safe_read {call : Call} {pre : World → Prop} (hreads : call.Reads)
    (hkept : ∀ current, pre current → change.Kept current) (hpre : pre world) :
    Safe (Effect sees) Alone (fun _ after => change.Kept after) (fun _ last => pre last)
      (perform call) world :=
  safe_of_reads hreads (fun _ _ _ => id) (stable_alone pre) hkept hpre

/-- Reading before the rename. -/
theorem safe_ask_read {call : Script (FsResult α)}
    (h : Safe (Effect sees) Alone (fun _ after => change.Kept after)
      (fun _ last => change.Untouched last) call world) :
    change.StepsSafe sees (fun _ last => change.Untouched last) (ask call) world :=
  safe_attempt (h.weaken fun answer last hlast => by
    cases answer with
    | ok value => exact hlast
    | error code => exact .inl hlast)

theorem safe_undoDelete {name : String} {code : FsErrorCode}
    (hname : ∃ suffix, name = internalDeletePrefix ++ suffix) (h : change.Staged name world) :
    change.StepsSafe sees (fun _ last => change.Committed last) (undoDelete change.path name code)
      world := by
  have hfailed (current : World) (hcurrent : change.Staged name current) : change.Failed current := by
    obtain ⟨suffix, rfl⟩ := hname
    exact .inr ⟨suffix, hcurrent⟩
  have hrename : Safe (Effect sees) Alone (fun _ after => change.Kept after)
      (fun _ last => change.Failed last)
      (renameNoReplace (.staged name) (.named change.path)) world := by
    refine Safe.perform (stable_alone _) (fun _ => stable_alone _) h
      fun before answer after hbefore hstep => ?_
    cases answer with
    | error code =>
      obtain rfl : after = before := hstep
      exact ⟨.inl (hfailed after hbefore), hfailed after hbefore⟩
    | ok done =>
      obtain ⟨-, -, rfl⟩ := hstep
      have huntouched : change.Untouched (before.rename (.staged name) (.named change.path)) := by
        rw [Untouched, World.rename, World.put_self]
        exact hbefore.2
      exact ⟨.inl (.inl huntouched), .inl huntouched⟩
  refine SafeOr.bind (SafeOr.lift hrename) fun answer middle hmiddle => ?_
  cases answer with
  | error other => exact SafeOr.throw (stable_alone _) hmiddle
  | ok done => exact SafeOr.throw (stable_alone _) hmiddle

/-- The rename of the entry to staging. -/
theorem safe_renameNoReplace {name : String} (hname : ∃ suffix, name = internalDeletePrefix ++ suffix)
    (h : change.Untouched world) :
    change.StepsSafe sees (fun _ last => change.Staged name last)
      (ask (renameNoReplace (.named change.path) (.staged name))) world := by
  refine safe_attempt (Safe.perform (stable_alone _) (fun _ => stable_alone _) h
    fun before answer after hbefore hstep => ?_)
  cases answer with
  | error code =>
    obtain rfl : after = before := hstep
    exact ⟨.inl (.inl hbefore), .inl hbefore⟩
  | ok done =>
    obtain ⟨-, -, rfl⟩ := hstep
    have hstaged : change.Staged name (before.rename (.named change.path) (.staged name)) := by
      refine ⟨?_, ?_⟩
      · rw [World.rename, World.put_staged_named, World.put_self]
      · rw [World.rename, World.put_self]
        exact hbefore
    obtain ⟨suffix, rfl⟩ := hname
    exact ⟨.inl (.inr ⟨suffix, hstaged⟩), hstaged⟩

/-- What a removal of the staged entry leaves. -/
theorem committed_unlink {name : String} {before : World} {entry : Entry}
    (h : change.Staged name before) (hentry : before.entryAt (.staged name) = some entry) :
    change.Committed (before.unlink (.staged name) entry) := by
  refine ⟨by simpa using h.1, fun old hold => ?_⟩
  rw [← h.2, hentry] at hold
  exact Option.some.inj hold ▸ List.mem_cons_self

/-- The removal that commits, of a file or of a directory. -/
theorem safe_commit {name : String} {kind : EntryKind}
    (hname : ∃ suffix, name = internalDeletePrefix ++ suffix) (h : change.Staged name world) :
    Safe (Effect sees) Alone (fun _ after => change.Kept after)
      (fun answer last => match answer with
        | .ok _ => change.Committed last
        | .error _ => change.Staged name last)
      (match kind with
        | .file => removeFile (.staged name)
        | .directory => removeDir (.staged name)) world := by
  have hkept (current : World) (hcurrent : change.Staged name current) : change.Kept current := by
    obtain ⟨suffix, rfl⟩ := hname
    exact .inl (.inr ⟨suffix, hcurrent⟩)
  cases kind with
  | file =>
    refine Safe.perform (stable_alone _) (fun _ => stable_alone _) h
      fun before answer after hbefore hstep => ?_
    cases answer with
    | error code =>
      obtain rfl : after = before := hstep
      exact ⟨hkept after hbefore, hbefore⟩
    | ok done =>
      obtain ⟨type, stat, hentry, rfl⟩ := hstep
      exact ⟨.inr (committed_unlink hbefore hentry), committed_unlink hbefore hentry⟩
  | directory =>
    refine Safe.perform (stable_alone _) (fun _ => stable_alone _) h
      fun before answer after hbefore hstep => ?_
    cases answer with
    | error code =>
      obtain rfl : after = before := hstep
      exact ⟨hkept after hbefore, hbefore⟩
    | ok done =>
      obtain ⟨stat, hentry, rfl⟩ := hstep
      exact ⟨.inr (committed_unlink hbefore hentry), committed_unlink hbefore hentry⟩

theorem safe_deleteStaged {name : String} {expected : EntryMetadata}
    (hname : ∃ suffix, name = internalDeletePrefix ++ suffix) (h : change.Untouched world) :
    change.StepsSafe sees (fun _ last => change.Committed last)
      (deleteStaged change.path name expected) world := by
  have hkept (current : World) (hcurrent : change.Staged name current) : change.Kept current := by
    obtain ⟨suffix, rfl⟩ := hname
    exact .inl (.inr ⟨suffix, hcurrent⟩)
  refine SafeOr.bind (safe_renameNoReplace hname h) fun _ middle hmiddle => ?_
  refine SafeOr.bind (SafeOr.lift (safe_read (by trivial) hkept hmiddle)) fun staged middle hmiddle => ?_
  split
  · exact safe_undoDelete hname hmiddle
  refine SafeOr.bind (SafeOr.lift (safe_commit hname hmiddle)) fun answer middle hmiddle => ?_
  cases answer with
  | error code => exact safe_undoDelete hname hmiddle
  | ok done =>
    have hcommitted (current : World) (hcurrent : change.Committed current) : change.Kept current :=
      .inr hcurrent
    refine SafeOr.bind (SafeOr.lift (safe_read trivial hcommitted hmiddle)) fun _ middle hmiddle => ?_
    refine SafeOr.bind (SafeOr.lift (safe_read trivial hcommitted hmiddle)) fun _ middle hmiddle => ?_
    exact SafeOr.pure (stable_alone _) hmiddle

theorem safe_deleteEntry {readWrite : Bool} {expected : EntryMetadata} (h : change.Untouched world) :
    change.StepsSafe sees (fun _ last => change.Committed last)
      (deleteEntry readWrite change.path expected) world := by
  have hkept (current : World) (hcurrent : change.Untouched current) : change.Kept current :=
    .inl (.inl hcurrent)
  have hwrite : change.StepsSafe sees (fun _ last => change.Untouched last) (requireWrite readWrite)
      world := by
    cases readWrite with
    | true => exact SafeOr.pure (stable_alone _) h
    | false => exact SafeOr.throw (stable_alone _) (.inl h)
  refine SafeOr.bind hwrite fun _ middle hmiddle => ?_
  refine SafeOr.bind (safe_ask_read (safe_read (by trivial) hkept hmiddle)) fun current middle hmiddle => ?_
  split
  · exact SafeOr.throw (stable_alone _) (.inl hmiddle)
  refine SafeOr.bind (safe_ask_read (safe_read (by trivial) hkept hmiddle)) fun _ middle hmiddle => ?_
  refine SafeOr.bind (safe_ask_read (safe_read (by trivial) hkept hmiddle)) fun _ middle hmiddle => ?_
  have hrandom : change.StepsSafe sees (fun name last => change.Untouched last ∧
      ∃ suffix, name = internalDeletePrefix ++ suffix)
      (ask (randomInternalName internalDeletePrefix)) middle := by
    refine safe_attempt (Safe.perform (stable_alone _) (fun _ => stable_alone _) hmiddle
      fun before answer after hbefore hstep => ?_)
    obtain ⟨rfl, hname⟩ := hstep
    refine ⟨hkept after hbefore, ?_⟩
    cases answer with
    | error code => exact .inl hbefore
    | ok name => exact ⟨hbefore, hname name rfl⟩
  refine SafeOr.bind hrandom fun name middle hmiddle => ?_
  exact safe_deleteStaged hmiddle.2 hmiddle.1

/-- Where a run of a delete leaves the entry, finished or not. -/
theorem of_runs {readWrite : Bool} {expected : EntryMetadata} {last : World}
    {rest : Script (FsResult Unit)} (h : change.Untouched world)
    (hruns : Runs (Effect sees) Alone (deleteEntry readWrite change.path expected).run world rest last) :
    change.Committed last ∨ rest ≠ .done (.ok ()) ∧ change.Failed last := by
  have hsafe : change.StepsSafe sees _ (deleteEntry readWrite change.path expected) world :=
    safe_deleteEntry h
  have hkept : change.Kept last :=
    hruns.invariant hsafe (stable_alone _) (fun _ _ h _ => h) (.inl (.inl h))
  by_cases hok : rest = .done (.ok ())
  · subst hok
    exact .inl (hruns.post hsafe)
  · exact hkept.elim (fun hfailed => .inr ⟨hok, hfailed⟩) .inl

/-- A delete that failed has removed nothing. -/
theorem of_runs_error {readWrite : Bool} {expected : EntryMetadata} {last : World}
    {code : FsErrorCode} (h : change.Untouched world)
    (hruns : Runs (Effect sees) Alone (deleteEntry readWrite change.path expected).run world
      (.done (.error code)) last) : change.Failed last := by
  have hsafe : change.StepsSafe sees _ (deleteEntry readWrite change.path expected) world :=
    safe_deleteEntry h
  exact hruns.post hsafe

end Deletion

/-! ### No version is lost -/

theorem KeepsRetained.retains {before after : World} (h : KeepsRetained before after) {start : String}
    (hstart : ∀ suffix, isRetained (start ++ suffix) = true) {entry : Entry}
    (hretains : before.Retains start entry) : after.Retains start entry := by
  obtain ⟨suffix, hentry⟩ := hretains
  exact ⟨suffix, (h.2 _ (hstart suffix)).trans hentry⟩

/-- The entry is where it was, or in private staging under a name with the prefix. -/
def World.StillHas (world : World) (path : VirtualPath) (start : String) (entry : Entry) : Prop :=
  world.entryAt (.named path) = some entry ∨ world.Retains start entry

/-- A file that a staged one is to replace. -/
def replacedFile : Entry := .leaf .file ⟨1, none, 7, 1⟩

/-- The metadata of that file. -/
def replacedMetadata : EntryMetadata := ⟨.file, 1, none, 7⟩

/-- The staged file, open for a write to the path. -/
def stagedWrite : PendingWrite :=
  ⟨".index-tmp-ffeeddccbbaa99887766554433221100", ⟨[⟨"notes"⟩]⟩, .leaf .file ⟨2, none, 8, 1⟩, false⟩

/-- The name that the staged file takes before the exchange. -/
def retainedName : String := internalReplacePrefix ++ "00112233445566778899aabbccddeeff"

/-- The share and its staging before the replacement. -/
def stagedEntries : Place → Option Entry
  | .named path => if path = stagedWrite.destination then some replacedFile else none
  | .staged name => if name = stagedWrite.temporaryName then some stagedWrite.file else none

/-- The first steps of the replacement, when none of them fails. -/
def stagedRun (fuel : ℕ) : Script (FsResult EntryMetadata) × World :=
  exec World.handle fuel (stagedWrite.publishReplacement replacedMetadata) (.start stagedEntries)

theorem stagedRun_runs (fuel : ℕ) :
    Runs (Effect Unreliable) Alone (stagedWrite.publishReplacement replacedMetadata)
      (.start stagedEntries) (stagedRun fuel).1 (stagedRun fuel).2 :=
  runs_exec (fun world call => (world.effect_handle call).unreliable) fuel _ _

/-- Wherever a replacement or a delete stops, and however often recovery runs after it, the
version it displaces is at its path or kept in staging, unless it was removed. It is removed
only where the operation does not fail, and then what is to be at the path is there. -/
theorem displaced_version_kept :
    (∀ (self : PendingWrite) (expected : EntryMetadata) (entryAt : Place → Option Entry)
        (rest : Script (FsResult EntryMetadata)) (last later : World),
      entryAt (.staged self.temporaryName) = some self.file →
      Runs (Effect Unreliable) Alone (self.publishReplacement expected) (.start entryAt) rest last →
      ReflTransGen Recovers last later →
      (∀ metadata, rest = .done (.ok metadata) →
        later.entryAt (.named self.destination) = some self.file) ∧
      ∀ old, entryAt (.named self.destination) = some old →
        later.StillHas self.destination internalReplacePrefix old ∨
          (∀ code, rest ≠ .done (.error code)) ∧ old ∈ last.unlinked ∧
            later.entryAt (.named self.destination) = some self.file) ∧
    (∀ (readWrite : Bool) (path : VirtualPath) (expected : EntryMetadata)
        (entryAt : Place → Option Entry) (rest : Script (FsResult Unit)) (last later : World),
      Runs (Effect Unreliable) Alone (deleteEntry readWrite path expected).run (.start entryAt) rest
        last →
      ReflTransGen Recovers last later →
      (rest = .done (.ok ()) → later.entryAt (.named path) = none) ∧
      ∀ old, entryAt (.named path) = some old →
        later.StillHas path internalDeletePrefix old ∨
          (∀ code, rest ≠ .done (.error code)) ∧ old ∈ last.unlinked ∧
            later.entryAt (.named path) = none) := by
  constructor
  · intro self expected entryAt rest last later hstaged hruns hrecovers
    let change : Replacement := ⟨self.destination, entryAt (.named self.destination), self.file⟩
    have hready : change.Ready self.temporaryName (.start entryAt) := ⟨rfl, hstaged⟩
    have hkeeps := keepsRetained_of_recovers hrecovers
    have hstill (old : Entry) (hold : entryAt (.named self.destination) = some old)
        (h : change.Untouched last ∨
          ∃ suffix, change.Exchanged (internalReplacePrefix ++ suffix) last) :
        later.StillHas self.destination internalReplacePrefix old := by
      rcases h with huntouched | ⟨suffix, hexchanged⟩
      · exact .inl ((hkeeps.1 _).trans (huntouched.trans hold))
      · exact .inr (hkeeps.retains isRetained_replace ⟨suffix, hexchanged.2.trans hold⟩)
    have hlast := Replacement.of_runs rfl hready hruns
    refine ⟨fun metadata hrest => ?_, fun old hold => ?_⟩
    · rcases hlast with hcommitted | ⟨hnot, -⟩
      · exact (hkeeps.1 _).trans hcommitted.1
      · exact absurd hrest (hnot metadata)
    · by_cases hcode : ∃ code, rest = .done (.error code)
      · obtain ⟨code, rfl⟩ := hcode
        exact .inl (hstill old hold (Replacement.of_runs_error rfl hready hruns))
      · rcases hlast with hcommitted | ⟨-, hkept⟩
        · exact .inr ⟨fun code hrest => hcode ⟨code, hrest⟩, hcommitted.2 old hold,
            (hkeeps.1 _).trans hcommitted.1⟩
        · exact .inl (hstill old hold hkept)
  · intro readWrite path expected entryAt rest last later hruns hrecovers
    let change : Deletion := ⟨path, entryAt (.named path)⟩
    have huntouched : change.Untouched (.start entryAt) := rfl
    have hkeeps := keepsRetained_of_recovers hrecovers
    have hstill (old : Entry) (hold : entryAt (.named path) = some old) (h : change.Failed last) :
        later.StillHas path internalDeletePrefix old := by
      rcases h with huntouched | ⟨suffix, hstaged⟩
      · exact .inl ((hkeeps.1 _).trans (huntouched.trans hold))
      · exact .inr (hkeeps.retains isRetained_delete ⟨suffix, hstaged.2.trans hold⟩)
    have hlast := Deletion.of_runs huntouched hruns
    refine ⟨fun hrest => ?_, fun old hold => ?_⟩
    · rcases hlast with hcommitted | ⟨hnot, -⟩
      · exact (hkeeps.1 _).trans hcommitted.1
      · exact absurd hrest hnot
    · by_cases hcode : ∃ code, rest = .done (.error code)
      · obtain ⟨code, rfl⟩ := hcode
        exact .inl (hstill old hold (Deletion.of_runs_error huntouched hruns))
      · rcases hlast with hcommitted | ⟨-, hkept⟩
        · exact .inr ⟨fun code hrest => hcode ⟨code, hrest⟩, hcommitted.2 old hold,
            (hkeeps.1 _).trans hcommitted.1⟩
        · exact .inl (hstill old hold hkept)

/-- Such a replacement, run to its end. -/
theorem displaced_version_kept_by_stagedRun :
    (stagedRun 12).2.entryAt (.named stagedWrite.destination) = some stagedWrite.file :=
  (displaced_version_kept.1 stagedWrite replacedMetadata stagedEntries (stagedRun 12).1
    (stagedRun 12).2 (stagedRun 12).2 rfl (stagedRun_runs 12) .refl).1 ⟨.file, 2, none, 8⟩ rfl

/-- A crash right after the removal that commits a replacement leaves the old version nowhere. -/
theorem displaced_version_lost_after_commit :
    ¬∀ (self : PendingWrite) (expected : EntryMetadata) (entryAt : Place → Option Entry)
      (rest : Script (FsResult EntryMetadata)) (last later : World),
      entryAt (.staged self.temporaryName) = some self.file →
      Runs (Effect Unreliable) Alone (self.publishReplacement expected) (.start entryAt) rest last →
      ReflTransGen Recovers last later → (∀ metadata, rest ≠ .done (.ok metadata)) →
      ∀ old, entryAt (.named self.destination) = some old →
        later.StillHas self.destination internalReplacePrefix old := by
  intro h
  have hstill := h stagedWrite replacedMetadata stagedEntries (stagedRun 10).1 (stagedRun 10).2
    (stagedRun 10).2 rfl (stagedRun_runs 10) .refl nofun replacedFile rfl
  rcases hstill with hnamed | ⟨suffix, hretained⟩
  · revert hnamed
    decide
  · have hworld : (stagedRun 10).2 = (((World.start stagedEntries).rename
        (.staged stagedWrite.temporaryName) (.staged retainedName)).exchange (.staged retainedName)
          (.named stagedWrite.destination)).unlink (.staged retainedName) replacedFile := rfl
    rw [hworld] at hretained
    simp [World.rename, World.exchange, World.unlink, World.put, Function.update_apply, World.start,
      stagedEntries] at hretained
    obtain ⟨hne, hretained⟩ := hretained
    exact (hretained hne).1 (hretained hne).2.1

end Crabinet.Share
