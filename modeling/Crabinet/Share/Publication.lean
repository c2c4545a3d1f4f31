import Crabinet.Filesystem.Tree
import Crabinet.Library.Interference

/-!
# Publication, replacement, moves and deletes, step by step

Each operation is the program of its calls to the file system, every one of which may
fail. Between two calls another process may create, replace, move or take the entries of
the share; private staging is the service's own. A name holds a whole entry here: only
the names an operation renames or removes matter.
-/

namespace Crabinet.Share

open Crabinet.Filesystem Crabinet.Library Program

/-! ### The file system -/

/-- `INTERNAL_TEMP_PREFIX`. -/
def internalTempPrefix : String := ".index-tmp-"

/-- `INTERNAL_DELETE_PREFIX`. -/
def internalDeletePrefix : String := ".index-del-"

/-- `INTERNAL_REPLACE_PREFIX`. -/
def internalReplacePrefix : String := ".index-rep-"

/-- `TREE_PREFIX`. -/
def treePrefix : String := ".index-arc-"

/-- A name of the share, or one of private staging. -/
inductive Place where
  | named (path : VirtualPath)
  | staged (name : String)
deriving DecidableEq

/-- The entries by name. The lists record what another process displaced or took out of the
share itself, and what the service removed. -/
structure World where
  entryAt : Place → Option Entry
  withdrawn : List Entry
  unlinked : List Entry

namespace World

/-- Let a name hold an entry, or nothing. -/
def put (world : World) (place : Place) (entry : Option Entry) : World :=
  { world with entryAt := Function.update world.entryAt place entry }

/-- A rename that replaces nothing. -/
def rename (world : World) (source target : Place) : World :=
  (world.put source none).put target (world.entryAt source)

/-- A rename that swaps two names. -/
def exchange (world : World) (first second : Place) : World :=
  (world.put first (world.entryAt second)).put second (world.entryAt first)

/-- The service removes the entry of a name. -/
def unlink (world : World) (place : Place) (entry : Entry) : World :=
  { world.put place none with unlinked := entry :: world.unlinked }

@[simp] theorem put_self (world : World) (place : Place) (entry : Option Entry) :
    (world.put place entry).entryAt place = entry := Function.update_self ..

theorem put_of_ne (world : World) {place other : Place} (entry : Option Entry) (h : other ≠ place) :
    (world.put place entry).entryAt other = world.entryAt other := Function.update_of_ne h ..

@[simp] theorem put_staged_named (world : World) (name : String) (path : VirtualPath)
    (entry : Option Entry) :
    (world.put (.staged name) entry).entryAt (.named path) = world.entryAt (.named path) :=
  world.put_of_ne entry nofun

@[simp] theorem put_named_staged (world : World) (name : String) (path : VirtualPath)
    (entry : Option Entry) :
    (world.put (.named path) entry).entryAt (.staged name) = world.entryAt (.staged name) :=
  world.put_of_ne entry nofun

@[simp] theorem unlink_entryAt (world : World) (place : Place) (entry : Entry) :
    (world.unlink place entry).entryAt = (world.put place none).entryAt := rfl

@[simp] theorem put_unlinked (world : World) (place : Place) (entry : Option Entry) :
    (world.put place entry).unlinked = world.unlinked := rfl

@[simp] theorem put_withdrawn (world : World) (place : Place) (entry : Option Entry) :
    (world.put place entry).withdrawn = world.withdrawn := rfl

end World

/-- What another process may do to the entries of the share. What it displaces or takes out
is its own to keep, until it puts it back; what is in private staging it cannot name. -/
inductive Interferes : World → World → Prop where
  | create {world path} (entry : Entry) (hfree : world.entryAt (.named path) = none)
      (hprivate : ∀ name, world.entryAt (.staged name) ≠ some entry) :
      Interferes world { world.put (.named path) (some entry) with
        withdrawn := world.withdrawn.filter (· ≠ entry) }
  | replace {world path old} (entry : Entry) (hold : world.entryAt (.named path) = some old)
      (hprivate : ∀ name, world.entryAt (.staged name) ≠ some entry) :
      Interferes world { world.put (.named path) (some entry) with
        withdrawn := (old :: world.withdrawn).filter (· ≠ entry) }
  | renameAway {world path target} (hfree : world.entryAt (.named target) = none) :
      Interferes world (world.rename (.named path) (.named target))
  | renameOver {world path target old} (hne : path ≠ target)
      (hsource : world.entryAt (.named path) ≠ none)
      (hold : world.entryAt (.named target) = some old) :
      Interferes world { world.rename (.named path) (.named target) with
        withdrawn := old :: world.withdrawn }
  | takeOut {world path old} (hold : world.entryAt (.named path) = some old) :
      Interferes world { world.put (.named path) none with withdrawn := old :: world.withdrawn }

/-- A step that reads or writes no entry: it succeeds or fails. -/
inductive Probe where
  | validateRegularHandle | syncAll | syncAfterCommit | openParent | ensureSubtreeWithin
  | ensureSameDevice | syncDirectory

/-- The type of a listed staging entry. -/
inductive FileType where
  | directory | file | other

/-- An entry of the staging directory; a name that is no text has none here. -/
structure StagingEntry where
  name : Option String
  fileType : FsResult FileType

/-- A call to the file system. -/
inductive Call where
  | probe (probe : Probe)
  /-- `raw_file_metadata` of the open staged file. -/
  | rawFileMetadata (file : Entry)
  /-- `metadata_in_parent_raw`. -/
  | metadataInParent (place : Place)
  /-- `random_internal_name`. -/
  | randomInternalName (start : String)
  /-- `renameat_with` and `NOREPLACE`. -/
  | renameNoReplace (source target : Place)
  /-- `renameat_with` and `EXCHANGE`. -/
  | renameExchange (first second : Place)
  | removeFile (place : Place)
  | removeDir (place : Place)
  /-- The listing of the staging directory. -/
  | entries
  /-- `clean_tree`. -/
  | cleanTree (name : String)

/-- The answer of a call. -/
abbrev Call.Answer : Call → Type
  | probe _ | renameNoReplace .. | renameExchange .. | removeFile _ | removeDir _ => FsResult Unit
  | rawFileMetadata _ | metadataInParent _ => FsResult EntryMetadata
  | randomInternalName _ => FsResult String
  | entries => FsResult (List (FsResult StagingEntry))
  | cleanTree _ => FsResult Bool

/-- How a metadata call may answer about an entry that is, or is not, there. -/
abbrev Sees := Option Entry → FsResult EntryMetadata → Prop

/-- The call fails, or it tells the entry's metadata. -/
def Observes : Sees := fun entry answer =>
  (∃ error, answer = .error error) ∨ ∃ there, entry = some there ∧ answer = there.metadata

/-- The call may say anything. -/
def Unreliable : Sees := fun _ _ => True

/-- What a call that answers so leaves. A failed call leaves everything as it was. -/
def Effect (sees : Sees) (world : World) : (call : Call) → call.Answer → World → Prop
  | .probe _, _, after => after = world
  | .rawFileMetadata file, answer, after => after = world ∧ sees (some file) answer
  | .metadataInParent place, answer, after => after = world ∧ sees (world.entryAt place) answer
  | .randomInternalName start, answer, after =>
    after = world ∧ ∀ name, answer = .ok name → ∃ suffix, name = start ++ suffix
  | .renameNoReplace source target, answer, after =>
    match answer with
    | .error _ => after = world
    | .ok () => world.entryAt source ≠ none ∧ world.entryAt target = none ∧
        after = world.rename source target
  | .renameExchange first second, answer, after =>
    match answer with
    | .error _ => after = world
    | .ok () => world.entryAt first ≠ none ∧ world.entryAt second ≠ none ∧
        after = world.exchange first second
  | .removeFile place, answer, after =>
    match answer with
    | .error _ => after = world
    | .ok () => ∃ type stat, world.entryAt place = some (.leaf type stat) ∧
        after = world.unlink place (.leaf type stat)
  | .removeDir place, answer, after =>
    match answer with
    | .error _ => after = world
    | .ok () => ∃ stat, world.entryAt place = some (.directory stat .empty) ∧
        after = world.unlink place (.directory stat .empty)
  | .entries, _, after => after = world
  | .cleanTree name, answer, after =>
    -- What is left of a tree that could not be removed whole stays under its name.
    ∃ left, after = world.put (.staged name) left ∧ (answer = .ok true → left = none)

/-- The file system when nothing goes wrong by itself. -/
def World.handle (world : World) : (call : Call) → call.Answer × World
  | .probe _ => (.ok (), world)
  | .rawFileMetadata file => (file.metadata, world)
  | .metadataInParent place =>
    match world.entryAt place with
    | some entry => (entry.metadata, world)
    | none => (.error .notFound, world)
  | .randomInternalName start => (.ok (start ++ "00112233445566778899aabbccddeeff"), world)
  | .renameNoReplace source target =>
    if world.entryAt source ≠ none ∧ world.entryAt target = none then
      (.ok (), world.rename source target)
    else (.error .conflict, world)
  | .renameExchange first second =>
    if world.entryAt first ≠ none ∧ world.entryAt second ≠ none then
      (.ok (), world.exchange first second)
    else (.error .notFound, world)
  | .removeFile place =>
    match world.entryAt place with
    | some (.leaf type stat) => (.ok (), world.unlink place (.leaf type stat))
    | _ => (.error .notFound, world)
  | .removeDir place =>
    match world.entryAt place with
    | some (.directory stat .empty) => (.ok (), world.unlink place (.directory stat .empty))
    | _ => (.error .notFound, world)
  | .entries => (.ok [], world)
  | .cleanTree name => (.ok true, world.put (.staged name) none)

/-- Its steps are among the possible ones. -/
theorem World.effect_handle (world : World) (call : Call) :
    Effect Observes world call (world.handle call).1 (world.handle call).2 := by
  cases call with
  | probe _ | entries => rfl
  | rawFileMetadata file => exact ⟨rfl, .inr ⟨file, rfl, rfl⟩⟩
  | metadataInParent place =>
    rw [handle]
    split
    next entry hentry => exact ⟨rfl, .inr ⟨entry, hentry, rfl⟩⟩
    next => exact ⟨rfl, .inl ⟨_, rfl⟩⟩
  | randomInternalName start => exact ⟨rfl, fun name hname => ⟨_, (Except.ok.inj hname).symm⟩⟩
  | renameNoReplace source target =>
    rw [handle]
    split
    next h => exact ⟨h.1, h.2, rfl⟩
    next => rfl
  | renameExchange first second =>
    rw [handle]
    split
    next h => exact ⟨h.1, h.2, rfl⟩
    next => rfl
  | removeFile place =>
    rw [handle]
    split
    next type stat h => exact ⟨type, stat, h, rfl⟩
    next => rfl
  | removeDir place =>
    rw [handle]
    split
    next stat h => exact ⟨stat, h, rfl⟩
    next => rfl
  | cleanTree name => exact ⟨none, rfl, fun _ => rfl⟩

/-- Where a metadata call may say anything, it may tell the truth. -/
theorem Effect.unreliable {sees : Sees} {world after : World} {call : Call} {answer : call.Answer}
    (h : Effect sees world call answer after) : Effect Unreliable world call answer after := by
  cases call with
  | rawFileMetadata _ | metadataInParent _ => exact ⟨h.1, trivial⟩
  | _ => exact h

/-- The entries of a share before any step. -/
def World.start (entryAt : Place → Option Entry) : World := ⟨entryAt, [], []⟩

/-! ### The operations -/

/-- A program of calls. -/
abbrev Script := Program Call Call.Answer

/-- A program of calls that may end early. -/
abbrev Steps (ε : Type) := ExceptT ε Script

/-- A step that reads or writes no entry. -/
abbrev probe (step : Probe) : Script (FsResult Unit) := perform (Call.probe step)

/-- `raw_file_metadata`. -/
abbrev rawFileMetadata (file : Entry) : Script (FsResult EntryMetadata) :=
  perform (Call.rawFileMetadata file)

/-- `metadata_in_parent_raw`. -/
abbrev metadataInParent (place : Place) : Script (FsResult EntryMetadata) :=
  perform (Call.metadataInParent place)

/-- `random_internal_name`. -/
abbrev randomInternalName (start : String) : Script (FsResult String) :=
  perform (Call.randomInternalName start)

/-- `renameat_with` and `NOREPLACE`. -/
abbrev renameNoReplace (source target : Place) : Script (FsResult Unit) :=
  perform (Call.renameNoReplace source target)

/-- `renameat_with` and `EXCHANGE`. -/
abbrev renameExchange (first second : Place) : Script (FsResult Unit) :=
  perform (Call.renameExchange first second)

/-- `remove_file`. -/
abbrev removeFile (place : Place) : Script (FsResult Unit) := perform (Call.removeFile place)

/-- `remove_dir`. -/
abbrev removeDir (place : Place) : Script (FsResult Unit) := perform (Call.removeDir place)

/-- `entries` of the staging directory. -/
abbrev stagingEntries : Script (FsResult (List (FsResult StagingEntry))) := perform Call.entries

/-- `clean_tree`. -/
abbrev cleanTree (name : String) : Script (FsResult Bool) := perform (Call.cleanTree name)

/-- Go on with the result of a call, or end with its error. -/
def attempt {ε α : Type} (script : Script (FsResult α)) (fail : FsErrorCode → ε) : Steps ε α :=
  ExceptT.mk do
    match ← script with
    | .ok value => return .ok value
    | .error code => return .error (fail code)

/-- `?`. -/
abbrev ask {α : Type} (script : Script (FsResult α)) : Steps FsErrorCode α := attempt script id

/-- Go on whatever a call answers. -/
abbrev anyway {ε α : Type} (script : Script α) : Steps ε α := ExceptT.lift script

/-- The metadata was read and matches the validator. -/
def isMatch (answer : FsResult EntryMetadata) (expected : EntryMetadata) : Bool :=
  match answer with
  | .ok current => current.matchesValidator expected
  | .error _ => false

/-- `PendingWrite`. -/
structure PendingWrite where
  temporaryName : String
  destination : VirtualPath
  file : Entry
  published : Bool

namespace PendingWrite

/-- An error, and the staged file that is dropped with it. -/
abbrev Failure := FsErrorCode × PendingWrite

/-- `?`, which drops the staged file as it is. -/
def attempt {α : Type} (self : PendingWrite) (script : Script (FsResult α)) : Steps Failure α :=
  Share.attempt script fun code => (code, self)

/-- `drop`. -/
def drop (self : PendingWrite) : Script Unit := do
  if !self.published then
    let _ ← removeFile (.staged self.temporaryName)

/-- The result, once the staged file is dropped. -/
def dropping {α : Type} (steps : Steps Failure (α × PendingWrite)) : Script (FsResult α) := do
  match ← steps.run with
  | .ok (value, self) => do
    self.drop
    return .ok value
  | .error (code, self) => do
    self.drop
    return .error code

/-- `publish_new` up to the drop. -/
def publishNewSteps (self : PendingWrite) : Steps Failure (Unit × PendingWrite) := do
  self.attempt (probe .validateRegularHandle)
  let expected ← self.attempt (rawFileMetadata self.file)
  self.attempt (probe .syncAll)
  self.attempt
    (renameNoReplace (.staged self.temporaryName) (.named self.destination))
  let current ← anyway (metadataInParent (.named self.destination))
  if !isMatch current expected then do
    let _ ← anyway (removeFile (.named self.destination))
    throw (.conflict, self)
  else do
    let _ ← anyway (probe .syncAfterCommit)
    let _ ← anyway (probe .syncAfterCommit)
    return ((), { self with published := true })

/-- `publish_new`. -/
def publishNew (self : PendingWrite) : Script (FsResult Unit) := dropping self.publishNewSteps

/-- `rollback_exchange`. -/
def rollbackExchange (self : PendingWrite) : Script (FsResult Unit) :=
  renameExchange (.staged self.temporaryName) (.named self.destination)

/-- `retain_after_failed_rollback`. -/
def retainAfterFailedRollback (self : PendingWrite) : PendingWrite := { self with published := true }

/-- The exchange put the staged file at the destination and the expected version in staging;
the second side is read only when the first one matches. -/
def validExchange (self : PendingWrite) (replacement expected : EntryMetadata) : Script Bool := do
  if isMatch (← (metadataInParent (.named self.destination))) replacement then
    return isMatch (← (metadataInParent (.staged self.temporaryName))) expected
  else return false

/-- Undo the exchange and end with an error. -/
def abandon (self : PendingWrite) (code : FsErrorCode) :
    Steps Failure (EntryMetadata × PendingWrite) := do
  match ← anyway self.rollbackExchange with
  | .error _ => throw (.unavailable, self.retainAfterFailedRollback)
  | .ok () => throw (code, self)

/-- `publish_replacement` from the exchange on, up to the drop. -/
def exchangeSteps (self : PendingWrite) (replacement expected : EntryMetadata) :
    Steps Failure (EntryMetadata × PendingWrite) := do
  self.attempt
    (renameExchange (.staged self.temporaryName) (.named self.destination))
  if !(← anyway (self.validExchange replacement expected)) then self.abandon .conflict
  else
    match ← anyway (removeFile (.staged self.temporaryName)) with
    | .error code => self.abandon code
    | .ok () => do
      let _ ← anyway (probe .syncAfterCommit)
      let _ ← anyway (probe .syncAfterCommit)
      return (replacement, { self with published := true })

/-- `publish_replacement` up to the drop. -/
def publishReplacementSteps (self : PendingWrite) (expected : EntryMetadata) :
    Steps Failure (EntryMetadata × PendingWrite) := do
  self.attempt (probe .validateRegularHandle)
  let replacement ← self.attempt (rawFileMetadata self.file)
  self.attempt (probe .syncAll)
  let current ← self.attempt (metadataInParent (.named self.destination))
  if !current.matchesValidator expected || current.kind ≠ .file then throw (.conflict, self)
  else do
    let retainedName ← self.attempt (randomInternalName internalReplacePrefix)
    self.attempt
      (renameNoReplace (.staged self.temporaryName) (.staged retainedName))
    -- From here on the staged file is under a name that recovery keeps.
    { self with temporaryName := retainedName }.exchangeSteps replacement expected

/-- `publish_replacement`. -/
def publishReplacement (self : PendingWrite) (expected : EntryMetadata) :
    Script (FsResult EntryMetadata) := dropping (self.publishReplacementSteps expected)

end PendingWrite

/-- The check that the request may write. -/
def requireWrite (readWrite : Bool) : Steps FsErrorCode Unit :=
  if readWrite then return () else throw .accessDenied

/-- `move_entry`. -/
def moveEntry (readWrite : Bool) (source destination : VirtualPath) (expected : EntryMetadata) :
    Steps FsErrorCode Unit := do
  requireWrite readWrite
  if source = destination then throw .conflict
  else do
    let current ← ask (metadataInParent (.named source))
    if !current.matchesValidator expected then throw .conflict
    else if current.kind = .directory ∧ destination.startsWith source then throw .invalidPath
    else do
      let () ← (if current.kind = .directory ∧ destination.depth > source.depth then
        ask (probe .ensureSubtreeWithin) else return () : Steps FsErrorCode Unit)
      ask (probe .openParent)
      ask (probe .openParent)
      ask (renameNoReplace (.named source) (.named destination))
      let validation ← anyway (metadataInParent (.named destination))
      if isMatch validation expected then do
        let _ ← anyway (probe .syncAfterCommit)
        let _ ← anyway (probe .syncAfterCommit)
      else
        match ← anyway (renameNoReplace (.named destination) (.named source)) with
        | .error _ => throw .unavailable
        | .ok () =>
          match validation with
          | .error code => throw code
          | .ok _ => throw .conflict

/-- Move a delete-staged entry back and end with an error. -/
def undoDelete (path : VirtualPath) (stagedName : String) (code : FsErrorCode) :
    Steps FsErrorCode Unit := do
  match ← anyway (renameNoReplace (.staged stagedName) (.named path)) with
  | .error _ => throw .unavailable
  | .ok () => throw code

/-- `delete_entry` from the rename to staging on. -/
def deleteStaged (path : VirtualPath) (stagedName : String) (expected : EntryMetadata) :
    Steps FsErrorCode Unit := do
  ask (renameNoReplace (.named path) (.staged stagedName))
  let staged ← anyway (metadataInParent (.staged stagedName))
  if !isMatch staged expected then undoDelete path stagedName .conflict
  else
    let removal ← anyway (match expected.kind with
      | .file => removeFile (.staged stagedName)
      | .directory => removeDir (.staged stagedName))
    match removal with
    | .error code => undoDelete path stagedName code
    | .ok () => do
      let _ ← anyway (probe .syncAfterCommit)
      let _ ← anyway (probe .syncAfterCommit)

/-- `delete_entry`. -/
def deleteEntry (readWrite : Bool) (path : VirtualPath) (expected : EntryMetadata) :
    Steps FsErrorCode Unit := do
  requireWrite readWrite
  let current ← ask (metadataInParent (.named path))
  if !current.matchesValidator expected then throw .conflict
  else do
    ask (probe .openParent)
    ask (probe .ensureSameDevice)
    let stagedName ← ask (randomInternalName internalDeletePrefix)
    deleteStaged path stagedName expected

/-! ### Startup recovery -/

/-- `starts_with`. -/
def startsWith (name start : String) : Bool := start.toList.isPrefixOf name.toList

/-- 32 hexadecimal digits after the prefix. -/
def isHexName (start name : String) : Bool :=
  startsWith name start && (name.toList.drop start.length).length == 32 &&
    (name.toList.drop start.length).all fun c =>
      ('0' ≤ c && c ≤ '9') || ('a' ≤ c && c ≤ 'f') || ('A' ≤ c && c ≤ 'F')

/-- Recovery keeps every entry under such a name. -/
def isRetained (name : String) : Bool :=
  startsWith name internalDeletePrefix || startsWith name internalReplacePrefix

theorem startsWith_append (start suffix : String) : startsWith (start ++ suffix) start = true := by
  rw [startsWith, String.toList_append, List.isPrefixOf_iff_prefix]
  exact List.prefix_append _ _

theorem isRetained_replace (suffix : String) : isRetained (internalReplacePrefix ++ suffix) = true := by
  rw [isRetained, startsWith_append, Bool.or_true]

theorem isRetained_delete (suffix : String) : isRetained (internalDeletePrefix ++ suffix) = true := by
  rw [isRetained, startsWith_append, Bool.true_or]

/-- The names that recovery has sorted out so far. -/
structure Recoverable where
  visited : ℕ
  trees : List String
  files : List String

/-- One entry of the listing. -/
def Recoverable.visit (found : Recoverable) (maxEntries : ℕ) (entry : FsResult StagingEntry) :
    FsResult Recoverable := do
  let visited := found.visited + 1
  if visited > maxEntries then throw .tooLarge
  else do
    let entry ← entry
    match entry.name with
    | none => return { found with visited }
    | some name =>
      if isRetained name then return { found with visited }
      else do
        match ← entry.fileType with
        | .directory =>
          if isHexName treePrefix name then
            return { found with visited, trees := found.trees ++ [name] }
          else return { found with visited }
        | .file =>
          if isHexName internalTempPrefix name then
            return { found with visited, files := found.files ++ [name] }
          else return { found with visited }
        | .other => return { found with visited }

/-- Clean the trees in order. -/
def cleanTrees : List String → Steps FsErrorCode Unit
  | [] => return ()
  | name :: rest => do
    if ← ask (cleanTree name) then cleanTrees rest else throw .tooLarge

/-- Remove the files in order. -/
def removeFiles : List String → Steps FsErrorCode Unit
  | [] => return ()
  | name :: rest => do
    ask (removeFile (.staged name))
    removeFiles rest

/-- `recover_staging_directory`. -/
def recoverStagingDirectory (maxEntries : ℕ) : Steps FsErrorCode ℕ := do
  let entries ← ask stagingEntries
  match entries.foldlM (fun (found : Recoverable) entry => found.visit maxEntries entry) ⟨0, [], []⟩ with
  | .error code => throw code
  | .ok found => do
    cleanTrees found.trees
    removeFiles found.files
    let () ← (if found.files ≠ [] then ask (probe .syncDirectory) else return () :
      Steps FsErrorCode Unit)
    return found.files.length + found.trees.length

/-! ### Rules of the calls -/

/-- The calls that change nothing. -/
def Call.Reads : Call → Prop
  | .probe _ | .rawFileMetadata _ | .metadataInParent _ | .randomInternalName _ | .entries => True
  | _ => False

theorem Effect.eq_of_reads {sees : Sees} {world after : World} {call : Call} {answer : call.Answer}
    (h : Effect sees world call answer after) (hreads : call.Reads) : after = world := by
  cases call with
  | probe _ | entries => exact h
  | rawFileMetadata _ | metadataInParent _ | randomInternalName _ => exact h.1
  | _ => exact hreads.elim

section Rules

variable {effect : World → (call : Call) → call.Answer → World → Prop}
  {rely guarantee : World → World → Prop} {world : World} {ε α : Type}

/-- What holds before a call that changes nothing holds after it. -/
theorem safe_of_reads {call : Call} {sees : Sees} {pre : World → Prop} (hreads : call.Reads)
    (heffect : ∀ before answer after, effect before call answer after →
      Effect sees before call answer after)
    (hstable : Stable rely pre) (hkeep : ∀ current, pre current → guarantee current current)
    (hpre : pre world) :
    Safe effect rely guarantee (fun _ last => pre last) (perform call) world := by
  refine Safe.perform hstable (fun _ => hstable) hpre fun before answer after hbefore hstep => ?_
  obtain rfl := (heffect before answer after hstep).eq_of_reads hreads
  exact ⟨hkeep after hbefore, hbefore⟩

theorem safe_attempt {post : α → World → Prop} {fail : ε → World → Prop}
    {script : Script (FsResult α)} {toError : FsErrorCode → ε}
    (h : Safe effect rely guarantee (fun answer last => match answer with
      | .ok value => post value last
      | .error code => fail (toError code) last) script world) :
    SafeOr effect rely guarantee post fail (attempt script toError) world := by
  refine Safe.bind h fun answer middle hanswer => ?_
  cases answer with
  | ok value => exact fun later hlater => hanswer later hlater
  | error code => exact fun later hlater => hanswer later hlater

end Rules

end Crabinet.Share
