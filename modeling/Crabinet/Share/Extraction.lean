import Crabinet.Filesystem.Nodes
import Crabinet.Library.Interference
import Crabinet.Share.Mutations

/-!
# Extraction of an archive

The members of an archive are put into a private tree, which is then published whole. An
extraction is a program of its calls, any of which may fail. The archive readers are left
out: an archive is what they yield, in any order and up to any error, so the limits on what
they themselves consume (`Bounded`) are among the errors. Which component names are
canonical is decided elsewhere and is an argument.
-/

namespace Crabinet.Share

open Crabinet.Filesystem Crabinet.Library Program

/-- `ArchiveError`. -/
inductive ArchiveError where
  | invalid | limit | depth | cancelled | io
  | fs (error : FsErrorCode)
deriving DecidableEq, Repr

/-- `ArchiveLimits`. -/
structure ArchiveLimits where
  maxEntries : ℕ
  maxBytes : ℕ
  maxNameBytes : ℕ

/-- `archive_limits`. -/
def archiveLimits (maxArchiveEntries maxDownloadBytes : ℕ) : ArchiveLimits :=
  ⟨min maxArchiveEntries 10000, maxDownloadBytes, 4 * 1024 * 1024⟩

/-! ### Archives -/

/-- The reads of a stream: how many bytes each one gives, or the error that ends them. -/
abbrev Reads := List (Except ArchiveError ℕ)

/-- A member of a ZIP archive. -/
structure ZipMember where
  encrypted : Bool
  /-- It is stored or deflated. -/
  supported : Bool
  isDir : Bool
  unixMode : Option ℕ
  nameRaw : ByteArray
  size : ℕ
  reads : Reads

/-- The file type of the mode is that of the member, or is not given. -/
def ZipMember.modeAgrees (member : ZipMember) : Bool :=
  match member.unixMode with
  | none => true
  | some mode =>
    let kind := mode &&& 0o170000
    kind == 0 || kind == if member.isDir then 0o040000 else 0o100000

/-- A record of a PAX header. -/
inductive PaxRecord where
  | path (value : ByteArray)
  /-- Nothing where the value is no number. -/
  | size (value : Option ℕ)
  | sparse
  | other

/-- A raw entry of a TAR archive. -/
inductive TarEntry where
  | longname (size : ℕ) (data : Except ArchiveError ByteArray)
  | extensions (size : ℕ) (records : Except ArchiveError (List (Except ArchiveError PaxRecord)))
  /-- Of no kind where it is neither a file nor a directory. -/
  | member (kind : Option EntryKind) (size : ℕ) (path : ByteArray) (reads : Reads)

/-- What the readers yield. -/
inductive Archive where
  /-- Nothing where the directory of the archive is refused. -/
  | zip (members : Option (List (Option ZipMember)))
  | tar (entries : List (Except ArchiveError TarEntry)) (trailing : Reads)
  | gz (reads : Reads)

/-- An archive file: the reads that copy it, and what it holds. -/
structure ArchiveInput where
  source : Reads
  archive : Archive

/-! ### Private staging -/

/-- The snapshot's length, the tree, the tree as it was published, and what a tree that could
not be removed whole has left. -/
structure Staging where
  snapshot : ℕ
  tree : Option Contents
  published : Option Contents
  left : Option Contents

namespace Staging

/-- Nothing is staged. -/
def start : Staging := ⟨0, none, none, none⟩

/-- `PendingTree::directory`. -/
def directory (tree : Contents) (path : VirtualPath) (stat : Stat) : FsResult Contents := do
  let (_, parent, name) ← tree.openParent path
  if (parent.get? name).isSome then .error .conflict
  else return tree.insertAt path (.directory stat .empty)

/-- `PendingTree::file`. -/
def file (tree : Contents) (path : VirtualPath) (stat : Stat) : FsResult Contents := do
  let (_, parent, name) ← tree.openParent path
  if (parent.get? name).isSome then .error .conflict
  else return tree.insertAt path (.leaf .file { stat with size := 0 })

/-- Write to a staged file. -/
def write (tree : Contents) (path : VirtualPath) (length : ℕ) : FsResult Contents := do
  match ← tree.entryAt path with
  | .leaf .file _ => return tree.growAt path length
  | _ => .error .unsupportedEntry

/-- Change the tree where it can be changed so. -/
def change (staging : Staging) (change : Contents → FsResult Contents) :
    Except ArchiveError Unit × Staging :=
  match staging.tree with
  | some tree =>
    match change tree with
    | .ok tree => (.ok (), { staging with tree := some tree })
    | .error error => (.error (.fs error), staging)
  | none => (.error .invalid, staging)

/-- `clean_tree`, where the removal attempted at a count that `refuses` fails; what is left. -/
def cleanTree (refuses : ℕ → Bool) (tree : Contents) : Option Contents :=
  match tree.removeTree refuses 10001 0 0 with
  | (left, count, .ok true) => if refuses count then some left else none
  | (left, _, _) => some left

/-- `PendingTree::drop`. -/
def drop (refuses : ℕ → Bool) (staging : Staging) : Staging :=
  { staging with tree := none, left := staging.tree.bind (cleanTree refuses) }

end Staging

/-- `Extraction`, but for its tree. -/
structure Extraction where
  destination : VirtualPath
  limits : ArchiveLimits
  entries : KeyedMap VirtualPath (EntryKind × Bool)
  names : ℕ
  bytes : ℕ
  charge : ℕ
  maxCharge : ℕ

namespace Extraction

/-! ### Calls -/

/-- Where a stream is copied to. -/
inductive Target where
  | snapshot
  | file (path : VirtualPath)
  | sink

/-- A call of an extraction. -/
inductive Call where
  /-- `Work::check`. -/
  | check
  | openFile
  | beginWrite
  | rewind
  | beginTree
  | directory (path : VirtualPath)
  | file (path : VirtualPath)
  | write (target : Target) (length : ℕ)
  | syncAll
  | publish
  | drop

/-- What a call yields: the length of an opened file, or nothing. -/
abbrev Call.Value : Call → Type
  | openFile => ℕ
  | _ => Unit

/-- What a call may leave. One that fails may have done its work, or part of it. -/
inductive Effect (refuses : ℕ → Bool) : Staging → (call : Call) → Except ArchiveError call.Value →
    Staging → Prop where
  | fail {before call error} (hdrop : call ≠ .drop) : Effect refuses before call (.error error) before
  | check {before} : Effect refuses before .check (.ok ()) before
  | openFile {before length} : Effect refuses before .openFile (.ok length) before
  | beginWrite {before} : Effect refuses before .beginWrite (.ok ()) before
  | rewind {before} : Effect refuses before .rewind (.ok ()) before
  | beginTree {before} : Effect refuses before .beginTree (.ok ()) { before with tree := some .empty }
  | directory {before path answer tree created} (stat : Stat) (htree : before.tree = some tree)
      (hcreated : Staging.directory tree path stat = .ok created) :
      Effect refuses before (.directory path) answer { before with tree := some created }
  | file {before path answer tree created} (stat : Stat) (htree : before.tree = some tree)
      (hcreated : Staging.file tree path stat = .ok created) :
      Effect refuses before (.file path) answer { before with tree := some created }
  | writeSnapshot {before length answer} (written : ℕ) (hpart : written ≤ length)
      (hall : answer = .ok () → written = length) :
      Effect refuses before (.write .snapshot length) answer
        { before with snapshot := before.snapshot + written }
  | write {before path length answer tree grown} (written : ℕ) (hpart : written ≤ length)
      (hall : answer = .ok () → written = length) (htree : before.tree = some tree)
      (hgrown : Staging.write tree path written = .ok grown) :
      Effect refuses before (.write (.file path) length) answer { before with tree := some grown }
  | writeSink {before length} : Effect refuses before (.write .sink length) (.ok ()) before
  | syncAll {before} : Effect refuses before .syncAll (.ok ()) before
  | publish {before tree} (htree : before.tree = some tree) :
      Effect refuses before .publish (.ok ()) { before with tree := none, published := some tree }
  | drop {before answer} : Effect refuses before .drop answer (before.drop refuses)

/-- A program of calls. -/
abbrev Script := Program Call fun call => Except ArchiveError call.Value

/-- A program of calls that ends with the first error. -/
abbrev Steps := ExceptT ArchiveError Script

/-- `?`, on a call. -/
abbrev ask (call : Call) : Steps call.Value := attemptOp call

/-- `?`, on a result. -/
def lift {α : Type} (result : Except ArchiveError α) : Steps α := ExceptT.mk (.done result)

/-! ### Entries -/

/-- A file system error within an extraction. -/
def liftFs {α : Type} : FsResult α → Except ArchiveError α
  | .ok a => .ok a
  | .error error => .error (.fs error)

theorem liftFs_eq_ok {α : Type} {x : FsResult α} {a : α} : liftFs x = .ok a ↔ x = .ok a := by
  cases x <;> simp [liftFs]

/-- Strip `./` as often as it stands in front. -/
def stripDotSlash : List Char → List Char
  | '.' :: '/' :: rest => stripDotSlash rest
  | text => text

/-- `path`; nothing for the archive's own root. -/
def path (canonical : String → Bool) (destination : VirtualPath) (raw : ByteArray)
    (isDirectory : Bool) : Except ArchiveError (Option VirtualPath) :=
  match String.fromUTF8? raw with
  | none => .error .invalid
  | some text =>
    let name := stripDotSlash text.toList
    if isDirectory && (name == ['.'] || name.isEmpty) then .ok none
    else do
      let name := if isDirectory then (name.dropSuffix? ['/']).getD name else name
      let path ← liftFs (parsePath canonical name)
      let _ ← liftFs (path.components.forM ensureCreatable)
      if destination.depth + path.depth > maxPathDepth then .error .depth
      else do
        -- The combined path's length is checked as well.
        let _ ← liftFs (parsePath canonical (pathText destination ++ '/' :: pathText path))
        return some path

/-- `copy`, of what is left of a stream after so many bytes. -/
def copy (target : Target) (max : ℕ) : ℕ → Reads → Steps ℕ
  | total, [] => do
    ask .check
    return total
  | _, .error error :: _ => do
    ask .check
    throw error
  | total, .ok length :: rest => do
    ask .check
    if length = 0 then return total
    else if total + length > u64Max then throw .limit
    else if total + length > max then throw .limit
    else
      ask (.write target length)
      copy target max (total + length) rest

/-- `add`; whether the path is new. -/
def add (state : Extraction) (path : VirtualPath) (kind : EntryKind) (explicit : Bool) :
    Steps (Extraction × Bool) := do
  ask .check
  match state.entries.get? path with
  | some (previous, wasExplicit) =>
    if kind ≠ .directory ∨ previous ≠ kind ∨ (explicit ∧ wasExplicit) then throw .invalid
    else
      let entries := state.entries.insert path (previous, wasExplicit || explicit)
      return ({ state with entries }, false)
  | none =>
    let names := state.names + pathBytes path
    if state.entries.size ≥ state.limits.maxEntries ∨ names > state.limits.maxNameBytes then
      throw .limit
    else
      let entries := state.entries.insert path (kind, explicit)
      match kind with
      | .directory =>
        let charge := state.charge + directoryQuotaBytes
        if charge > u64Max ∨ charge > state.maxCharge then throw .limit
        else
          ask (.directory path)
          return ({ state with names, charge, entries }, true)
      | .file => return ({ state with names, entries }, true)

/-- The implicit parent directories of an entry. -/
def addParents (state : Extraction) (parent : VirtualPath) : List EntryName → Steps Extraction
  | [] => return state
  | name :: rest => do
    let (state, _) ← state.add (parent.join name) .directory false
    addParents state (parent.join name) rest

/-- `entry`. -/
def entry (canonical : String → Bool) (state : Extraction) (raw : ByteArray) (kind : EntryKind)
    (size : ℕ) (reads : Reads) : Steps Extraction := do
  if kind = .directory ∧ size ≠ 0 then throw .invalid
  else
    match ← lift (path canonical state.destination raw (kind == .directory)) with
    | none => return state
    | some path =>
      if size > state.limits.maxBytes - state.bytes ∨ size > state.maxCharge - state.charge then
        throw .limit
      else
        let state ← state.addParents .root path.components.dropLast
        let (state, _) ← state.add path kind true
        match kind with
        | .directory => return state
        | .file =>
          ask (.file path)
          let max := min (state.limits.maxBytes - state.bytes) (state.maxCharge - state.charge)
          let count ← copy (.file path) max 0 reads
          if count ≠ size then throw .invalid
          else
            ask .syncAll
            return { state with bytes := state.bytes + count, charge := state.charge + count }

/-! ### Formats -/

/-- The members of a ZIP archive. -/
def extractZip (canonical : String → Bool) (state : Extraction) :
    List (Option ZipMember) → Steps Extraction
  | [] => return state
  | none :: _ => do
    ask .check
    throw .invalid
  | some member :: rest => do
    ask .check
    if member.encrypted || !member.supported then throw .invalid
    else if !member.modeAgrees then throw .invalid
    else
      let kind : EntryKind := if member.isDir then .directory else .file
      let state ← state.entry canonical member.nameRaw kind member.size member.reads
      extractZip canonical state rest

/-- `MAX_TAR_EXTENSION`. -/
def maxTarExtension : ℕ := 16 * 1024

/-- A long name without its terminator. -/
def longname (data : ByteArray) : ByteArray :=
  if data.data.back? = some 0 then data.extract 0 (data.size - 1) else data

/-- The name and the size that the records of a PAX header announce. -/
def readRecords : Option ByteArray → Option ℕ → List (Except ArchiveError PaxRecord) →
    Except ArchiveError (Option ByteArray × Option ℕ)
  | name, size, [] => .ok (name, size)
  | _, _, .error error :: _ => .error error
  | name, size, .ok record :: rest =>
    match record with
    | .path value => if name.isSome then .error .invalid else readRecords (some value) size rest
    | .size none => .error .invalid
    | .size (some value) => readRecords name (some value) rest
    | .sparse => .error .invalid
    | .other => readRecords name size rest

/-- `extract_tar`, after some entries and with what they announced. -/
def extractTar (canonical : String → Bool) (count : ℕ) (pendingName : Option ByteArray)
    (pendingSize : Option ℕ) (state : Extraction) : List (Except ArchiveError TarEntry) → Steps Extraction
  | [] => if pendingName.isSome || pendingSize.isSome then throw .invalid else return state
  | entry :: rest => do
    ask .check
    if count ≥ state.limits.maxEntries then throw .limit
    else
      match ← lift entry with
      | .longname size data =>
        if size > maxTarExtension || pendingName.isSome then throw .limit
        else
          let data ← lift data
          extractTar canonical (count + 1) (some (longname data)) pendingSize state rest
      | .extensions size records =>
        if size > maxTarExtension || pendingName.isSome then throw .limit
        else
          let records ← lift records
          let (pendingName, pendingSize) ← lift (readRecords pendingName pendingSize records)
          extractTar canonical (count + 1) pendingName pendingSize state rest
      | .member none _ _ _ => throw .invalid
      | .member (some kind) size path reads =>
        if pendingSize.any (· ≠ size) then throw .invalid
        else
          let state ← state.entry canonical (pendingName.getD path) kind size reads
          extractTar canonical (count + 1) none none state rest

/-- The single file of a compressed stream, named after the source. -/
def extractGz (canonical : String → Bool) (state : Extraction) (source : VirtualPath)
    (reads : Reads) : Steps Unit := do
  match source.components.getLast? with
  | none => throw .invalid
  | some sourceName =>
    let name := match sourceName.value.toList.dropSuffix? ".gz".toList with
      | some stem => String.ofList stem
      | none => "contents"
    match ← lift (path canonical state.destination name.toUTF8 false) with
    | none => throw .invalid
    | some path =>
      let _ ← state.add path .file true
      ask (.file path)
      let _ ← copy (.file path) (min state.limits.maxBytes (state.maxCharge - directoryQuotaBytes)) 0
        reads
      ask .syncAll

/-- `MAX_ZIP_DIRECTORY`. -/
def maxZipDirectory : ℕ := 8 * 1024 * 1024

/-- What the readers yield goes into the tree. -/
def unpack (canonical : String → Bool) (state : Extraction) (source : VirtualPath) :
    Archive → Steps Unit
  | .zip none => throw .invalid
  | .zip (some members) => do
    let _ ← state.extractZip canonical members
  | .gz reads => state.extractGz canonical source reads
  | .tar entries trailing => do
    let _ ← extractTar canonical 0 none none state entries
    let _ ← copy .sink (min u64Max (state.limits.maxBytes + maxZipDirectory)) 0 trailing

/-- `extract`. -/
def extract (canonical : String → Bool) (source destination : VirtualPath) (limits : ArchiveLimits)
    (maxCharge : ℕ) (input : ArchiveInput) : Steps Unit := do
  if maxCharge < directoryQuotaBytes then throw .limit
  else
    let length ← ask .openFile
    if length > limits.maxBytes then throw .limit
    else
      ask .beginWrite
      let size ← copy .snapshot (min limits.maxBytes maxCharge) 0 input.source
      if maxCharge - size < directoryQuotaBytes then throw .limit
      else
        ask .rewind
        ask .beginTree
        unpack canonical
          { destination, limits, entries := .empty, names := 0, bytes := 0
            charge := directoryQuotaBytes, maxCharge := maxCharge - size } source input.archive
        ask .check

/-- The blocking part of `local_archive` after its measurement: a tree that is not published is
dropped. -/
def localExtract (canonical : String → Bool) (source destination : VirtualPath)
    (limits : ArchiveLimits) (maxCharge : ℕ) (input : ArchiveInput) :
    Script (Except ArchiveError Unit) := do
  let steps : Steps Unit := do
    extract canonical source destination limits maxCharge input
    ask .check
    ask .publish
  match ← steps.run with
  | .ok () => return .ok ()
  | .error error =>
    let _ ← perform .drop
    return .error error

end Extraction

/-- `max_charge` of `local_archive`: what the quota leaves of the measured usage. -/
def maxCharge (maxShareBytes : Option ℕ) (usage : ℕ) : ℕ :=
  match maxShareBytes with
  | some limit => limit - usage
  | none => u64Max

/-! ### On a share -/

namespace AuthorizedShare

/-- Check the destination as an extraction does before it stages anything. -/
def checkDestination (share : AuthorizedShare) (destination : VirtualPath) (creates : Bool) :
    FsResult Unit := do
  share.requireWrite
  let (_, _, name) ← share.root.openParent destination
  if creates then ensureCreatable name else return ()

/-- The answers of a share to an extraction that nothing else disturbs. -/
def answer (share : AuthorizedShare) (source destination : VirtualPath) (stats : VirtualPath → Stat)
    (staging : Staging) : (call : Extraction.Call) → Except ArchiveError call.Value × Staging
  | .check | .rewind | .syncAll | .write .sink _ => (.ok (), staging)
  | .openFile => (Extraction.liftFs do
      let found ← share.metadata source
      if found.kind = .file then return found.size else .error .unsupportedEntry, staging)
  | .beginWrite => (Extraction.liftFs (share.checkDestination destination false), staging)
  | .beginTree =>
    match share.checkDestination destination true with
    | .ok () => (.ok (), { staging with tree := some .empty })
    | .error error => (.error (.fs error), staging)
  | .directory path => staging.change fun tree => Staging.directory tree path (stats path)
  | .file path => staging.change fun tree => Staging.file tree path (stats path)
  | .write .snapshot length => (.ok (), { staging with snapshot := staging.snapshot + length })
  | .write (.file path) length => staging.change fun tree => Staging.write tree path length
  | .publish =>
    match staging.tree, share.root.openParent destination with
    | some tree, .ok (_, parent, name) =>
      if (parent.get? name).isSome then (.error (.fs .conflict), staging)
      else (.ok (), { staging with tree := none, published := some tree })
    | _, _ => (.error (.fs .notFound), staging)
  | .drop => (.ok (), staging.drop fun _ => false)

/-- Its answers are among the possible effects. -/
theorem effect_answer (share : AuthorizedShare) (source destination : VirtualPath)
    (stats : VirtualPath → Stat) (staging : Staging) (call : Extraction.Call) :
    Extraction.Effect (fun _ => false) staging call
      (share.answer source destination stats staging call).1
      (share.answer source destination stats staging call).2 := by
  cases call with
  | check => exact .check
  | rewind => exact .rewind
  | syncAll => exact .syncAll
  | drop => exact .drop
  | openFile =>
    dsimp only [answer]
    cases Extraction.liftFs _ with
    | ok length => exact .openFile
    | error error => exact .fail nofun
  | beginWrite =>
    dsimp only [answer]
    cases Extraction.liftFs (share.checkDestination destination false) with
    | ok _ => exact .beginWrite
    | error error => exact .fail nofun
  | beginTree =>
    dsimp only [answer]
    cases share.checkDestination destination true with
    | ok _ => exact .beginTree
    | error error => exact .fail nofun
  | directory path =>
    dsimp only [answer, Staging.change]
    split
    next tree htree =>
      split
      next created hcreated => exact .directory (stats path) htree hcreated
      next => exact .fail nofun
    next => exact .fail nofun
  | file path =>
    dsimp only [answer, Staging.change]
    split
    next tree htree =>
      split
      next created hcreated => exact .file (stats path) htree hcreated
      next => exact .fail nofun
    next => exact .fail nofun
  | write target length =>
    cases target with
    | sink => exact .writeSink
    | snapshot => exact .writeSnapshot length le_rfl fun _ => rfl
    | file path =>
      dsimp only [answer, Staging.change]
      split
      next tree htree =>
        split
        next grown hgrown => exact .write length le_rfl (fun _ => rfl) htree hgrown
        next => exact .fail nofun
      next => exact .fail nofun
  | publish =>
    dsimp only [answer]
    split
    next tree parents parent name htree hparent =>
      split
      · exact .fail nofun
      · exact .publish htree
    next => exact .fail nofun

/-- An extraction into a share, from its measurement to its publication. -/
def extract (share : AuthorizedShare) (canonical : String → Bool) (source destination : VirtualPath)
    (limits : ArchiveLimits) (maxCharge : ℕ) (input : ArchiveInput) (stats : VirtualPath → Stat)
    (rootStat : Stat) : Except ArchiveError AuthorizedShare := do
  let (result, staging) := eval (share.answer source destination stats)
    (Extraction.localExtract canonical source destination limits maxCharge input) .start
  result
  match staging.published with
  | some tree =>
    return { share with root := share.root.insertAt destination (.directory rootStat tree) }
  | none => .error .invalid

end AuthorizedShare

end Crabinet.Share
