import Crabinet.Share.Depth
import Crabinet.Trash.Purge

/-!
# Mutation requests

A handler reads its request, waits for the share's commit lock, has a closure run on the
blocking pool, and audits. Its client may disconnect at any of these points, which drops
the handler, but not a closure that was spawned. Checks before the first closure only
refuse or go on.
-/

namespace Crabinet.Requests

open Crabinet.Filesystem Crabinet.Library Crabinet.Share Crabinet.Trash

/-! ### Blocking closures -/

/-- The work of a closure, with what the file system supplies. -/
inductive Work where
  /-- `ensure_quota` where there is a quota, and one mutation. -/
  | publish (overQuota : Bool) (operation : Operation)
  /-- `publish_staged`: each file with the verdict of its quota check. -/
  | publishStaged (files : List (Bool × Operation))
  /-- `forget` of the search index. -/
  | forget
  /-- `purge_trash_step`. -/
  | purgeTrashStep (faults : Faults) (id : TrashId) (limit : ℕ)
  /-- `purge_trash`. -/
  | purgeTrash (faults : Faults) (id : TrashId) (limit : ℕ)
  /-- `empty_trash_batch`: the items it comes to, each with what its budget leaves. -/
  | emptyTrashBatch (items : List (Faults × TrashId × ℕ)) (unreadable finished : Bool)

/-- What a closure returns. -/
inductive Report where
  /-- The mutations it attempted: the path that each one is audited with, and its success. -/
  | published (outcomes : List (Option VirtualPath × Bool))
  | refused
  | forgotten
  /-- Whether the item is gone; nothing when the step failed. -/
  | stepped (gone : Option Bool)
  | emptied (finished : Bool)
deriving DecidableEq

/-- A share after a closure, the mutations that took effect, and what the closure returns. -/
structure Effect where
  share : AuthorizedShare
  applied : List (Option VirtualPath)
  report : Report

/-- The path that a mutation is audited with. -/
def auditPath (share : AuthorizedShare) : Operation → VirtualPath
  | .createDirectory path _ | .writeNew path _ | .writeReplacement path _ _ => path
  | .moveEntry _ destination _ => destination
  | .moveIntoTrash path _ _ _ _ _ _ => path
  | .restoreTrash id destination =>
    match share.restoreTrash id destination with
    | .ok (_, restored) => restored
    | .error _ => .root
  | .extract _ _ destination _ _ _ _ _ => destination

/-- A purge gets past its checks and marks the item. -/
def purgeBegins (faults : Faults) (trash : TrashDirectory) (id : TrashId) : Bool :=
  !faults.read &&
    match trash.readSidecar id with
    | .error _ => false
    | .ok sidecar => sidecar.state != .pending && (sidecar.state == .purging || !faults.mark)

/-- `publish_staged`, file after file. -/
def publishFiles : AuthorizedShare → List (Bool × Operation) →
    AuthorizedShare × List (Option VirtualPath × Bool)
  | share, [] => (share, [])
  | share, (overQuota, operation) :: rest =>
    let next := if overQuota then none else share.step operation
    let later := publishFiles (next.getD share) rest
    (later.1, (some (auditPath share operation), next.isSome) :: later.2)

/-- The items of a batch, one after another; whether one of them was begun. -/
def purgeItems : AuthorizedShare → List (Faults × TrashId × ℕ) → AuthorizedShare × Bool
  | share, [] => (share, false)
  | share, (faults, id, limit) :: rest =>
    let later := purgeItems { share with trash := (share.trash.purge faults id limit).1 } rest
    (later.1, purgeBegins faults share.trash id || later.2)

/-- Run a closure to its end. -/
def Work.run (share : AuthorizedShare) : Work → Effect
  | publish overQuota operation =>
    match if overQuota then none else share.step operation with
    | none => ⟨share, [], .refused⟩
    | some next =>
      let path := some (auditPath share operation)
      ⟨next, [path], .published [(path, true)]⟩
  | publishStaged files =>
    let published := publishFiles share files
    ⟨published.1, (published.2.filter Prod.snd).map Prod.fst, .published published.2⟩
  | forget => ⟨share, [], .forgotten⟩
  | purgeTrashStep faults id limit =>
    if !share.readWrite then ⟨share, [], .stepped none⟩
    else
      let purged := share.trash.purge faults id limit
      ⟨{ share with trash := purged.1 }, [], .stepped (match purged.2 with
        | .ok _ => some (purged.1.sidecars.get? id).isNone
        | .error .notFound => some true
        | .error _ => none)⟩
  | purgeTrash faults id limit =>
    if !share.readWrite then ⟨share, [], .refused⟩
    else
      let purged := share.trash.purge faults id limit
      ⟨{ share with trash := purged.1 }, if purgeBegins faults share.trash id then [none] else [],
        match purged.2 with
        | .ok _ => .published [(none, true)]
        | .error _ => .refused⟩
  | emptyTrashBatch items unreadable finished =>
    if !share.readWrite || unreadable then ⟨share, [], .refused⟩
    else
      let purged := purgeItems share items
      ⟨purged.1, if purged.2 then [none] else [], .emptied finished⟩

/-- The closure may change the share: a mutation takes effect, or it goes on with one that did. -/
def Work.changes (share : AuthorizedShare) (work : Work) : Bool :=
  !(work.run share).applied.isEmpty ||
    match work with
    | purgeTrashStep _ _ _ => true
    | _ => false

/-- The closure holds the share's commit lock. -/
def Work.locks : Work → Bool
  | forget => false
  | _ => true

/-! ### Handlers -/

/-- A mutation handler with what its request names. -/
inductive Handler where
  | createDirectory (path : VirtualPath)
  | createFile (path : VirtualPath)
  | saveText (path : VirtualPath)
  | moveEntry (source destination : VirtualPath)
  | deleteEntry (path : VirtualPath)
  | deletePermanently (path : VirtualPath)
  | restoreTrash (id : TrashId) (destination : Option VirtualPath)
  | purgeTrash (id : TrashId)
  | emptyTrash
  | uploadFiles (files : List (VirtualPath × Bool))
  | compress (destination : VirtualPath)
  | extract (destination : VirtualPath)

namespace Handler

/-- The `operation` of its success events. -/
def operation : Handler → String
  | createDirectory _ => "create_directory"
  | createFile _ => "create_file"
  | saveText _ => "save_text"
  | moveEntry _ _ => "move"
  | deleteEntry _ => "move_to_trash"
  | deletePermanently _ => "delete_permanent"
  | restoreTrash _ _ => "restore_trash"
  | purgeTrash _ => "purge_trash"
  | emptyTrash => "empty_trash"
  | uploadFiles _ => "upload"
  | compress _ => "compress"
  | extract _ => "extract"

/-- The `operation` of its rejection events. -/
def rejectedOperation : Handler → String
  | deleteEntry _ => "delete"
  | handler => handler.operation

/-- What a staged file publishes. -/
def stagedFile : Bool × Operation → Option (VirtualPath × Bool)
  | (_, .writeNew path _) => some (path, false)
  | (_, .writeReplacement path _ _) => some (path, true)
  | _ => none

/-- The closures of a handler, before and after its first one. -/
def spawns : Handler → Bool → Work → Bool
  | createDirectory path, false, .publish _ (.createDirectory target _) => target == path
  | createFile path, false, .publish _ (.writeNew target _) => target == path
  | saveText path, false, .publish _ (.writeReplacement target _ _) => target == path
  | moveEntry source destination, false, .publish false (.moveEntry from_ to_ _) =>
    from_ == source && to_ == destination
  | deleteEntry path, false, .publish false (.moveIntoTrash target _ _ _ _ _ .live) => target == path
  | deletePermanently path, false, .publish false (.moveIntoTrash target _ _ _ _ _ .purging) =>
    target == path
  | deletePermanently _, true, .forget => true
  | deletePermanently _, true, .purgeTrashStep _ _ _ => true
  | restoreTrash id destination, false, .publish false (.restoreTrash item target) =>
    item == id && target == destination
  | purgeTrash id, false, .purgeTrash _ item limit => item == id && limit == 1000
  | emptyTrash, _, .emptyTrashBatch _ _ _ => true
  | uploadFiles files, false, .publishStaged staged => staged.map stagedFile == files.map some
  | compress destination, false, .publish _ (.writeNew target _) => target == destination
  -- The destination itself or an unused sibling of it.
  | extract destination, false, .publish _ (.extract _ _ target _ _ _ _ _) =>
    target.components.dropLast == destination.components.dropLast
  | _, _, _ => false

end Handler

/-! ### Requests and their runs -/

/-- Where a request stands. -/
inductive Phase where
  /-- Before its first closure. -/
  | received
  /-- Its closure was spawned; the request may have been dropped since. -/
  | running (work : Work) (orphaned : Bool)
  /-- Its closure has ended, and the handler has not gone on yet. -/
  | ran (report : Report)
  /-- Between two closures. -/
  | between
  | accepted
  | refused
  | dropped

/-- A request of an authenticated subject to a share. -/
structure Request where
  subject : String
  share : ShareId
  handler : Handler
  phase : Phase
  /-- The mutations of the request that took effect, by the path they are audited with. -/
  applied : List (Option VirtualPath)

/-- What becomes known outside, and the changes themselves. -/
inductive Event where
  | changed
  | success (subject : String) (share : ShareId) (operation : String) (path : Option VirtualPath)
  | rejected (subject : String) (share : ShareId) (operation : String)
  /-- The folder sizes and the search index of a share are invalidated. -/
  | invalidated (share : ShareId)
deriving DecidableEq

namespace Request

/-- The success event of one mutation. -/
def success (request : Request) (path : Option VirtualPath) : Event :=
  .success request.subject request.share request.handler.operation path

/-- The rejection event of the request. -/
def rejection (request : Request) : Event :=
  .rejected request.subject request.share request.handler.rejectedOperation

/-- `audited`, of a handler that succeeded with the success events of some mutations. -/
def accept (request : Request) (events : List Event) : Request × List Event :=
  ({ request with phase := .accepted }, events ++ [.invalidated request.share])

/-- `audited`, of a handler that failed. -/
def reject (request : Request) : Request × List Event :=
  ({ request with phase := .refused }, [request.rejection])

/-- The event of one attempted mutation; a refused file of an upload is audited by itself. -/
def outcomeEvent (request : Request) (outcome : Option VirtualPath × Bool) : Event :=
  if outcome.2 then request.success outcome.1
  else .rejected request.subject request.share request.handler.operation

/-- The handler goes on with what its closure returned; the flag tells whether its time is up. -/
def resume (request : Request) (elapsed : Bool) : Report → Request × List Event
  | .refused => request.reject
  | .published outcomes =>
    match request.handler with
    -- The entry has left the share; its payload is still to be removed.
    | .deletePermanently _ => ({ request with phase := .between }, [])
    | _ => request.accept (outcomes.map request.outcomeEvent)
  | .forgotten => ({ request with phase := .between }, [])
  | .stepped (some false) =>
    if elapsed then request.accept (request.applied.map request.success)
    else ({ request with phase := .between }, [])
  | .stepped _ => request.accept (request.applied.map request.success)
  | .emptied finished =>
    if finished || elapsed then request.accept [request.success none]
    else ({ request with phase := .between }, [])

/-- The mutations of a request after another closure: a request that goes on with a mutation
has one, and an upload has them all from one closure. -/
def apply (request : Request) (applied : List (Option VirtualPath)) : List (Option VirtualPath) :=
  if request.applied.isEmpty then applied else request.applied

end Request

/-- The shares, the requests so far and the events, each with its request. -/
structure Service where
  shares : ShareId → AuthorizedShare
  requests : List Request
  log : List (ℕ × Event)

/-- What happens next. -/
inductive Action where
  | arrive (subject : String) (share : ShareId) (handler : Handler)
  /-- A check before the first closure fails. -/
  | refuse (id : ℕ)
  /-- The commit lock is granted and a closure is spawned. -/
  | spawn (id : ℕ) (work : Work)
  /-- A spawned closure runs to its end. -/
  | run (id : ℕ)
  | resume (id : ℕ) (elapsed : Bool)
  /-- The client disconnects. -/
  | drop (id : ℕ)

namespace Service

/-- The commit lock of a share is held by a closure. -/
def locked (service : Service) (share : ShareId) : Bool :=
  service.requests.any fun request => request.share == share &&
    match request.phase with
    | .running work _ => work.locks
    | _ => false

/-- A request takes a step of its own. -/
def update (service : Service) (id : ℕ) (request : Request) (events : List Event) : Service :=
  { service with
    requests := service.requests.set id request
    log := service.log ++ events.map fun event => (id, event) }

/-- One action; `none` where it is not possible. -/
def step (service : Service) : Action → Option Service
  | .arrive subject share handler =>
    some { service with
      requests := service.requests ++ [⟨subject, share, handler, .received, []⟩] }
  | .refuse id => do
    let request ← service.requests[id]?
    match request.phase with
    | .received => some (service.update id request.reject.1 request.reject.2)
    | _ => none
  | .spawn id work => do
    let request ← service.requests[id]?
    if work.locks && service.locked request.share then none
    else
      match request.phase with
      | .received =>
        if request.handler.spawns false work then
          some (service.update id { request with phase := .running work false } [])
        else none
      | .between =>
        if request.handler.spawns true work then
          some (service.update id { request with phase := .running work false } [])
        else none
      | _ => none
  | .run id => do
    let request ← service.requests[id]?
    match request.phase with
    | .running work orphaned =>
      let share := service.shares request.share
      let effect := work.run share
      let phase := if orphaned then .dropped else .ran effect.report
      let events := if work.changes share then [.changed] else []
      some { service.update id { request with phase, applied := request.apply effect.applied } events with
        shares := Function.update service.shares request.share effect.share }
    | _ => none
  | .resume id elapsed => do
    let request ← service.requests[id]?
    match request.phase with
    | .ran report =>
      let (next, events) := request.resume elapsed report
      some (service.update id next events)
    | _ => none
  | .drop id => do
    let request ← service.requests[id]?
    match request.phase with
    | .received | .ran _ | .between =>
      some (service.update id { request with phase := .dropped } [])
    | .running work false =>
      some (service.update id { request with phase := .running work true } [])
    | _ => none

/-- The events of one request, in order. -/
def events (service : Service) (id : ℕ) : List Event :=
  (service.log.filter fun event => event.1 == id).map Prod.snd

end Service

end Crabinet.Requests
