import Crabinet.Editing.EditorDialog
import Crabinet.Library.Transition
import Crabinet.Library.Utf8Decoder
import Crabinet.Share.Depth
import Crabinet.Tokens.Versions

/-!
# Editors of a share

Any number of editors load and save the text files of a share. An editor asks for the metadata
before the text. A save is checked against the metadata that it finds, stages its text and then
replaces the file, if that still has this metadata; each of these comes when it comes, answers get
lost, and whatever else changes the share may do so in between.
-/

namespace Crabinet.Editing

open Crabinet.Client (bytesOf)
open Crabinet.Filesystem Crabinet.Library Crabinet.Share Crabinet.Tokens

/-- What the tags and the texts of a share depend on. -/
structure Server where
  mac : Mac
  shareId : ShareId
  /-- `max_text_bytes`. -/
  maxTextBytes : ℕ
  /-- What the file of a version holds. -/
  contents : EntryMetadata → List UInt8

namespace Server

/-- The tag of a version. -/
def tag (server : Server) (path : VirtualPath) (version : EntryMetadata) : List Char :=
  versionTag server.mac server.shareId path version

/-- The text of a version. -/
def text (server : Server) (version : EntryMetadata) : Option (List Char) :=
  utf8Text (server.contents version)

/-- `read_text`, where it succeeds. -/
def readText (server : Server) (share : AuthorizedShare) (path : VirtualPath) : Option (List Char) := do
  let version ← (share.metadata path).toOption
  if version.kind = .file ∧ (server.contents version).length ≤ server.maxTextBytes then server.text version
  else none

end Server

/-- The version that a staged file will have. -/
def stagedVersion (stat : Stat) : EntryMetadata := ⟨.file, stat.size, stat.modified, stat.fileId⟩

/-! ### Requests -/

/-- Where `save_text_inner` stands. -/
inductive SavePhase where
  | received
  /-- `require_if_match` has passed. -/
  | checked (current : EntryMetadata)
  | staged (current : EntryMetadata) (stat : Stat)
  | answered (answer : Except ApiError (List Char))
  | dropped

/-- A request to save a text. -/
structure Save where
  path : VirtualPath
  etag : List Char
  snapshot : List Char
  /-- The text that the tag came with. -/
  edited : List Char
  phase : SavePhase

/-- The answer to what a load waits for. -/
inductive LoadAnswer where
  | metadata (etag : List Char)
  | text (text : List Char)
  | failed (cause : ApiError)

/-- An answer reaches a load. -/
def EditorDialog.receive (dialog : EditorDialog) (answer : LoadAnswer) : Option EditorDialog :=
  match dialog.loading, answer with
  | some .metadata, .metadata etag => some (dialog.metadataLoaded etag)
  | some (.text etag), .text text => some (dialog.textLoaded etag text)
  | some _, .failed cause => some (dialog.loadFailed cause)
  | _, _ => none

/-- An editor with the answer to its load and with the request of its save. -/
structure Client where
  dialog : EditorDialog
  answer : Option LoadAnswer
  request : Option ℕ

/-- A save that replaced a version, with what had been at the path, the latest first. -/
structure Commit where
  path : VirtualPath
  history : List (Option EntryMetadata)
  etag : List Char
  edited : List Char
  snapshot : List Char
  replaced : EntryMetadata
  published : EntryMetadata
deriving DecidableEq

/-- A share and its editors; the states that the share had before, the latest first, the versions
that were staged, and the saves that replaced one. -/
structure EditedShare where
  share : AuthorizedShare
  past : List AuthorizedShare
  staged : List EntryMetadata
  clients : List Client
  saves : List Save
  log : List Commit

/-- What happens next. -/
inductive Action where
  | openEditor (path : VirtualPath) (autosave : Bool)
  | event (editor : ℕ) (event : EditorEvent)
  | serveLoad (editor : ℕ)
  | refuseLoad (editor : ℕ) (error : AppError)
  | deliverLoad (editor : ℕ)
  /-- No answer reaches the editor. -/
  | loseLoad (editor : ℕ) (cause : ApiError)
  | checkSave (save : ℕ)
  | stageSave (save : ℕ) (stat : Stat)
  | publishSave (save : ℕ)
  /-- A limit, the quota or a failure ends the save. -/
  | refuseSave (save : ℕ) (error : AppError)
  /-- The connection is closed, and the handler dropped. -/
  | dropSave (save : ℕ)
  | deliverSave (editor : ℕ)
  /-- The request failed on its way, or its answer was lost. -/
  | loseSave (editor : ℕ) (cause : ApiError)
  /-- The session that a forbidden save asks for has come. -/
  | refreshSession (editor : ℕ) (sameUser readWrite : Bool)
  /-- Anything else that changes the share. -/
  | change (share : AuthorizedShare)

namespace EditedShare

/-- Nobody edits yet. -/
def start (share : AuthorizedShare) : EditedShare := ⟨share, [], [], [], [], []⟩

/-- What has been at a path, the latest first. -/
def history (state : EditedShare) (path : VirtualPath) : List (Option EntryMetadata) :=
  (state.share :: state.past).map fun share => (share.metadata path).toOption

/-- The share changes. -/
def withShare (state : EditedShare) (share : AuthorizedShare) : EditedShare :=
  { state with share, past := state.share :: state.past }

/-- A save goes on. -/
def setPhase (state : EditedShare) (id : ℕ) (save : Save) (phase : SavePhase) : EditedShare :=
  { state with saves := state.saves.set id { save with phase } }

/-- An editor that is open. -/
def client? (state : EditedShare) (editor : ℕ) : Option Client :=
  state.clients[editor]?.filter fun client => !client.dialog.closed

/-- An editor changes. -/
def setClient (state : EditedShare) (editor : ℕ) (client : Client) : EditedShare :=
  { state with clients := state.clients.set editor client }

/-- A save sends its request. -/
def send (state : EditedShare) (editor : ℕ) (client : Client) (persist : Persist) : EditedShare :=
  { state with
    clients := state.clients.set editor { client with request := some state.saves.length }
    saves := state.saves ++
      [⟨client.dialog.path, persist.etag, persist.snapshot, persist.edited, .received⟩] }

/-- What an editor's load waits for, answered by the share as it is. -/
def loadAnswer (server : Server) (state : EditedShare) (dialog : EditorDialog) : Option LoadAnswer :=
  match dialog.loading with
  | some .metadata =>
    (state.share.metadata dialog.path).toOption.map fun version =>
      .metadata (server.tag dialog.path version)
  | some (.text _) => (server.readText state.share dialog.path).map .text
  | none => none

/-- One action; `none` where it is not possible. -/
def step (server : Server) (state : EditedShare) : Action → Option EditedShare
  | .openEditor path autosave =>
    some { state with clients := state.clients ++ [⟨.opened path autosave, none, none⟩] }
  | .event editor event => do
    let client ← state.client? editor
    let dialog ← client.dialog.handle event
    match client.dialog.saving, dialog.saving with
    | none, some persist => some (state.send editor { client with dialog } persist)
    | _, _ => some (state.setClient editor { client with dialog })
  | .serveLoad editor => do
    let client ← state.client? editor
    if client.answer.isSome then none
    else
      let answer ← state.loadAnswer server client.dialog
      some (state.setClient editor { client with answer := some answer })
  | .refuseLoad editor error => do
    let client ← state.client? editor
    if client.answer.isSome || client.dialog.loading.isNone then none
    else some (state.setClient editor { client with answer := some (.failed error.received) })
  | .deliverLoad editor => do
    let client ← state.client? editor
    let answer ← client.answer
    let dialog ← EditorDialog.receive client.dialog answer
    some (state.setClient editor { client with dialog, answer := none })
  | .loseLoad editor cause => do
    let client ← state.client? editor
    let dialog ← EditorDialog.receive client.dialog (.failed cause)
    some (state.setClient editor { client with dialog, answer := none })
  | .checkSave id => do
    let save ← state.saves[id]?
    match save.phase with
    | .received =>
      if server.maxTextBytes < (utf8Bytes save.snapshot).length then
        some (state.setPhase id save (.answered (.error AppError.tooLarge.received)))
      else
        match state.share.metadata save.path with
        | .error code => some (state.setPhase id save (.answered (.error (fsReceived code))))
        | .ok current =>
          match requireIfMatchValue server.mac server.shareId save.path current
              (some (bytesOf save.etag)) with
          | .error _ => some (state.setPhase id save (.answered (.error AppError.conflict.received)))
          | .ok _ => some (state.setPhase id save (.checked current))
    | _ => none
  | .stageSave id stat => do
    let save ← state.saves[id]?
    match save.phase with
    | .checked current =>
      -- The file system gives a new file a version that is not one of an earlier file.
      if stat.size = (utf8Bytes save.snapshot).length ∧
          server.contents (stagedVersion stat) = utf8Bytes save.snapshot ∧
          stagedVersion stat ∉ state.staged ∧ some (stagedVersion stat) ∉ state.history save.path then
        some { state.setPhase id save (.staged current stat) with
          staged := stagedVersion stat :: state.staged }
      else none
    | _ => none
  | .publishSave id => do
    let save ← state.saves[id]?
    match save.phase with
    | .staged current stat =>
      match state.share.writeReplacement save.path stat current with
      | .error code => some (state.setPhase id save (.answered (.error (fsReceived code))))
      | .ok share =>
        let version := stagedVersion stat
        some { (state.setPhase id save (.answered (.ok (server.tag save.path version)))).withShare share with
          log := state.log ++
            [⟨save.path, state.history save.path, save.etag, save.edited, save.snapshot, current, version⟩] }
    | _ => none
  | .refuseSave id error => do
    let save ← state.saves[id]?
    match save.phase with
    | .received | .checked _ | .staged _ _ =>
      some (state.setPhase id save (.answered (.error error.received)))
    | _ => none
  | .dropSave id => do
    let save ← state.saves[id]?
    match save.phase with
    | .received | .checked _ | .staged _ _ => some (state.setPhase id save .dropped)
    | _ => none
  | .deliverSave editor => do
    let client ← state.client? editor
    let persist ← client.dialog.saving
    let id ← client.request
    let save ← state.saves[id]?
    match save.phase with
    | .answered (.ok etag) =>
      some (state.setClient editor
        { client with dialog := client.dialog.saved persist etag, request := none })
    | .answered (.error cause) =>
      some (state.setClient editor
        { client with dialog := client.dialog.saveRefused persist cause, request := none })
    | _ => none
  | .loseSave editor cause => do
    let client ← state.client? editor
    let persist ← client.dialog.saving
    some (state.setClient editor
      { client with dialog := client.dialog.saveRefused persist cause, request := none })
  | .refreshSession editor sameUser readWrite => do
    let client ← state.client? editor
    let persist ← client.dialog.saving
    if persist.stage ≠ .session then none
    else
      let dialog := client.dialog.sessionRefreshed persist sameUser readWrite
      match dialog.saving with
      | some persist => some (state.send editor { client with dialog, request := none } persist)
      | none => some (state.setClient editor { client with dialog, request := none })
  | .change share => some (state.withShare share)

end EditedShare

end Crabinet.Editing
