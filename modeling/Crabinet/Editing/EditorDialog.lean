import Crabinet.Editing.ErrorAnswers

/-!
# The text editor

What `EditorDialog` does with the events of its dialog and with the answers to its requests. It
loads the metadata of a file and then its text, and saves by the tag that came with what it shows
as saved. A save that is asked for while another one is on its way is not started.
-/

namespace Crabinet.Editing

open Crabinet.Filesystem

/-- `shareStateMessages`. -/
def shareStateMessages : List (String × String) :=
  [("path_too_deep", "Folders can be nested at most 64 levels deep."),
    ("share_too_large_to_measure",
      "The shared folder has too many items to check its quota. Ask an administrator."),
    ("share_too_deep_to_measure",
      "The shared folder has folders nested too deeply to check its quota. Ask an administrator.")]

/-- `shareStateMessage`. -/
def shareStateMessage (cause : ApiError) : Option String := cause.code.bind fun code => shareStateMessages.lookup code

/-- `operationError`. -/
def operationError (cause : ApiError) : String :=
  match shareStateMessage cause with
  | some message => message
  | none =>
    if cause.kind = .forbidden then
      "Your write access changed. Reload the page or contact an administrator."
    else if cause.kind = .conflict then
      "The item changed or the destination already exists. Reload the folder and try again."
    else if cause.kind = .notFound then "The item no longer exists. Reload the folder."
    else if cause.status = some 413 then "The content is larger than the server allows."
    else if cause.status = some 415 then "Only valid UTF-8 text can be edited."
    else "The operation failed. Check your connection and try again."

/-- `isTransient`. -/
def isTransient (cause : ApiError) : Bool := cause.kind == .network || cause.retryable

/-- `autosaveRetries`. -/
def autosaveRetries : ℕ := 4

/-- The mode of a save. -/
inductive SaveMode where
  | auto | manual | closing
deriving DecidableEq, Repr

/-- What a load waits for. -/
inductive Loading where
  | metadata
  | text (etag : List Char)
deriving DecidableEq, Repr

/-- What a save waits for: the answer to its first request, the session after a refusal, or the
answer to the request with the session's token. -/
inductive SaveStage where
  | first | session | second
deriving DecidableEq, Repr

/-- A run of `persist`, with the text and the tag that it was started with, and with the text that the
tag came with. -/
structure Persist where
  mode : SaveMode
  snapshot : List Char
  etag : List Char
  edited : List Char
  stage : SaveStage
deriving DecidableEq, Repr

/-- `EditorDialog`. The tag is all that the editor keeps of the metadata, and `savingNow` is set as
long as a save runs. -/
structure EditorDialog where
  path : VirtualPath
  text : List Char
  initialText : List Char
  metadata : Option (List Char)
  loading : Option Loading
  saving : Option Persist
  conflict : Bool
  error : Option String
  autosave : Bool
  failedAutosaves : ℕ
  closePrompt : Bool
  savedOnce : Bool
  closed : Bool
deriving DecidableEq, Repr

/-- What happens in the dialog. -/
inductive EditorEvent where
  | input (text : List Char)
  | setAutosave (autosave : Bool)
  /-- The autosave timer runs out. -/
  | timer
  | retryNow
  | save
  | close
  | keepEditing
  | discard
  | saveAndClose
  /-- The answer of `confirm`, where the editor asks. -/
  | reloadLatest (confirmed : Bool)
  | tryAgain
deriving DecidableEq, Repr

namespace EditorDialog

/-- A dialog that was just opened. -/
def opened (path : VirtualPath) (autosave : Bool) : EditorDialog where
  path
  text := []
  initialText := []
  metadata := none
  loading := some .metadata
  saving := none
  conflict := false
  error := none
  autosave
  failedAutosaves := 0
  closePrompt := false
  savedOnce := false
  closed := false

/-- `dirty`. -/
def dirty (dialog : EditorDialog) : Bool := dialog.text != dialog.initialText

/-- `autosavePaused`. -/
def autosavePaused (dialog : EditorDialog) : Bool := dialog.error.isSome || dialog.conflict

/-- The text and its buttons are shown. -/
def shown (dialog : EditorDialog) : Bool := dialog.loading.isNone && dialog.metadata.isSome

/-- The text cannot be changed while a save is about to close the dialog. -/
def locked (dialog : EditorDialog) : Bool := dialog.saving.any fun persist => persist.mode == .closing

/-- `load`. -/
def load (dialog : EditorDialog) : EditorDialog :=
  { dialog with loading := some .metadata, error := none, conflict := false }

/-- `persist`, up to its first request; nothing is started without a tag or beside another save. -/
def persist (dialog : EditorDialog) (mode : SaveMode) : EditorDialog :=
  match dialog.metadata, dialog.saving with
  | some etag, none =>
    { dialog with
      saving := some ⟨mode, dialog.text, etag, dialog.initialText, .first⟩
      error := none
      conflict := false }
  | _, _ => dialog

/-- What an event does to the dialog; `none` where the dialog has no such control. -/
def handle (dialog : EditorDialog) : EditorEvent → Option EditorDialog
  | .input text => if dialog.shown && !dialog.locked then some { dialog with text } else none
  | .setAutosave autosave => if dialog.shown then some { dialog with autosave } else none
  -- The timer does not wait for a load.
  | .timer =>
    if dialog.autosave && dialog.dirty && dialog.saving.isNone && !dialog.autosavePaused &&
        dialog.metadata.isSome then some (dialog.persist .auto)
    else none
  | .retryNow =>
    if dialog.shown && dialog.autosave && dialog.error.isSome && dialog.dirty && dialog.saving.isNone then
      some (dialog.persist .auto)
    else none
  | .save =>
    if dialog.shown && !dialog.closePrompt && dialog.dirty && dialog.saving.isNone && !dialog.conflict then
      some (dialog.persist .manual)
    else none
  | .close =>
    if dialog.saving.isSome then some dialog
    else if dialog.closePrompt then some { dialog with closePrompt := false }
    else if dialog.dirty && dialog.autosave && !dialog.autosavePaused then some (dialog.persist .closing)
    else if dialog.dirty then some { dialog with closePrompt := true }
    else some { dialog with closed := true }
  | .keepEditing =>
    if dialog.shown && dialog.closePrompt then some { dialog with closePrompt := false } else none
  | .discard => if dialog.shown && dialog.closePrompt then some { dialog with closed := true } else none
  | .saveAndClose =>
    if dialog.shown && dialog.closePrompt && !dialog.conflict then
      some ({ dialog with closePrompt := false }.persist .closing)
    else none
  | .reloadLatest confirmed =>
    if dialog.shown && dialog.conflict then
      if !dialog.dirty || confirmed then some dialog.load else some dialog
    else none
  | .tryAgain => if dialog.loading.isNone && dialog.metadata.isNone then some dialog.load else none

/-! ### Answers -/

/-- The metadata has come. -/
def metadataLoaded (dialog : EditorDialog) (etag : List Char) : EditorDialog :=
  { dialog with loading := some (.text etag) }

/-- The text has come, after the metadata with the tag. -/
def textLoaded (dialog : EditorDialog) (etag text : List Char) : EditorDialog :=
  { dialog with metadata := some etag, text, initialText := text, loading := none }

/-- A load has failed. -/
def loadFailed (dialog : EditorDialog) (cause : ApiError) : EditorDialog :=
  let error := if cause.kind = .unauthorized ∨ cause.kind = .aborted then dialog.error
    else some (operationError cause)
  { dialog with loading := none, error }

/-- The text of a save has been saved under a new tag. -/
def saved (dialog : EditorDialog) (persist : Persist) (etag : List Char) : EditorDialog :=
  { dialog with
    metadata := some etag
    initialText := persist.snapshot
    savedOnce := true
    failedAutosaves := 0
    saving := none
    closed := persist.mode == .closing }

/-- A save ends without being saved. -/
def saveFailed (dialog : EditorDialog) (persist : Persist) (cause : ApiError) : EditorDialog :=
  let dialog := { dialog with saving := none }
  if cause.kind = .unauthorized then
    { dialog with
      error := some "Your sign-in needs refreshing. Sign in again in another tab, then retry save here. Your edits are still here." }
  else if cause.kind = .conflict then { dialog with conflict := true }
  else if cause.kind = .forbidden then
    { dialog with
      error := some "Save was denied with the current access. Your edits are still here. Retry save or contact an administrator." }
  else if persist.mode = .auto ∧ isTransient cause ∧ dialog.failedAutosaves < autosaveRetries then
    { dialog with failedAutosaves := dialog.failedAutosaves + 1 }
  else if cause.kind = .aborted then dialog
  else { dialog with failedAutosaves := 0, error := some (operationError cause) }

/-- A request of a save has failed. The first one asks for the session when it was forbidden. -/
def saveRefused (dialog : EditorDialog) (persist : Persist) (cause : ApiError) : EditorDialog :=
  if persist.stage = .first ∧ cause.kind = .forbidden then
    { dialog with saving := some { persist with stage := .session } }
  else dialog.saveFailed persist cause

/-- The session has come; the save goes on if it is of the same account and may write. -/
def sessionRefreshed (dialog : EditorDialog) (persist : Persist) (sameUser readWrite : Bool) :
    EditorDialog :=
  if !sameUser then
    { dialog with
      saving := none
      error := some "A different account is signed in. Return to your original account, then retry save. Your edits are still here." }
  else if !readWrite then
    { dialog with
      saving := none
      error := some "Write access is unavailable for this folder. Your edits are still here to copy or retry after access is restored." }
  else { dialog with saving := some { persist with stage := .second } }

end EditorDialog

end Crabinet.Editing
