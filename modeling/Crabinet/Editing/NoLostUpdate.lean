import Crabinet.Editing.TextSaves

/-!
# No save overwrites what its editor has not seen

A save replaces the version that its tag names. The text that an editor shows as saved is the text
of that version: it asked for the tag before the text, so a text of another version came with the
tag of one that had left by then, and which the save finds only if it came back.
-/

namespace Crabinet.Editing

open Crabinet.Client (bytesOf)
open Crabinet.Filesystem Crabinet.Library Crabinet.Share Crabinet.Tokens

/-! ### What has been at a path -/

/-- Something else has been at the path since the version was there. -/
def Left (history : List (Option EntryMetadata)) (version : EntryMetadata) : Prop :=
  ∃ other, other ≠ some version ∧ [other, some version].Sublist history

/-- The version is at the path again after something else was. -/
def Returned (history : List (Option EntryMetadata)) (version : EntryMetadata) : Prop :=
  ∃ other, other ≠ some version ∧ [some version, other, some version].Sublist history

section History

variable {server : Server} {path : VirtualPath} {history later : List (Option EntryMetadata)}
  {version : EntryMetadata} {etag text : List Char}

/-- The tag is that of a version that was at the path. -/
def Offered (server : Server) (path : VirtualPath) (history : List (Option EntryMetadata))
    (etag : List Char) : Prop :=
  ∃ version, some version ∈ history ∧ server.tag path version = etag

/-- The tag is that of a version with the text, or of one that has left. -/
def Knows (server : Server) (path : VirtualPath) (history : List (Option EntryMetadata))
    (etag text : List Char) : Prop :=
  ∃ version, some version ∈ history ∧ server.tag path version = etag ∧
    (server.text version = some text ∨ Left history version)

theorem Left.mono (h : Left history version) (hlater : history.Sublist later) : Left later version := by
  obtain ⟨other, hother, hsublist⟩ := h
  exact ⟨other, hother, hsublist.trans hlater⟩

theorem Returned.mono (h : Returned history version) (hlater : history.Sublist later) :
    Returned later version := by
  obtain ⟨other, hother, hsublist⟩ := h
  exact ⟨other, hother, hsublist.trans hlater⟩

theorem Offered.mono (h : Offered server path history etag) (hlater : history.Sublist later) :
    Offered server path later etag := by
  obtain ⟨version, hmem, htag⟩ := h
  exact ⟨version, hlater.subset hmem, htag⟩

theorem Knows.mono (h : Knows server path history etag text) (hlater : history.Sublist later) :
    Knows server path later etag text := by
  obtain ⟨version, hmem, htag, htext⟩ := h
  exact ⟨version, hlater.subset hmem, htag, htext.imp_right fun hleft => hleft.mono hlater⟩

/-- A version that has left and is there has returned. -/
theorem Left.returned (h : Left (some version :: history) version) :
    Returned (some version :: history) version := by
  obtain ⟨other, hother, hsublist⟩ := h
  refine ⟨other, hother, List.Sublist.cons_cons _ ?_⟩
  cases hsublist with
  | cons _ hrest => exact hrest
  | cons_cons _ _ => exact absurd rfl hother

/-- A text that is read after a tag is the text of the tag's version, unless this has left. -/
theorem Offered.knows (h : Offered server path (some version :: history) etag)
    (htext : server.text version = some text) :
    Knows server path (some version :: history) etag text := by
  obtain ⟨first, hmem, htag⟩ := h
  refine ⟨first, hmem, htag, ?_⟩
  by_cases hfirst : first = version
  · exact .inl (hfirst ▸ htext)
  · have hne : some version ≠ some first := fun heq => hfirst (Option.some.inj heq).symm
    refine .inr ⟨some version, hne, List.Sublist.cons_cons _ ?_⟩
    exact List.singleton_sublist.mpr ((List.mem_cons.mp hmem).resolve_left hne.symm)

end History

/-! ### What an event does to the dialog -/

namespace EditorDialog

variable {dialog after : EditorDialog} {event : EditorEvent}

/-- What `persist` leaves alone, and what it starts. -/
theorem persist_spec (dialog : EditorDialog) (mode : SaveMode) :
    (dialog.persist mode).path = dialog.path ∧ (dialog.persist mode).metadata = dialog.metadata ∧
      (dialog.persist mode).initialText = dialog.initialText ∧
      (dialog.persist mode).loading = dialog.loading ∧
      ((dialog.persist mode).saving = dialog.saving ∨ dialog.saving = none ∧ ∃ etag,
        dialog.metadata = some etag ∧
        (dialog.persist mode).saving = some ⟨mode, dialog.text, etag, dialog.initialText, .first⟩) := by
  unfold persist
  split
  · rename_i etag hmetadata hsaving
    exact ⟨rfl, rfl, rfl, rfl, .inr ⟨hsaving, etag, hmetadata, rfl⟩⟩
  · exact ⟨rfl, rfl, rfl, rfl, .inl rfl⟩

/-- An event of the dialog keeps the tag and the text that is shown as saved; it may start a load or
a save by that tag. -/
structure Handles (dialog after : EditorDialog) : Prop where
  path : after.path = dialog.path
  metadata : after.metadata = dialog.metadata
  initialText : after.initialText = dialog.initialText
  loading : after.loading = dialog.loading ∨ after.loading = some .metadata
  saving : after.saving = dialog.saving ∨ dialog.saving = none ∧ ∃ persist,
    after.saving = some persist ∧ dialog.metadata = some persist.etag ∧
      persist.edited = dialog.initialText

theorem handles_persist (dialog : EditorDialog) (mode : SaveMode) :
    Handles dialog (dialog.persist mode) := by
  obtain ⟨hpath, hmetadata, htext, hloading, hsaving⟩ := dialog.persist_spec mode
  refine ⟨hpath, hmetadata, htext, .inl hloading, hsaving.imp_right fun ⟨hnone, etag, hetag, hstarted⟩ => ?_⟩
  exact ⟨hnone, _, hstarted, hetag, rfl⟩

theorem handles_load (dialog : EditorDialog) : Handles dialog dialog.load :=
  ⟨rfl, rfl, rfl, .inr rfl, .inl rfl⟩

theorem handles_rest {after : EditorDialog} (hpath : after.path = dialog.path)
    (hmetadata : after.metadata = dialog.metadata) (htext : after.initialText = dialog.initialText)
    (hloading : after.loading = dialog.loading) (hsaving : after.saving = dialog.saving) :
    Handles dialog after := ⟨hpath, hmetadata, htext, .inl hloading, .inl hsaving⟩

theorem handles_close (h : dialog.handle .close = some after) : Handles dialog after := by
  have hkeeps {dialog after : EditorDialog} {prompt closed : Bool}
      (heq : some { dialog with closePrompt := prompt, closed } = some after) : Handles dialog after :=
    Option.some.inj heq ▸ handles_rest rfl rfl rfl rfl rfl
  unfold handle at h
  by_cases hsaving : dialog.saving.isSome = true
  · rw [if_pos hsaving] at h
    exact hkeeps h
  rw [if_neg hsaving] at h
  by_cases hprompt : dialog.closePrompt = true
  · rw [if_pos hprompt] at h
    exact hkeeps h
  rw [if_neg hprompt] at h
  by_cases hauto : (dialog.dirty && dialog.autosave && !dialog.autosavePaused) = true
  · rw [if_pos hauto] at h
    exact Option.some.inj h ▸ handles_persist dialog .closing
  rw [if_neg hauto] at h
  by_cases hdirty : dialog.dirty = true
  · rw [if_pos hdirty] at h
    exact hkeeps h
  · rw [if_neg hdirty] at h
    exact hkeeps h

theorem handles_of_handle (h : dialog.handle event = some after) : Handles dialog after := by
  cases event with
  | input text =>
    obtain ⟨-, heq⟩ := Option.ite_none_right_eq_some.mp h
    exact Option.some.inj heq ▸ handles_rest rfl rfl rfl rfl rfl
  | setAutosave autosave =>
    obtain ⟨-, heq⟩ := Option.ite_none_right_eq_some.mp h
    exact Option.some.inj heq ▸ handles_rest rfl rfl rfl rfl rfl
  | timer =>
    obtain ⟨-, heq⟩ := Option.ite_none_right_eq_some.mp h
    exact Option.some.inj heq ▸ handles_persist dialog .auto
  | retryNow =>
    obtain ⟨-, heq⟩ := Option.ite_none_right_eq_some.mp h
    exact Option.some.inj heq ▸ handles_persist dialog .auto
  | save =>
    obtain ⟨-, heq⟩ := Option.ite_none_right_eq_some.mp h
    exact Option.some.inj heq ▸ handles_persist dialog .manual
  | close => exact handles_close h
  | keepEditing =>
    obtain ⟨-, heq⟩ := Option.ite_none_right_eq_some.mp h
    exact Option.some.inj heq ▸ handles_rest rfl rfl rfl rfl rfl
  | discard =>
    obtain ⟨-, heq⟩ := Option.ite_none_right_eq_some.mp h
    exact Option.some.inj heq ▸ handles_rest rfl rfl rfl rfl rfl
  | saveAndClose =>
    obtain ⟨-, heq⟩ := Option.ite_none_right_eq_some.mp h
    obtain ⟨hpath, hmetadata, htext, hloading, hsaving⟩ :=
      handles_persist { dialog with closePrompt := false } .closing
    exact Option.some.inj heq ▸ ⟨hpath, hmetadata, htext, hloading, hsaving⟩
  | reloadLatest confirmed =>
    obtain ⟨-, heq⟩ := Option.ite_none_right_eq_some.mp h
    split at heq
    · exact Option.some.inj heq ▸ handles_load dialog
    · exact Option.some.inj heq ▸ handles_rest rfl rfl rfl rfl rfl
  | tryAgain =>
    obtain ⟨-, heq⟩ := Option.ite_none_right_eq_some.mp h
    exact Option.some.inj heq ▸ handles_load dialog

end EditorDialog

/-! ### What holds all along -/

namespace EditedShare

/-- What an editor knows about the file, and which request it waits for. -/
structure ClientSound (server : Server) (state : EditedShare) (client : Client) : Prop where
  shown : ∀ etag, client.dialog.metadata = some etag →
    Knows server client.dialog.path (state.history client.dialog.path) etag client.dialog.initialText
  loading : ∀ etag, client.dialog.loading = some (.text etag) →
    Offered server client.dialog.path (state.history client.dialog.path) etag
  metadata : ∀ etag, client.answer = some (.metadata etag) →
    Offered server client.dialog.path (state.history client.dialog.path) etag
  text : ∀ etag text, client.dialog.loading = some (.text etag) → client.answer = some (.text text) →
    Knows server client.dialog.path (state.history client.dialog.path) etag text
  saving : ∀ persist, client.dialog.saving = some persist →
    Knows server client.dialog.path (state.history client.dialog.path) persist.etag persist.edited
  request : ∀ persist id, client.dialog.saving = some persist → client.request = some id →
    ∃ save : Save, state.saves[id]? = some save ∧ save.path = client.dialog.path ∧
      save.snapshot = persist.snapshot
  idle : client.dialog.saving = none → client.request = none

/-- What a save has seen of the file. -/
structure SaveSound (server : Server) (state : EditedShare) (save : Save) : Prop where
  edited : Knows server save.path (state.history save.path) save.etag save.edited
  checked : ∀ current, (save.phase = .checked current ∨ ∃ stat, save.phase = .staged current stat) →
    server.tag save.path current = save.etag
  staged : ∀ current stat, save.phase = .staged current stat →
    server.text (stagedVersion stat) = some save.snapshot
  answered : ∀ etag, save.phase = .answered (.ok etag) →
    Knows server save.path (state.history save.path) etag save.snapshot

/-- What a save has replaced. -/
structure CommitSound (server : Server) (state : EditedShare) (commit : Commit) : Prop where
  history : commit.history.Sublist (state.history commit.path)
  replaced : some commit.replaced ∈ commit.history
  tag : server.tag commit.path commit.replaced = commit.etag
  published : server.text commit.published = some commit.snapshot
  edited : ∃ version, some version ∈ commit.history ∧
    server.tag commit.path version = commit.etag ∧
      (server.text version = some commit.edited ∨
        (version = commit.replaced → Returned commit.history version))

/-- All of it. -/
structure Sound (server : Server) (state : EditedShare) : Prop where
  clients : ∀ client ∈ state.clients, ClientSound server state client
  saves : ∀ save ∈ state.saves, SaveSound server state save
  log : ∀ commit ∈ state.log, CommitSound server state commit

/-- What was at a path is kept, and so is what a request asks for. -/
structure Follows (before after : EditedShare) : Prop where
  history : ∀ path, (before.history path).Sublist (after.history path)
  saves : ∀ (id : ℕ) (save : Save), before.saves[id]? = some save →
    ∃ other : Save, after.saves[id]? = some other ∧ other.path = save.path ∧ other.snapshot = save.snapshot

section Sound

variable {server : Server} {state before after : EditedShare} {client : Client} {save : Save}
  {commit : Commit} {share : AuthorizedShare} {editor id : ℕ} {phase : SavePhase} {persist : Persist}

theorem history_withShare (state : EditedShare) (share : AuthorizedShare) (path : VirtualPath) :
    (state.withShare share).history path = (share.metadata path).toOption :: state.history path := rfl

theorem ClientSound.mono (h : ClientSound server before client) (hfollows : Follows before after) :
    ClientSound server after client where
  shown etag hetag := (h.shown etag hetag).mono (hfollows.history _)
  loading etag hetag := (h.loading etag hetag).mono (hfollows.history _)
  metadata etag hetag := (h.metadata etag hetag).mono (hfollows.history _)
  text etag text hetag htext := (h.text etag text hetag htext).mono (hfollows.history _)
  saving persist hpersist := (h.saving persist hpersist).mono (hfollows.history _)
  request persist id hpersist hid := by
    obtain ⟨save, hsave, hpath, hsnapshot⟩ := h.request persist id hpersist hid
    obtain ⟨other, hother, hpath', hsnapshot'⟩ := hfollows.saves id save hsave
    exact ⟨other, hother, hpath'.trans hpath, hsnapshot'.trans hsnapshot⟩
  idle := h.idle

theorem SaveSound.mono (h : SaveSound server before save) (hfollows : Follows before after) :
    SaveSound server after save where
  edited := h.edited.mono (hfollows.history _)
  checked := h.checked
  staged := h.staged
  answered etag hetag := (h.answered etag hetag).mono (hfollows.history _)

theorem CommitSound.mono (h : CommitSound server before commit) (hfollows : Follows before after) :
    CommitSound server after commit :=
  ⟨h.history.trans (hfollows.history _), h.replaced, h.tag, h.published, h.edited⟩

theorem follows_of_saves (hhistory : ∀ path, (before.history path).Sublist (after.history path))
    (hsaves : after.saves = before.saves) : Follows before after :=
  ⟨hhistory, fun _ save hsave => ⟨save, hsaves ▸ hsave, rfl, rfl⟩⟩

theorem follows_setPhase (hsave : state.saves[id]? = some save) (phase : SavePhase) :
    Follows state (state.setPhase id save phase) := by
  refine ⟨fun path => List.Sublist.refl _, fun other found hfound => ?_⟩
  by_cases hid : id = other
  · subst hid
    obtain rfl := Option.some.inj (hsave.symm.trans hfound)
    exact ⟨{ save with phase }, List.getElem?_set_self (List.getElem?_eq_some_iff.mp hsave).1, rfl, rfl⟩
  · exact ⟨found, (List.getElem?_set_ne hid).trans hfound, rfl, rfl⟩

theorem follows_send (state : EditedShare) (editor : ℕ) (client : Client) (persist : Persist) :
    Follows state (state.send editor client persist) := by
  refine ⟨fun path => List.Sublist.refl _, fun _ save hsave => ⟨save, ?_, rfl, rfl⟩⟩
  exact (List.getElem?_append_left (List.getElem?_eq_some_iff.mp hsave).1).trans hsave

/-- An editor changes, and keeps to what it knows. -/
theorem Sound.setClient (h : Sound server state) (hclient : ClientSound server state client) :
    Sound server (state.setClient editor client) := by
  have hfollows : Follows state (state.setClient editor client) :=
    follows_of_saves (fun _ => List.Sublist.refl _) rfl
  refine ⟨fun other hother => ?_, fun other hother => (h.saves other hother).mono hfollows,
    fun commit hcommit => (h.log commit hcommit).mono hfollows⟩
  rcases List.mem_or_eq_of_mem_set hother with hmem | rfl
  · exact (h.clients other hmem).mono hfollows
  · exact hclient.mono hfollows

/-- A save goes on, and keeps to what it has seen. -/
theorem Sound.setPhase (h : Sound server state) (hid : state.saves[id]? = some save)
    (hsave : SaveSound server state { save with phase }) :
    Sound server (state.setPhase id save phase) := by
  have hfollows := follows_setPhase hid phase
  refine ⟨fun other hother => (h.clients other hother).mono hfollows, fun other hother => ?_,
    fun commit hcommit => (h.log commit hcommit).mono hfollows⟩
  rcases List.mem_or_eq_of_mem_set hother with hmem | rfl
  · exact (h.saves other hmem).mono hfollows
  · exact hsave.mono hfollows

/-- A save sends its request. -/
theorem Sound.send (h : Sound server state) (hclient : ClientSound server state client)
    (hpersist : client.dialog.saving = some persist) :
    Sound server (state.send editor client persist) := by
  have hfollows := follows_send state editor client persist
  refine ⟨fun other hother => ?_, fun other hother => ?_,
    fun commit hcommit => (h.log commit hcommit).mono hfollows⟩
  · rcases List.mem_or_eq_of_mem_set hother with hmem | rfl
    · exact (h.clients other hmem).mono hfollows
    · have hkept := hclient.mono hfollows
      refine ⟨hkept.shown, hkept.loading, hkept.metadata, hkept.text, hkept.saving, ?_, fun hnone => ?_⟩
      · intro persist' id' hpersist' hid'
        obtain rfl := Option.some.inj (hpersist.symm.trans hpersist')
        obtain rfl := Option.some.inj hid'
        exact ⟨_, List.getElem?_concat_length, rfl, rfl⟩
      · cases hpersist.symm.trans hnone
  · rcases List.mem_append.mp hother with hmem | hmem
    · exact (h.saves other hmem).mono hfollows
    · obtain rfl := List.mem_singleton.mp hmem
      refine ⟨(hclient.saving persist hpersist).mono (hfollows.history _), ?_, ?_, ?_⟩
      · rintro current (hphase | ⟨stat, hphase⟩) <;> cases hphase
      · rintro current stat ⟨⟩
      · rintro etag ⟨⟩

/-- The share changes. -/
theorem Sound.withShare (h : Sound server state) (share : AuthorizedShare) :
    Sound server (state.withShare share) := by
  have hfollows : Follows state (state.withShare share) :=
    follows_of_saves (fun path => List.sublist_cons_self _ _) rfl
  exact ⟨fun other hother => (h.clients other hother).mono hfollows,
    fun other hother => (h.saves other hother).mono hfollows,
    fun commit hcommit => (h.log commit hcommit).mono hfollows⟩

theorem mem_of_client? (h : state.client? editor = some client) : client ∈ state.clients :=
  List.mem_of_getElem? (Option.filter_eq_some_iff.mp h).1

/-! ### What each action does -/

/-- An event of the dialog leaves an editor with what it knows. -/
theorem ClientSound.handles (h : ClientSound server state client) {after : EditorDialog}
    (hhandles : EditorDialog.Handles client.dialog after) :
    ClientSound server state { client with dialog := after } := by
  obtain ⟨hpath, hmetadata, htext, hloading, hsaving⟩ := hhandles
  have hread {etag : List Char} (hetag : after.loading = some (.text etag)) :
      client.dialog.loading = some (.text etag) := by
    rcases hloading with heq | heq
    · exact heq ▸ hetag
    · cases heq.symm.trans hetag
  have hshown : ∀ etag, client.dialog.metadata = some etag →
      Knows server after.path (state.history after.path) etag client.dialog.initialText :=
    hpath.symm ▸ h.shown
  refine ⟨?_, ?_, ?_, ?_, ?_, ?_, ?_⟩
  · intro etag hetag
    dsimp only at hetag ⊢
    rw [htext]
    exact hshown etag (hmetadata ▸ hetag)
  · intro etag hetag
    exact hpath.symm ▸ h.loading etag (hread hetag)
  · intro etag hetag
    exact hpath.symm ▸ h.metadata etag hetag
  · intro etag text hetag htext
    exact hpath.symm ▸ h.text etag text (hread hetag) htext
  · intro persist hpersist
    rcases hsaving with heq | ⟨-, started, hstarted, hetag, hedited⟩
    · exact hpath.symm ▸ h.saving persist (heq ▸ hpersist)
    · obtain rfl := Option.some.inj (hstarted.symm.trans hpersist)
      exact hedited.symm ▸ hshown started.etag hetag
  · intro persist id hpersist hid
    rcases hsaving with heq | ⟨hnone, -⟩
    · obtain ⟨save, hsave, hsavepath, hsnapshot⟩ := h.request persist id (heq ▸ hpersist) hid
      exact ⟨save, hsave, hsavepath.trans hpath.symm, hsnapshot⟩
    · cases (h.idle hnone).symm.trans hid
  · intro hnone
    rcases hsaving with heq | ⟨hidle, -⟩
    · exact h.idle (heq ▸ hnone)
    · exact h.idle hidle

/-- What is answered to a load was at the path just now. -/
theorem ClientSound.serve (h : ClientSound server state client) {answer : LoadAnswer}
    (hanswer : state.loadAnswer server client.dialog = some answer) :
    ClientSound server state { client with answer := some answer } := by
  unfold loadAnswer at hanswer
  split at hanswer
  · rename_i hloading
    obtain ⟨version, hversion, rfl⟩ := Option.map_eq_some_iff.mp hanswer
    refine ⟨h.shown, h.loading, fun etag hetag => ?_, fun etag text hetag htext => ?_, h.saving, h.request,
      h.idle⟩
    · obtain rfl := LoadAnswer.metadata.inj (Option.some.inj hetag)
      exact ⟨version, List.mem_cons.mpr (.inl hversion.symm), rfl⟩
    · cases htext
  · rename_i etag hloading
    obtain ⟨text, hread, rfl⟩ := Option.map_eq_some_iff.mp hanswer
    refine ⟨h.shown, h.loading, fun etag hetag => ?_, fun etag' text' hetag htext => ?_, h.saving, h.request,
      h.idle⟩
    · cases hetag
    · obtain rfl := LoadAnswer.text.inj (Option.some.inj htext)
      obtain ⟨version, hversion, hrest⟩ := Option.bind_eq_some_iff.mp hread
      obtain ⟨-, htext⟩ := Option.ite_none_right_eq_some.mp hrest
      have hoffered := h.loading etag' hetag
      have hhistory : state.history client.dialog.path = some version ::
          state.past.map fun share => (share.metadata client.dialog.path).toOption := by
        rw [history, List.map_cons, hversion]
      dsimp only
      rw [hhistory] at hoffered ⊢
      exact hoffered.knows htext
  · cases hanswer

/-- An answer leaves an editor with the text that came with the tag. -/
theorem ClientSound.receive (h : ClientSound server state client) {answer : LoadAnswer}
    (hanswer : client.answer = some answer ∨ ∃ cause, answer = .failed cause) {dialog : EditorDialog}
    (hdialog : EditorDialog.receive client.dialog answer = some dialog) :
    ClientSound server state { client with dialog, answer := none } := by
  unfold EditorDialog.receive at hdialog
  split at hdialog
  · rename_i etag hloading
    obtain rfl := Option.some.inj hdialog
    obtain hanswer := hanswer.resolve_right (by rintro ⟨cause, ⟨⟩⟩)
    refine ⟨h.shown, fun etag' hetag => ?_, nofun, nofun, h.saving, h.request, h.idle⟩
    obtain rfl := Loading.text.inj (Option.some.inj hetag)
    exact h.metadata etag hanswer
  · rename_i etag text hloading
    obtain rfl := Option.some.inj hdialog
    obtain hanswer := hanswer.resolve_right (by rintro ⟨cause, ⟨⟩⟩)
    refine ⟨fun etag' hetag => ?_, nofun, nofun, nofun, h.saving, h.request, h.idle⟩
    obtain rfl := Option.some.inj hetag
    exact h.text etag text hloading hanswer
  · obtain rfl := Option.some.inj hdialog
    exact ⟨h.shown, nofun, nofun, nofun, h.saving, h.request, h.idle⟩
  · cases hdialog

/-- A save that ends without a new tag leaves an editor with what it knows. -/
theorem ClientSound.saveFailed (h : ClientSound server state client) (persist : Persist) (cause : ApiError) :
    ClientSound server state
      { client with dialog := client.dialog.saveFailed persist cause, request := none } := by
  have hkept {dialog : EditorDialog} (hpath : dialog.path = client.dialog.path)
      (hmetadata : dialog.metadata = client.dialog.metadata)
      (htext : dialog.initialText = client.dialog.initialText)
      (hloading : dialog.loading = client.dialog.loading) (hsaving : dialog.saving = none) :
      ClientSound server state { client with dialog, request := none } := by
    refine ⟨fun etag hetag => ?_, fun etag hetag => ?_, fun etag hetag => ?_, fun etag text hetag htext => ?_,
      fun persist hpersist => ?_, fun persist id hpersist hid => ?_, fun _ => rfl⟩
    · dsimp only
      rw [hpath, htext]
      exact h.shown etag (hmetadata ▸ hetag)
    · exact hpath.symm ▸ h.loading etag (hloading ▸ hetag)
    · exact hpath.symm ▸ h.metadata etag hetag
    · exact hpath.symm ▸ h.text etag text (hloading ▸ hetag) htext
    · cases hsaving.symm.trans hpersist
    · cases hid
  unfold EditorDialog.saveFailed
  dsimp only
  split_ifs
  all_goals exact hkept rfl rfl rfl rfl rfl

/-- A save that waits for something else still is by a tag that the editor knows. -/
theorem ClientSound.resume (h : ClientSound server state client) (hpersist : client.dialog.saving = some persist)
    (stage : SaveStage) : ClientSound server state
      { client with dialog := { client.dialog with saving := some { persist with stage } }, request := none } := by
  refine ⟨h.shown, h.loading, h.metadata, h.text, fun other hother => ?_, nofun, fun _ => rfl⟩
  obtain rfl := Option.some.inj hother
  exact h.saving persist hpersist

/-- So is a save whose request has failed. -/
theorem ClientSound.saveRefused (h : ClientSound server state client)
    (hpersist : client.dialog.saving = some persist) (cause : ApiError) : ClientSound server state
      { client with dialog := client.dialog.saveRefused persist cause, request := none } := by
  unfold EditorDialog.saveRefused
  split_ifs
  · exact h.resume hpersist .session
  · exact h.saveFailed persist cause

/-- A session that does not allow the save ends it. -/
theorem ClientSound.refresh (h : ClientSound server state client)
    (hpersist : client.dialog.saving = some persist) (sameUser readWrite : Bool) :
    ClientSound server state { client with
      dialog := client.dialog.sessionRefreshed persist sameUser readWrite, request := none } := by
  have hended (error : Option String) : ClientSound server state
      { client with dialog := { client.dialog with saving := none, error }, request := none } :=
    ⟨h.shown, h.loading, h.metadata, h.text, nofun, nofun, fun _ => rfl⟩
  unfold EditorDialog.sessionRefreshed
  split_ifs
  · exact hended _
  · exact hended _
  · exact h.resume hpersist .second

/-- A text that was saved comes with its new tag. -/
theorem ClientSound.saved (h : ClientSound server state client) {etag : List Char}
    (hknows : Knows server client.dialog.path (state.history client.dialog.path) etag persist.snapshot) :
    ClientSound server state { client with dialog := client.dialog.saved persist etag, request := none } := by
  refine ⟨fun other hother => ?_, h.loading, h.metadata, h.text, nofun, nofun, fun _ => rfl⟩
  obtain rfl := Option.some.inj hother
  exact hknows

/-- A check passes for the tag of what it found. -/
theorem SaveSound.check (h : SaveSound server state save) {current : EntryMetadata}
    (hmatch : requireIfMatchValue server.mac server.shareId save.path current (some (bytesOf save.etag)) =
      .ok ()) : SaveSound server state { save with phase := .checked current } := by
  have htag : server.tag save.path current = save.etag := by
    obtain ⟨version, -, htag, -⟩ := h.edited
    rw [← htag] at hmatch
    exact htag ▸ (requireIfMatchValue_eq_ok.mp hmatch).symm
  refine ⟨h.edited, ?_, nofun, nofun⟩
  rintro other (hother | ⟨stat, hother⟩)
  · exact SavePhase.checked.inj hother ▸ htag
  · cases hother

/-- A save that is refused has nothing more to keep to. -/
theorem SaveSound.refuse (h : SaveSound server state save) (phase : SavePhase)
    (hphase : phase = .dropped ∨ ∃ cause, phase = .answered (.error cause)) :
    SaveSound server state { save with phase } := by
  refine ⟨h.edited, ?_, ?_, ?_⟩
  · rintro current (rfl | ⟨stat, rfl⟩) <;> simp at hphase
  · rintro current stat rfl
    simp at hphase
  · rintro etag rfl
    simp at hphase

/-- A staged file holds the text of its save. -/
theorem SaveSound.stage (h : SaveSound server state save) {current : EntryMetadata} {stat : Stat}
    (hphase : save.phase = .checked current)
    (hcontents : server.contents (stagedVersion stat) = utf8Bytes save.snapshot) :
    SaveSound server state { save with phase := .staged current stat } := by
  refine ⟨h.edited, ?_, fun other stat' hother => ?_, nofun⟩
  · rintro other (hother | ⟨stat', hother⟩)
    · cases hother
    · exact (SavePhase.staged.inj hother).1 ▸ h.checked current (.inl hphase)
  · rw [← (SavePhase.staged.inj hother).2, Server.text, hcontents, utf8Text_utf8Bytes]

/-- A replacement leaves the staged version where it found the one that it was given. -/
theorem metadata_of_writeReplacement {path : VirtualPath} {stat : Stat} {current : EntryMetadata}
    (h : state.share.writeReplacement path stat current = .ok share) :
    state.share.metadata path = .ok current ∧ share.metadata path = .ok (stagedVersion stat) := by
  obtain ⟨-, -, h⟩ := bind_eq_ok.mp h
  obtain ⟨⟨parents, parent, name⟩, hparent, h⟩ := bind_eq_ok.mp h
  obtain ⟨hlinks, h⟩ := ite_error_eq_ok.mp h
  split at h
  · cases h
  · rename_i entry hentry
    obtain ⟨found, hfound, h⟩ := bind_eq_ok.mp h
    obtain ⟨hmatch, h⟩ := ite_error_eq_ok.mp h
    obtain rfl := Except.ok.inj h
    rw [Bool.or_eq_true, not_or, Bool.not_eq_true', Bool.not_eq_false] at hmatch
    obtain rfl := (EntryMetadata.matchesValidator_iff found current).mp hmatch.1
    have hthere : state.share.root.entryAt path = .ok entry :=
      Contents.entryAt_eq_ok.mpr ⟨parents, parent, name, hparent, hentry⟩
    obtain ⟨parents', parent', name', hparent'⟩ := Contents.openParent_eraseAt hthere
    constructor
    · rw [AuthorizedShare.metadata, hthere, ok_bind, hfound]
      rfl
    · rw [AuthorizedShare.metadata, Contents.entryAt_insertAt hparent', ok_bind]
      simp only [Entry.metadata, if_pos (not_not.mp hlinks)]
      rfl

/-- What a save replaces is the version of its tag. -/
theorem Sound.publish (h : Sound server state) (hid : state.saves[id]? = some save)
    {current : EntryMetadata} {stat : Stat} (hphase : save.phase = .staged current stat)
    (hshare : state.share.writeReplacement save.path stat current = .ok share) :
    Sound server { (state.setPhase id save (.answered (.ok
      (server.tag save.path (stagedVersion stat))))).withShare share with
      log := state.log ++ [⟨save.path, state.history save.path, save.etag, save.edited, save.snapshot,
        current, stagedVersion stat⟩] } := by
  obtain ⟨hcurrent, hstaged⟩ := metadata_of_writeReplacement hshare
  have hsave := h.saves save (List.mem_of_getElem? hid)
  have htext := hsave.staged current stat hphase
  have hfound : some current ∈ state.history save.path := by
    rw [history, List.map_cons, hcurrent]
    exact List.mem_cons_self
  let after := (state.setPhase id save (.answered (.ok
    (server.tag save.path (stagedVersion stat))))).withShare share
  have hnow : after.history save.path = some (stagedVersion stat) :: state.history save.path := by
    rw [history_withShare, hstaged]
    rfl
  have hfollows : Follows state after := by
    refine ⟨fun path => List.sublist_cons_self _ _, ?_⟩
    exact (follows_setPhase hid (.answered (.ok (server.tag save.path (stagedVersion stat))))).saves
  have hafter : Sound server after := by
    refine ⟨fun client hclient => (h.clients client hclient).mono hfollows, fun other hother => ?_,
      fun commit hcommit => (h.log commit hcommit).mono hfollows⟩
    rcases List.mem_or_eq_of_mem_set hother with hmem | rfl
    · exact (h.saves other hmem).mono hfollows
    · refine ⟨hsave.edited.mono (hfollows.history _), ?_, ?_, fun etag hetag => ?_⟩
      · rintro other (hother | ⟨stat', hother⟩) <;> cases hother
      · rintro other stat' ⟨⟩
      · obtain rfl := Except.ok.inj (SavePhase.answered.inj hetag)
        refine ⟨stagedVersion stat, ?_, rfl, .inl htext⟩
        rw [hnow]
        exact List.mem_cons_self
  refine ⟨fun client hclient => (hafter.clients client hclient).mono (follows_of_saves
      (fun _ => List.Sublist.refl _) rfl), fun other hother => (hafter.saves other hother).mono
      (follows_of_saves (fun _ => List.Sublist.refl _) rfl), fun commit hcommit => ?_⟩
  rcases List.mem_append.mp hcommit with hmem | hmem
  · exact (hafter.log commit hmem).mono (follows_of_saves (fun _ => List.Sublist.refl _) rfl)
  · obtain rfl := List.mem_singleton.mp hmem
    obtain ⟨version, hversion, htag, hedited⟩ := hsave.edited
    refine ⟨hfollows.history _, hfound, hsave.checked current (.inr ⟨stat, hphase⟩), htext, version, hversion,
      htag, hedited.imp_right fun hleft heq => ?_⟩
    -- The version that has left is the one that the replacement found.
    subst heq
    dsimp only at hleft ⊢
    rw [history, List.map_cons, hcurrent] at hleft ⊢
    exact hleft.returned

/-- Every action keeps it all. -/
theorem Sound.step (h : Sound server before) {action : Action}
    (hstep : before.step server action = some after) : Sound server after := by
  have hclient {editor : ℕ} {client : Client} (hclient : before.client? editor = some client) :
      ClientSound server before client := h.clients client (mem_of_client? hclient)
  have hsave {id : ℕ} {save : Save} (hid : before.saves[id]? = some save) : SaveSound server before save :=
    h.saves save (List.mem_of_getElem? hid)
  cases action with
  | openEditor path autosave =>
    obtain rfl := Option.some.inj hstep
    have hfollows : Follows before { before with
        clients := before.clients ++ [⟨.opened path autosave, none, none⟩] } :=
      follows_of_saves (fun _ => List.Sublist.refl _) rfl
    refine ⟨fun client hmem => ?_, fun save hmem => (h.saves save hmem).mono hfollows,
      fun commit hmem => (h.log commit hmem).mono hfollows⟩
    rcases List.mem_append.mp hmem with hmem | hmem
    · exact (h.clients client hmem).mono hfollows
    · obtain rfl := List.mem_singleton.mp hmem
      exact ⟨nofun, nofun, nofun, nofun, nofun, nofun, fun _ => rfl⟩
  | event editor event =>
    obtain ⟨client, hfound, hstep⟩ := Option.bind_eq_some_iff.mp hstep
    obtain ⟨dialog, hdialog, hstep⟩ := Option.bind_eq_some_iff.mp hstep
    have hhandled := (hclient hfound).handles (EditorDialog.handles_of_handle hdialog)
    split at hstep
    · rename_i persist hidle hpersist
      exact Option.some.inj hstep ▸ h.send hhandled hpersist
    · exact Option.some.inj hstep ▸ h.setClient hhandled
  | serveLoad editor =>
    obtain ⟨client, hfound, hstep⟩ := Option.bind_eq_some_iff.mp hstep
    obtain ⟨-, hstep⟩ := Option.ite_none_left_eq_some.mp hstep
    obtain ⟨answer, hanswer, hstep⟩ := Option.bind_eq_some_iff.mp hstep
    exact Option.some.inj hstep ▸ h.setClient ((hclient hfound).serve hanswer)
  | refuseLoad editor error =>
    obtain ⟨client, hfound, hstep⟩ := Option.bind_eq_some_iff.mp hstep
    obtain ⟨-, hstep⟩ := Option.ite_none_left_eq_some.mp hstep
    have hkept := hclient hfound
    exact Option.some.inj hstep ▸ h.setClient ⟨hkept.shown, hkept.loading, nofun, nofun, hkept.saving,
      hkept.request, hkept.idle⟩
  | deliverLoad editor =>
    obtain ⟨client, hfound, hstep⟩ := Option.bind_eq_some_iff.mp hstep
    obtain ⟨answer, hanswer, hstep⟩ := Option.bind_eq_some_iff.mp hstep
    obtain ⟨dialog, hdialog, hstep⟩ := Option.bind_eq_some_iff.mp hstep
    exact Option.some.inj hstep ▸ h.setClient ((hclient hfound).receive (.inl hanswer) hdialog)
  | loseLoad editor cause =>
    obtain ⟨client, hfound, hstep⟩ := Option.bind_eq_some_iff.mp hstep
    obtain ⟨dialog, hdialog, hstep⟩ := Option.bind_eq_some_iff.mp hstep
    exact Option.some.inj hstep ▸ h.setClient ((hclient hfound).receive (.inr ⟨cause, rfl⟩) hdialog)
  | checkSave id =>
    obtain ⟨save, hid, hstep⟩ := Option.bind_eq_some_iff.mp hstep
    have hrefused (cause : ApiError) :
        Sound server (before.setPhase id save (.answered (.error cause))) :=
      h.setPhase hid ((hsave hid).refuse _ (.inr ⟨cause, rfl⟩))
    split at hstep
    · split at hstep
      · exact Option.some.inj hstep ▸ hrefused _
      · split at hstep
        · exact Option.some.inj hstep ▸ hrefused _
        · split at hstep
          · exact Option.some.inj hstep ▸ hrefused _
          · rename_i hmatch
            exact Option.some.inj hstep ▸ h.setPhase hid ((hsave hid).check hmatch)
    · cases hstep
  | stageSave id stat =>
    obtain ⟨save, hid, hstep⟩ := Option.bind_eq_some_iff.mp hstep
    split at hstep
    · rename_i current hphase
      obtain ⟨⟨-, hcontents, -⟩, hstep⟩ := Option.ite_none_right_eq_some.mp hstep
      obtain ⟨hclients, hsaves, hlog⟩ := h.setPhase hid ((hsave hid).stage hphase hcontents)
      have hfollows : Follows (before.setPhase id save (.staged current stat)) after :=
        Option.some.inj hstep ▸ follows_of_saves (fun _ => List.Sublist.refl _) rfl
      obtain rfl := Option.some.inj hstep
      exact ⟨fun client hmem => (hclients client hmem).mono hfollows,
        fun save hmem => (hsaves save hmem).mono hfollows,
        fun commit hmem => (hlog commit hmem).mono hfollows⟩
    · cases hstep
  | publishSave id =>
    obtain ⟨save, hid, hstep⟩ := Option.bind_eq_some_iff.mp hstep
    split at hstep
    · rename_i current stat hphase
      split at hstep
      · exact Option.some.inj hstep ▸ h.setPhase hid ((hsave hid).refuse _ (.inr ⟨_, rfl⟩))
      · rename_i share hshare
        exact Option.some.inj hstep ▸ h.publish hid hphase hshare
    · cases hstep
  | refuseSave id error =>
    obtain ⟨save, hid, hstep⟩ := Option.bind_eq_some_iff.mp hstep
    have hrefused := h.setPhase hid ((hsave hid).refuse (.answered (.error error.received)) (.inr ⟨_, rfl⟩))
    split at hstep
    · exact Option.some.inj hstep ▸ hrefused
    · exact Option.some.inj hstep ▸ hrefused
    · exact Option.some.inj hstep ▸ hrefused
    · cases hstep
  | dropSave id =>
    obtain ⟨save, hid, hstep⟩ := Option.bind_eq_some_iff.mp hstep
    have hdropped := h.setPhase hid ((hsave hid).refuse .dropped (.inl rfl))
    split at hstep
    · exact Option.some.inj hstep ▸ hdropped
    · exact Option.some.inj hstep ▸ hdropped
    · exact Option.some.inj hstep ▸ hdropped
    · cases hstep
  | deliverSave editor =>
    obtain ⟨client, hfound, hstep⟩ := Option.bind_eq_some_iff.mp hstep
    obtain ⟨persist, hpersist, hstep⟩ := Option.bind_eq_some_iff.mp hstep
    obtain ⟨id, hrequest, hstep⟩ := Option.bind_eq_some_iff.mp hstep
    obtain ⟨save, hid, hstep⟩ := Option.bind_eq_some_iff.mp hstep
    split at hstep
    · rename_i etag hphase
      have hknows := (hsave hid).answered etag hphase
      obtain ⟨other, hother, hpath, hsnapshot⟩ := (hclient hfound).request persist id hpersist hrequest
      obtain rfl := Option.some.inj (hid.symm.trans hother)
      rw [hpath, hsnapshot] at hknows
      exact Option.some.inj hstep ▸ h.setClient ((hclient hfound).saved hknows)
    · exact Option.some.inj hstep ▸ h.setClient ((hclient hfound).saveRefused hpersist _)
    · cases hstep
  | loseSave editor cause =>
    obtain ⟨client, hfound, hstep⟩ := Option.bind_eq_some_iff.mp hstep
    obtain ⟨persist, hpersist, hstep⟩ := Option.bind_eq_some_iff.mp hstep
    exact Option.some.inj hstep ▸ h.setClient ((hclient hfound).saveRefused hpersist cause)
  | refreshSession editor sameUser readWrite =>
    obtain ⟨client, hfound, hstep⟩ := Option.bind_eq_some_iff.mp hstep
    obtain ⟨persist, hpersist, hstep⟩ := Option.bind_eq_some_iff.mp hstep
    obtain ⟨-, hstep⟩ := Option.ite_none_left_eq_some.mp hstep
    have hrefreshed := (hclient hfound).refresh hpersist sameUser readWrite
    dsimp only at hstep
    split at hstep
    · rename_i next hnext
      exact Option.some.inj hstep ▸ h.send hrefreshed hnext
    · exact Option.some.inj hstep ▸ h.setClient hrefreshed
  | change share => exact Option.some.inj hstep ▸ h.withShare share

/-- Where a save has taken effect, tags tell apart the versions that have been there. -/
def TellsApart (server : Server) (state : EditedShare) : Prop :=
  ∀ commit ∈ state.log, Set.InjOn (server.tag commit.path) {version | some version ∈ state.history commit.path}

theorem sound_start (server : Server) (share : AuthorizedShare) : Sound server (start share) :=
  ⟨fun _ h => absurd h List.not_mem_nil, fun _ h => absurd h List.not_mem_nil,
    fun _ h => absurd h List.not_mem_nil⟩

/-- In every run, a save that takes effect replaces a version whose text is the one that its editor had
loaded, or had saved, before the edits, unless that version had left the path while the editor
was loading it and has come back. -/
theorem no_lost_update {actions : List Action} (hrun : run (step server) (start share) actions = some state)
    (htags : state.TellsApart server) : ∀ commit ∈ state.log,
      server.text commit.published = some commit.snapshot ∧
        (server.text commit.replaced = some commit.edited ∨
          Returned commit.history commit.replaced) := by
  have hsound : Sound server state := run_invariant
    (fun before action after (hstep : step server before action = some after) h => h.step hstep) hrun (sound_start server share)
  intro commit hcommit
  obtain ⟨hhistory, hreplaced, hetag, hpublished, version, hversion, htag, hedited⟩ :=
    hsound.log commit hcommit
  obtain rfl := htags commit hcommit (hhistory.subset hversion) (hhistory.subset hreplaced) (htag.trans hetag.symm)
  exact ⟨hpublished, hedited.imp_right fun hreturned => hreturned rfl⟩

end Sound

/-! ### One editor and one file -/

/-- The versions of the file have an identity each, and a letter. -/
def letterServer : Server where
  mac := tailMac
  shareId := docsShare
  maxTextBytes := 16
  contents version := if version.fileId = 1 then [97] else if version.fileId = 2 then [98] else [99]

/-- Its path. -/
def letterPath : VirtualPath := ⟨[⟨"letter"⟩]⟩

/-- A share with the file. -/
def letterShare : AuthorizedShare :=
  ⟨.leaf ⟨"letter"⟩ .file ⟨1, none, 1, 1⟩ .empty, ⟨.empty, .empty, .empty, []⟩, true⟩

/-- The editor opens the file, and saves another letter twice. -/
def letterActions : List Action :=
  [.openEditor letterPath false, .serveLoad 0, .deliverLoad 0, .serveLoad 0, .deliverLoad 0,
    .event 0 (.input ['b']), .event 0 .save, .checkSave 0, .stageSave 0 ⟨1, none, 2, 1⟩, .publishSave 0,
    .deliverSave 0, .event 0 (.input ['c']), .event 0 .save, .checkSave 1,
    .stageSave 1 ⟨1, none, 3, 1⟩, .publishSave 1]

/-- What the path has held by then. -/
def letterHistory : List (Option EntryMetadata) :=
  [some ⟨.file, 1, none, 3⟩, some ⟨.file, 1, none, 2⟩, some ⟨.file, 1, none, 1⟩]

theorem letter_run : ∃ state, run (step letterServer) (start letterShare) letterActions = some state ∧
    state.history letterPath = letterHistory ∧
    state.log.map (·.path) = [letterPath, letterPath] ∧
    state.log.map (·.history) = [letterHistory.drop 2, letterHistory.drop 1] ∧
    state.log.map (fun commit => (commit.edited, commit.snapshot)) = [(['a'], ['b']), (['b'], ['c'])] := by
  let last := run (step letterServer) (start letterShare) letterActions
  have hsome : last.isSome = true := by decide +kernel
  have hhistory : last.map (fun state => state.history letterPath) = some letterHistory := by decide +kernel
  have hpaths : last.map (fun state => state.log.map (·.path)) = some [letterPath, letterPath] := by
    decide +kernel
  have hhistories : last.map (fun state => state.log.map (·.history)) =
      some [letterHistory.drop 2, letterHistory.drop 1] := by decide +kernel
  have hedits : last.map (fun state => state.log.map fun commit => (commit.edited, commit.snapshot)) =
      some [(['a'], ['b']), (['b'], ['c'])] := by decide +kernel
  obtain ⟨state, hrun⟩ := Option.isSome_iff_exists.mp hsome
  rw [hrun] at hhistory hpaths hhistories hedits
  exact ⟨state, hrun, Option.some.inj hhistory, Option.some.inj hpaths, Option.some.inj hhistories,
    Option.some.inj hedits⟩

theorem letter_path {state : EditedShare} (hpaths : state.log.map (·.path) = [letterPath, letterPath])
    {commit : Commit} (hcommit : commit ∈ state.log) : commit.path = letterPath := by
  have hmem := List.mem_map_of_mem (f := fun commit : Commit => commit.path) hcommit
  rw [hpaths] at hmem
  simpa using hmem

/-- The tags tell the three versions apart. -/
theorem letter_tellsApart {state : EditedShare} (hhistory : state.history letterPath = letterHistory)
    (hpaths : state.log.map (·.path) = [letterPath, letterPath]) : state.TellsApart letterServer := by
  intro commit hcommit
  rw [letter_path hpaths hcommit, hhistory]
  intro first hfirst second hsecond htags
  have hinj : ∀ first ∈ letterHistory, ∀ second ∈ letterHistory,
      first.map (letterServer.tag letterPath) = second.map (letterServer.tag letterPath) → first = second := by
    decide +kernel
  exact Option.some.inj (hinj _ hfirst _ hsecond (congrArg some htags))

/-- Both saves of the run came before anything could return. -/
theorem letter_history_length {state : EditedShare}
    (hhistories : state.log.map (·.history) = [letterHistory.drop 2, letterHistory.drop 1]) {commit : Commit}
    (hcommit : commit ∈ state.log) : ¬3 ≤ commit.history.length := by
  have hmem := List.mem_map_of_mem (f := fun commit : Commit => commit.history) hcommit
  rw [hhistories] at hmem
  rcases List.mem_pair.mp hmem with heq | heq
  · exact heq ▸ by decide
  · exact heq ▸ by decide

/-- Both replace the letter that the editor showed. -/
theorem no_lost_update_letter : ∃ state, run (step letterServer) (start letterShare) letterActions = some state ∧
    state.log.length = 2 ∧ ∀ commit ∈ state.log, letterServer.text commit.replaced = some commit.edited := by
  obtain ⟨state, hrun, hhistory, hpaths, hhistories, -⟩ := letter_run
  refine ⟨state, hrun, by simpa using congrArg List.length hpaths, fun commit hcommit => ?_⟩
  obtain ⟨-, hedited⟩ := no_lost_update hrun (letter_tellsApart hhistory hpaths) commit hcommit
  refine hedited.resolve_right ?_
  rintro ⟨other, -, hsublist⟩
  exact letter_history_length hhistories hcommit hsublist.length_le

end EditedShare

end Crabinet.Editing
