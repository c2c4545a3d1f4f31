import Crabinet.Editing.NoLostUpdate

/-!
# An editor that closes has saved what was typed in it

Unless its user gives up the text, by discarding it or by confirming a reload, an editor closes
only with a text that the file holds or has held. A text that a load puts in the place of the typed
one takes nothing away, for the load was not asked for before that one was saved.
-/

namespace Crabinet.Editing

open Crabinet.Filesystem Crabinet.Library Crabinet.Share

/-- What an event makes of the text that was typed last, as far as its user has not given it up. -/
def EditorEvent.typed : EditorEvent → Option (List Char) → Option (List Char)
  | .input text, _ => some text
  | .discard, _ | .reloadLatest true, _ => none
  | _, typed => typed

/-! ### One dialog -/

namespace EditorDialog

/-- The typed text is the one that the dialog shows, or among those that were held. A load and the end
of the dialog come only after that, and a save that will end it is of the typed text. -/
structure Keeps (held : List Char → Prop) (typed : Option (List Char)) (dialog : EditorDialog) : Prop where
  shown : dialog.metadata.isSome → held dialog.initialText
  loaded : typed.isSome → dialog.metadata.isSome
  text : ∀ text, typed = some text → dialog.text = text ∨ held text
  loading : dialog.loading.isSome → ∀ text, typed = some text → held text
  closing : ∀ persist, dialog.saving = some persist → persist.mode = .closing →
    ∀ text, typed = some text → persist.snapshot = text ∨ held text
  closed : dialog.closed → ∀ text, typed = some text → held text

section Keeps

variable {held later : List Char → Prop} {typed : Option (List Char)} {dialog after : EditorDialog}
  {event : EditorEvent} {persist : Persist}

theorem keeps_opened (held : List Char → Prop) (path : VirtualPath) (autosave : Bool) :
    Keeps held none (opened path autosave) where
  shown h := by cases h
  loaded h := by cases h
  text text h := by cases h
  loading _ text h := by cases h
  closing persist h := by cases h
  closed h := by cases h

theorem Keeps.mono (h : Keeps held typed dialog) (hlater : ∀ text, held text → later text) :
    Keeps later typed dialog where
  shown hmetadata := hlater _ (h.shown hmetadata)
  loaded := h.loaded
  text text htyped := (h.text text htyped).imp_right (hlater text)
  loading hloading text htyped := hlater text (h.loading hloading text htyped)
  closing persist hpersist hmode text htyped :=
    (h.closing persist hpersist hmode text htyped).imp_right (hlater text)
  closed hclosed text htyped := hlater text (h.closed hclosed text htyped)

/-- What is typed in a dialog without changes is what it shows as saved. -/
theorem Keeps.of_not_dirty (h : Keeps held typed dialog) (hclean : dialog.dirty = false) :
    ∀ text, typed = some text → held text := by
  intro text htyped
  have hmetadata : dialog.metadata.isSome := h.loaded (by rw [htyped]; rfl)
  have heq : dialog.text = dialog.initialText := by simpa [dirty] using hclean
  rcases h.text text htyped with hshown | hheld
  · exact hshown ▸ heq ▸ h.shown hmetadata
  · exact hheld

/-- What does not touch the texts, the load and the save. -/
theorem Keeps.rest (h : Keeps held typed dialog) (htext : after.text = dialog.text)
    (hinitial : after.initialText = dialog.initialText) (hmetadata : after.metadata = dialog.metadata)
    (hloading : after.loading = dialog.loading) (hsaving : after.saving = dialog.saving)
    (hclosed : after.closed → ∀ text, typed = some text → held text) : Keeps held typed after where
  shown hsome := hinitial ▸ h.shown (hmetadata ▸ hsome)
  loaded hsome := hmetadata ▸ h.loaded hsome
  text := htext ▸ h.text
  loading hsome := h.loading (hloading ▸ hsome)
  closing := hsaving ▸ h.closing
  closed := hclosed

/-- A save is started with the text of the dialog. -/
theorem Keeps.start (h : Keeps held typed dialog) (mode : SaveMode) :
    Keeps held typed (dialog.persist mode) := by
  unfold EditorDialog.persist
  split
  · refine ⟨h.shown, h.loaded, h.text, h.loading, ?_, h.closed⟩
    intro persist hpersist hmode text htyped
    obtain rfl := Option.some.inj hpersist
    exact h.text text htyped
  · exact h

/-- A load that its user was asked about, or that takes nothing away. -/
theorem Keeps.load (h : Keeps held typed dialog) (hheld : ∀ text, typed = some text → held text) :
    Keeps held typed dialog.load :=
  ⟨h.shown, h.loaded, h.text, fun _ => hheld, h.closing, h.closed⟩

/-- What was given up need not be kept. -/
theorem Keeps.giveUp (h : Keeps held typed dialog) : Keeps held none dialog where
  shown := h.shown
  loaded hsome := by cases hsome
  text text htext := by cases htext
  loading _ text htext := by cases htext
  closing _ _ _ text htext := by cases htext
  closed _ text htext := by cases htext

/-- Text is typed in a dialog that is not loading and that no save is about to close. -/
theorem Keeps.input (h : Keeps held typed dialog) (hopen : dialog.closed = false) {text : List Char}
    (hinput : (dialog.shown && !dialog.locked) = true) :
    Keeps held (some text) { dialog with text } := by
  obtain ⟨hshown, hunlocked⟩ := Bool.and_eq_true_iff.mp hinput
  obtain ⟨hloading, hmetadata⟩ := Bool.and_eq_true_iff.mp hshown
  refine ⟨h.shown, fun _ => hmetadata, ?_, ?_, ?_, ?_⟩
  · intro other hother
    exact .inl (Option.some.inj hother)
  · intro hsome
    dsimp only at hsome
    rw [Option.isNone_iff_eq_none.mp hloading] at hsome
    cases hsome
  · intro persist hpersist hmode
    dsimp only at hpersist
    rw [locked, hpersist, Option.any_some, hmode] at hunlocked
    cases hunlocked
  · intro hclosed
    cases hopen.symm.trans hclosed

theorem Keeps.close (h : Keeps held typed dialog) (hafter : dialog.handle .close = some after) :
    Keeps held typed after := by
  have hstays {prompt : Bool} : Keeps held typed { dialog with closePrompt := prompt } :=
    h.rest rfl rfl rfl rfl rfl h.closed
  unfold handle at hafter
  by_cases hsaving : dialog.saving.isSome = true
  · rw [if_pos hsaving] at hafter
    exact Option.some.inj hafter ▸ h
  rw [if_neg hsaving] at hafter
  by_cases hprompt : dialog.closePrompt = true
  · rw [if_pos hprompt] at hafter
    exact Option.some.inj hafter ▸ hstays
  rw [if_neg hprompt] at hafter
  by_cases hauto : (dialog.dirty && dialog.autosave && !dialog.autosavePaused) = true
  · rw [if_pos hauto] at hafter
    exact Option.some.inj hafter ▸ h.start .closing
  rw [if_neg hauto] at hafter
  by_cases hdirty : dialog.dirty = true
  · rw [if_pos hdirty] at hafter
    exact Option.some.inj hafter ▸ hstays
  · rw [if_neg hdirty] at hafter
    have hheld := h.of_not_dirty (Bool.not_eq_true _ ▸ hdirty)
    exact Option.some.inj hafter ▸ h.rest rfl rfl rfl rfl rfl fun _ => hheld

/-- Every event keeps it. -/
theorem Keeps.handle (h : Keeps held typed dialog) (hopen : dialog.closed = false)
    (hafter : dialog.handle event = some after) : Keeps held (event.typed typed) after := by
  cases event with
  | input text =>
    obtain ⟨hinput, heq⟩ := Option.ite_none_right_eq_some.mp hafter
    exact Option.some.inj heq ▸ h.input hopen hinput
  | setAutosave autosave =>
    obtain ⟨-, heq⟩ := Option.ite_none_right_eq_some.mp hafter
    exact Option.some.inj heq ▸ h.rest rfl rfl rfl rfl rfl h.closed
  | timer =>
    obtain ⟨-, heq⟩ := Option.ite_none_right_eq_some.mp hafter
    exact Option.some.inj heq ▸ h.start .auto
  | retryNow =>
    obtain ⟨-, heq⟩ := Option.ite_none_right_eq_some.mp hafter
    exact Option.some.inj heq ▸ h.start .auto
  | save =>
    obtain ⟨-, heq⟩ := Option.ite_none_right_eq_some.mp hafter
    exact Option.some.inj heq ▸ h.start .manual
  | close => exact h.close hafter
  | keepEditing =>
    obtain ⟨-, heq⟩ := Option.ite_none_right_eq_some.mp hafter
    exact Option.some.inj heq ▸ h.rest rfl rfl rfl rfl rfl h.closed
  | discard =>
    obtain ⟨-, heq⟩ := Option.ite_none_right_eq_some.mp hafter
    exact Option.some.inj heq ▸ h.giveUp.rest rfl rfl rfl rfl rfl fun _ text htext => by cases htext
  | saveAndClose =>
    obtain ⟨-, heq⟩ := Option.ite_none_right_eq_some.mp hafter
    have hasked : Keeps held typed { dialog with closePrompt := false } := h.rest rfl rfl rfl rfl rfl h.closed
    exact Option.some.inj heq ▸ hasked.start .closing
  | reloadLatest confirmed =>
    obtain ⟨-, heq⟩ := Option.ite_none_right_eq_some.mp hafter
    cases confirmed with
    | true =>
      rw [Bool.or_true, if_pos rfl] at heq
      exact Option.some.inj heq ▸ h.giveUp.load fun text htext => by cases htext
    | false =>
      rw [Bool.or_false] at heq
      split at heq
      · rename_i hclean
        exact Option.some.inj heq ▸ h.load (h.of_not_dirty ((Bool.not_eq_true' _).mp hclean))
      · exact Option.some.inj heq ▸ h
  | tryAgain =>
    obtain ⟨hfailed, heq⟩ := Option.ite_none_right_eq_some.mp hafter
    have hmissing : dialog.metadata = none := Option.isNone_iff_eq_none.mp (Bool.and_eq_true_iff.mp hfailed).2
    refine Option.some.inj heq ▸ h.load fun text htext => ?_
    have hsome := h.loaded (by rw [htext]; rfl)
    rw [hmissing] at hsome
    cases hsome

theorem receive_path {answer : LoadAnswer} (h : dialog.receive answer = some after) :
    after.path = dialog.path := by
  unfold EditorDialog.receive at h
  split at h
  · exact Option.some.inj h ▸ rfl
  · exact Option.some.inj h ▸ rfl
  · exact Option.some.inj h ▸ rfl
  · cases h

theorem saveRefused_path (dialog : EditorDialog) (persist : Persist) (cause : ApiError) :
    (dialog.saveRefused persist cause).path = dialog.path := by
  unfold EditorDialog.saveRefused saveFailed
  dsimp only
  split_ifs <;> rfl

theorem sessionRefreshed_path (dialog : EditorDialog) (persist : Persist) (sameUser readWrite : Bool) :
    (dialog.sessionRefreshed persist sameUser readWrite).path = dialog.path := by
  unfold sessionRefreshed
  split_ifs <;> rfl

/-- An answer to a load brings a text that is held. -/
theorem Keeps.receive (h : Keeps held typed dialog) {answer : LoadAnswer}
    (hanswer : ∀ text, answer = .text text → held text)
    (hafter : dialog.receive answer = some after) : Keeps held typed after := by
  unfold EditorDialog.receive at hafter
  split at hafter
  · rename_i hloading
    have hheld := h.loading (by rw [hloading]; rfl)
    exact Option.some.inj hafter ▸ ⟨h.shown, h.loaded, h.text, fun _ => hheld, h.closing, h.closed⟩
  · rename_i etag text hloading
    have hheld := h.loading (by rw [hloading]; rfl)
    refine Option.some.inj hafter ▸ ⟨fun _ => hanswer text rfl, fun _ => rfl, fun text htext => ?_,
      fun hsome => absurd hsome Bool.false_ne_true, h.closing, h.closed⟩
    exact .inr (hheld text htext)
  · exact Option.some.inj hafter ▸
      ⟨h.shown, h.loaded, h.text, fun hsome => absurd hsome Bool.false_ne_true, h.closing, h.closed⟩
  · cases hafter

/-- A save that is answered has its text held. -/
theorem Keeps.saved (h : Keeps held typed dialog) (hpersist : dialog.saving = some persist)
    (hheld : held persist.snapshot) (etag : List Char) : Keeps held typed (dialog.saved persist etag) where
  shown _ := hheld
  loaded _ := rfl
  text := h.text
  loading := h.loading
  closing _ hnone := by cases hnone
  closed hclosed text htyped := by
    have hmode : persist.mode = .closing := by simpa [EditorDialog.saved] using hclosed
    rcases h.closing persist hpersist hmode text htyped with hsnapshot | htext
    · exact hsnapshot ▸ hheld
    · exact htext

/-- A save that ends without being saved leaves the text where it is. -/
theorem Keeps.idle (h : Keeps held typed dialog) (conflict : Bool) (error : Option String) (failed : ℕ) :
    Keeps held typed { dialog with saving := none, conflict, error, failedAutosaves := failed } :=
  ⟨h.shown, h.loaded, h.text, h.loading, fun _ hnone => absurd hnone (Option.some_ne_none _).symm, h.closed⟩

/-- A save that goes on is of the same text. -/
theorem Keeps.resume (h : Keeps held typed dialog) (hpersist : dialog.saving = some persist) (stage : SaveStage) :
    Keeps held typed { dialog with saving := some { persist with stage } } := by
  refine ⟨h.shown, h.loaded, h.text, h.loading, ?_, h.closed⟩
  intro other hother
  obtain rfl := Option.some.inj hother
  exact h.closing persist hpersist

theorem Keeps.saveRefused (h : Keeps held typed dialog) (hpersist : dialog.saving = some persist)
    (cause : ApiError) : Keeps held typed (dialog.saveRefused persist cause) := by
  unfold EditorDialog.saveRefused
  by_cases hsession : persist.stage = .first ∧ cause.kind = .forbidden
  · rw [if_pos hsession]
    exact h.resume hpersist .session
  · rw [if_neg hsession, saveFailed]
    split_ifs
    · exact h.idle _ _ _
    · exact h.idle _ _ _
    · exact h.idle _ _ _
    · exact h.idle _ _ _
    · exact h.idle _ _ _
    · exact h.idle _ _ _

theorem Keeps.refresh (h : Keeps held typed dialog) (hpersist : dialog.saving = some persist)
    (sameUser readWrite : Bool) : Keeps held typed (dialog.sessionRefreshed persist sameUser readWrite) := by
  unfold sessionRefreshed
  split_ifs
  · exact h.idle _ _ _
  · exact h.idle _ _ _
  · exact h.resume hpersist .second

end Keeps

end EditorDialog

/-! ### All editors -/

namespace EditedShare

/-- What was typed last in each editor, after one more action. -/
def typedBy (typed : ℕ → Option (List Char)) : Action → ℕ → Option (List Char)
  | .event editor event => Function.update typed editor (event.typed (typed editor))
  | _ => typed

/-- What was typed last in each editor, as far as its user has not given it up. -/
def lastTyped (actions : List Action) : ℕ → Option (List Char) := actions.foldl typedBy fun _ => none

/-- The file at the path holds the text or has held it. -/
def Held (server : Server) (state : EditedShare) (path : VirtualPath) (text : List Char) : Prop :=
  ∃ version, some version ∈ state.history path ∧ server.text version = some text

/-- What each editor keeps to, with what the answers to its load and to its save say. -/
structure Kept (server : Server) (typed : ℕ → Option (List Char)) (state : EditedShare) : Prop where
  clients : ∀ (editor : ℕ) (client : Client), state.clients[editor]? = some client →
    client.dialog.Keeps (state.Held server client.dialog.path) (typed editor)
  answers : ∀ client ∈ state.clients, ∀ text, client.answer = some (.text text) →
    state.Held server client.dialog.path text
  saves : ∀ save ∈ state.saves, ∀ etag, save.phase = .answered (.ok etag) →
    state.Held server save.path save.snapshot
  absent : ∀ editor, state.clients.length ≤ editor → typed editor = none

section Kept

variable {server : Server} {typed : ℕ → Option (List Char)} {state before after : EditedShare}
  {client : Client} {save : Save} {editor id : ℕ} {path : VirtualPath} {text : List Char}

theorem Held.mono (h : before.Held server path text)
    (hhistory : (before.history path).Sublist (after.history path)) : after.Held server path text := by
  obtain ⟨version, hmem, htext⟩ := h
  exact ⟨version, hhistory.subset hmem, htext⟩

theorem kept_start (server : Server) (share : AuthorizedShare) : Kept server (fun _ => none) (start share) where
  clients editor client h := by cases h
  answers client h := absurd h List.not_mem_nil
  saves save h := absurd h List.not_mem_nil
  absent _ _ := rfl

/-- What was at the paths is kept, and nothing is answered to a save that was not. -/
theorem Kept.follow (h : Kept server typed before)
    (hhistory : ∀ path, (before.history path).Sublist (after.history path))
    (hclients : after.clients = before.clients)
    (hsaves : ∀ save ∈ after.saves, ∀ etag, save.phase = .answered (.ok etag) →
      after.Held server save.path save.snapshot) : Kept server typed after where
  clients editor client hclient := by
    rw [hclients] at hclient
    exact (h.clients editor client hclient).mono fun text hheld => hheld.mono (hhistory _)
  answers client hclient text htext := by
    rw [hclients] at hclient
    exact (h.answers client hclient text htext).mono (hhistory _)
  saves := hsaves
  absent editor hlength := h.absent editor (hclients ▸ hlength)

/-- A save goes on without being answered with a tag. -/
theorem Kept.setPhase (h : Kept server typed state) {phase : SavePhase}
    (hphase : ∀ etag, phase ≠ .answered (.ok etag)) : Kept server typed (state.setPhase id save phase) := by
  refine h.follow (fun _ => List.Sublist.refl _) rfl fun other hother etag hanswered => ?_
  rcases List.mem_or_eq_of_mem_set hother with hmem | rfl
  · exact h.saves other hmem etag hanswered
  · exact absurd hanswered (hphase etag)

/-- One editor changes, and what was typed in it. -/
theorem Kept.update (h : Kept server typed state) (hfound : state.clients[editor]? = some client)
    {next : Client} {text : Option (List Char)}
    (hkeeps : next.dialog.Keeps (state.Held server next.dialog.path) text)
    (hanswer : ∀ text, next.answer = some (.text text) → state.Held server next.dialog.path text) :
    Kept server (Function.update typed editor text) (state.setClient editor next) where
  clients other found hother := by
    have hlength := (List.getElem?_eq_some_iff.mp hfound).1
    by_cases heq : other = editor
    · subst heq
      rw [setClient, List.getElem?_set_self hlength] at hother
      obtain rfl := Option.some.inj hother
      rw [Function.update_self]
      exact hkeeps
    · rw [setClient, List.getElem?_set_ne (Ne.symm heq)] at hother
      rw [Function.update_of_ne heq]
      exact h.clients other found hother
  answers other hother := by
    rcases List.mem_or_eq_of_mem_set hother with hmem | rfl
    · exact h.answers other hmem
    · exact hanswer
  saves := h.saves
  absent other hlength := by
    rw [setClient, List.length_set] at hlength
    have hne : other ≠ editor := by
      rintro rfl
      exact absurd (List.getElem?_eq_some_iff.mp hfound).1 (not_lt.mpr hlength)
    rw [Function.update_of_ne hne]
    exact h.absent other hlength

/-- One editor changes, with nothing typed in it. -/
theorem Kept.setClient (h : Kept server typed state) (hfound : state.clients[editor]? = some client)
    {next : Client} (hkeeps : next.dialog.Keeps (state.Held server next.dialog.path) (typed editor))
    (hanswer : ∀ text, next.answer = some (.text text) → state.Held server next.dialog.path text) :
    Kept server typed (state.setClient editor next) := by
  have hupdated := h.update hfound hkeeps hanswer
  rwa [Function.update_eq_self] at hupdated

/-- A request that was just sent has no answer. -/
theorem Kept.send {persist : Persist}
    (h : Kept server typed (state.setClient editor { client with request := some state.saves.length })) :
    Kept server typed (state.send editor client persist) := by
  refine h.follow (fun _ => List.Sublist.refl _) rfl fun other hother etag hanswered => ?_
  rcases List.mem_append.mp hother with hmem | hmem
  · exact h.saves other hmem etag hanswered
  · obtain rfl := List.mem_singleton.mp hmem
    cases hanswered

/-- A text that is answered to a load was at the path just now. -/
theorem held_of_loadAnswer {dialog : EditorDialog}
    (h : state.loadAnswer server dialog = some (.text text)) : state.Held server dialog.path text := by
  unfold loadAnswer at h
  split at h
  · obtain ⟨version, -, heq⟩ := Option.map_eq_some_iff.mp h
    cases heq
  · obtain ⟨found, hread, heq⟩ := Option.map_eq_some_iff.mp h
    obtain rfl := LoadAnswer.text.inj heq
    obtain ⟨version, hversion, hrest⟩ := Option.bind_eq_some_iff.mp hread
    obtain ⟨-, htext⟩ := Option.ite_none_right_eq_some.mp hrest
    exact ⟨version, List.mem_cons.mpr (.inl hversion.symm), htext⟩
  · cases h

/-- A save that is published leaves its text at the path. -/
theorem Kept.publish (h : Kept server typed state) (hsound : Sound server state)
    (hid : state.saves[id]? = some save) {current : EntryMetadata} {stat : Stat}
    (hphase : save.phase = .staged current stat) {share : AuthorizedShare}
    (hshare : state.share.writeReplacement save.path stat current = .ok share) (log : List Commit) :
    Kept server typed { (state.setPhase id save (.answered (.ok
      (server.tag save.path (stagedVersion stat))))).withShare share with log } := by
  obtain ⟨-, hstaged⟩ := metadata_of_writeReplacement hshare
  have htext := (hsound.saves save (List.mem_of_getElem? hid)).staged current stat hphase
  refine h.follow (fun path => List.sublist_cons_self _ _) rfl fun other hother etag hanswered => ?_
  rcases List.mem_or_eq_of_mem_set hother with hmem | rfl
  · exact (h.saves other hmem etag hanswered).mono (List.sublist_cons_self _ _)
  · refine ⟨stagedVersion stat, ?_, htext⟩
    exact List.mem_cons.mpr (.inl (congrArg Except.toOption hstaged).symm)

/-- Every action keeps it. -/
theorem Kept.step (h : Kept server typed before) (hsound : Sound server before) {action : Action}
    (hstep : before.step server action = some after) : Kept server (typedBy typed action) after := by
  have hopen {editor : ℕ} {client : Client} (hclient : before.client? editor = some client) :
      before.clients[editor]? = some client ∧ client.dialog.closed = false := by
    obtain ⟨hfound, hclosed⟩ := Option.filter_eq_some_iff.mp hclient
    exact ⟨hfound, by simpa using hclosed⟩
  have hkeeps {editor : ℕ} {client : Client} (hclient : before.client? editor = some client) :=
    h.clients editor client (hopen hclient).1
  have hanswers {editor : ℕ} {client : Client} (hclient : before.client? editor = some client) :=
    h.answers client (mem_of_client? hclient)
  have hrefused {editor : ℕ} {client : Client} {persist : Persist}
      (hclient : before.client? editor = some client) (hpersist : client.dialog.saving = some persist) (cause : ApiError) : Kept server typed
        (before.setClient editor
          { client with dialog := client.dialog.saveRefused persist cause, request := none }) := by
    have hkept := (hkeeps hclient).saveRefused hpersist cause
    have hanswer := hanswers hclient
    rw [← client.dialog.saveRefused_path persist cause] at hkept hanswer
    exact h.setClient (hopen hclient).1 hkept hanswer
  cases action with
  | openEditor path autosave =>
    obtain rfl := Option.some.inj hstep
    refine ⟨fun editor client hclient => ?_, fun client hmem => ?_, h.saves, fun editor hlength => ?_⟩
    · rcases lt_or_ge editor before.clients.length with hlength | hlength
      · exact h.clients editor client ((List.getElem?_append_left hlength).symm.trans hclient)
      · rw [List.getElem?_append_right hlength] at hclient
        obtain rfl := List.mem_singleton.mp (List.mem_of_getElem? hclient)
        change EditorDialog.Keeps _ (typed editor) _
        rw [h.absent editor hlength]
        exact EditorDialog.keeps_opened _ path autosave
    · rcases List.mem_append.mp hmem with hmem | hmem
      · exact h.answers client hmem
      · obtain rfl := List.mem_singleton.mp hmem
        intro text htext
        cases htext
    · rw [List.length_append] at hlength
      exact h.absent editor (Nat.le_of_add_right_le hlength)
  | event editor event =>
    obtain ⟨client, hfound, hstep⟩ := Option.bind_eq_some_iff.mp hstep
    obtain ⟨dialog, hdialog, hstep⟩ := Option.bind_eq_some_iff.mp hstep
    have hpath := (EditorDialog.handles_of_handle hdialog).path
    have hhandled := (hkeeps hfound).handle (hopen hfound).2 hdialog
    rw [← hpath] at hhandled
    have hanswer := hanswers hfound
    rw [← hpath] at hanswer
    split at hstep
    · obtain rfl := Option.some.inj hstep
      exact Kept.send (h.update (hopen hfound).1 hhandled hanswer)
    · obtain rfl := Option.some.inj hstep
      exact h.update (hopen hfound).1 hhandled hanswer
  | serveLoad editor =>
    obtain ⟨client, hfound, hstep⟩ := Option.bind_eq_some_iff.mp hstep
    obtain ⟨-, hstep⟩ := Option.ite_none_left_eq_some.mp hstep
    obtain ⟨answer, hanswer, hstep⟩ := Option.bind_eq_some_iff.mp hstep
    obtain rfl := Option.some.inj hstep
    have hkept := hkeeps hfound
    refine h.setClient (hopen hfound).1 hkept fun text htext => ?_
    obtain rfl := Option.some.inj htext
    exact held_of_loadAnswer hanswer
  | refuseLoad editor error =>
    obtain ⟨client, hfound, hstep⟩ := Option.bind_eq_some_iff.mp hstep
    obtain ⟨-, hstep⟩ := Option.ite_none_left_eq_some.mp hstep
    obtain rfl := Option.some.inj hstep
    have hkept := hkeeps hfound
    refine h.setClient (hopen hfound).1 hkept fun text htext => ?_
    cases htext
  | deliverLoad editor =>
    obtain ⟨client, hfound, hstep⟩ := Option.bind_eq_some_iff.mp hstep
    obtain ⟨answer, hanswer, hstep⟩ := Option.bind_eq_some_iff.mp hstep
    obtain ⟨dialog, hdialog, hstep⟩ := Option.bind_eq_some_iff.mp hstep
    obtain rfl := Option.some.inj hstep
    have hpath : dialog.path = client.dialog.path := EditorDialog.receive_path hdialog
    have hreceived := (hkeeps hfound).receive (fun text htext => hanswers hfound text (htext ▸ hanswer)) hdialog
    rw [← hpath] at hreceived
    refine h.setClient (hopen hfound).1 hreceived fun text htext => ?_
    cases htext
  | loseLoad editor cause =>
    obtain ⟨client, hfound, hstep⟩ := Option.bind_eq_some_iff.mp hstep
    obtain ⟨dialog, hdialog, hstep⟩ := Option.bind_eq_some_iff.mp hstep
    obtain rfl := Option.some.inj hstep
    have hpath : dialog.path = client.dialog.path := EditorDialog.receive_path hdialog
    have hreceived := (hkeeps hfound).receive (fun text htext => by cases htext) hdialog
    rw [← hpath] at hreceived
    refine h.setClient (hopen hfound).1 hreceived fun text htext => ?_
    cases htext
  | checkSave id =>
    obtain ⟨save, hid, hstep⟩ := Option.bind_eq_some_iff.mp hstep
    have hrefused (cause : ApiError) : Kept server typed (before.setPhase id save (.answered (.error cause))) :=
      h.setPhase fun etag heq => by cases heq
    split at hstep
    · split at hstep
      · exact Option.some.inj hstep ▸ hrefused _
      · split at hstep
        · exact Option.some.inj hstep ▸ hrefused _
        · split at hstep
          · exact Option.some.inj hstep ▸ hrefused _
          · exact Option.some.inj hstep ▸ h.setPhase fun etag heq => by cases heq
    · cases hstep
  | stageSave id stat =>
    obtain ⟨save, hid, hstep⟩ := Option.bind_eq_some_iff.mp hstep
    split at hstep
    · rename_i current hphase
      obtain ⟨-, hstep⟩ := Option.ite_none_right_eq_some.mp hstep
      obtain rfl := Option.some.inj hstep
      have hstaged : Kept server typed (before.setPhase id save (.staged current stat)) :=
        h.setPhase fun etag heq => by cases heq
      exact hstaged.follow (fun _ => List.Sublist.refl _) rfl hstaged.saves
    · cases hstep
  | publishSave id =>
    obtain ⟨save, hid, hstep⟩ := Option.bind_eq_some_iff.mp hstep
    split at hstep
    · rename_i current stat hphase
      split at hstep
      · exact Option.some.inj hstep ▸ h.setPhase fun etag heq => by cases heq
      · rename_i share hshare
        exact Option.some.inj hstep ▸ h.publish hsound hid hphase hshare _
    · cases hstep
  | refuseSave id error =>
    obtain ⟨save, hid, hstep⟩ := Option.bind_eq_some_iff.mp hstep
    have hrefused : Kept server typed (before.setPhase id save (.answered (.error error.received))) :=
      h.setPhase fun etag heq => by cases heq
    split at hstep
    · exact Option.some.inj hstep ▸ hrefused
    · exact Option.some.inj hstep ▸ hrefused
    · exact Option.some.inj hstep ▸ hrefused
    · cases hstep
  | dropSave id =>
    obtain ⟨save, hid, hstep⟩ := Option.bind_eq_some_iff.mp hstep
    have hdropped : Kept server typed (before.setPhase id save .dropped) :=
      h.setPhase fun etag heq => by cases heq
    split at hstep
    · exact Option.some.inj hstep ▸ hdropped
    · exact Option.some.inj hstep ▸ hdropped
    · exact Option.some.inj hstep ▸ hdropped
    · cases hstep
  | deliverSave editor =>
    obtain ⟨client, hfound, hstep⟩ := Option.bind_eq_some_iff.mp hstep
    obtain ⟨persist, hpersist, hstep⟩ := Option.bind_eq_some_iff.mp hstep
    obtain ⟨id, hrequest, hstep⟩ := Option.bind_eq_some_iff.mp hstep
    obtain ⟨save, hid, hstep⟩ := Option.bind_eq_some_iff.mp hstep
    split at hstep
    · rename_i etag hphase
      obtain rfl := Option.some.inj hstep
      have hheld := h.saves save (List.mem_of_getElem? hid) etag hphase
      obtain ⟨other, hother, hpath, hsnapshot⟩ :=
        (hsound.clients client (mem_of_client? hfound)).request persist id hpersist hrequest
      obtain rfl := Option.some.inj (hid.symm.trans hother)
      rw [hpath, hsnapshot] at hheld
      have hsaved := (hkeeps hfound).saved hpersist hheld etag
      have hanswer := hanswers hfound
      exact h.setClient (hopen hfound).1 hsaved hanswer
    · exact Option.some.inj hstep ▸ hrefused hfound hpersist _
    · cases hstep
  | loseSave editor cause =>
    obtain ⟨client, hfound, hstep⟩ := Option.bind_eq_some_iff.mp hstep
    obtain ⟨persist, hpersist, hstep⟩ := Option.bind_eq_some_iff.mp hstep
    exact Option.some.inj hstep ▸ hrefused hfound hpersist cause
  | refreshSession editor sameUser readWrite =>
    obtain ⟨client, hfound, hstep⟩ := Option.bind_eq_some_iff.mp hstep
    obtain ⟨persist, hpersist, hstep⟩ := Option.bind_eq_some_iff.mp hstep
    obtain ⟨-, hstep⟩ := Option.ite_none_left_eq_some.mp hstep
    have hrefreshed := (hkeeps hfound).refresh hpersist sameUser readWrite
    have hanswer := hanswers hfound
    rw [← client.dialog.sessionRefreshed_path persist sameUser readWrite] at hrefreshed hanswer
    dsimp only at hstep
    split at hstep
    · obtain rfl := Option.some.inj hstep
      exact Kept.send (h.setClient (hopen hfound).1 hrefreshed hanswer)
    · obtain rfl := Option.some.inj hstep
      exact h.setClient (hopen hfound).1 hrefreshed hanswer
  | change share =>
    refine Option.some.inj hstep ▸ h.follow (fun path => List.sublist_cons_self _ _) rfl
      fun save hmem etag hphase => ?_
    exact (h.saves save hmem etag hphase).mono (List.sublist_cons_self _ _)

end Kept

/-! ### One editor that saves as it closes -/

/-- The editor opens the file, types another letter and closes. -/
def closingActions : List Action :=
  [.openEditor letterPath true, .serveLoad 0, .deliverLoad 0, .serveLoad 0, .deliverLoad 0,
    .event 0 (.input ['b']), .event 0 .close, .checkSave 0, .stageSave 0 ⟨1, none, 2, 1⟩, .publishSave 0,
    .deliverSave 0]

end EditedShare

end Crabinet.Editing
