import Crabinet.Editing.NoLostUpdate
import Crabinet.Filesystem.Replacement

/-!
# Edits one after another

A tag is good for one save, so a save that is sent again because its answer was lost is not made
twice. Where nothing but saves changes a file, the edits that took effect follow one another: each
was made to the text that the one before it saved.
-/

namespace Crabinet.Editing

open Crabinet.Filesystem Crabinet.Library Crabinet.Share Crabinet.Tokens

/-! ### Sequences of changes -/

/-- Changes that were made one after another: each starts from what the one before it left. -/
def InSequence {V : Type} : V → List (V × V) → V → Prop
  | first, [], last => last = first
  | first, (before, after) :: rest, last => before = first ∧ InSequence after rest last

section InSequence

variable {V W : Type} {first last next : V} {changes : List (V × V)}

theorem InSequence.append (h : InSequence first changes last) (next : V) :
    InSequence first (changes ++ [(last, next)]) next := by
  induction changes generalizing first with
  | nil => exact ⟨h, rfl⟩
  | cons change rest ih => exact ⟨h.1, ih h.2⟩

theorem InSequence.map (h : InSequence first changes last) (f : V → W) :
    InSequence (f first) (changes.map (Prod.map f f)) (f last) := by
  induction changes generalizing first with
  | nil => exact congrArg f h
  | cons change rest ih => exact ⟨congrArg f h.1, ih h.2⟩

end InSequence

namespace EditedShare

/-! ### What an action does to the share and to the saves -/

section Steps

variable {server : Server} {before after : EditedShare} {action : Action} {path : VirtualPath}

/-- Nothing is staged, and the share stays as it is. -/
structure Keeps (before after : EditedShare) : Prop where
  share : after.share = before.share
  past : after.past = before.past
  staged : after.staged = before.staged
  log : after.log = before.log
  saves : ∀ (id : ℕ) (save : Save), after.saves[id]? = some save → save.phase ≠ .received →
    (∀ answer, save.phase ≠ .answered answer) → save.phase ≠ .dropped → before.saves[id]? = some save ∨
      ∃ current, save.phase = .checked current ∧ before.share.metadata save.path = .ok current

theorem keeps_setClient (state : EditedShare) (editor : ℕ) (client : Client) :
    Keeps state (state.setClient editor client) :=
  ⟨rfl, rfl, rfl, rfl, fun _ _ hsave _ _ _ => .inl hsave⟩

theorem keeps_send (state : EditedShare) (editor : ℕ) (client : Client) (persist : Persist) :
    Keeps state (state.send editor client persist) := by
  refine ⟨rfl, rfl, rfl, rfl, fun id save hsave hreceived _ _ => .inl ?_⟩
  rcases Nat.lt_or_ge id state.saves.length with hlt | hge
  · exact (List.getElem?_append_left hlt).symm.trans hsave
  · have hmem : save ∈ [⟨client.dialog.path, persist.etag, persist.snapshot, persist.edited,
        SavePhase.received⟩] := List.mem_of_getElem? ((List.getElem?_append_right hge).symm.trans hsave)
    exact absurd (List.mem_singleton.mp hmem ▸ rfl) hreceived

theorem keeps_setPhase {id : ℕ} {save : Save} {phase : SavePhase} (state : EditedShare)
    (hphase : phase = .dropped ∨ (∃ answer, phase = .answered answer) ∨
      ∃ current, phase = .checked current ∧ state.share.metadata save.path = .ok current) :
    Keeps state (state.setPhase id save phase) := by
  refine ⟨rfl, rfl, rfl, rfl, fun other found hfound hreceived hanswered hdropped => ?_⟩
  by_cases hid : id = other
  · subst hid
    have hmem := List.getElem?_eq_some_iff.mp hfound
    obtain ⟨hlt, rfl⟩ := hmem
    have hset : (state.setPhase id save phase).saves[id] = { save with phase } := List.getElem_set_self _
    rw [hset] at hreceived hanswered hdropped ⊢
    rcases hphase with rfl | ⟨answer, rfl⟩ | ⟨current, rfl, hcurrent⟩
    · exact absurd rfl hdropped
    · exact absurd rfl (hanswered answer)
    · exact .inr ⟨current, rfl, hcurrent⟩
  · exact .inl ((List.getElem?_set_ne hid).symm.trans hfound)

/-- What each action does to the share and to the saves. -/
theorem step_cases (h : before.step server action = some after) : Keeps before after ∨
    (∃ (id : ℕ) (save : Save) (current : EntryMetadata) (stat : Stat),
      before.saves[id]? = some save ∧ save.phase = .checked current ∧
      stagedVersion stat ∉ before.staged ∧ some (stagedVersion stat) ∉ before.history save.path ∧
      after = { before.setPhase id save (.staged current stat) with
        staged := stagedVersion stat :: before.staged }) ∨
    (∃ (id : ℕ) (save : Save) (current : EntryMetadata) (stat : Stat) (share : AuthorizedShare),
      before.saves[id]? = some save ∧ save.phase = .staged current stat ∧
      before.share.writeReplacement save.path stat current = .ok share ∧
      after = { (before.setPhase id save (.answered (.ok
          (server.tag save.path (stagedVersion stat))))).withShare share with
        log := before.log ++ [⟨save.path, before.history save.path, save.etag, save.edited, save.snapshot,
          current, stagedVersion stat⟩] }) ∨
    ∃ share, action = .change share ∧ after = before.withShare share := by
  cases action with
  | openEditor path autosave =>
    obtain rfl := Option.some.inj h
    exact .inl ⟨rfl, rfl, rfl, rfl, fun _ _ hsave _ _ _ => .inl hsave⟩
  | event editor event =>
    obtain ⟨client, -, h⟩ := Option.bind_eq_some_iff.mp h
    obtain ⟨dialog, -, h⟩ := Option.bind_eq_some_iff.mp h
    split at h
    · exact .inl (Option.some.inj h ▸ keeps_send _ _ _ _)
    · exact .inl (Option.some.inj h ▸ keeps_setClient _ _ _)
  | serveLoad editor =>
    obtain ⟨client, -, h⟩ := Option.bind_eq_some_iff.mp h
    obtain ⟨-, h⟩ := Option.ite_none_left_eq_some.mp h
    obtain ⟨answer, -, h⟩ := Option.bind_eq_some_iff.mp h
    exact .inl (Option.some.inj h ▸ keeps_setClient _ _ _)
  | refuseLoad editor error =>
    obtain ⟨client, -, h⟩ := Option.bind_eq_some_iff.mp h
    obtain ⟨-, h⟩ := Option.ite_none_left_eq_some.mp h
    exact .inl (Option.some.inj h ▸ keeps_setClient _ _ _)
  | deliverLoad editor =>
    obtain ⟨client, -, h⟩ := Option.bind_eq_some_iff.mp h
    obtain ⟨answer, -, h⟩ := Option.bind_eq_some_iff.mp h
    obtain ⟨dialog, -, h⟩ := Option.bind_eq_some_iff.mp h
    exact .inl (Option.some.inj h ▸ keeps_setClient _ _ _)
  | loseLoad editor cause =>
    obtain ⟨client, -, h⟩ := Option.bind_eq_some_iff.mp h
    obtain ⟨dialog, -, h⟩ := Option.bind_eq_some_iff.mp h
    exact .inl (Option.some.inj h ▸ keeps_setClient _ _ _)
  | checkSave id =>
    obtain ⟨save, -, h⟩ := Option.bind_eq_some_iff.mp h
    split at h
    · split at h
      · exact .inl (Option.some.inj h ▸ keeps_setPhase before (.inr (.inl ⟨_, rfl⟩)))
      · split at h
        · exact .inl (Option.some.inj h ▸ keeps_setPhase before (.inr (.inl ⟨_, rfl⟩)))
        · rename_i current hcurrent
          split at h
          · exact .inl (Option.some.inj h ▸ keeps_setPhase before (.inr (.inl ⟨_, rfl⟩)))
          · exact .inl (Option.some.inj h ▸ keeps_setPhase before (.inr (.inr ⟨_, rfl, hcurrent⟩)))
    · cases h
  | stageSave id stat =>
    obtain ⟨save, hid, h⟩ := Option.bind_eq_some_iff.mp h
    split at h
    · rename_i current hphase
      obtain ⟨⟨-, -, hstaged, hhistory⟩, h⟩ := Option.ite_none_right_eq_some.mp h
      exact .inr (.inl ⟨id, save, current, stat, hid, hphase, hstaged, hhistory, (Option.some.inj h).symm⟩)
    · cases h
  | publishSave id =>
    obtain ⟨save, hid, h⟩ := Option.bind_eq_some_iff.mp h
    split at h
    · rename_i current stat hphase
      split at h
      · exact .inl (Option.some.inj h ▸ keeps_setPhase before (.inr (.inl ⟨_, rfl⟩)))
      · rename_i share hshare
        exact .inr (.inr (.inl ⟨id, save, current, stat, share, hid, hphase, hshare,
          (Option.some.inj h).symm⟩))
    · cases h
  | refuseSave id error =>
    obtain ⟨save, -, h⟩ := Option.bind_eq_some_iff.mp h
    have hkeeps : Keeps before (before.setPhase id save (.answered (.error error.received))) :=
      keeps_setPhase before (.inr (.inl ⟨_, rfl⟩))
    split at h
    · exact .inl (Option.some.inj h ▸ hkeeps)
    · exact .inl (Option.some.inj h ▸ hkeeps)
    · exact .inl (Option.some.inj h ▸ hkeeps)
    · cases h
  | dropSave id =>
    obtain ⟨save, -, h⟩ := Option.bind_eq_some_iff.mp h
    have hkeeps : Keeps before (before.setPhase id save .dropped) := keeps_setPhase before (.inl rfl)
    split at h
    · exact .inl (Option.some.inj h ▸ hkeeps)
    · exact .inl (Option.some.inj h ▸ hkeeps)
    · exact .inl (Option.some.inj h ▸ hkeeps)
    · cases h
  | deliverSave editor =>
    obtain ⟨client, -, h⟩ := Option.bind_eq_some_iff.mp h
    obtain ⟨persist, -, h⟩ := Option.bind_eq_some_iff.mp h
    obtain ⟨id, -, h⟩ := Option.bind_eq_some_iff.mp h
    obtain ⟨save, -, h⟩ := Option.bind_eq_some_iff.mp h
    split at h
    · exact .inl (Option.some.inj h ▸ keeps_setClient _ _ _)
    · exact .inl (Option.some.inj h ▸ keeps_setClient _ _ _)
    · cases h
  | loseSave editor cause =>
    obtain ⟨client, -, h⟩ := Option.bind_eq_some_iff.mp h
    obtain ⟨persist, -, h⟩ := Option.bind_eq_some_iff.mp h
    exact .inl (Option.some.inj h ▸ keeps_setClient _ _ _)
  | refreshSession editor sameUser readWrite =>
    obtain ⟨client, -, h⟩ := Option.bind_eq_some_iff.mp h
    obtain ⟨persist, -, h⟩ := Option.bind_eq_some_iff.mp h
    obtain ⟨-, h⟩ := Option.ite_none_left_eq_some.mp h
    dsimp only at h
    split at h
    · exact .inl (Option.some.inj h ▸ keeps_send _ _ _ _)
    · exact .inl (Option.some.inj h ▸ keeps_setClient _ _ _)
  | change share => exact .inr (.inr (.inr ⟨share, rfl, (Option.some.inj h).symm⟩))

/-- A save in one of these phases was there before, or has just been checked. -/
theorem Keeps.checked_or (h : Keeps before after) {id : ℕ} {save : Save}
    (hsave : after.saves[id]? = some save) {current : EntryMetadata}
    (hphase : save.phase = .checked current ∨ ∃ stat, save.phase = .staged current stat) :
    before.saves[id]? = some save ∨
      save.phase = .checked current ∧ before.share.metadata save.path = .ok current := by
  have hother : save.phase ≠ .received ∧ (∀ answer, save.phase ≠ .answered answer) ∧ save.phase ≠ .dropped := by
    rcases hphase with hphase | ⟨stat, hphase⟩
    · simp [hphase]
    · simp [hphase]
  rcases h.saves id save hsave hother.1 hother.2.1 hother.2.2 with hbefore | ⟨found, hfound, hcurrent⟩
  · exact .inl hbefore
  · rcases hphase with hphase | ⟨stat, hphase⟩
    · obtain rfl := SavePhase.checked.inj (hfound.symm.trans hphase)
      exact .inr ⟨hphase, hcurrent⟩
    · cases hfound.symm.trans hphase

theorem Keeps.history (h : Keeps before after) (path : VirtualPath) :
    after.history path = before.history path := by
  rw [EditedShare.history, EditedShare.history, h.share, h.past]

/-- A save that is set aside for another phase is the only one that changes. -/
theorem getElem?_setPhase {state : EditedShare} {id other : ℕ} {save found : Save} {phase : SavePhase}
    (h : (state.setPhase id save phase).saves[other]? = some found) :
    other = id ∧ found = { save with phase } ∨ other ≠ id ∧ state.saves[other]? = some found := by
  by_cases hid : id = other
  · subst hid
    obtain ⟨hlt, rfl⟩ := List.getElem?_eq_some_iff.mp h
    exact .inl ⟨rfl, List.getElem_set_self _⟩
  · exact .inr ⟨Ne.symm hid, (List.getElem?_set_ne hid).symm.trans h⟩

end Steps

/-! ### One save for each tag -/

/-- What a save replaces was at its path, and is not what it has staged. -/
structure Chronicle (state : EditedShare) : Prop where
  checked : ∀ (id : ℕ) (save : Save) (current : EntryMetadata), state.saves[id]? = some save →
    save.phase = .checked current → some current ∈ state.history save.path
  staged : ∀ (id : ℕ) (save : Save) (current : EntryMetadata) (stat : Stat), state.saves[id]? = some save →
    save.phase = .staged current stat → stagedVersion stat ≠ current
  log : ∀ commit ∈ state.log,
    (some commit.published :: commit.history).Sublist (state.history commit.path)
  replaced : ∀ commit ∈ state.log, commit.published ≠ commit.replaced ∧
    ∃ rest, commit.history = some commit.replaced :: rest
  inOrder : state.log.Pairwise fun earlier later => earlier.path = later.path →
    (some earlier.published :: earlier.history).Sublist later.history

section Chronicle

variable {server : Server} {state before after : EditedShare} {action : Action} {share : AuthorizedShare}

theorem chronicle_start (share : AuthorizedShare) : Chronicle (start share) :=
  ⟨fun _ _ _ h => absurd h (Option.some_ne_none _).symm, fun _ _ _ _ h => absurd h (Option.some_ne_none _).symm,
    fun _ h => absurd h List.not_mem_nil, fun _ h => absurd h List.not_mem_nil, List.Pairwise.nil⟩

theorem mem_history_of_metadata {path : VirtualPath} {version : EntryMetadata}
    (h : state.share.metadata path = .ok version) : some version ∈ state.history path := by
  rw [history, List.map_cons, h]
  exact List.mem_cons_self

theorem Chronicle.step (h : Chronicle before) (hstep : before.step server action = some after) :
    Chronicle after := by
  rcases step_cases hstep with hkeeps | ⟨id, save, current, stat, hid, hphase, -, hfresh, rfl⟩ |
      ⟨id, save, current, stat, share, hid, hphase, hshare, rfl⟩ | ⟨share, -, rfl⟩
  · refine ⟨fun id save current hsave hphase => ?_, fun id save current stat hsave hphase => ?_, ?_, ?_, ?_⟩
    · rw [hkeeps.history]
      rcases hkeeps.checked_or hsave (.inl hphase) with hbefore | ⟨-, hcurrent⟩
      · exact h.checked id save current hbefore hphase
      · exact mem_history_of_metadata hcurrent
    · rcases hkeeps.checked_or hsave (.inr ⟨stat, hphase⟩) with hbefore | ⟨hchecked, -⟩
      · exact h.staged id save current stat hbefore hphase
      · cases hchecked.symm.trans hphase
    · simp only [hkeeps.history]
      exact hkeeps.log ▸ h.log
    · exact hkeeps.log ▸ h.replaced
    · exact hkeeps.log ▸ h.inOrder
  · refine ⟨fun other found version hfound hchecked => ?_, fun other found version staged hfound hstaged => ?_,
      h.log, h.replaced, h.inOrder⟩
    · rcases getElem?_setPhase hfound with ⟨-, rfl⟩ | ⟨-, hbefore⟩
      · cases hchecked
      · exact h.checked other found version hbefore hchecked
    · rcases getElem?_setPhase hfound with ⟨-, rfl⟩ | ⟨-, hbefore⟩
      · obtain ⟨rfl, rfl⟩ := SavePhase.staged.inj hstaged
        rintro rfl
        exact hfresh (h.checked id save _ hid hphase)
      · exact h.staged other found version staged hbefore hstaged
  · obtain ⟨hcurrent, hpublished⟩ := metadata_of_writeReplacement hshare
    have hnow : (((before.setPhase id save (.answered (.ok
        (server.tag save.path (stagedVersion stat))))).withShare share).history save.path) =
        some (stagedVersion stat) :: before.history save.path := by
      rw [history_withShare, hpublished]
      rfl
    refine ⟨fun other found version hfound hchecked => ?_, fun other found version staged hfound hstaged => ?_,
      fun commit hcommit => ?_, fun commit hcommit => ?_, ?_⟩
    · rcases getElem?_setPhase hfound with ⟨-, rfl⟩ | ⟨-, hbefore⟩
      · cases hchecked
      · exact List.mem_cons_of_mem _ (h.checked other found version hbefore hchecked)
    · rcases getElem?_setPhase hfound with ⟨-, rfl⟩ | ⟨-, hbefore⟩
      · cases hstaged
      · exact h.staged other found version staged hbefore hstaged
    · rcases List.mem_append.mp hcommit with hmem | hmem
      · exact (h.log commit hmem).trans (List.sublist_cons_self _ _)
      · obtain rfl := List.mem_singleton.mp hmem
        exact hnow ▸ List.Sublist.refl _
    · rcases List.mem_append.mp hcommit with hmem | hmem
      · exact h.replaced commit hmem
      · obtain rfl := List.mem_singleton.mp hmem
        refine ⟨h.staged id save current stat hid hphase,
          before.past.map fun share => (share.metadata save.path).toOption, ?_⟩
        dsimp only
        rw [history, List.map_cons, hcurrent]
        rfl
    · refine List.pairwise_append.mpr ⟨h.inOrder, List.pairwise_singleton _ _, fun earlier hearlier later hlater => ?_⟩
      obtain rfl := List.mem_singleton.mp hlater
      intro hpath
      have hlog := h.log earlier hearlier
      rwa [hpath] at hlog
  · exact ⟨fun id save version hsave hchecked => List.mem_cons_of_mem _ (h.checked id save version hsave hchecked),
      h.staged, fun commit hcommit => (h.log commit hcommit).trans (List.sublist_cons_self _ _), h.replaced,
      h.inOrder⟩

/-- In every run, of the saves by one tag at most one takes effect, unless the version of the tag has come
back. -/
theorem one_save_for_each_tag {actions : List Action} (hrun : run (step server) (start share) actions = some state)
    (htags : state.TellsApart server) : state.log.Pairwise fun earlier later =>
      earlier.path = later.path → earlier.etag = later.etag → Returned later.history later.replaced := by
  have hsound : Sound server state := run_invariant
    (fun before action after (hstep : step server before action = some after) h => h.step hstep) hrun (sound_start server share)
  have hchronicle : Chronicle state := run_invariant
    (fun before action after (hstep : step server before action = some after) h => h.step hstep) hrun (chronicle_start share)
  refine hchronicle.inOrder.imp_of_mem fun {earlier later} hearlier hlater hinOrder hpath hetag => ?_
  obtain ⟨hne, rest, hhistory⟩ := hchronicle.replaced earlier hearlier
  obtain ⟨-, rest', hhistory'⟩ := hchronicle.replaced later hlater
  have hsame : earlier.replaced = later.replaced := by
    have hfirst := hsound.log earlier hearlier
    have hsecond := hsound.log later hlater
    refine htags later hlater ?_ (hsecond.history.subset hsecond.replaced) ?_
    · exact hpath ▸ hfirst.history.subset hfirst.replaced
    · rw [hsecond.tag, ← hpath, hfirst.tag, hetag]
  have hsublist := hinOrder hpath
  rw [hhistory, hhistory', hsame] at hsublist
  have hother : some earlier.published ≠ some later.replaced := fun heq => hne ((Option.some.inj heq).trans hsame.symm)
  refine ⟨some earlier.published, hother, hhistory' ▸ List.Sublist.cons_cons _ ?_⟩
  have htail := hsublist.of_cons_of_ne hother
  exact (List.Sublist.cons_cons _ (List.Sublist.cons_cons _ (List.nil_sublist _))).trans htail

end Chronicle

/-- The two saves of the editor are not by one tag. -/
theorem one_save_for_each_tag_letter : ∃ state,
    run (step letterServer) (start letterShare) letterActions = some state ∧ state.log.length = 2 ∧
      (state.log.map (·.etag)).Nodup := by
  obtain ⟨state, hrun, hhistory, hpaths, hhistories, -⟩ := letter_run
  refine ⟨state, hrun, by simpa using congrArg List.length hpaths, List.pairwise_map.mpr ?_⟩
  have hone := one_save_for_each_tag hrun (letter_tellsApart hhistory hpaths)
  refine hone.imp_of_mem fun {earlier later} hearlier hlater hreturned hetag => ?_
  obtain ⟨other, -, hsublist⟩ :=
    hreturned ((letter_path hpaths hearlier).trans (letter_path hpaths hlater).symm) hetag
  exact letter_history_length hhistories hlater hsublist.length_le

/-! ### Edits of a file that only saves change -/

/-- The metadata of a share is that of its tree. -/
theorem metadata_eq (share : AuthorizedShare) (path : VirtualPath) :
    share.metadata path = share.root.metadataAt path.components := by
  rw [Contents.metadataAt_eq]
  rfl

/-- A save changes nothing at other paths. -/
theorem metadata_of_writeReplacement_ne {before after : AuthorizedShare} {path other : VirtualPath} {stat : Stat}
    {current : EntryMetadata} (h : before.writeReplacement path stat current = .ok after) (hne : other ≠ path) :
    after.metadata other = before.metadata other := by
  obtain ⟨-, -, h⟩ := bind_eq_ok.mp h
  obtain ⟨⟨parents, parent, name⟩, hparent, h⟩ := bind_eq_ok.mp h
  obtain ⟨-, h⟩ := ite_error_eq_ok.mp h
  split at h
  · cases h
  · rename_i entry hentry
    obtain ⟨found, hfound, h⟩ := bind_eq_ok.mp h
    obtain ⟨hmatch, h⟩ := ite_error_eq_ok.mp h
    obtain rfl := Except.ok.inj h
    have hthere : before.root.entryAt path = .ok entry :=
      Contents.entryAt_eq_ok.mpr ⟨parents, parent, name, hparent, hentry⟩
    rw [metadata_eq, metadata_eq]
    cases entry with
    | leaf type there => exact Contents.metadataAt_replace hthere hne
    | directory there inside =>
      obtain rfl := Except.ok.inj hfound
      simp at hmatch

/-- The versions that saves have replaced at a path, and what they published. -/
def changes (state : EditedShare) (path : VirtualPath) : List (EntryMetadata × EntryMetadata) :=
  (state.log.filter (·.path = path)).map fun commit => (commit.replaced, commit.published)

/-- The texts that were edited at a path, and what they were edited to. -/
def edits (state : EditedShare) (path : VirtualPath) : List (List Char × List Char) :=
  (state.log.filter (·.path = path)).map fun commit => (commit.edited, commit.snapshot)

/-- Nothing but saves changes what is at the path. -/
def Quiet (path : VirtualPath) (state : EditedShare) (action : Action) : Prop :=
  ∀ share, action = .change share → share.metadata path = state.share.metadata path

/-- The saves at a path followed one another, and no version has come back. -/
structure Chained (path : VirtualPath) (original : EntryMetadata) (state : EditedShare) : Prop where
  current : ∃ version, state.share.metadata path = .ok version ∧
    InSequence original (state.changes path) version
  settled : ∀ version, ¬Returned (state.history path) version
  fresh : ∀ (id : ℕ) (save : Save) (current : EntryMetadata) (stat : Stat), state.saves[id]? = some save →
    save.phase = .staged current stat → stagedVersion stat ∈ state.staged ∧
      (save.path = path → some (stagedVersion stat) ∉ state.history path)
  distinct : ∀ (first second : ℕ) (save other : Save) (current found : EntryMetadata) (stat staged : Stat),
    state.saves[first]? = some save → state.saves[second]? = some other → first ≠ second →
    save.phase = .staged current stat → other.phase = .staged found staged →
      stagedVersion stat ≠ stagedVersion staged

section Chained

variable {server : Server} {state before after : EditedShare} {action : Action} {share : AuthorizedShare}
  {path : VirtualPath} {original : EntryMetadata} {head : Option EntryMetadata}
  {history : List (Option EntryMetadata)} {version : EntryMetadata}

/-- Nothing returns when what is at the path stays. -/
theorem returned_of_repeat (h : Returned (head :: head :: history) version) :
    Returned (head :: history) version := by
  obtain ⟨other, hother, hsublist⟩ := h
  refine ⟨other, hother, ?_⟩
  by_cases hhead : some version = head
  · subst hhead
    exact List.Sublist.cons_cons _ (hsublist.of_cons_cons.of_cons_of_ne hother)
  · exact hsublist.of_cons_of_ne hhead

/-- A version that has not been at the path does not return by being put there. -/
theorem returned_of_fresh {fresh : EntryMetadata} (hfresh : some fresh ∉ history)
    (h : Returned (some fresh :: history) version) : Returned history version := by
  obtain ⟨other, hother, hsublist⟩ := h
  refine ⟨other, hother, hsublist.of_cons_of_ne fun heq => hfresh ?_⟩
  have hmem : some version ∈ history :=
    hsublist.tail.subset (List.mem_cons_of_mem _ (List.mem_singleton_self _))
  exact heq ▸ hmem

theorem chained_start (h : share.metadata path = .ok original) : Chained path original (start share) := by
  refine ⟨⟨original, h, rfl⟩, fun version hreturned => ?_, fun _ _ _ _ h => absurd h (Option.some_ne_none _).symm,
    fun _ _ _ _ _ _ _ _ h => absurd h (Option.some_ne_none _).symm⟩
  obtain ⟨other, -, hsublist⟩ := hreturned
  have hlength := hsublist.length_le
  simp [EditedShare.history, start] at hlength

/-- A save that goes on without staging anything. -/
theorem Chained.setPhase (h : Chained path original state) {id : ℕ} {save : Save} {phase : SavePhase}
    (hphase : ∀ current stat, phase ≠ .staged current stat) :
    Chained path original (state.setPhase id save phase) := by
  refine ⟨h.current, h.settled, fun other found current stat hfound hstaged => ?_,
    fun first second found other current current' stat stat' hfirst hsecond hne hstaged hstaged' => ?_⟩
  · rcases getElem?_setPhase hfound with ⟨-, rfl⟩ | ⟨-, hbefore⟩
    · exact absurd hstaged (hphase current stat)
    · exact h.fresh other found current stat hbefore hstaged
  · rcases getElem?_setPhase hfirst with ⟨-, rfl⟩ | ⟨-, hbefore⟩
    · exact absurd hstaged (hphase current stat)
    · rcases getElem?_setPhase hsecond with ⟨-, rfl⟩ | ⟨-, hafter⟩
      · exact absurd hstaged' (hphase current' stat')
      · exact h.distinct first second found other current current' stat stat' hbefore hafter hne hstaged hstaged'

/-- What was staged is new to the path and to the other saves. -/
theorem Chained.stage (h : Chained path original state) {id : ℕ} {save : Save} {current : EntryMetadata}
    {stat : Stat} (hstaged : stagedVersion stat ∉ state.staged)
    (hnew : some (stagedVersion stat) ∉ state.history save.path) :
    Chained path original { state.setPhase id save (.staged current stat) with
      staged := stagedVersion stat :: state.staged } := by
  refine ⟨h.current, h.settled, fun other found current' stat' hfound hphase => ?_,
    fun first second found other current' found' stat' staged hfirst hsecond hne hphase hphase' => ?_⟩
  · rcases getElem?_setPhase hfound with ⟨-, rfl⟩ | ⟨-, hbefore⟩
    · obtain ⟨rfl, rfl⟩ := SavePhase.staged.inj hphase
      exact ⟨List.mem_cons_self, fun hpath => hpath ▸ hnew⟩
    · obtain ⟨hmem, hnot⟩ := h.fresh other found current' stat' hbefore hphase
      exact ⟨List.mem_cons_of_mem _ hmem, hnot⟩
  · rcases getElem?_setPhase hfirst with ⟨rfl, rfl⟩ | ⟨-, hbefore⟩
    · obtain ⟨rfl, rfl⟩ := SavePhase.staged.inj hphase
      rcases getElem?_setPhase hsecond with ⟨rfl, -⟩ | ⟨-, hafter⟩
      · exact absurd rfl hne
      · intro heq
        exact hstaged (heq ▸ (h.fresh second other found' staged hafter hphase').1)
    · rcases getElem?_setPhase hsecond with ⟨rfl, rfl⟩ | ⟨-, hafter⟩
      · obtain ⟨rfl, rfl⟩ := SavePhase.staged.inj hphase'
        intro heq
        exact hstaged (heq ▸ (h.fresh first found current' stat' hbefore hphase).1)
      · exact h.distinct first second found other current' found' stat' staged hbefore hafter hne hphase hphase'

/-- The share changes at other paths. -/
theorem Chained.withShare (h : Chained path original state)
    (hshare : share.metadata path = state.share.metadata path) :
    Chained path original (state.withShare share) := by
  obtain ⟨version, hversion, hsequence⟩ := h.current
  have hhistory : state.history path = some version ::
      state.past.map fun share => (share.metadata path).toOption := by
    rw [EditedShare.history, List.map_cons, hversion]
    rfl
  have hnow : (state.withShare share).history path = some version :: state.history path := by
    rw [history_withShare, hshare, hversion]
    rfl
  refine ⟨⟨version, hshare.trans hversion, hsequence⟩, fun returned hreturned => ?_,
    fun id save current stat hsave hphase => ?_, h.distinct⟩
  · rw [hnow, hhistory] at hreturned
    exact h.settled returned (hhistory ▸ returned_of_repeat hreturned)
  · obtain ⟨hmem, hnot⟩ := h.fresh id save current stat hsave hphase
    refine ⟨hmem, fun hpath hthere => hnot hpath ?_⟩
    rcases List.mem_cons.mp (hnow ▸ hthere : some (stagedVersion stat) ∈ _) with heq | hthere
    · exact hhistory ▸ heq ▸ List.mem_cons_self
    · exact hthere

/-- A save at another path is no change at this one. -/
theorem Chained.logged (h : Chained path original state) {commit : Commit} (hpath : commit.path ≠ path) :
    Chained path original { state with log := state.log ++ [commit] } := by
  obtain ⟨version, hversion, hsequence⟩ := h.current
  refine ⟨⟨version, hversion, ?_⟩, h.settled, h.fresh, h.distinct⟩
  rw [changes] at hsequence ⊢
  rw [List.filter_append, List.map_append]
  simpa [hpath] using hsequence

/-- A save puts what it has staged in the place of what it found. -/
theorem Chained.published (h : Chained path original state) {commit : Commit} (hpath : commit.path = path)
    (hreplaced : state.share.metadata path = .ok commit.replaced)
    (hpublished : share.metadata path = .ok commit.published)
    (hnew : some commit.published ∉ state.history path)
    (hothers : ∀ (id : ℕ) (save : Save) (current : EntryMetadata) (stat : Stat), state.saves[id]? = some save →
      save.phase = .staged current stat → stagedVersion stat ≠ commit.published) :
    Chained path original { state.withShare share with log := state.log ++ [commit] } := by
  obtain ⟨version, hversion, hsequence⟩ := h.current
  obtain rfl := Except.ok.inj (hreplaced.symm.trans hversion)
  have hnow : (state.withShare share).history path = some commit.published :: state.history path := by
    rw [history_withShare, hpublished]
    rfl
  refine ⟨⟨commit.published, hpublished, ?_⟩, fun returned hreturned => ?_,
    fun id save current stat hsave hphase => ?_, h.distinct⟩
  · have hchanges := hsequence.append commit.published
    rw [changes] at hchanges ⊢
    rw [List.filter_append, List.map_append]
    simpa [hpath] using hchanges
  · exact h.settled returned (returned_of_fresh hnew (hnow ▸ hreturned))
  · obtain ⟨hmem, hnot⟩ := h.fresh id save current stat hsave hphase
    refine ⟨hmem, fun hsavepath hthere => ?_⟩
    rcases List.mem_cons.mp (hnow ▸ hthere : some (stagedVersion stat) ∈ _) with heq | hthere
    · exact hothers id save current stat hsave hphase (Option.some.inj heq)
    · exact hnot hsavepath hthere

theorem Chained.step (h : Chained path original before) (hstep : before.step server action = some after)
    (hquiet : Quiet path before action) : Chained path original after := by
  rcases step_cases hstep with hkeeps | ⟨id, save, current, stat, -, -, hstaged, hnew, rfl⟩ |
      ⟨id, save, current, stat, share, hid, hphase, hshare, rfl⟩ | ⟨share, rfl, rfl⟩
  · have hbefore {id : ℕ} {save : Save} {current : EntryMetadata} {stat : Stat}
        (hsave : after.saves[id]? = some save) (hphase : save.phase = .staged current stat) :
        before.saves[id]? = some save := by
      rcases hkeeps.checked_or hsave (.inr ⟨stat, hphase⟩) with hbefore | ⟨hchecked, -⟩
      · exact hbefore
      · cases hchecked.symm.trans hphase
    refine ⟨?_, ?_, fun id save current stat hsave hphase => ?_,
      fun first second save other current found stat staged hfirst hsecond hne hphase hphase' => ?_⟩
    · rw [hkeeps.share, changes, hkeeps.log]
      exact h.current
    · rw [hkeeps.history]
      exact h.settled
    · rw [hkeeps.staged, hkeeps.history]
      exact h.fresh id save current stat (hbefore hsave hphase) hphase
    · exact h.distinct first second save other current found stat staged (hbefore hfirst hphase)
        (hbefore hsecond hphase') hne hphase hphase'
  · exact h.stage hstaged hnew
  · have hanswered : Chained path original (before.setPhase id save (.answered (.ok
        (server.tag save.path (stagedVersion stat))))) := h.setPhase fun _ _ hstaged => by cases hstaged
    by_cases hpath : save.path = path
    · subst hpath
      obtain ⟨hcurrent, hpublished⟩ := metadata_of_writeReplacement hshare
      have hnew := (h.fresh id save current stat hid hphase).2 rfl
      refine hanswered.published rfl hcurrent hpublished hnew fun other found current' stat' hfound hphase' => ?_
      rcases getElem?_setPhase hfound with ⟨-, rfl⟩ | ⟨hother, hbefore⟩
      · cases hphase'
      · exact h.distinct other id found save current' current stat' stat hbefore hid hother hphase' hphase
    · exact (hanswered.withShare (metadata_of_writeReplacement_ne hshare (Ne.symm hpath))).logged hpath
  · exact h.withShare (hquiet share rfl)

/-- Where nothing but saves changes a file, the edits that took effect were made one after another: the
first to the text that the file had, each other to the text that the one before it saved, and the
file has the text that the last of them saved. -/
theorem edits_in_sequence {actions : List Action} (horiginal : share.metadata path = .ok original)
    (hrun : run (step server) (start share) actions = some state)
    (hquiet : Along (step server) (Quiet path) (start share) actions) (htags : state.TellsApart server) :
    ∃ current, state.share.metadata path = .ok current ∧
      InSequence (server.text original) ((state.edits path).map (Prod.map some some))
        (server.text current) := by
  have hsound : Sound server state := run_invariant
    (fun before action after (hstep : step server before action = some after) h => h.step hstep) hrun (sound_start server share)
  obtain ⟨⟨current, hcurrent, hsequence⟩, hsettled, -, -⟩ : Chained path original state :=
    run_invariant_along
      (fun before action after (hstep : step server before action = some after) hquiet h => h.step hstep hquiet) hrun hquiet (chained_start horiginal)
  refine ⟨current, hcurrent, ?_⟩
  have htexts : (state.edits path).map (Prod.map some some) =
      (state.changes path).map (Prod.map server.text server.text) := by
    rw [edits, changes, List.map_map, List.map_map]
    refine List.map_congr_left fun commit hcommit => ?_
    obtain ⟨hmem, hpath⟩ := List.mem_filter.mp hcommit
    obtain ⟨hpublished, hedited⟩ := no_lost_update hrun htags commit hmem
    have hreplaced : server.text commit.replaced = some commit.edited := by
      refine hedited.resolve_right fun hreturned => ?_
      have hlater := hreturned.mono (hsound.log commit hmem).history
      exact hsettled commit.replaced (of_decide_eq_true hpath ▸ hlater)
    exact Prod.ext hreplaced.symm hpublished.symm
  rw [htexts]
  exact hsequence.map server.text

end Chained

/-- The editor has made "a" a "b", and that a "c". -/
theorem edits_in_sequence_letter : ∃ state current,
    run (step letterServer) (start letterShare) letterActions = some state ∧
      state.share.metadata letterPath = .ok current ∧ letterServer.text current = some ['c'] := by
  obtain ⟨state, hrun, hhistory, hpaths, -, hedits⟩ := letter_run
  have horiginal : letterShare.metadata letterPath = .ok ⟨.file, 1, none, 1⟩ := rfl
  have hquiet : Along (step letterServer) (Quiet letterPath) (start letterShare) letterActions := by
    refine Along.mono (@along_of_forall _ _ (step letterServer) (fun action => ∀ share, action ≠ .change share) _ _ ?_)
      fun state action hnone share heq => absurd heq (hnone share)
    intro action haction share heq
    rw [heq] at haction
    simp [letterActions] at haction
  obtain ⟨current, hcurrent, hsequence⟩ :=
    edits_in_sequence horiginal hrun hquiet (letter_tellsApart hhistory hpaths)
  have hall : state.log.filter (·.path = letterPath) = state.log := by
    refine List.filter_eq_self.mpr fun commit hcommit => decide_eq_true ?_
    exact letter_path hpaths hcommit
  rw [edits, hall, hedits] at hsequence
  exact ⟨state, current, hrun, hcurrent, hsequence.2.2⟩

end EditedShare

end Crabinet.Editing
