import Crabinet.Trash.Purge
import Mathlib.Data.List.Perm.Subperm

/-!
# Recovery at startup

Recovery walks the Trash directory while it removes names from it, with one counter for
the names and for the payload entries it purges. The order of the names is the
directory's; a payload that was purged after the directory was opened may still be named.
-/

namespace Crabinet.Trash

open Crabinet.Filesystem Crabinet.Library

/-- A recovery in progress. -/
structure Recovery where
  trash : TrashDirectory
  work : ℕ
  changed : ℕ

namespace Recovery

/-- Remove a sidecar. -/
def dropSidecar (state : Recovery) (id : TrashId) : Recovery :=
  { state with
    trash := { state.trash with sidecars := state.trash.sidecars.erase id }
    changed := state.changed + 1 }

/-- Remove a temporary file. -/
def dropTemporary (state : Recovery) (id : TrashId) : Recovery :=
  { state with
    trash := { state.trash with temporaries := state.trash.temporaries.erase id }
    changed := state.changed + 1 }

/-- The treatment of a sidecar, and whether the walk goes on. -/
def visitSidecar (limit : ℕ) (state : Recovery) (id : TrashId) : Recovery × FsResult Bool :=
  match state.trash.readSidecar id with
  | .error error => (state, .error error)
  | .ok sidecar =>
    match sidecar.state with
    | .pending =>
      match state.trash.payloadMetadata id with
      | .ok payload =>
        match sidecar.entry with
        | .error error => (state, .error error)
        | .ok entry =>
          if payload.kind = entry.kind then
            ({ state with
              trash := state.trash.writeSidecar { sidecar with state := .live }
              changed := state.changed + 1 }, .ok true)
          else (state, .error .unavailable)
      | .error .notFound => (state.dropSidecar id, .ok true)
      | .error error => (state, .error error)
    | .purging =>
      if state.work = limit then (state, .ok false)
      else
        match state.trash.purge .none id (limit - state.work) with
        | (trash, .error error) => ({ state with trash }, .error error)
        | (trash, .ok count) => (⟨trash, state.work + count, state.changed + 1⟩, .ok true)
    | .live =>
      match state.trash.payloadMetadata id with
      | .error .notFound => (state.dropSidecar id, .ok true)
      | _ => (state, .ok true)

/-- The treatment of a name, and whether the walk goes on. -/
def visit (limit : ℕ) (state : Recovery) : TrashName → Recovery × FsResult Bool
  | .temporary id =>
    match state.trash.temporaries.get? id with
    | none => (state, .error .notFound)
    | some .other => (state, .error .unsupportedEntry)
    | some .file => (state.dropTemporary id, .ok true)
  | .payload id =>
    if state.trash.has (.sidecar id) then (state, .ok true) else (state, .error .unavailable)
  | .sidecar id => state.visitSidecar limit id
  | .stray _ => (state, .error .unavailable)

/-- The walk over the names that the directory lists. -/
def walk (limit : ℕ) : List TrashName → Recovery → Recovery × FsResult ℕ
  | [], state => (state, .ok state.changed)
  | name :: rest, state =>
    if state.work + 1 > limit then (state, .error .tooLarge)
    else
      match visit limit { state with work := state.work + 1 } name with
      | (state, .error error) => (state, .error error)
      | (state, .ok false) => (state, .ok state.changed)
      | (state, .ok true) => walk limit rest state

end Recovery

namespace TrashDirectory

/-- `recover_trash`, with the names in the order in which the directory lists them. -/
def recoverTrash (trash : TrashDirectory) (limit : ℕ) (order : List TrashName) :
    TrashDirectory × FsResult ℕ :=
  match Recovery.walk limit order ⟨trash, 0, 0⟩ with
  | (state, result) => (state.trash, result)

/-- An order in which the directory may list its names. Only the payload of an item that is being
purged can be removed before it is listed. -/
structure Lists (trash : TrashDirectory) (order : List TrashName) : Prop where
  nodup : order.Nodup
  sound : ∀ name ∈ order, name ∈ trash.names
  complete : ∀ name ∈ trash.names, name ∈ order ∨
    ∃ id sidecar, name = .payload id ∧ trash.readSidecar id = .ok sidecar ∧ sidecar.state = .purging

/-- What no interruption changes: temporary files are regular, each sidecar can be read, and each
payload has one. -/
structure Intact (trash : TrashDirectory) : Prop where
  strays : trash.strays = []
  temporary : ∀ id type, trash.temporaries.get? id = some type → type = .file
  sidecar : ∀ id stored, trash.sidecars.get? id = some stored →
    ∃ sidecar, stored = some sidecar ∧ sidecar.Readable id
  payload : ∀ id entry, trash.payloads.get? id = some entry → trash.sidecars.get? id ≠ none

/-- What recovery needs of an item: nothing is left to purge, and a payload that was moved in has the
kind that was recorded. -/
structure ItemRecoverable (sidecar : Sidecar) (payload : Option Entry) : Prop where
  purging : sidecar.state = .purging → payload = none
  pending : sidecar.state = .pending → ∀ entry, payload = some entry →
    ∃ metadata, entry.metadata = .ok metadata ∧ sidecar.kind = some metadata.kind

/-- Every item can be recovered. -/
def Recoverable (trash : TrashDirectory) : Prop :=
  ∀ id sidecar, trash.readSidecar id = .ok sidecar → ItemRecoverable sidecar (trash.payloads.get? id)

/-- The sidecar that recovery leaves: none without a payload, and a live one with it. -/
def recovered (sidecar : Sidecar) : Option Entry → Option (Option Sidecar)
  | none => none
  | some _ => some (some { sidecar with state := .live })

/-- Recovery can treat a name. -/
def Ready (trash : TrashDirectory) : TrashName → Prop
  | .temporary id => trash.temporaries.get? id = some .file
  | .payload id => ∃ sidecar entry, trash.readSidecar id = .ok sidecar ∧
      trash.payloads.get? id = some entry ∧ ItemRecoverable sidecar (some entry)
  | .sidecar id => ∃ sidecar, trash.readSidecar id = .ok sidecar ∧
      ItemRecoverable sidecar (trash.payloads.get? id)
  | .stray _ => False

end TrashDirectory

namespace Recovery

open TrashDirectory

/-! ### One name -/

/-- A sidecar that can be recovered is replaced by the one that recovery leaves; a purge for which
no budget is left ends the walk. -/
theorem visitSidecar_spec (limit : ℕ) {state : Recovery} {id : TrashId} {sidecar : Sidecar}
    (hread : state.trash.readSidecar id = .ok sidecar)
    (hitem : ItemRecoverable sidecar (state.trash.payloads.get? id)) :
    ∃ after go, state.visitSidecar limit id = (after, .ok go) ∧ after.work = state.work ∧
      after.trash.payloads = state.trash.payloads ∧
      Frame (· = id) state.trash after.trash ∧
      (go = true → after.trash.sidecars.get? id = recovered sidecar (state.trash.payloads.get? id)) ∧
      (go = false → after = state ∧ sidecar.state = .purging ∧ state.work = limit) := by
  obtain ⟨hfound, hreadable⟩ := readSidecar_eq_ok.mp hread
  have hdrop (hpayload : state.trash.payloads.get? id = none) :
      (state.dropSidecar id).trash.sidecars.get? id =
        recovered sidecar (state.trash.payloads.get? id) := by
    rw [hpayload]
    exact KeyedMap.get?_erase_self _ _
  unfold visitSidecar
  rw [hread]
  dsimp only
  cases hstate : sidecar.state with
  | pending =>
    unfold payloadMetadata
    cases hpayload : state.trash.payloads.get? id with
    | none =>
      exact ⟨_, true, rfl, rfl, rfl, Frame.eraseSidecar id state.trash,
        fun _ => hpayload ▸ hdrop hpayload, fun hstop => by cases hstop⟩
    | some entry =>
      obtain ⟨metadata, hmetadata, hkind⟩ := hitem.pending hstate entry hpayload
      obtain ⟨path, hpath⟩ := hreadable.path
      have hentry : sidecar.entry = .ok ⟨sidecar.id, path, metadata.kind⟩ := by
        rw [Sidecar.entry, hpath, ok_bind, hkind]
        rfl
      dsimp only
      rw [hmetadata]
      dsimp only
      rw [hentry]
      dsimp only
      rw [if_pos rfl]
      obtain rfl := hreadable.id_eq
      exact ⟨_, true, rfl, rfl, rfl, Frame.writeSidecar { sidecar with state := .live } (by simp [hfound]),
        fun _ => KeyedMap.get?_insert_self _ _ _, fun hstop => by cases hstop⟩
  | purging =>
    have hpayload := hitem.purging hstate
    dsimp only
    split
    · rename_i hfull
      exact ⟨state, false, rfl, rfl, rfl, Frame.refl _ _, fun hgo => (by cases hgo),
        fun _ => ⟨rfl, rfl, hfull⟩⟩
    · have hpurge : state.trash.purge .none id (limit - state.work) =
          ({ state.trash with sidecars := state.trash.sidecars.erase id }, .ok 0) := by
        simp [TrashDirectory.purge, Faults.none, hread, hstate, removePayload, hpayload, removeSidecar]
      rw [hpurge]
      exact ⟨_, true, rfl, rfl, rfl, Frame.eraseSidecar id state.trash, fun _ => hdrop hpayload,
        fun hstop => by cases hstop⟩
  | live =>
    unfold payloadMetadata
    cases hpayload : state.trash.payloads.get? id with
    | none =>
      exact ⟨_, true, rfl, rfl, rfl, Frame.eraseSidecar id state.trash,
        fun _ => hpayload ▸ hdrop hpayload, fun hstop => by cases hstop⟩
    | some entry =>
      have hlive : state.trash.sidecars.get? id = recovered sidecar (some entry) := by
        rw [hfound, recovered]
        obtain ⟨schema, own, path, kind, deadline, found⟩ := sidecar
        cases hstate
        rfl
      refine ⟨state, true, ?_, rfl, rfl, Frame.refl _ _, fun _ => hlive, fun hstop => by cases hstop⟩
      have hpresent := entry.metadata_ne_notFound
      dsimp only
      split
      · rename_i hmissing
        exact absurd hmissing hpresent
      · rfl

/-- What the treatment of a name changes. -/
structure Visited (name : TrashName) (before after : TrashDirectory) : Prop where
  payloads : after.payloads = before.payloads
  sidecar : ∀ id, name ≠ .sidecar id → after.sidecars.get? id = before.sidecars.get? id
  temporary : ∀ id, name ≠ .temporary id → after.temporaries.get? id = before.temporaries.get? id
  reconciled : ∀ id sidecar, name = .sidecar id → before.readSidecar id = .ok sidecar →
    after.sidecars.get? id = recovered sidecar (before.payloads.get? id)
  cleared : ∀ id, name = .temporary id → after.temporaries.get? id = none

/-- A name that is ready is treated; only a purge without budget ends the walk. -/
theorem visit_spec (limit : ℕ) (state : Recovery) {name : TrashName} (h : Ready state.trash name) :
    (∃ after, state.visit limit name = (after, .ok true) ∧ after.work = state.work ∧
        Visited name state.trash after.trash) ∨
      ∃ id sidecar, state.visit limit name = (state, .ok false) ∧ name = .sidecar id ∧
        state.trash.readSidecar id = .ok sidecar ∧ sidecar.state = .purging ∧ state.work = limit := by
  cases name with
  | temporary id =>
    have hfound : state.trash.temporaries.get? id = some .file := h
    refine .inl ⟨state.dropTemporary id, by rw [visit, hfound], rfl, rfl, fun _ _ => rfl,
      fun other hne => ?_, fun _ _ heq => (by cases heq), fun other heq => ?_⟩
    · exact KeyedMap.get?_erase_ne _ fun heq => hne (by rw [heq])
    · obtain rfl := TrashName.temporary.inj heq
      exact KeyedMap.get?_erase_self _ _
  | payload id =>
    obtain ⟨sidecar, entry, hread, -, -⟩ := h
    have hhas : state.trash.has (.sidecar id) = true := by
      simp [has, (readSidecar_eq_ok.mp hread).1]
    exact .inl ⟨state, by rw [visit, if_pos hhas], rfl, rfl, fun _ _ => rfl, fun _ _ => rfl,
      fun _ _ heq => (by cases heq), fun _ heq => by cases heq⟩
  | sidecar id =>
    obtain ⟨sidecar, hread, hitem⟩ := h
    obtain ⟨after, go, hvisit, hwork, hpayloads, hframe, hgoes, hstops⟩ :=
      visitSidecar_spec limit hread hitem
    cases go with
    | true =>
      refine .inl ⟨after, hvisit, hwork, hpayloads, fun other hne => ?_, fun _ _ => ?_,
        fun other found heq hfound => ?_, fun _ heq => by cases heq⟩
      · exact hframe.sidecar other fun heq => hne (by rw [heq])
      · rw [hframe.temporaries]
      · obtain rfl := TrashName.sidecar.inj heq
        obtain rfl := Except.ok.inj (hread.symm.trans hfound)
        exact hgoes rfl
    | false =>
      obtain ⟨rfl, hpurging, hfull⟩ := hstops rfl
      exact .inr ⟨id, sidecar, hvisit, rfl, hread, hpurging, hfull⟩
  | stray name => exact absurd h id

/-- The other names stay ready. -/
theorem Visited.ready {name other : TrashName} {before after : TrashDirectory}
    (h : Visited name before after) (hne : other ≠ name) (hready : Ready before other) :
    Ready after other := by
  have hread (id : TrashId) (hid : name ≠ .sidecar id) :
      after.readSidecar id = before.readSidecar id := by
    rw [readSidecar, readSidecar, h.sidecar id hid]
  cases other with
  | temporary id => exact (h.temporary id hne.symm).trans hready
  | payload id =>
    obtain ⟨sidecar, entry, hsidecar, hentry, hitem⟩ := hready
    by_cases hid : name = .sidecar id
    · have hlive := h.reconciled id sidecar hid hsidecar
      rw [hentry] at hlive
      have hreadable := (readSidecar_eq_ok.mp hsidecar).2
      refine ⟨{ sidecar with state := .live }, entry, readSidecar_eq_ok.mpr ⟨hlive, ?_⟩, ?_,
        fun hpending => (by cases hpending), fun hpurging => by cases hpurging⟩
      · exact ⟨hreadable.id_eq, hreadable.schema, hreadable.path, hreadable.kind, hreadable.deadline⟩
      · rw [h.payloads, hentry]
    · exact ⟨sidecar, entry, (hread id hid).trans hsidecar, by rw [h.payloads, hentry], hitem⟩
  | sidecar id =>
    obtain ⟨sidecar, hsidecar, hitem⟩ := hready
    exact ⟨sidecar, (hread id hne.symm).trans hsidecar, by rw [h.payloads]; exact hitem⟩
  | stray name => exact hready

/-! ### The whole walk -/

/-- What a walk over some names changes. -/
structure Walked (limit work : ℕ) (order : List TrashName) (before after : TrashDirectory) : Prop where
  payloads : after.payloads = before.payloads
  sidecar : ∀ id, .sidecar id ∉ order → after.sidecars.get? id = before.sidecars.get? id
  temporary : ∀ id, .temporary id ∉ order → after.temporaries.get? id = before.temporaries.get? id
  reconciled : ∀ id sidecar, .sidecar id ∈ order → before.readSidecar id = .ok sidecar →
    after.sidecars.get? id = recovered sidecar (before.payloads.get? id) ∨
      (after.sidecars.get? id = some (some sidecar) ∧ sidecar.state = .purging ∧
        work + order.length = limit)
  cleared : ∀ id, .temporary id ∈ order → after.temporaries.get? id = none

/-- The treatment of a name and then of the others. -/
theorem Visited.walked {limit work work' : ℕ} {name : TrashName} {rest : List TrashName}
    {before next after : TrashDirectory} (h : Visited name before next) (hname : name ∉ rest)
    (hwork : work' = work + 1) (hrest : Walked limit work' rest next after) :
    Walked limit work (name :: rest) before after where
  payloads := hrest.payloads.trans h.payloads
  sidecar id hid := by
    obtain ⟨hne, hmem⟩ := not_or.mp (fun hor => hid (List.mem_cons.mpr hor))
    exact (hrest.sidecar id hmem).trans (h.sidecar id fun heq => hne heq.symm)
  temporary id hid := by
    obtain ⟨hne, hmem⟩ := not_or.mp (fun hor => hid (List.mem_cons.mpr hor))
    exact (hrest.temporary id hmem).trans (h.temporary id fun heq => hne heq.symm)
  reconciled id sidecar hid hread := by
    by_cases heq : name = .sidecar id
    · rw [heq] at hname
      rw [hrest.sidecar id hname]
      exact .inl (h.reconciled id sidecar heq hread)
    · have hmem : .sidecar id ∈ rest := (List.mem_cons.mp hid).resolve_left fun h => heq h.symm
      have hsame : next.readSidecar id = before.readSidecar id := by
        rw [readSidecar, readSidecar, h.sidecar id heq]
      rcases hrest.reconciled id sidecar hmem (hsame.trans hread) with hdone | ⟨hkept, hpurging, hfull⟩
      · rw [h.payloads] at hdone
        exact .inl hdone
      · refine .inr ⟨hkept, hpurging, ?_⟩
        rw [List.length_cons]
        omega
  cleared id hid := by
    rcases List.mem_cons.mp hid with heq | hmem
    · rw [← heq] at hname
      exact (hrest.temporary id hname).trans (h.cleared id heq.symm)
    · exact hrest.cleared id hmem

/-- A walk over names that are ready, with enough budget for their number, succeeds. -/
theorem walk_spec {limit : ℕ} {order : List TrashName} (state : Recovery) (hnodup : order.Nodup)
    (hready : ∀ name ∈ order, Ready state.trash name) (hwork : state.work + order.length ≤ limit) :
    ∃ after changed, walk limit order state = (after, .ok changed) ∧
      Walked limit state.work order state.trash after.trash := by
  induction order generalizing state with
  | nil =>
    exact ⟨state, _, rfl, rfl, fun _ _ => rfl, fun _ _ => rfl,
      fun _ _ heq => (by cases heq), fun _ heq => by cases heq⟩
  | cons name rest ih =>
    obtain ⟨hname, hnodup⟩ := List.nodup_cons.mp hnodup
    simp only [List.length_cons] at hwork
    have hbudget : ¬state.work + 1 > limit := by omega
    have hfirst : Ready state.trash name := hready name List.mem_cons_self
    rcases visit_spec limit { state with work := state.work + 1 } hfirst with
      ⟨next, hvisit, hnext, hvisited⟩ | ⟨id, sidecar, hvisit, rfl, hread, hpurging, hfull⟩
    · have hrest : ∀ other ∈ rest, Ready next.trash other := fun other hother =>
        hvisited.ready (fun heq => hname (heq ▸ hother)) (hready other (List.mem_cons_of_mem _ hother))
      obtain ⟨after, changed, hwalk, hwalked⟩ := ih next hnodup hrest (by rw [hnext]; dsimp only; omega)
      refine ⟨after, changed, by rw [walk, if_neg hbudget, hvisit]; exact hwalk, ?_⟩
      exact hvisited.walked hname (by rw [hnext]) hwalked
    · have hnil : rest = [] := by
        have hlength : rest.length = 0 := by
          dsimp only at hfull
          omega
        exact List.eq_nil_of_length_eq_zero hlength
      subst hnil
      refine ⟨⟨state.trash, state.work + 1, state.changed⟩, state.changed,
        by rw [walk, if_neg hbudget, hvisit], rfl, fun _ _ => rfl, fun _ _ => rfl, ?_, ?_⟩
      · intro other found hmem hfound
        obtain rfl := TrashName.sidecar.inj (List.mem_singleton.mp hmem)
        exact .inr ⟨(readSidecar_eq_ok.mp hfound).1, by
          obtain rfl := Except.ok.inj (hread.symm.trans hfound)
          exact hpurging, hfull⟩
      · intro other hmem
        cases List.mem_singleton.mp hmem

end Recovery

namespace TrashDirectory

variable {trash : TrashDirectory}

/-! ### The whole directory -/

/-- Every name of a directory that can be recovered is ready. -/
theorem ready_of_recoverable (hintact : trash.Intact) (hrecoverable : trash.Recoverable)
    {name : TrashName} (hname : name ∈ trash.names) : Ready trash name := by
  rw [← has_eq_true] at hname
  have hread {id : TrashId} (hid : trash.sidecars.get? id ≠ none) :
      ∃ sidecar, trash.readSidecar id = .ok sidecar := by
    obtain ⟨stored, hstored⟩ := Option.ne_none_iff_exists'.mp hid
    obtain ⟨sidecar, rfl, hreadable⟩ := hintact.sidecar id stored hstored
    exact ⟨sidecar, readSidecar_eq_ok.mpr ⟨hstored, hreadable⟩⟩
  cases name with
  | temporary id =>
    obtain ⟨type, htype⟩ := Option.isSome_iff_exists.mp hname
    exact htype.trans (by rw [hintact.temporary id type htype])
  | payload id =>
    obtain ⟨entry, hentry⟩ := Option.isSome_iff_exists.mp hname
    obtain ⟨sidecar, hsidecar⟩ := hread (hintact.payload id entry hentry)
    exact ⟨sidecar, entry, hsidecar, hentry, hentry ▸ hrecoverable id sidecar hsidecar⟩
  | sidecar id =>
    obtain ⟨sidecar, hsidecar⟩ := hread (Option.isSome_iff_ne_none.mp hname)
    exact ⟨sidecar, hsidecar, hrecoverable id sidecar hsidecar⟩
  | stray name => simp [has, hintact.strays] at hname

/-- Without items to purge the directory lists all its names. -/
theorem Lists.mem {order : List TrashName} (h : trash.Lists order) (hrecoverable : trash.Recoverable)
    {name : TrashName} (hname : name ∈ trash.names) : name ∈ order := by
  rcases h.complete name hname with hmem | ⟨id, sidecar, rfl, hread, hpurging⟩
  · exact hmem
  · have hnone := (hrecoverable id sidecar hread).purging hpurging
    rw [← has_eq_true, has, hnone] at hname
    cases hname

/-- Recovery of a directory that can be recovered succeeds for every order and every budget that
covers the names. -/
theorem recoverTrash_of_recoverable (hintact : trash.Intact) (hrecoverable : trash.Recoverable)
    {order : List TrashName} (horder : trash.Lists order) {limit : ℕ}
    (hlimit : trash.names.length ≤ limit) :
    ∃ final changed, trash.recoverTrash limit order = (final, .ok changed) ∧
      final.payloads = trash.payloads ∧ (∀ id, final.temporaries.get? id = none) ∧
      (∀ id, trash.sidecars.get? id = none → final.sidecars.get? id = none) ∧
      ∀ id sidecar, trash.readSidecar id = .ok sidecar →
        final.sidecars.get? id = recovered sidecar (trash.payloads.get? id) ∨
          (final.sidecars.get? id = some (some sidecar) ∧ sidecar.state = .purging ∧
            trash.names.length = limit) := by
  have hlength : order.length ≤ trash.names.length :=
    (horder.nodup.subperm horder.sound).length_le
  have hready : ∀ name ∈ order, Ready trash name := fun name hname =>
    ready_of_recoverable hintact hrecoverable (horder.sound name hname)
  have hbudget : 0 + order.length ≤ limit := by omega
  obtain ⟨after, changed, hwalk, hwalked⟩ :=
    Recovery.walk_spec ⟨trash, 0, 0⟩ horder.nodup hready hbudget
  refine ⟨after.trash, changed, by rw [recoverTrash, hwalk], hwalked.payloads, fun id => ?_,
    fun id hnone => ?_, fun id sidecar hread => ?_⟩
  · by_cases hid : .temporary id ∈ order
    · exact hwalked.cleared id hid
    · have hnot : trash.has (.temporary id) ≠ true := fun hhas =>
        hid (horder.mem hrecoverable (has_eq_true.mp hhas))
      rw [hwalked.temporary id hid]
      simpa [has] using hnot
  · have hnot : .sidecar id ∉ order := fun hid => by
      have hhas := has_eq_true.mpr (horder.sound _ hid)
      rw [has, hnone] at hhas
      cases hhas
    rw [hwalked.sidecar id hnot, hnone]
  · have hhas : trash.has (.sidecar id) = true := by simp [has, (readSidecar_eq_ok.mp hread).1]
    have hid := horder.mem hrecoverable (has_eq_true.mp hhas)
    rcases hwalked.reconciled id sidecar hid hread with hdone | ⟨hkept, hpurging, hfull⟩
    · exact .inl hdone
    · refine .inr ⟨hkept, hpurging, ?_⟩
      dsimp only at hfull
      omega

theorem names_nodup (h : trash.strays = []) : trash.names.Nodup := by
  have htemporaries : (trash.temporaries.keys.map TrashName.temporary).Nodup :=
    trash.temporaries.nodup.map fun _ _ => TrashName.temporary.inj
  have hpayloads : (trash.payloads.keys.map TrashName.payload).Nodup :=
    trash.payloads.nodup.map fun _ _ => TrashName.payload.inj
  have hsidecars : (trash.sidecars.keys.map TrashName.sidecar).Nodup :=
    trash.sidecars.nodup.map fun _ _ => TrashName.sidecar.inj
  rw [names, h, List.map_nil, List.append_nil]
  refine List.Nodup.append (List.Nodup.append htemporaries hpayloads ?_) hsidecars ?_
  · intro name hfirst hsecond
    simp only [List.mem_map] at hfirst hsecond
    obtain ⟨_, -, rfl⟩ := hfirst
    obtain ⟨_, -, heq⟩ := hsecond
    cases heq
  · intro name hfirst hsecond
    simp only [List.mem_append, List.mem_map] at hfirst hsecond
    obtain ⟨_, -, rfl⟩ := hsecond
    rcases hfirst with ⟨_, -, heq⟩ | ⟨_, -, heq⟩ <;> cases heq

/-- Every order of all the names is possible. -/
theorem lists_of_perm (hstrays : trash.strays = []) {order : List TrashName}
    (h : order.Perm trash.names) : trash.Lists order :=
  ⟨h.nodup_iff.mpr (names_nodup hstrays), fun _ hname => h.mem_iff.mp hname,
    fun _ hname => .inl (h.mem_iff.mpr hname)⟩

/-! ### Interruptions keep the directory intact -/

theorem Intact.insertTemporary (h : trash.Intact) (id : TrashId) :
    { trash with temporaries := trash.temporaries.insert id .file }.Intact := by
  refine ⟨h.strays, fun other type htype => ?_, h.sidecar, h.payload⟩
  by_cases hother : other = id
  · subst hother
    exact (Option.some.inj ((KeyedMap.get?_insert_self _ _ _).symm.trans htype)).symm
  · exact h.temporary other type ((KeyedMap.get?_insert_ne _ hother _).symm.trans htype)

theorem Intact.writeSidecar (h : trash.Intact) {sidecar : Sidecar}
    (hreadable : sidecar.Readable sidecar.id) : (trash.writeSidecar sidecar).Intact := by
  refine ⟨h.strays, h.temporary, fun other stored hstored => ?_, fun other entry hentry => ?_⟩
  · by_cases hother : other = sidecar.id
    · subst hother
      obtain rfl := Option.some.inj ((KeyedMap.get?_insert_self _ _ _).symm.trans hstored)
      exact ⟨sidecar, rfl, hreadable⟩
    · exact h.sidecar other stored ((KeyedMap.get?_insert_ne _ hother _).symm.trans hstored)
  · by_cases hother : other = sidecar.id
    · subst hother
      simp [TrashDirectory.writeSidecar]
    · rw [TrashDirectory.writeSidecar, KeyedMap.get?_insert_ne _ hother]
      exact h.payload other entry hentry

theorem Intact.eraseSidecar (h : trash.Intact) {id : TrashId} (hpayload : trash.payloads.get? id = none) :
    { trash with sidecars := trash.sidecars.erase id }.Intact := by
  refine ⟨h.strays, h.temporary, fun other stored hstored => ?_, fun other entry hentry => ?_⟩
  · exact h.sidecar other stored (KeyedMap.get?_of_erase hstored)
  · have hother : other ≠ id := by
      rintro rfl
      cases hpayload.symm.trans hentry
    rw [KeyedMap.get?_erase_ne _ hother]
    exact h.payload other entry hentry

theorem Intact.insertPayload (h : trash.Intact) {id : TrashId} (hsidecar : trash.sidecars.get? id ≠ none)
    (entry : Entry) : { trash with payloads := trash.payloads.insert id entry }.Intact := by
  refine ⟨h.strays, h.temporary, h.sidecar, fun other found hfound => ?_⟩
  by_cases hother : other = id
  · rw [hother]
    exact hsidecar
  · exact h.payload other found ((KeyedMap.get?_insert_ne _ hother _).symm.trans hfound)

theorem Intact.erasePayload (h : trash.Intact) (id : TrashId) :
    { trash with payloads := trash.payloads.erase id }.Intact :=
  ⟨h.strays, h.temporary, h.sidecar, fun other entry hentry =>
    h.payload other entry (KeyedMap.get?_of_erase hentry)⟩

theorem Intact.removeSidecar (h : trash.Intact) {id : TrashId}
    (hpayload : trash.payloads.get? id = none) (faults : Faults) (count : ℕ) :
    (trash.removeSidecar faults id count).1.Intact := by
  unfold TrashDirectory.removeSidecar
  split
  · exact h
  · exact h.eraseSidecar hpayload

theorem Intact.removePayload (h : trash.Intact) {id : TrashId} (hsidecar : trash.sidecars.get? id ≠ none)
    (faults : Faults) (limit : ℕ) : (trash.removePayload faults id limit).1.Intact := by
  have hremoved (count : ℕ) :
      ({ trash with payloads := trash.payloads.erase id }.removeSidecar faults id count).1.Intact :=
    (h.erasePayload id).removeSidecar (KeyedMap.get?_erase_self _ _) faults count
  unfold TrashDirectory.removePayload
  split
  · rename_i hnone
    exact h.removeSidecar hnone faults 0
  · split
    · exact h
    · split
      · exact h
      · split
        · exact h
        · exact hremoved 1
  · split
    · exact h
    · split
      dsimp only
      split
      · exact h.insertPayload hsidecar _
      · split
        · exact h.insertPayload hsidecar _
        · split
          · exact h.insertPayload hsidecar _
          · exact hremoved _

/-- An interrupted purge leaves the directory intact. -/
theorem Intact.purge (h : trash.Intact) (faults : Faults) (id : TrashId) (limit : ℕ) :
    (trash.purge faults id limit).1.Intact := by
  unfold TrashDirectory.purge
  split
  · exact h
  · split
    · exact h
    · rename_i sidecar hread
      obtain ⟨hfound, hreadable⟩ := readSidecar_eq_ok.mp hread
      obtain rfl := hreadable.id_eq
      have hmarked : (trash.writeSidecar { sidecar with state := .purging }).Intact :=
        h.writeSidecar ⟨rfl, hreadable.schema, hreadable.path, hreadable.kind, hreadable.deadline⟩
      split
      · exact h
      · split
        · exact h
        · dsimp only
          split
          · split
            · exact h
            · exact hmarked
          · split
            · exact h.removePayload (by simp [hfound]) faults limit
            · exact hmarked.removePayload (by simp [TrashDirectory.writeSidecar]) faults limit

theorem removeSidecar_fileIds (faults : Faults) (trash : TrashDirectory) (id : TrashId) (count : ℕ) :
    (trash.removeSidecar faults id count).1.fileIds = trash.fileIds := by
  unfold TrashDirectory.removeSidecar
  split <;> rfl

/-- An interrupted removal leaves entries that were there. -/
theorem removePayload_fileIds (faults : Faults) (trash : TrashDirectory) (id : TrashId) (limit : ℕ) :
    (trash.removePayload faults id limit).1.fileIds.Subperm trash.fileIds := by
  have herased {entry : Entry} (hentry : trash.payloads.get? id = some entry) (count : ℕ) :
      ({ trash with payloads := trash.payloads.erase id }.removeSidecar faults id count).1.fileIds.Subperm
        trash.fileIds := by
    rw [removeSidecar_fileIds]
    exact (List.sublist_append_right _ _).subperm.trans (fileIds_erasePayload hentry).subperm
  have hkept {stat : Stat} {inside left : Contents}
      (hentry : trash.payloads.get? id = some (.directory stat inside))
      (hleft : left.fileIds.Sublist inside.fileIds) :
      { trash with payloads := trash.payloads.insert id (.directory stat left) }.fileIds.Subperm
        trash.fileIds := by
    refine List.Subperm.trans ?_ (fileIds_erasePayload hentry).subperm
    exact ((hleft.cons_cons stat.fileId).append_right _).subperm
  unfold TrashDirectory.removePayload
  split
  · rw [removeSidecar_fileIds]
  · rename_i hentry
    split
    · exact List.Subperm.refl _
    · split
      · exact List.Subperm.refl _
      · split
        · exact List.Subperm.refl _
        · exact herased hentry 1
  · rename_i stat inside hentry
    split
    · exact List.Subperm.refl _
    · have hleft := Contents.removeTree_fileIds faults.removal limit inside 0 payloadDepth
      split
      rename_i left count result htree
      rw [htree] at hleft
      dsimp only
      split
      · exact hkept hentry hleft
      · split
        · exact hkept hentry hleft
        · split
          · exact hkept hentry hleft
          · exact herased hentry _

theorem purge_fileIds (faults : Faults) (trash : TrashDirectory) (id : TrashId) (limit : ℕ) :
    (trash.purge faults id limit).1.fileIds.Subperm trash.fileIds := by
  unfold TrashDirectory.purge
  split
  · exact List.Subperm.refl _
  · split
    · exact List.Subperm.refl _
    · split
      · exact List.Subperm.refl _
      · split
        · exact List.Subperm.refl _
        · dsimp only
          split
          · split <;> exact List.Subperm.refl _
          · split
            · exact removePayload_fileIds faults trash id limit
            · exact removePayload_fileIds faults (trash.writeSidecar _) id limit

/-! ### Where recovery fails -/

/-- A payload moved in that is not what its sidecar records stops the walk at its sidecar. -/
theorem visitSidecar_mismatch (limit : ℕ) (state : Recovery) {id : TrashId} {sidecar : Sidecar}
    {entry : Entry} (hread : state.trash.readSidecar id = .ok sidecar)
    (hpending : sidecar.state = .pending) (hentry : state.trash.payloads.get? id = some entry)
    (hmismatch : ¬∃ metadata, entry.metadata = .ok metadata ∧ sidecar.kind = some metadata.kind) :
    ∃ error, state.visitSidecar limit id = (state, .error error) := by
  unfold Recovery.visitSidecar payloadMetadata
  rw [hread, hentry]
  dsimp only
  rw [hpending]
  dsimp only
  cases hmetadata : entry.metadata with
  | error error =>
    cases error with
    | notFound => exact absurd hmetadata entry.metadata_ne_notFound
    | _ => exact ⟨_, rfl⟩
  | ok metadata =>
    dsimp only
    cases hitem : sidecar.entry with
    | error error => exact ⟨error, rfl⟩
    | ok item =>
      have hkind : sidecar.kind = some item.kind := by
        obtain ⟨path, -, hitem⟩ := bind_eq_ok.mp hitem
        split at hitem
        · rename_i kind hkind
          obtain rfl := Except.ok.inj hitem
          exact hkind
        · cases hitem
      have hne : metadata.kind ≠ item.kind := fun heq => hmismatch ⟨metadata, hmetadata, heq ▸ hkind⟩
      dsimp only
      rw [if_neg hne]
      exact ⟨_, rfl⟩

/-- A walk that lists the sidecar of an item to be purged and then its payload fails, where the
budget is the number of names: either the sidecar is gone then, or the budget is. -/
theorem walk_purging {limit : ℕ} {id : TrashId} {sidecar : Sidecar} {rest : List TrashName}
    (hread : trash.readSidecar id = .ok sidecar) (hpurging : sidecar.state = .purging)
    (hlimit : 2 ≤ limit) (final : Recovery) (changed : ℕ) :
    Recovery.walk limit (.sidecar id :: .payload id :: rest) ⟨trash, 0, 0⟩ ≠ (final, .ok changed) := by
  have hfirst : ¬(0 + 1 > limit) := by omega
  have hbudget : ¬(0 + 1 = limit) := by omega
  rw [Recovery.walk]
  dsimp only
  rw [if_neg hfirst, Recovery.visit, Recovery.visitSidecar, hread]
  dsimp only
  rw [hpurging]
  dsimp only
  rw [if_neg hbudget]
  cases hpurge : trash.purge .none id (limit - (0 + 1)) with
  | mk after result =>
    cases result with
    | error error => simp
    | ok count =>
      dsimp only
      rw [Recovery.walk]
      dsimp only
      rcases purge_ok hpurge with hgone | hfull
      · rw [Recovery.visit]
        dsimp only
        rw [has, hgone]
        split <;> simp
      · rw [if_pos (by omega)]
        simp

/-- Where an item cannot be recovered, there is an order in which recovery fails although the budget
covers the names. -/
theorem recoverTrash_fails (hintact : trash.Intact) (h : ¬trash.Recoverable) :
    ∃ order, trash.Lists order ∧
      ∀ final changed, trash.recoverTrash trash.names.length order ≠ (final, .ok changed) := by
  obtain ⟨id, sidecar, hread, hnot⟩ : ∃ id sidecar, trash.readSidecar id = .ok sidecar ∧
      ¬ItemRecoverable sidecar (trash.payloads.get? id) := by
    by_contra hall
    exact h fun id sidecar hread => by_contra fun hnot => hall ⟨id, sidecar, hread, hnot⟩
  have hid : .sidecar id ∈ trash.names :=
    has_eq_true.mp (by simp [has, (readSidecar_eq_ok.mp hread).1])
  have hperm := List.perm_cons_erase hid
  have hfails {order : List TrashName}
      (hwalk : ∀ final changed,
        Recovery.walk trash.names.length order ⟨trash, 0, 0⟩ ≠ (final, .ok changed))
      (final : TrashDirectory) (changed : ℕ) :
      trash.recoverTrash trash.names.length order ≠ (final, .ok changed) := by
    unfold recoverTrash
    split
    rename_i state result heq
    intro hresult
    obtain ⟨-, rfl⟩ := Prod.mk.inj hresult
    exact hwalk state changed heq
  cases hstate : sidecar.state with
  | live => exact absurd ⟨by simp [hstate], by simp [hstate]⟩ hnot
  | pending =>
    have hmismatch : ∃ entry, trash.payloads.get? id = some entry ∧
        ¬∃ metadata, entry.metadata = .ok metadata ∧ sidecar.kind = some metadata.kind := by
      by_contra hall
      exact hnot ⟨by simp [hstate], fun _ entry hentry => by_contra fun h => hall ⟨entry, hentry, h⟩⟩
    obtain ⟨entry, hentry, hmismatch⟩ := hmismatch
    refine ⟨_, lists_of_perm hintact.strays hperm.symm, hfails fun final changed => ?_⟩
    obtain ⟨error, hvisit⟩ :=
      visitSidecar_mismatch trash.names.length ⟨trash, 0 + 1, 0⟩ hread hstate hentry hmismatch
    rw [Recovery.walk]
    split
    · simp
    · rw [Recovery.visit, hvisit]
      simp
  | purging =>
    have hpayload : .payload id ∈ trash.names := by
      refine has_eq_true.mp (Option.isSome_iff_ne_none.mpr fun hnone => hnot ⟨fun _ => hnone, ?_⟩)
      simp [hstate]
    have hne : TrashName.payload id ≠ .sidecar id := fun heq => by cases heq
    have hrest : .payload id ∈ trash.names.erase (.sidecar id) := (List.mem_erase_of_ne hne).mpr hpayload
    have hboth := hperm.trans ((List.perm_cons_erase hrest).cons _)
    have hlimit : 2 ≤ trash.names.length := by
      rw [hboth.length_eq, List.length_cons, List.length_cons]
      omega
    exact ⟨_, lists_of_perm hintact.strays hboth.symm, hfails (walk_purging hread hstate hlimit)⟩

end TrashDirectory

end Crabinet.Trash
