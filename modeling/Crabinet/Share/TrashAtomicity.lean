import Crabinet.Share.TrashCrashes

/-!
# Refused steps of Trash operations

A move to Trash and a restore with every step that the file system may refuse. Other
requests may change the share between the checks and the first change, so the two are made
on different states of it.
-/

namespace Crabinet.Share

open Crabinet.Filesystem Crabinet.Library Crabinet.Trash

/-- A step that the file system refuses with an error, or carries out. -/
def carryOut : Option FsErrorCode → FsResult Unit
  | some error => .error error
  | none => .ok ()

/-- How an operation ends: the share, whether a failed rollback was logged, and the result. -/
structure Ending (α : Type) where
  share : AuthorizedShare
  stranded : Bool
  result : FsResult α

/-! ### Moves to Trash -/

/-- What the file system does while one identifier is tried for a new item. -/
structure MoveAttempt where
  id : TrashId
  /-- There is no random name. -/
  unnamed : Bool
  /-- The pending sidecar is not written. -/
  write : Option FsErrorCode
  rename : Option FsErrorCode
  /-- The sidecar is not removed after a refused rename. -/
  withdraw : Option FsErrorCode
  /-- The moved payload is not read. -/
  inspect : Option FsErrorCode
  /-- The rename back is refused. -/
  rollback : Bool
  /-- The sidecar is not removed after the rename back. -/
  remove : Option FsErrorCode
  /-- The sidecar is not rewritten. -/
  publish : Option FsErrorCode

/-- A move to Trash, with what the file system does during its checks and its attempts. -/
structure MoveRequest where
  path : VirtualPath
  expected : EntryMetadata
  deletedBy : String
  retentionDays : ℕ
  now : ℤ
  published : State
  metadata : Option FsErrorCode
  subtree : Option FsErrorCode
  parent : Option FsErrorCode
  device : Option FsErrorCode
  attempts : List MoveAttempt

namespace MoveRequest

/-- The checks of `move_into_trash`. -/
def check (move : MoveRequest) (share : AuthorizedShare) : FsResult Unit := do
  share.requireWrite
  if move.deletedBy.isEmpty || move.deletedBy.utf8ByteSize > 256 ||
      move.deletedBy.toList.any isControl || move.retentionDays == 0 then .error .invalidPath
  else do
    carryOut move.metadata
    let current ← share.metadata move.path
    if !current.matchesValidator move.expected then .error .conflict
    else do
      carryOut move.subtree
      let _ ← (if current.kind = .directory then
        share.checkSubtree move.path (maxPathDepth - move.path.depth) else .ok 0 : FsResult ℕ)
      carryOut move.parent
      let _ ← share.root.openParent move.path
      carryOut move.device

/-- The sidecar that is written before the entry is moved. -/
def sidecar (move : MoveRequest) (id : TrashId) : Sidecar :=
  { schemaVersion := sidecarSchemaVersion, id, originalPath := parseStored move.path
    kind := some move.expected.kind, expiresAt := some (move.now + move.retentionDays * 86400)
    state := .pending }

/-- What follows the rename of the entry. -/
def finish (move : MoveRequest) (tried : MoveAttempt) (moved : AuthorizedShare) (entry : Entry) :
    Ending TrashEntry :=
  match tried.inspect with
  | some error => ⟨moved, false, .error error⟩
  | none =>
    match entry.metadata with
    | .error error => ⟨moved, false, .error error⟩
    | .ok metadata =>
      if !metadata.matchesValidator move.expected then
        if tried.rollback then ⟨moved, true, .error .unavailable⟩
        else
          let restored := moved.putPayload move.path tried.id entry
          match tried.remove with
          | some error => ⟨restored, false, .error error⟩
          | none => ⟨restored.withoutSidecar tried.id, false, .error .conflict⟩
      else
        match tried.publish with
        | some error => ⟨moved, false, .error error⟩
        | none =>
          ⟨moved.withSidecar { move.sidecar tried.id with state := move.published }, false,
            (move.sidecar tried.id).entry⟩

/-- One round of the loop of `move_into_trash`; without a result it goes on to another identifier. -/
def round (move : MoveRequest) (share : AuthorizedShare) (tried : MoveAttempt) :
    Option (Ending TrashEntry) :=
  if tried.unnamed then some ⟨share, false, .error .unavailable⟩
  else if (share.trash.payloads.get? tried.id).isSome || (share.trash.sidecars.get? tried.id).isSome then
    none
  else
    match tried.write with
    | some .conflict => none
    | some error => some ⟨share, false, .error error⟩
    | none =>
      let pending := share.withSidecar (move.sidecar tried.id)
      match carryOut tried.rename, share.root.entryAt move.path with
      | .ok _, .ok entry =>
        some (move.finish tried (pending.takePayload move.path tried.id entry) entry)
      | refused, _ =>
        match tried.withdraw, refused with
        | some error, _ => some ⟨pending, false, .error error⟩
        | none, .error error => some ⟨pending.withoutSidecar tried.id, false, .error error⟩
        | none, .ok _ => some ⟨pending.withoutSidecar tried.id, false, .error .notFound⟩

/-- The rounds of `move_into_trash`. -/
def rounds (move : MoveRequest) (share : AuthorizedShare) : List MoveAttempt → Ending TrashEntry
  | [] => ⟨share, false, .error .unavailable⟩
  | tried :: rest =>
    match move.round share tried with
    | some ending => ending
    | none => move.rounds share rest

/-- `move_into_trash`, where the share is `checked` first and is `share` when the entry is moved. -/
def moveIntoTrash (move : MoveRequest) (checked share : AuthorizedShare) : Ending TrashEntry :=
  match move.check checked with
  | .error error => ⟨share, false, .error error⟩
  | .ok _ => move.rounds share (move.attempts.take 16)

end MoveRequest

/-! ### Restores -/

/-- A restore, with what the file system does during it. -/
structure RestoreRequest where
  id : TrashId
  destination : Option VirtualPath
  sidecar : Option FsErrorCode
  payload : Option FsErrorCode
  subtree : Option FsErrorCode
  parent : Option FsErrorCode
  device : Option FsErrorCode
  rename : Option FsErrorCode
  /-- The restored entry is not read. -/
  unread : Bool
  /-- The rename back is refused. -/
  rollback : Bool
  /-- The sidecar is not removed. -/
  remove : Option FsErrorCode

namespace RestoreRequest

/-- The checks of `restore_trash`: the target, and what the payload was like. -/
def check (restore : RestoreRequest) (share : AuthorizedShare) :
    FsResult (VirtualPath × EntryMetadata) := do
  share.requireWrite
  carryOut restore.sidecar
  let sidecar ← share.trash.readSidecar restore.id
  if sidecar.state ≠ .live then .error .conflict
  else do
    let entry ← sidecar.entry
    let target := restore.destination.getD entry.originalPath
    let _ ← (if restore.destination.isSome then AuthorizedShare.checkCreatable target else .ok () :
      FsResult Unit)
    carryOut restore.payload
    let before ← share.trash.payloadMetadata restore.id
    if before.kind ≠ entry.kind then .error .unavailable
    else if target.depth > maxPathDepth then .error .tooDeep
    else do
      carryOut restore.subtree
      let _ ← match share.trash.payloads.get? restore.id with
        | none => .error .notFound
        | some payload => AuthorizedShare.checkPayload payload (maxPathDepth - target.depth)
      carryOut restore.parent
      let _ ← share.root.openParent target
      carryOut restore.device
      return (target, before)

/-- What follows the rename of the payload. -/
def finish (restore : RestoreRequest) (target : VirtualPath) (before : EntryMetadata)
    (restored : AuthorizedShare) (entry : Entry) : Ending VirtualPath :=
  if !restore.unread && entry.metadata.toOption.any (·.matchesValidator before) then
    match restore.remove with
    | some error => ⟨restored, false, .error error⟩
    | none => ⟨restored.withoutSidecar restore.id, false, .ok target⟩
  else if restore.rollback then ⟨restored, true, .error .unavailable⟩
  else ⟨restored.takePayload target restore.id entry, false, .error .conflict⟩

/-- `restore_trash`, where the share is `checked` first and is `share` when the payload is moved. -/
def restoreTrash (restore : RestoreRequest) (checked share : AuthorizedShare) : Ending VirtualPath :=
  match restore.check checked with
  | .error error => ⟨share, false, .error error⟩
  | .ok (target, before) =>
    match carryOut restore.rename, share.trash.payloads.get? restore.id, share.root.openParent target with
    | .error error, _, _ => ⟨share, false, .error error⟩
    | .ok _, some entry, .ok (_, parent, name) =>
      if (parent.get? name).isSome then ⟨share, false, .error .conflict⟩
      else restore.finish target before (share.putPayload target restore.id entry) entry
    | .ok _, _, _ => ⟨share, false, .error .notFound⟩

end RestoreRequest

/-! ### What an error leaves -/

/-- The entry is still at its path and is no payload, and no sidecar is new except a pending one. -/
structure Unmoved (path : VirtualPath) (before after : AuthorizedShare) : Prop where
  entry : after.root.entryAt path = before.root.entryAt path
  payloads : ∀ id, after.trash.payloads.get? id = before.trash.payloads.get? id
  sidecars : ∀ id sidecar, after.trash.sidecars.get? id = some (some sidecar) →
    sidecar.state ≠ .pending → before.trash.sidecars.get? id = some (some sidecar)

/-- Nothing was added to the share, and Trash holds what it held. -/
structure Unrestored (before after : AuthorizedShare) : Prop where
  root : after.root = before.root
  payloads : ∀ id, after.trash.payloads.get? id = before.trash.payloads.get? id
  sidecars : after.trash.sidecars = before.trash.sidecars

/-- An operation that ends with an error has left the share as it was, or logged a failed rollback. -/
def Ending.Atomic {α : Type} (ending : Ending α) (untouched : AuthorizedShare → Prop) : Prop :=
  ∀ error, ending.result = .error error →
    untouched ending.share ∨ (error = .unavailable ∧ ending.stranded = true)

/-- A move leaves the entry at its path when it ends with an error. -/
def MoveRequest.Atomic (move : MoveRequest) (checked share : AuthorizedShare) : Prop :=
  (move.moveIntoTrash checked share).Atomic (Unmoved move.path share)

/-- A restore leaves the item in Trash when it ends with an error. -/
def RestoreRequest.Atomic (restore : RestoreRequest) (checked share : AuthorizedShare) : Prop :=
  (restore.restoreTrash checked share).Atomic (Unrestored share)

theorem Unmoved.refl (path : VirtualPath) (share : AuthorizedShare) : Unmoved path share share :=
  ⟨rfl, fun _ => rfl, fun _ _ h _ => h⟩

/-- An entry that was moved and moved back is where it was. -/
theorem Unmoved.rolledBack {before pending : AuthorizedShare} {path : VirtualPath} {id : TrashId}
    {entry : Entry} (h : Unmoved path before pending) (hentry : pending.root.entryAt path = .ok entry)
    (hunused : pending.trash.payloads.get? id = none) :
    Unmoved path before ((pending.takePayload path id entry).putPayload path id entry) := by
  obtain ⟨parents, parent, name, hparent⟩ := Contents.openParent_eraseAt hentry
  refine ⟨?_, fun other => ?_, h.sidecars⟩
  · rw [← h.entry, hentry]
    exact Contents.entryAt_insertAt hparent entry
  · rw [← h.payloads other]
    by_cases heq : other = id
    · rw [heq, hunused]
      exact KeyedMap.get?_erase_self _ _
    · exact (KeyedMap.get?_erase_ne _ heq).trans (KeyedMap.get?_insert_ne _ heq _)

theorem Unrestored.refl (share : AuthorizedShare) : Unrestored share share := ⟨rfl, fun _ => rfl, rfl⟩

namespace MoveRequest

/-- The condition on what follows the rename: the payload is read and has metadata; where it is the
entry that was checked, the sidecar is rewritten and the path's text can be parsed. -/
def finishes (move : MoveRequest) (tried : MoveAttempt) (entry : Entry) : Bool :=
  tried.inspect.isNone &&
    match entry.metadata with
    | .error _ => false
    | .ok metadata =>
      !metadata.matchesValidator move.expected ||
        (tried.publish.isNone && (parseStored move.path).toOption.isSome)

/-- The condition on the rounds: the one that moves the entry can finish. -/
def roundsSettle (move : MoveRequest) (share : AuthorizedShare) : List MoveAttempt → Bool
  | [] => true
  | tried :: rest =>
    if tried.unnamed then true
    else if (share.trash.payloads.get? tried.id).isSome || (share.trash.sidecars.get? tried.id).isSome then
      move.roundsSettle share rest
    else
      match tried.write with
      | some .conflict => move.roundsSettle share rest
      | some _ => true
      | none =>
        match carryOut tried.rename, share.root.entryAt move.path with
        | .ok _, .ok entry => move.finishes tried entry
        | _, _ => true

/-- The condition on a move. -/
def settles (move : MoveRequest) (checked share : AuthorizedShare) : Bool :=
  match move.check checked with
  | .error _ => true
  | .ok _ => move.roundsSettle share (move.attempts.take 16)

variable {move : MoveRequest} {share : AuthorizedShare} {tried : MoveAttempt}

/-- A pending sidecar under an unused identifier is no change that an error must undo. -/
theorem unmoved_pending (move : MoveRequest) (share : AuthorizedShare) (tried : MoveAttempt) :
    Unmoved move.path share (share.withSidecar (move.sidecar tried.id)) ∧
      Unmoved move.path share ((share.withSidecar (move.sidecar tried.id)).withoutSidecar tried.id) := by
  constructor
  · refine ⟨rfl, fun _ => rfl, fun id sidecar hsidecar hstate => ?_⟩
    by_cases heq : id = tried.id
    · subst heq
      have hself : (share.withSidecar (move.sidecar tried.id)).trash.sidecars.get? tried.id =
          some (some (move.sidecar tried.id)) := KeyedMap.get?_insert_self _ _ _
      rw [hself] at hsidecar
      obtain rfl := Option.some.inj (Option.some.inj hsidecar)
      exact absurd rfl hstate
    · exact (KeyedMap.get?_insert_ne _ heq _).symm.trans hsidecar
  · refine ⟨rfl, fun _ => rfl, fun id sidecar hsidecar _ => ?_⟩
    have hfound := KeyedMap.get?_of_erase hsidecar
    by_cases heq : id = tried.id
    · subst heq
      cases (KeyedMap.get?_erase_self _ _).symm.trans hsidecar
    · exact (KeyedMap.get?_insert_ne _ heq _).symm.trans hfound

/-- A payload that has stayed in Trash is what an error must not leave. -/
theorem not_unmoved {before after : AuthorizedShare} {path : VirtualPath} {id : TrashId} {entry : Entry}
    (hunused : before.trash.payloads.get? id = none)
    (hpayload : after.trash.payloads.get? id = some entry) : ¬Unmoved path before after := by
  intro h
  have hsame := h.payloads id
  rw [hpayload, hunused] at hsame
  cases hsame

theorem not_atomic {α : Type} {after : AuthorizedShare} {error : FsErrorCode}
    {untouched : AuthorizedShare → Prop} (h : ¬untouched after) :
    ¬(⟨after, false, .error error⟩ : Ending α).Atomic untouched := by
  intro hatomic
  rcases hatomic error rfl with huntouched | ⟨-, hstranded⟩
  · exact h huntouched
  · cases hstranded

theorem entry_sidecar (move : MoveRequest) (id : TrashId) :
    (move.sidecar id).entry = (parseStored move.path).map fun path => ⟨id, path, move.expected.kind⟩ := by
  unfold Sidecar.entry sidecar
  cases parseStored move.path <;> rfl

/-- After the rename an error is undone, or reported although the entry has moved. -/
theorem finish_atomic_iff {entry : Entry} (hentry : share.root.entryAt move.path = .ok entry)
    (hunused : share.trash.payloads.get? tried.id = none) :
    (move.finish tried ((share.withSidecar (move.sidecar tried.id)).takePayload move.path tried.id entry)
      entry).Atomic (Unmoved move.path share) ↔ move.finishes tried entry = true := by
  obtain ⟨hpending, hwithdrawn⟩ := unmoved_pending move share tried
  have hmoved : ¬Unmoved move.path share
      ((share.withSidecar (move.sidecar tried.id)).takePayload move.path tried.id entry) :=
    not_unmoved hunused (KeyedMap.get?_insert_self _ _ _)
  have hback := hpending.rolledBack hentry hunused
  unfold finish finishes
  cases tried.inspect with
  | some error => exact iff_of_false (not_atomic hmoved) Bool.false_ne_true
  | none =>
    cases entry.metadata with
    | error error => exact iff_of_false (not_atomic hmoved) Bool.false_ne_true
    | ok metadata =>
      cases hmatches : metadata.matchesValidator move.expected with
      | false =>
        refine iff_of_true (fun error herror => ?_) (by simp [hmatches])
        simp only [hmatches, Bool.not_false, if_true] at herror ⊢
        cases hrollback : tried.rollback with
        | true =>
          rw [hrollback] at herror
          exact .inr ⟨(Except.error.inj herror).symm, rfl⟩
        | false =>
          refine .inl ?_
          cases tried.remove with
          | some _ => exact hback
          | none => exact ⟨hback.entry, hback.payloads, hwithdrawn.sidecars⟩
      | true =>
        simp only [hmatches, Bool.not_true, Bool.false_eq_true, if_false, Option.isNone_none,
          Bool.true_and, Bool.false_or]
        cases tried.publish with
        | some error => exact iff_of_false (not_atomic hmoved) Bool.false_ne_true
        | none =>
          simp only [Option.isNone_none, Bool.true_and]
          rw [entry_sidecar]
          cases parseStored move.path with
          | ok path => exact iff_of_true nofun rfl
          | error error =>
            exact iff_of_false
              (not_atomic (not_unmoved hunused (KeyedMap.get?_insert_self _ _ _)))
              Bool.false_ne_true

/-- A round goes on to the next one, or ends as its condition says. -/
theorem round_cases (move : MoveRequest) (share : AuthorizedShare) (tried : MoveAttempt)
    (rest : List MoveAttempt) :
    (move.round share tried = none ∧
      move.roundsSettle share (tried :: rest) = move.roundsSettle share rest) ∨
    ∃ ending, move.round share tried = some ending ∧
      (ending.Atomic (Unmoved move.path share) ↔ move.roundsSettle share (tried :: rest) = true) := by
  have hunmoved := Unmoved.refl move.path share
  obtain ⟨hpending, hwithdrawn⟩ := unmoved_pending move share tried
  rw [round, roundsSettle]
  cases tried.unnamed with
  | true => exact .inr ⟨_, rfl, iff_of_true (fun _ _ => .inl hunmoved) rfl⟩
  | false =>
    simp only [Bool.false_eq_true, if_false]
    split
    · exact .inl ⟨rfl, rfl⟩
    · rename_i hunused
      rw [Bool.or_eq_true, not_or, Option.not_isSome_iff_eq_none] at hunused
      cases tried.write with
      | some error =>
        cases error with
        | conflict => exact .inl ⟨rfl, rfl⟩
        | _ => exact .inr ⟨_, rfl, iff_of_true (fun _ _ => .inl hunmoved) rfl⟩
      | none =>
        cases hrename : carryOut tried.rename with
        | error error =>
          refine .inr ?_
          cases tried.withdraw with
          | some _ => exact ⟨_, rfl, iff_of_true (fun _ _ => .inl hpending) rfl⟩
          | none => exact ⟨_, rfl, iff_of_true (fun _ _ => .inl hwithdrawn) rfl⟩
        | ok _ =>
          cases hentry : share.root.entryAt move.path with
          | ok entry => exact .inr ⟨_, rfl, finish_atomic_iff hentry hunused.1⟩
          | error error =>
            refine .inr ?_
            cases tried.withdraw with
            | some _ => exact ⟨_, rfl, iff_of_true (fun _ _ => .inl hpending) rfl⟩
            | none => exact ⟨_, rfl, iff_of_true (fun _ _ => .inl hwithdrawn) rfl⟩

theorem rounds_atomic_iff (move : MoveRequest) (share : AuthorizedShare) (attempts : List MoveAttempt) :
    (move.rounds share attempts).Atomic (Unmoved move.path share) ↔
      move.roundsSettle share attempts = true := by
  induction attempts with
  | nil => exact iff_of_true (fun _ _ => .inl (Unmoved.refl _ _)) rfl
  | cons tried rest ih =>
    unfold rounds
    rcases move.round_cases share tried rest with ⟨hnone, hsettles⟩ | ⟨ending, hsome, hatomic⟩
    · rw [hnone, hsettles]
      exact ih
    · rw [hsome]
      exact hatomic

theorem atomic_iff_settles (move : MoveRequest) (checked share : AuthorizedShare) :
    move.Atomic checked share ↔ move.settles checked share = true := by
  unfold Atomic moveIntoTrash settles
  split
  · exact iff_of_true (fun _ _ => .inl (Unmoved.refl _ _)) rfl
  · exact move.rounds_atomic_iff share _

end MoveRequest

namespace RestoreRequest

/-- The condition on a restore: where the payload was moved and found to be the one that was checked,
the sidecar is removed. -/
def settles (restore : RestoreRequest) (checked share : AuthorizedShare) : Bool :=
  match restore.check checked with
  | .error _ => true
  | .ok (target, before) =>
    match carryOut restore.rename, share.trash.payloads.get? restore.id, share.root.openParent target with
    | .ok _, some entry, .ok (_, parent, name) =>
      (parent.get? name).isSome || restore.remove.isNone ||
        !(!restore.unread && entry.metadata.toOption.any (·.matchesValidator before))
    | _, _, _ => true

theorem atomic_iff_settles (restore : RestoreRequest) (checked share : AuthorizedShare) :
    restore.Atomic checked share ↔ restore.settles checked share = true := by
  have hrefl := Unrestored.refl share
  unfold Atomic restoreTrash settles
  split
  · exact iff_of_true (fun _ _ => .inl hrefl) rfl
  · rename_i target before _
    cases carryOut restore.rename with
    | error error => exact iff_of_true (fun _ _ => .inl hrefl) rfl
    | ok _ =>
      cases hpayload : share.trash.payloads.get? restore.id with
      | none => exact iff_of_true (fun _ _ => .inl hrefl) rfl
      | some entry =>
        cases hparent : share.root.openParent target with
        | error error => exact iff_of_true (fun _ _ => .inl hrefl) rfl
        | ok found =>
          obtain ⟨parents, parent, name⟩ := found
          dsimp only
          split
          · rename_i hthere
            exact iff_of_true (fun _ _ => .inl hrefl) (by rw [hthere]; rfl)
          · rename_i hfree
            rw [Bool.eq_false_iff.mpr hfree, Bool.false_or]
            have hrestored : ¬Unrestored share (share.putPayload target restore.id entry) := by
              intro h
              have hsame := h.payloads restore.id
              rw [hpayload] at hsame
              cases (KeyedMap.get?_erase_self _ _).symm.trans hsame
            have hback : Unrestored share
                ((share.putPayload target restore.id entry).takePayload target restore.id entry) := by
              refine ⟨Contents.eraseAt_insertAt _ _ _, fun other => ?_, rfl⟩
              by_cases heq : other = restore.id
              · rw [heq, hpayload]
                exact KeyedMap.get?_insert_self _ _ _
              · exact (KeyedMap.get?_insert_ne _ heq _).trans (KeyedMap.get?_erase_ne _ heq)
            unfold finish
            split
            · rename_i hverified
              rw [hverified]
              cases restore.remove with
              | some error => exact iff_of_false (MoveRequest.not_atomic hrestored) Bool.false_ne_true
              | none => exact iff_of_true nofun rfl
            · rename_i hchanged
              rw [Bool.eq_false_iff.mpr hchanged, Bool.not_false, Bool.or_true]
              split
              · exact iff_of_true (fun error herror => .inr ⟨(Except.error.inj herror).symm, rfl⟩) rfl
              · exact iff_of_true (fun _ _ => .inl hback) rfl

end RestoreRequest

/-! ### Nothing refused -/

/-- An attempt in which every step is carried out. -/
def quietAttempt (id : TrashId) : MoveAttempt := ⟨id, false, none, none, none, none, false, none, none⟩

/-- Nothing is refused during a move. -/
structure MoveRequest.Quiet (move : MoveRequest) (ids : List TrashId) : Prop where
  metadata : move.metadata = none
  subtree : move.subtree = none
  parent : move.parent = none
  device : move.device = none
  attempts : move.attempts = ids.map quietAttempt

/-- Without refused steps the rounds take the first unused identifier. -/
theorem MoveRequest.rounds_quiet {move : MoveRequest} {share : AuthorizedShare} {entry : Entry}
    (hentry : share.root.entryAt move.path = .ok entry) {ids : List TrashId} {id : TrashId}
    (hid : ids.find? (fun id => (share.trash.payloads.get? id).isNone &&
      (share.trash.sidecars.get? id).isNone) = some id) :
    move.rounds share (ids.map quietAttempt) = move.finish (quietAttempt id)
      ((share.withSidecar (move.sidecar id)).takePayload move.path id entry) entry := by
  induction ids with
  | nil => cases hid
  | cons first rest ih =>
    rw [List.map_cons, rounds, round]
    rw [List.find?_cons] at hid
    cases hpayload : share.trash.payloads.get? first with
    | some payload =>
      rw [hpayload] at hid
      simpa [quietAttempt, hpayload] using ih hid
    | none =>
      cases hsidecar : share.trash.sidecars.get? first with
      | some sidecar =>
        rw [hpayload, hsidecar] at hid
        simpa [quietAttempt, hpayload, hsidecar] using ih hid
      | none =>
        rw [hpayload, hsidecar] at hid
        obtain rfl := Option.some.inj hid
        simp [quietAttempt, hpayload, hsidecar, carryOut, hentry]

/-- Without refused steps a move that succeeds in the plain model is the same here. -/
theorem MoveRequest.moveIntoTrash_quiet {move : MoveRequest} {share next : AuthorizedShare}
    {ids : List TrashId} {item : TrashEntry} (hquiet : move.Quiet ids)
    (h : share.moveIntoTrash move.path move.expected move.deletedBy move.retentionDays move.now ids
      move.published = .ok (next, item)) :
    move.moveIntoTrash share share = ⟨next, false, .ok item⟩ := by
  obtain ⟨_, hwrite, h⟩ := bind_eq_ok.mp h
  obtain ⟨hvalid, h⟩ := ite_error_eq_ok.mp h
  obtain ⟨current, hcurrent, h⟩ := bind_eq_ok.mp h
  obtain ⟨hexpected, h⟩ := ite_error_eq_ok.mp h
  obtain ⟨visited, hvisited, h⟩ := bind_eq_ok.mp h
  obtain ⟨⟨parents, parent, name⟩, hparent, h⟩ := bind_eq_ok.mp h
  have hcheck : move.check share = .ok () := by
    simp only [check, hwrite, ok_bind, hquiet.metadata, hquiet.subtree, hquiet.parent, hquiet.device,
      carryOut, hcurrent, hvisited, hparent, if_neg hvalid, if_neg hexpected]
  dsimp only at h
  split at h
  · cases h
  · rename_i id hid
    split at h
    · cases h
    · rename_i entry hfound
      have hentry : share.root.entryAt move.path = .ok entry :=
        Contents.entryAt_eq_ok.mpr ⟨parents, parent, name, hparent, hfound⟩
      obtain ⟨moved, hmoved, h⟩ := bind_eq_ok.mp h
      obtain ⟨hmatches, h⟩ := ite_error_eq_ok.mp h
      obtain ⟨result, hresult, h⟩ := bind_eq_ok.mp h
      obtain ⟨rfl, rfl⟩ := Prod.mk.inj (Except.ok.inj h)
      have hmetadata : entry.metadata = .ok moved := by
        rw [TrashDirectory.payloadMetadata, KeyedMap.get?_insert_self] at hmoved
        exact hmoved
      rw [moveIntoTrash, hcheck, hquiet.attempts, ← List.map_take]
      dsimp only
      rw [rounds_quiet hentry hid, finish]
      simp only [quietAttempt, hmetadata, if_neg hmatches]
      exact congrArg (Ending.mk _ false) hresult

/-- A restore during which nothing is refused. -/
def quietRestore (id : TrashId) (destination : Option VirtualPath) : RestoreRequest :=
  ⟨id, destination, none, none, none, none, none, none, false, false, none⟩

/-- Without refused steps a restore that succeeds in the plain model is the same here. -/
theorem RestoreRequest.restoreTrash_quiet {share next : AuthorizedShare} {id : TrashId}
    {destination : Option VirtualPath} {target : VirtualPath}
    (h : share.restoreTrash id destination = .ok (next, target)) :
    (quietRestore id destination).restoreTrash share share = ⟨next, false, .ok target⟩ := by
  obtain ⟨_, hwrite, h⟩ := bind_eq_ok.mp h
  obtain ⟨sidecar, hread, h⟩ := bind_eq_ok.mp h
  obtain ⟨hlive, h⟩ := ite_error_eq_ok.mp h
  obtain ⟨entry, hentry, h⟩ := bind_eq_ok.mp h
  obtain ⟨_, hcreatable, h⟩ := bind_eq_ok.mp h
  obtain ⟨before, hbefore, h⟩ := bind_eq_ok.mp h
  obtain ⟨hkind, h⟩ := ite_error_eq_ok.mp h
  obtain ⟨hdepth, h⟩ := ite_error_eq_ok.mp h
  split at h
  · cases h
  · rename_i payload hpayload
    obtain ⟨visited, hvisited, h⟩ := bind_eq_ok.mp h
    obtain ⟨⟨parents, parent, name⟩, hparent, h⟩ := bind_eq_ok.mp h
    obtain ⟨hfree, h⟩ := ite_error_eq_ok.mp h
    obtain ⟨rfl, rfl⟩ := Prod.mk.inj (Except.ok.inj h)
    have hcheck : (quietRestore id destination).check share =
        .ok (destination.getD entry.originalPath, before) := by
      simp only [check, quietRestore, carryOut, hwrite, hread, hentry, hbefore, hpayload,
        hvisited, hparent, ok_bind, if_neg hlive, if_neg hkind, if_neg hdepth]
      exact bind_eq_ok.mpr ⟨_, hcreatable, rfl⟩
    have hmetadata : payload.metadata = .ok before := by
      rw [TrashDirectory.payloadMetadata, hpayload] at hbefore
      exact hbefore
    have hverified : before.matchesValidator before = true :=
      (EntryMetadata.matchesValidator_iff before before).mpr rfl
    have hfinish : (!(quietRestore id destination).unread &&
        payload.metadata.toOption.any (·.matchesValidator before)) = true := by
      rw [hmetadata]
      exact hverified
    rw [restoreTrash, hcheck]
    simp only [quietRestore, carryOut, hpayload, hparent, if_neg hfree]
    rw [finish]
    exact if_pos hfinish

/-- Moves to Trash and restores are atomic on error exactly where no step after the rename is refused
that is neither undone nor passed over. -/
theorem trash_moves_atomic_iff (move : MoveRequest) (restore : RestoreRequest)
    (checked share : AuthorizedShare) :
    (move.Atomic checked share ↔ move.settles checked share = true) ∧
      (restore.Atomic checked share ↔ restore.settles checked share = true) :=
  ⟨move.atomic_iff_settles checked share, restore.atomic_iff_settles checked share⟩

/-! ### One file -/

def fileId : TrashId := ⟨"00000000000000000000000000000005", by decide⟩

/-- A share with a file in it. -/
def oneFile : AuthorizedShare :=
  ⟨.leaf ⟨"f"⟩ .file ⟨1, none, 1, 1⟩ .empty, ⟨.empty, .empty, .empty, []⟩, true⟩

/-- The file is moved to Trash, but its sidecar cannot be rewritten. -/
def unpublishedMove : MoveRequest :=
  ⟨⟨[⟨"f"⟩]⟩, ⟨.file, 1, none, 1⟩, "user", 30, 0, .live, none, none, none, none,
    [{ quietAttempt fileId with publish := some .unavailable }]⟩

/-- The file is moved back, but its sidecar cannot be removed. -/
def unremovedRestore : RestoreRequest :=
  { quietRestore fileId none with remove := some .unavailable }

/-- The same share with the file in Trash. -/
def oneTrashedFile : AuthorizedShare :=
  ⟨.empty, ⟨.empty, KeyedMap.empty.insert fileId (.leaf .file ⟨1, none, 1, 1⟩),
    KeyedMap.empty.insert fileId
      (some ⟨sidecarSchemaVersion, fileId, .ok ⟨[⟨"f"⟩]⟩, some .file, some 2592000, .live⟩), []⟩, true⟩

/-- Both report an error although the file has moved for good. -/
theorem trash_moves_not_atomic :
    ¬unpublishedMove.Atomic oneFile oneFile ∧
      ¬unremovedRestore.Atomic oneTrashedFile oneTrashedFile := by
  constructor
  · intro h
    rcases h .unavailable (by rfl) with hunmoved | ⟨-, hstranded⟩
    · have hpayload := hunmoved.payloads fileId
      cases hpayload
    · cases hstranded
  · intro h
    rcases h .unavailable (by rfl) with hunrestored | ⟨-, hstranded⟩
    · have hpayload := hunrestored.payloads fileId
      cases hpayload
    · cases hstranded

end Crabinet.Share
