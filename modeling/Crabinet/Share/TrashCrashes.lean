import Crabinet.Share.Mutations
import Crabinet.Trash.Recovery

/-!
# Interrupted Trash operations

A move to Trash, a restore and a purge take several steps of the file system. Each is the
list of the states between its steps, in which a crash may leave the share. The entry that
a move finds need not be the one it checked before.
-/

namespace Crabinet.Share

open Crabinet.Filesystem Crabinet.Library Crabinet.Trash

namespace AuthorizedShare

/-! ### Single steps -/

/-- A sidecar's temporary file is created. -/
def withTemporary (share : AuthorizedShare) (id : TrashId) : AuthorizedShare :=
  { share with trash := { share.trash with temporaries := share.trash.temporaries.insert id .file } }

/-- A temporary file is renamed to a sidecar. -/
def withSidecar (share : AuthorizedShare) (sidecar : Sidecar) : AuthorizedShare :=
  { share with trash := share.trash.writeSidecar sidecar }

/-- A sidecar is removed. -/
def withoutSidecar (share : AuthorizedShare) (id : TrashId) : AuthorizedShare :=
  { share with trash := { share.trash with sidecars := share.trash.sidecars.erase id } }

/-- The entry at a path is renamed to a payload. -/
def takePayload (share : AuthorizedShare) (path : VirtualPath) (id : TrashId) (entry : Entry) :
    AuthorizedShare :=
  { share with
    root := share.root.eraseAt path
    trash := { share.trash with payloads := share.trash.payloads.insert id entry } }

/-- A payload is renamed to a path. -/
def putPayload (share : AuthorizedShare) (path : VirtualPath) (id : TrashId) (entry : Entry) :
    AuthorizedShare :=
  { share with
    root := share.root.insertAt path entry
    trash := { share.trash with payloads := share.trash.payloads.erase id } }

/-- The file identities of the share and of its payloads. -/
def fileIds (share : AuthorizedShare) : List ℕ := share.root.fileIds ++ share.trash.fileIds

/-- The Trash directory is intact, and no file is in two places. -/
structure Sound (share : AuthorizedShare) : Prop where
  intact : share.trash.Intact
  distinct : share.fileIds.Nodup

variable {share : AuthorizedShare}

/-- Taking an entry into Trash moves its identities. -/
theorem fileIds_takePayload {path : VirtualPath} {id : TrashId} {entry : Entry}
    (hentry : share.root.entryAt path = .ok entry) (hunused : share.trash.payloads.get? id = none) :
    (share.takePayload path id entry).fileIds.Perm share.fileIds := by
  rw [fileIds, takePayload, TrashDirectory.fileIds_insertPayload hunused]
  refine List.Perm.trans ?_ ((Contents.fileIds_eraseAt hentry).append_right _)
  rw [← List.append_assoc]
  exact List.perm_append_comm.append_right _

/-- Putting a payload into the share moves its identities. -/
theorem fileIds_putPayload {path : VirtualPath} {id : TrashId} {entry : Entry}
    {parents : List EntryName} {parent : Contents} {name : EntryName}
    (hparent : share.root.openParent path = .ok (parents, parent, name))
    (hentry : share.trash.payloads.get? id = some entry) :
    (share.putPayload path id entry).fileIds.Perm share.fileIds := by
  refine ((Contents.fileIds_insertAt hparent entry).append_right _).trans ?_
  refine List.Perm.trans ?_ ((TrashDirectory.fileIds_erasePayload hentry).append_left _)
  rw [← List.append_assoc]
  exact List.perm_append_comm.append_right _

theorem Sound.withTemporary (h : share.Sound) (id : TrashId) : (share.withTemporary id).Sound :=
  ⟨h.intact.insertTemporary id, h.distinct⟩

theorem Sound.withSidecar (h : share.Sound) {sidecar : Sidecar}
    (hreadable : sidecar.Readable sidecar.id) : (share.withSidecar sidecar).Sound :=
  ⟨h.intact.writeSidecar hreadable, h.distinct⟩

theorem Sound.withoutSidecar (h : share.Sound) {id : TrashId}
    (hpayload : share.trash.payloads.get? id = none) : (share.withoutSidecar id).Sound :=
  ⟨h.intact.eraseSidecar hpayload, h.distinct⟩

theorem Sound.takePayload (h : share.Sound) {path : VirtualPath} {id : TrashId} {entry : Entry}
    (hentry : share.root.entryAt path = .ok entry) (hunused : share.trash.payloads.get? id = none)
    (hsidecar : share.trash.sidecars.get? id ≠ none) : (share.takePayload path id entry).Sound :=
  ⟨h.intact.insertPayload hsidecar entry,
    (fileIds_takePayload hentry hunused).nodup_iff.mpr h.distinct⟩

theorem Sound.putPayload (h : share.Sound) {path : VirtualPath} {id : TrashId} {entry : Entry}
    {parents : List EntryName} {parent : Contents} {name : EntryName}
    (hparent : share.root.openParent path = .ok (parents, parent, name))
    (hentry : share.trash.payloads.get? id = some entry) : (share.putPayload path id entry).Sound :=
  ⟨h.intact.erasePayload id, (fileIds_putPayload hparent hentry).nodup_iff.mpr h.distinct⟩

end AuthorizedShare

/-! ### The operations -/

/-- A move to Trash from its first step on, with what the file system does. -/
structure TrashMove where
  path : VirtualPath
  expected : EntryMetadata
  id : TrashId
  expiresAt : ℤ
  published : State
  temporary : TrashId
  /-- The rename of the entry is refused. -/
  refused : Bool
  /-- The rename back is carried out. -/
  rollsBack : Bool

/-- A restore from its first step on. -/
structure TrashRestore where
  id : TrashId
  target : VirtualPath
  /-- The restored entry is still the one that was checked. -/
  verified : Bool
  /-- The rename back is carried out. -/
  rollsBack : Bool

/-- A purge from its first step on. -/
structure TrashPurge where
  id : TrashId
  limit : ℕ
  faults : Faults
  temporary : TrashId

namespace TrashMove

/-- The sidecar that is written before the entry is moved. -/
def sidecar (move : TrashMove) : Sidecar :=
  { schemaVersion := sidecarSchemaVersion, id := move.id, originalPath := parseStored move.path
    kind := some move.expected.kind, expiresAt := some move.expiresAt, state := .pending }

/-- The steps after the rename of the entry. -/
def movedStates (move : TrashMove) (moved : AuthorizedShare) (entry : Entry) : List AuthorizedShare :=
  match entry.metadata with
  | .error _ => []
  | .ok metadata =>
    if metadata.matchesValidator move.expected then
      [moved.withTemporary move.temporary,
        moved.withSidecar { move.sidecar with state := move.published }]
    else if move.rollsBack then
      [moved.putPayload move.path move.id entry,
        (moved.putPayload move.path move.id entry).withoutSidecar move.id]
    else []

/-- The states between the steps of `move_into_trash`. -/
def states (move : TrashMove) (share : AuthorizedShare) : List AuthorizedShare :=
  let pending := share.withSidecar move.sidecar
  share :: share.withTemporary move.temporary :: pending ::
    match share.root.entryAt move.path with
    | .error _ => [pending.withoutSidecar move.id]
    | .ok entry =>
      if move.refused then [pending.withoutSidecar move.id]
      else
        pending.takePayload move.path move.id entry ::
          move.movedStates (pending.takePayload move.path move.id entry) entry

end TrashMove

/-- The states between the steps of `restore_trash`. -/
def TrashRestore.states (restore : TrashRestore) (share : AuthorizedShare) : List AuthorizedShare :=
  match share.trash.readSidecar restore.id, share.trash.payloads.get? restore.id,
      share.root.openParent restore.target with
  | .ok sidecar, some entry, .ok (_, parent, name) =>
    if sidecar.state ≠ .live ∨ (parent.get? name).isSome then [share]
    else
      let restored := share.putPayload restore.target restore.id entry
      share :: restored ::
        if restore.verified then [restored.withoutSidecar restore.id]
        else if restore.rollsBack then [restored.takePayload restore.target restore.id entry]
        else []
  | _, _, _ => [share]

/-- The states between the steps of `purge`: those after the sidecar's temporary file are the ones
in which a refused step leaves the share. -/
def TrashPurge.states (purge : TrashPurge) (share : AuthorizedShare) : List AuthorizedShare :=
  [share, share.withTemporary purge.temporary,
    { share with trash := (share.trash.purge purge.faults purge.id purge.limit).1 }]

/-- An operation on Trash. -/
inductive TrashOperation where
  | move (move : TrashMove)
  | restore (restore : TrashRestore)
  | purge (purge : TrashPurge)

namespace TrashOperation

/-- The states in which a crash may leave the share. -/
def states (operation : TrashOperation) (share : AuthorizedShare) : List AuthorizedShare :=
  match operation with
  | .move details => details.states share
  | .restore details => details.states share
  | .purge details => details.states share

/-- What the checks before the first step establish: a move has a path that was parsed, and an
identifier that is not in use. -/
def Allowed (operation : TrashOperation) (share : AuthorizedShare) : Prop :=
  match operation with
  | .move details => parseStored details.path = .ok details.path ∧
      share.trash.payloads.get? details.id = none ∧ share.trash.sidecars.get? details.id = none
  | .restore _ => True
  | .purge _ => True

end TrashOperation

/-- A move that succeeded was in the last of its states. -/
theorem moveIntoTrash_mem_states {share next : AuthorizedShare} {path : VirtualPath}
    {expected : EntryMetadata} {deletedBy : String} {retentionDays : ℕ} {now : ℤ}
    {ids : List TrashId} {published : State} {entry : TrashEntry}
    (h : share.moveIntoTrash path expected deletedBy retentionDays now ids published =
      .ok (next, entry)) :
    ∃ move : TrashMove, (TrashOperation.move move).Allowed share ∧ next ∈ move.states share := by
  obtain ⟨-, -, h⟩ := bind_eq_ok.mp h
  obtain ⟨-, h⟩ := ite_error_eq_ok.mp h
  obtain ⟨current, -, h⟩ := bind_eq_ok.mp h
  obtain ⟨-, h⟩ := ite_error_eq_ok.mp h
  obtain ⟨visited, -, h⟩ := bind_eq_ok.mp h
  obtain ⟨⟨parents, parent, name⟩, hparent, h⟩ := bind_eq_ok.mp h
  dsimp only at h
  split at h
  · cases h
  · rename_i id hid
    split at h
    · cases h
    · rename_i found hfound
      have hentry : share.root.entryAt path = .ok found :=
        Contents.entryAt_eq_ok.mpr ⟨parents, parent, name, hparent, hfound⟩
      obtain ⟨moved, hmoved, h⟩ := bind_eq_ok.mp h
      obtain ⟨hmatches, h⟩ := ite_error_eq_ok.mp h
      obtain ⟨item, hitem, h⟩ := bind_eq_ok.mp h
      obtain ⟨rfl, -⟩ := Prod.mk.inj (Except.ok.inj h)
      obtain ⟨stored, hpath, -⟩ := bind_eq_ok.mp hitem
      have hstored : stored = path := by
        unfold parseStored at hpath
        split at hpath
        · cases hpath
        · exact (Except.ok.inj hpath).symm
      have hunused := List.find?_some hid
      simp only [Bool.and_eq_true, Option.isNone_iff_eq_none] at hunused
      have hmetadata : found.metadata = .ok moved := by
        rw [TrashDirectory.payloadMetadata, KeyedMap.get?_insert_self] at hmoved
        exact hmoved
      refine ⟨⟨path, expected, id, now + retentionDays * 86400, published, id, false, false⟩,
        ⟨hstored ▸ hpath, hunused⟩, ?_⟩
      have hsame : moved.matchesValidator expected = true := by simpa using hmatches
      simp only [TrashMove.states, hentry, Bool.false_eq_true, if_false, TrashMove.movedStates,
        hmetadata, hsame, if_true, List.mem_cons]
      exact .inr (.inr (.inr (.inr (.inr (.inl rfl)))))

/-- A restore that succeeded was in the last of its states. -/
theorem restoreTrash_mem_states {share next : AuthorizedShare} {id : TrashId}
    {destination : Option VirtualPath} {target : VirtualPath}
    (h : share.restoreTrash id destination = .ok (next, target)) :
    ∃ restore : TrashRestore, next ∈ restore.states share := by
  obtain ⟨-, -, h⟩ := bind_eq_ok.mp h
  obtain ⟨sidecar, hread, h⟩ := bind_eq_ok.mp h
  obtain ⟨hlive, h⟩ := ite_error_eq_ok.mp h
  obtain ⟨entry, -, h⟩ := bind_eq_ok.mp h
  obtain ⟨-, -, h⟩ := bind_eq_ok.mp h
  obtain ⟨before, -, h⟩ := bind_eq_ok.mp h
  obtain ⟨-, h⟩ := ite_error_eq_ok.mp h
  obtain ⟨-, h⟩ := ite_error_eq_ok.mp h
  split at h
  · cases h
  · rename_i payload hpayload
    obtain ⟨visited, -, h⟩ := bind_eq_ok.mp h
    obtain ⟨⟨parents, parent, name⟩, hparent, h⟩ := bind_eq_ok.mp h
    obtain ⟨hfree, h⟩ := ite_error_eq_ok.mp h
    obtain ⟨rfl, rfl⟩ := Prod.mk.inj (Except.ok.inj h)
    refine ⟨⟨id, destination.getD entry.originalPath, true, false⟩, ?_⟩
    simp only [TrashRestore.states, hread, hpayload, hparent, hlive, hfree, Bool.false_eq_true, or_self,
      if_false, if_true, List.mem_cons]
    exact .inr (.inr (.inl rfl))

/-! ### What a crash leaves -/

open AuthorizedShare

variable {share : AuthorizedShare}

/-- An entry is at its path and no payload, or it is a payload. -/
def Holds (share : AuthorizedShare) (path : VirtualPath) (id : TrashId) (entry : Entry) : Prop :=
  (share.root.entryAt path = .ok entry ∧ share.trash.payloads.get? id = none ∧
      ∀ sidecar, share.trash.readSidecar id = .ok sidecar → sidecar.state ≠ .purging) ∨
    share.trash.payloads.get? id = some entry

theorem TrashMove.readable (move : TrashMove) (hpath : parseStored move.path = .ok move.path)
    (state : State) : ({ move.sidecar with state } : Sidecar).Readable move.id :=
  ⟨rfl, rfl, ⟨move.path, hpath⟩, rfl, rfl⟩

/-- An entry at its path whose item, if there is one, is not to be purged. -/
theorem Holds.atPath {path : VirtualPath} {id : TrashId} {entry : Entry}
    (hentry : share.root.entryAt path = .ok entry) (hpayload : share.trash.payloads.get? id = none)
    (hsidecar : ∀ sidecar, share.trash.sidecars.get? id = some (some sidecar) →
      sidecar.state ≠ .purging) : Holds share path id entry :=
  .inl ⟨hentry, hpayload, fun sidecar hread =>
    hsidecar sidecar (TrashDirectory.readSidecar_eq_ok.mp hread).1⟩

/-- What a crash during the steps after the rename leaves. -/
theorem TrashMove.movedStates_spec {move : TrashMove} {moved : AuthorizedShare} {entry : Entry}
    (hsound : moved.Sound) (hpath : parseStored move.path = .ok move.path)
    (hpayload : moved.trash.payloads.get? move.id = some entry)
    (hsidecar : moved.trash.sidecars.get? move.id = some (some move.sidecar))
    {parents : List EntryName} {parent : Contents} {name : EntryName}
    (hparent : moved.root.openParent move.path = .ok (parents, parent, name)) {crash : AuthorizedShare}
    (hcrash : crash ∈ move.movedStates moved entry) :
    crash.Sound ∧ Holds crash move.path move.id entry := by
  unfold movedStates at hcrash
  split at hcrash
  · cases hcrash
  · split at hcrash
    · simp only [List.mem_cons, List.not_mem_nil, or_false] at hcrash
      rcases hcrash with rfl | rfl
      · exact ⟨hsound.withTemporary _, .inr hpayload⟩
      · exact ⟨hsound.withSidecar (move.readable hpath move.published), .inr hpayload⟩
    · split at hcrash
      · have hback := hsound.putPayload hparent hpayload
        have hentry : (moved.putPayload move.path move.id entry).root.entryAt move.path = .ok entry :=
          Contents.entryAt_insertAt hparent entry
        have hgone : (moved.putPayload move.path move.id entry).trash.payloads.get? move.id = none :=
          KeyedMap.get?_erase_self _ _
        simp only [List.mem_cons, List.not_mem_nil, or_false] at hcrash
        rcases hcrash with rfl | rfl
        · refine ⟨hback, Holds.atPath hentry hgone fun sidecar hfound => ?_⟩
          obtain rfl := Option.some.inj (Option.some.inj (hsidecar.symm.trans hfound))
          nofun
        · refine ⟨hback.withoutSidecar hgone, Holds.atPath hentry hgone fun sidecar hfound => ?_⟩
          cases (KeyedMap.get?_erase_self _ _).symm.trans hfound
      · cases hcrash

/-- A crash during a move leaves the share sound and the entry in one place. -/
theorem TrashMove.crash {move : TrashMove} (hsound : share.Sound)
    (hallowed : (TrashOperation.move move).Allowed share) {crash : AuthorizedShare}
    (hcrash : crash ∈ move.states share) :
    crash.Sound ∧ ∀ entry, share.root.entryAt move.path = .ok entry →
      Holds crash move.path move.id entry := by
  obtain ⟨hpath, hpayload, hsidecar⟩ := hallowed
  have hpending : (share.withSidecar move.sidecar).Sound :=
    hsound.withSidecar (move.readable hpath .pending)
  have hfound : (share.withSidecar move.sidecar).trash.sidecars.get? move.id =
      some (some move.sidecar) := KeyedMap.get?_insert_self _ _ _
  have hundone : ((share.withSidecar move.sidecar).withoutSidecar move.id).Sound ∧
      ∀ entry, share.root.entryAt move.path = .ok entry →
        Holds ((share.withSidecar move.sidecar).withoutSidecar move.id) move.path move.id entry := by
    refine ⟨hpending.withoutSidecar hpayload, fun entry hentry =>
      Holds.atPath hentry hpayload fun sidecar hfound => ?_⟩
    cases (KeyedMap.get?_erase_self _ _).symm.trans hfound
  have hnone {sidecar : Sidecar} (h : share.trash.sidecars.get? move.id = some (some sidecar)) :
      sidecar.state ≠ .purging := by
    rw [hsidecar] at h
    cases h
  unfold states at hcrash
  dsimp only at hcrash
  simp only [List.mem_cons] at hcrash
  rcases hcrash with rfl | rfl | rfl | hcrash
  · exact ⟨hsound, fun entry hentry => Holds.atPath hentry hpayload fun _ => hnone⟩
  · exact ⟨hsound.withTemporary _, fun entry hentry => Holds.atPath hentry hpayload fun _ => hnone⟩
  · refine ⟨hpending, fun entry hentry => Holds.atPath hentry hpayload fun sidecar h => ?_⟩
    obtain rfl := Option.some.inj (Option.some.inj (hfound.symm.trans h))
    nofun
  · split at hcrash
    · obtain rfl := List.mem_singleton.mp hcrash
      exact hundone
    · rename_i entry hentry
      split at hcrash
      · obtain rfl := List.mem_singleton.mp hcrash
        exact hundone
      · have hmoved := hpending.takePayload hentry hpayload (by rw [hfound]; nofun)
        have htaken : ((share.withSidecar move.sidecar).takePayload move.path move.id
            entry).trash.payloads.get? move.id = some entry := KeyedMap.get?_insert_self _ _ _
        obtain ⟨parents, parent, name, hparent⟩ := Contents.openParent_eraseAt hentry
        rcases List.mem_cons.mp hcrash with rfl | hcrash
        · refine ⟨hmoved, fun other hother => .inr ?_⟩
          rw [htaken, Except.ok.inj (hentry.symm.trans hother)]
        · obtain ⟨hcrashed, hholds⟩ :=
            TrashMove.movedStates_spec hmoved hpath htaken hfound hparent hcrash
          refine ⟨hcrashed, fun other hother => ?_⟩
          rw [← Except.ok.inj (hentry.symm.trans hother)]
          exact hholds

/-- A crash during a restore leaves the share sound and the entry in one place. -/
theorem TrashRestore.crash {restore : TrashRestore} (hsound : share.Sound) {crash : AuthorizedShare}
    (hcrash : crash ∈ restore.states share) :
    crash.Sound ∧ ∀ entry, share.trash.payloads.get? restore.id = some entry →
      Holds crash restore.target restore.id entry := by
  have hbefore : share.Sound ∧ ∀ entry, share.trash.payloads.get? restore.id = some entry →
      Holds share restore.target restore.id entry := ⟨hsound, fun _ hentry => .inr hentry⟩
  unfold states at hcrash
  split at hcrash
  · rename_i sidecar entry parents parent name hread hpayload hparent
    obtain ⟨hfound, hreadable⟩ := TrashDirectory.readSidecar_eq_ok.mp hread
    split at hcrash
    · obtain rfl := List.mem_singleton.mp hcrash
      exact hbefore
    · rename_i hrefused
      have hlive : sidecar.state = .live := by_contra fun hne => hrefused (.inl hne)
      have hrestored := hsound.putPayload hparent hpayload
      have hentry : (share.putPayload restore.target restore.id entry).root.entryAt restore.target =
          .ok entry := Contents.entryAt_insertAt hparent entry
      have hgone : (share.putPayload restore.target restore.id entry).trash.payloads.get? restore.id =
          none := KeyedMap.get?_erase_self _ _
      have hsame {other : Entry} (hother : share.trash.payloads.get? restore.id = some other) :
          entry = other := Option.some.inj (hpayload.symm.trans hother)
      simp only [List.mem_cons] at hcrash
      rcases hcrash with rfl | rfl | hcrash
      · exact hbefore
      · refine ⟨hrestored, fun other hother => hsame hother ▸ Holds.atPath hentry hgone ?_⟩
        intro found hother
        obtain rfl := Option.some.inj (Option.some.inj (hfound.symm.trans hother))
        rw [hlive]
        nofun
      · split at hcrash
        · obtain rfl := List.mem_singleton.mp hcrash
          refine ⟨hrestored.withoutSidecar hgone, fun other hother =>
            hsame hother ▸ Holds.atPath hentry hgone fun found hother => ?_⟩
          cases (KeyedMap.get?_erase_self _ _).symm.trans hother
        · split at hcrash
          · obtain rfl := List.mem_singleton.mp hcrash
            refine ⟨hrestored.takePayload hentry hgone (by simp [putPayload, hfound]), fun other hother => ?_⟩
            exact hsame hother ▸ .inr (KeyedMap.get?_insert_self _ _ _)
          · cases hcrash
  · obtain rfl := List.mem_singleton.mp hcrash
    exact hbefore

/-- A crash during a purge leaves the share sound. -/
theorem TrashPurge.crash {purge : TrashPurge} (hsound : share.Sound) {crash : AuthorizedShare}
    (hcrash : crash ∈ purge.states share) : crash.Sound := by
  simp only [states, List.mem_cons, List.not_mem_nil, or_false] at hcrash
  rcases hcrash with rfl | rfl | rfl
  · exact hsound
  · exact hsound.withTemporary _
  · obtain ⟨kept, hperm, hsublist⟩ := (List.subperm_append_left share.root.fileIds).mpr
      (TrashDirectory.purge_fileIds purge.faults share.trash purge.id purge.limit)
    exact ⟨hsound.intact.purge _ _ _, hperm.nodup_iff.mp (hsublist.nodup hsound.distinct)⟩

/-! ### What recovery makes of it -/

/-- An entry is at its path and Trash knows nothing of its item, or it is the payload of a live
item. -/
def HoldsSettled (share : AuthorizedShare) (path : VirtualPath) (id : TrashId) (entry : Entry) : Prop :=
  (share.root.entryAt path = .ok entry ∧ share.trash.payloads.get? id = none ∧
      share.trash.sidecars.get? id = none) ∨
    (share.trash.payloads.get? id = some entry ∧
      ∃ sidecar, share.trash.sidecars.get? id = some (some sidecar) ∧ sidecar.state = .live)

/-- The entry that an operation was about is in one place. -/
def TrashOperation.Kept (operation : TrashOperation) (before after : AuthorizedShare) : Prop :=
  match operation with
  | .move details => ∀ entry, before.root.entryAt details.path = .ok entry →
      HoldsSettled after details.path details.id entry
  | .restore details => ∀ entry, before.trash.payloads.get? details.id = some entry →
      HoldsSettled after details.target details.id entry
  | .purge _ => True

/-- What recovery with a budget promises for a share in which an operation was interrupted. -/
structure Reconciled (operation : TrashOperation) (before crash after : AuthorizedShare) (limit : ℕ) :
    Prop where
  items : ∀ id stored, after.trash.sidecars.get? id = some stored → ∃ sidecar, stored = some sidecar ∧
    ((sidecar.state = .live ∧ ∃ entry, after.trash.payloads.get? id = some entry) ∨
      (sidecar.state = .purging ∧ crash.trash.names.length = limit))
  owned : ∀ id entry, after.trash.payloads.get? id = some entry → after.trash.sidecars.get? id ≠ none
  cleared : ∀ id, after.trash.temporaries.get? id = none
  distinct : after.fileIds.Nodup
  kept : operation.Kept before after

/-- A crash leaves the share sound, and the entry in one place. -/
theorem TrashOperation.crash {operation : TrashOperation} (hsound : share.Sound)
    (hallowed : operation.Allowed share) {crash : AuthorizedShare}
    (hcrash : crash ∈ operation.states share) :
    crash.Sound ∧ match operation with
      | .move details => ∀ entry, share.root.entryAt details.path = .ok entry →
          Holds crash details.path details.id entry
      | .restore details => ∀ entry, share.trash.payloads.get? details.id = some entry →
          Holds crash details.target details.id entry
      | .purge _ => True := by
  cases operation with
  | move details => exact TrashMove.crash hsound hallowed hcrash
  | restore details => exact TrashRestore.crash hsound hcrash
  | purge details => exact ⟨TrashPurge.crash hsound hcrash, trivial⟩

/-- Recovery of a share that can be recovered, after an interruption of any operation, for any order
and any budget that covers the names. -/
theorem recovered_reconciled {operation : TrashOperation} (hsound : share.Sound)
    (hallowed : operation.Allowed share) {crash : AuthorizedShare}
    (hcrash : crash ∈ operation.states share) (hrecoverable : crash.trash.Recoverable)
    {order : List TrashName} (horder : crash.trash.Lists order) {limit : ℕ}
    (hlimit : crash.trash.names.length ≤ limit) :
    ∃ final changed, crash.trash.recoverTrash limit order = (final, .ok changed) ∧
      Reconciled operation share crash { crash with trash := final } limit := by
  obtain ⟨hcrashed, hholds⟩ := TrashOperation.crash hsound hallowed hcrash
  obtain ⟨final, changed, hresult, hpayloads, hcleared, hnone, hitems⟩ :=
    TrashDirectory.recoverTrash_of_recoverable hcrashed.intact hrecoverable horder hlimit
  have hread {id : TrashId} (hid : crash.trash.sidecars.get? id ≠ none) :
      ∃ sidecar, crash.trash.readSidecar id = .ok sidecar := by
    obtain ⟨stored, hstored⟩ := Option.ne_none_iff_exists'.mp hid
    obtain ⟨sidecar, rfl, hreadable⟩ := hcrashed.intact.sidecar id stored hstored
    exact ⟨sidecar, TrashDirectory.readSidecar_eq_ok.mpr ⟨hstored, hreadable⟩⟩
  have hlive {id : TrashId} {entry : Entry} (hentry : crash.trash.payloads.get? id = some entry) :
      ∃ sidecar, final.sidecars.get? id = some (some sidecar) ∧ sidecar.state = .live := by
    obtain ⟨sidecar, hsidecar⟩ := hread (hcrashed.intact.payload id entry hentry)
    have hpurging := (hrecoverable id sidecar hsidecar).purging
    rcases hitems id sidecar hsidecar with hdone | ⟨-, hstate, -⟩
    · rw [hentry] at hdone
      exact ⟨_, hdone, rfl⟩
    · cases hentry.symm.trans (hpurging hstate)
  have hsettled {path : VirtualPath} {id : TrashId} {entry : Entry} (h : Holds crash path id entry) :
      HoldsSettled { crash with trash := final } path id entry := by
    rcases h with ⟨hentry, hpayload, hstate⟩ | hpayload
    · refine .inl ⟨hentry, by rw [← hpayload]; exact congrArg (fun map => map.get? id) hpayloads, ?_⟩
      by_cases hid : crash.trash.sidecars.get? id = none
      · exact hnone id hid
      · obtain ⟨sidecar, hsidecar⟩ := hread hid
        rcases hitems id sidecar hsidecar with hdone | ⟨-, hpurging, -⟩
        · rw [hpayload] at hdone
          exact hdone
        · exact absurd hpurging (hstate sidecar hsidecar)
    · exact .inr ⟨by rw [← hpayload]; exact congrArg (fun map => map.get? id) hpayloads, hlive hpayload⟩
  refine ⟨final, changed, hresult, fun id stored hstored => ?_, fun id entry hentry => ?_, hcleared, ?_, ?_⟩
  · have hid : crash.trash.sidecars.get? id ≠ none := fun h => by
      rw [hnone id h] at hstored
      cases hstored
    obtain ⟨sidecar, hsidecar⟩ := hread hid
    rcases hitems id sidecar hsidecar with hdone | ⟨hkept, hpurging, hfull⟩
    · rw [hdone] at hstored
      cases hpayload : crash.trash.payloads.get? id with
      | none =>
        rw [hpayload] at hstored
        cases hstored
      | some entry =>
        rw [hpayload] at hstored
        obtain rfl := Option.some.inj hstored
        exact ⟨_, rfl, .inl ⟨rfl, entry, by rw [← hpayload]; exact congrArg (fun map => map.get? id) hpayloads⟩⟩
    · obtain rfl := Option.some.inj (hkept.symm.trans hstored)
      exact ⟨sidecar, rfl, .inr ⟨hpurging, hfull⟩⟩
  · rw [hpayloads] at hentry
    obtain ⟨sidecar, hsidecar, -⟩ := hlive hentry
    rw [hsidecar]
    nofun
  · have hids : final.fileIds = crash.trash.fileIds := by
      rw [TrashDirectory.fileIds, hpayloads, TrashDirectory.fileIds]
    have hdistinct := hcrashed.distinct
    rw [fileIds, ← hids] at hdistinct
    exact hdistinct
  · cases operation with
    | move details => exact fun entry hentry => hsettled (hholds entry hentry)
    | restore details => exact fun entry hentry => hsettled (hholds entry hentry)
    | purge details => trivial

/-- After a crash at any step of an operation, recovery succeeds and reconciles the share, for every
order of the names and every budget that covers them, exactly when nothing that is left has still to
be purged and each payload that was moved in has the kind that was recorded. -/
theorem recovery_reconciles_iff {operation : TrashOperation} (hsound : share.Sound)
    (hallowed : operation.Allowed share) {crash : AuthorizedShare}
    (hcrash : crash ∈ operation.states share) :
    (∀ order limit, crash.trash.Lists order → crash.trash.names.length ≤ limit →
      ∃ final changed, crash.trash.recoverTrash limit order = (final, .ok changed) ∧
        Reconciled operation share crash { crash with trash := final } limit) ↔
      crash.trash.Recoverable := by
  constructor
  · intro h
    by_contra hnot
    have hintact := (TrashOperation.crash hsound hallowed hcrash).1.intact
    obtain ⟨order, horder, hfails⟩ := TrashDirectory.recoverTrash_fails hintact hnot
    obtain ⟨final, changed, hresult, -⟩ := h order _ horder le_rfl
    exact hfails final changed hresult
  · intro hrecoverable order limit horder hlimit
    exact recovered_reconciled hsound hallowed hcrash hrecoverable horder hlimit

/-! ### A purge of one item -/

theorem validId_item : validId "0123456789abcdef0123456789abcdef" = true := by decide

/-- A share with one live item, a file. -/
def oneLiveItem : AuthorizedShare where
  root := .empty
  trash :=
    { temporaries := .empty
      payloads := KeyedMap.empty.insert ⟨"0123456789abcdef0123456789abcdef", validId_item⟩
        (.leaf .file ⟨1, none, 1, 1⟩)
      sidecars := KeyedMap.empty.insert ⟨"0123456789abcdef0123456789abcdef", validId_item⟩
        (some ⟨sidecarSchemaVersion, ⟨"0123456789abcdef0123456789abcdef", validId_item⟩,
          .ok ⟨[⟨"f"⟩]⟩, some .file, some 0, .live⟩)
      strays := [] }
  readWrite := true

/-- Its purge is interrupted when the sidecar is marked. -/
def markedPurge : TrashPurge where
  id := ⟨"0123456789abcdef0123456789abcdef", validId_item⟩
  limit := 1000
  faults := { Faults.none with inspect := true }
  temporary := ⟨"0123456789abcdef0123456789abcdee", by decide⟩

theorem oneLiveItem_sound : oneLiveItem.Sound := by
  refine ⟨⟨rfl, nofun, fun id stored hstored => ?_, fun id entry hentry => ?_⟩, by decide⟩
  · obtain ⟨rfl, rfl⟩ := Prod.mk.inj (List.mem_singleton.mp (KeyedMap.get?_eq_some.mp hstored))
    exact ⟨_, rfl, rfl, rfl, ⟨_, rfl⟩, rfl, rfl⟩
  · obtain ⟨rfl, rfl⟩ := Prod.mk.inj (List.mem_singleton.mp (KeyedMap.get?_eq_some.mp hentry))
    decide

/-- The directory lists the sidecar before the payload: with the smallest budget recovery has no
budget for the second name, and with the server's the sidecar is missing by then. -/
theorem recovery_refuses_marked :
    oneLiveItem.Sound ∧ ∃ crash ∈ (TrashOperation.purge markedPurge).states oneLiveItem,
      ∃ order, crash.trash.Lists order ∧ crash.trash.names.length = 2 ∧
        (crash.trash.recoverTrash 2 order).2 = .error .tooLarge ∧
        (crash.trash.recoverTrash 100000 order).2 = .error .unavailable := by
  refine ⟨oneLiveItem_sound, _, List.mem_cons_of_mem _ (List.mem_cons_of_mem _ List.mem_cons_self),
    [.sidecar markedPurge.id, .payload markedPurge.id], ?_, by decide, by rfl, by rfl⟩
  exact TrashDirectory.lists_of_perm rfl (List.Perm.swap _ _ _)

/-- Before the sidecar is marked recovery is fine. -/
theorem recovery_reconciles_unmarked :
    ∃ final changed, (oneLiveItem.withTemporary markedPurge.temporary).trash.recoverTrash 100000
          (oneLiveItem.withTemporary markedPurge.temporary).trash.names = (final, .ok changed) ∧
      Reconciled (.purge markedPurge) oneLiveItem (oneLiveItem.withTemporary markedPurge.temporary)
        { oneLiveItem.withTemporary markedPurge.temporary with trash := final } 100000 := by
  have hallowed : (TrashOperation.purge markedPurge).Allowed oneLiveItem := trivial
  have hreconciles := (recovery_reconciles_iff oneLiveItem_sound hallowed
    (List.mem_cons_of_mem _ List.mem_cons_self)).mpr fun id sidecar hread => by
      have hstored := (TrashDirectory.readSidecar_eq_ok.mp hread).1
      obtain ⟨rfl, heq⟩ := Prod.mk.inj (List.mem_singleton.mp (KeyedMap.get?_eq_some.mp hstored))
      obtain rfl := Option.some.inj heq
      exact ⟨nofun, nofun⟩
  exact hreconciles _ 100000 (TrashDirectory.lists_of_perm rfl (List.Perm.refl _)) (by decide)

end Crabinet.Share
