import Crabinet.Filesystem.PathText
import Crabinet.Trash.Storage

/-!
# Mutations of a share

The share tree and its Trash, and the mutations that add, move or take entries. Identities
and times that the operating system chooses are arguments. The private `.crabinet`
directory is no part of the tree.
-/

namespace Crabinet.Share

open Crabinet.Filesystem Crabinet.Library Crabinet.Trash

/-- A writable share, and whether the request may write. -/
structure AuthorizedShare where
  root : Contents
  trash : TrashDirectory
  readWrite : Bool

namespace AuthorizedShare

/-- `require_write`. -/
def requireWrite (share : AuthorizedShare) : FsResult Unit :=
  if share.readWrite then .ok () else .error .accessDenied

/-- `metadata`: of a regular file with one name, or of a directory. -/
def metadata (share : AuthorizedShare) (path : VirtualPath) : FsResult EntryMetadata := do
  let entry ← share.root.entryAt path
  match entry.metadata with
  | .ok metadata => return metadata
  | .error _ => .error .notFound

/-- `create_directory`. -/
def createDirectory (share : AuthorizedShare) (path : VirtualPath) (stat : Stat) :
    FsResult AuthorizedShare := do
  share.requireWrite
  let (_, parent, name) ← share.root.openParent path
  if (parent.get? name).isSome then .error .conflict
  else return { share with root := share.root.insertAt path (.directory stat .empty) }

/-- `begin_write` and then `publish_new`, of a staged file. -/
def writeNew (share : AuthorizedShare) (path : VirtualPath) (staged : Stat) :
    FsResult AuthorizedShare := do
  share.requireWrite
  let (_, parent, name) ← share.root.openParent path
  if staged.links ≠ 1 then .error .unsupportedEntry
  else if (parent.get? name).isSome then .error .conflict
  else return { share with root := share.root.insertAt path (.leaf .file staged) }

/-- `begin_write` and then `publish_replacement`, of a staged file. -/
def writeReplacement (share : AuthorizedShare) (path : VirtualPath) (staged : Stat)
    (expected : EntryMetadata) : FsResult AuthorizedShare := do
  share.requireWrite
  let (_, parent, name) ← share.root.openParent path
  if staged.links ≠ 1 then .error .unsupportedEntry
  else
    match parent.get? name with
    | none => .error .notFound
    | some entry => do
      let current ← entry.metadata
      if !current.matchesValidator expected || current.kind ≠ .file then .error .conflict
      else
        return { share with
          root := (share.root.eraseAt path).insertAt path (.leaf .file staged) }

/-- The check of a directory's subtree before it moves. -/
def checkSubtree (share : AuthorizedShare) (path : VirtualPath) (allowance : ℕ) : FsResult ℕ := do
  let directory ← share.root.openDirectory path.components
  directory.ensureSubtreeWithin allowance 0

/-- `move_entry`. -/
def moveEntry (share : AuthorizedShare) (source destination : VirtualPath)
    (expected : EntryMetadata) : FsResult AuthorizedShare := do
  share.requireWrite
  if source = destination then .error .conflict
  else do
    let current ← share.metadata source
    if !current.matchesValidator expected then .error .conflict
    else if current.kind = .directory ∧ destination.startsWith source then .error .invalidPath
    else do
      -- A move to the same or a shallower depth is not checked.
      let _ ← (if current.kind = .directory ∧ destination.depth > source.depth then
        share.checkSubtree source (maxPathDepth - destination.depth) else .ok 0 : FsResult ℕ)
      let (_, sourceParent, sourceName) ← share.root.openParent source
      let (_, destinationParent, destinationName) ← share.root.openParent destination
      match sourceParent.get? sourceName with
      | none => .error .notFound
      | some entry =>
        if (destinationParent.get? destinationName).isSome then .error .conflict
        else
          match entry.metadata with
          | .error error => .error error
          | .ok moved =>
            if !moved.matchesValidator expected then .error .conflict
            else
              return { share with
                root := (share.root.eraseAt source).insertAt destination entry }

/-- The identifier of a new item: the first of the random ones that is not in use. -/
def unusedId (trash : TrashDirectory) (ids : List TrashId) : Option TrashId :=
  (ids.take 16).find? fun id =>
    (trash.payloads.get? id).isNone && (trash.sidecars.get? id).isNone

/-- `move_into_trash`; the state is live for a move to Trash and purging for a removal. -/
def moveIntoTrash (share : AuthorizedShare) (path : VirtualPath) (expected : EntryMetadata)
    (deletedBy : String) (retentionDays : ℕ) (now : ℤ) (ids : List TrashId) (published : State) :
    FsResult (AuthorizedShare × TrashEntry) := do
  share.requireWrite
  if deletedBy.isEmpty || deletedBy.utf8ByteSize > 256 || deletedBy.toList.any isControl ||
      retentionDays == 0 then .error .invalidPath
  else do
    let current ← share.metadata path
    if !current.matchesValidator expected then .error .conflict
    else do
      let _ ← (if current.kind = .directory then
        share.checkSubtree path (maxPathDepth - path.depth) else .ok 0 : FsResult ℕ)
      let (_, parent, name) ← share.root.openParent path
      match unusedId share.trash ids with
      | none => .error .unavailable
      | some id =>
        let sidecar : Sidecar :=
          { schemaVersion := sidecarSchemaVersion, id, originalPath := parseStored path
            kind := some expected.kind, expiresAt := some (now + retentionDays * 86400)
            state := .pending }
        match parent.get? name with
        | none => .error .notFound
        | some payload =>
          let trash := share.trash.writeSidecar sidecar
          let trash := { trash with payloads := trash.payloads.insert id payload }
          let moved ← trash.payloadMetadata id
          if !moved.matchesValidator expected then .error .conflict
          else do
            let trash := trash.writeSidecar { sidecar with state := published }
            let entry ← sidecar.entry
            return ({ share with root := share.root.eraseAt path, trash }, entry)

/-- The check of the name that a restore to another place creates. -/
def checkCreatable (target : VirtualPath) : FsResult Unit := do
  let (_, name) ← target.splitFile
  ensureCreatable name

/-- The height check of a payload before it is restored. -/
def checkPayload (payload : Entry) (allowance : ℕ) : FsResult ℕ :=
  match payload with
  | .directory _ inside => inside.ensureSubtreeWithin allowance 0
  | .leaf _ _ => .ok 0

/-- `restore_trash`. -/
def restoreTrash (share : AuthorizedShare) (id : TrashId) (destination : Option VirtualPath) :
    FsResult (AuthorizedShare × VirtualPath) := do
  share.requireWrite
  let sidecar ← share.trash.readSidecar id
  if sidecar.state ≠ .live then .error .conflict
  else do
    let entry ← sidecar.entry
    let target := destination.getD entry.originalPath
    let _ ← (if destination.isSome then checkCreatable target else .ok () : FsResult Unit)
    let before ← share.trash.payloadMetadata id
    if before.kind ≠ entry.kind then .error .unavailable
    else if target.depth > maxPathDepth then .error .tooDeep
    else
      match share.trash.payloads.get? id with
      | none => .error .notFound
      | some payload => do
        let _ ← checkPayload payload (maxPathDepth - target.depth)
        let (_, parent, name) ← share.root.openParent target
        if (parent.get? name).isSome then .error .conflict
        else
          let trash := { share.trash with
            payloads := share.trash.payloads.erase id
            sidecars := share.trash.sidecars.erase id }
          return ({ share with root := share.root.insertAt target payload, trash }, target)

/-! ### What a successful mutation did -/

variable {share next : AuthorizedShare}

/-- The metadata of a directory is that of a directory entry. -/
theorem metadata_eq_ok {path : VirtualPath} {metadata : EntryMetadata}
    (h : share.metadata path = .ok metadata) :
    ∃ entry, share.root.entryAt path = .ok entry ∧ entry.metadata = .ok metadata := by
  obtain ⟨entry, hentry, h⟩ := bind_eq_ok.mp h
  split at h
  · rename_i found hfound
    obtain rfl := Except.ok.inj h
    exact ⟨entry, hentry, hfound⟩
  · cases h

/-- A directory whose subtree was checked is no higher than its allowance. -/
theorem height_of_checkSubtree {path : VirtualPath} {entry : Entry} {allowance visited : ℕ}
    (hentry : share.root.entryAt path = .ok entry)
    (hcheck : share.checkSubtree path allowance = .ok visited) : entry.height ≤ allowance := by
  obtain ⟨directory, hopen, hcheck⟩ := bind_eq_ok.mp hcheck
  obtain ⟨parents, parent, name, hparent, hname⟩ := Contents.entryAt_eq_ok.mp hentry
  obtain ⟨hsplit, hparent⟩ := Contents.openParent_eq_ok.mp hparent
  rw [VirtualPath.splitFile_eq_ok.mp hsplit] at hopen
  obtain ⟨parent', stat, hparent', hname'⟩ := Contents.openDirectory_append_singleton.mp hopen
  obtain rfl := Except.ok.inj (hparent.symm.trans hparent')
  obtain rfl := Option.some.inj (hname.symm.trans hname')
  exact Contents.height_of_ensureSubtreeWithin hcheck

theorem height_of_checkPayload {payload : Entry} {allowance visited : ℕ}
    (h : checkPayload payload allowance = .ok visited) : payload.height ≤ allowance := by
  cases payload with
  | leaf type stat => exact Nat.zero_le _
  | directory stat inside => exact Contents.height_of_ensureSubtreeWithin h

theorem height_of_file {entry : Entry} {metadata : EntryMetadata} (h : entry.metadata = .ok metadata)
    (hkind : metadata.kind ≠ .directory) : entry.height = 0 := by
  cases entry with
  | leaf type stat => rfl
  | directory stat inside =>
    obtain rfl := Except.ok.inj h
    exact absurd rfl hkind

theorem createDirectory_eq_ok {path : VirtualPath} {stat : Stat}
    (h : share.createDirectory path stat = .ok next) :
    next = { share with root := share.root.insertAt path (.directory stat .empty) } := by
  obtain ⟨-, -, h⟩ := bind_eq_ok.mp h
  obtain ⟨⟨parents, parent, name⟩, -, h⟩ := bind_eq_ok.mp h
  obtain ⟨-, h⟩ := ite_error_eq_ok.mp h
  exact (Except.ok.inj h).symm

theorem writeNew_eq_ok {path : VirtualPath} {staged : Stat}
    (h : share.writeNew path staged = .ok next) :
    next = { share with root := share.root.insertAt path (.leaf .file staged) } := by
  obtain ⟨-, -, h⟩ := bind_eq_ok.mp h
  obtain ⟨⟨parents, parent, name⟩, -, h⟩ := bind_eq_ok.mp h
  obtain ⟨-, h⟩ := ite_error_eq_ok.mp h
  obtain ⟨-, h⟩ := ite_error_eq_ok.mp h
  exact (Except.ok.inj h).symm

theorem writeReplacement_eq_ok {path : VirtualPath} {staged : Stat} {expected : EntryMetadata}
    (h : share.writeReplacement path staged expected = .ok next) :
    (∃ entry, share.root.entryAt path = .ok entry) ∧
      next = { share with root := (share.root.eraseAt path).insertAt path (.leaf .file staged) } := by
  obtain ⟨-, -, h⟩ := bind_eq_ok.mp h
  obtain ⟨⟨parents, parent, name⟩, hparent, h⟩ := bind_eq_ok.mp h
  obtain ⟨-, h⟩ := ite_error_eq_ok.mp h
  split at h
  · cases h
  · rename_i entry hentry
    obtain ⟨current, -, h⟩ := bind_eq_ok.mp h
    obtain ⟨-, h⟩ := ite_error_eq_ok.mp h
    exact ⟨⟨entry, Contents.entryAt_eq_ok.mpr ⟨parents, parent, name, hparent, hentry⟩⟩,
      (Except.ok.inj h).symm⟩

/-- A move takes the entry along; a directory that goes deeper was measured before. -/
theorem moveEntry_eq_ok {source destination : VirtualPath} {expected : EntryMetadata}
    (h : share.moveEntry source destination expected = .ok next) :
    ∃ entry, share.root.entryAt source = .ok entry ∧
      next = { share with root := (share.root.eraseAt source).insertAt destination entry } ∧
      (entry.height = 0 ∨ destination.depth ≤ source.depth ∨
        entry.height ≤ maxPathDepth - destination.depth) := by
  obtain ⟨-, -, h⟩ := bind_eq_ok.mp h
  obtain ⟨-, h⟩ := ite_error_eq_ok.mp h
  obtain ⟨current, hcurrent, h⟩ := bind_eq_ok.mp h
  obtain ⟨-, h⟩ := ite_error_eq_ok.mp h
  obtain ⟨-, h⟩ := ite_error_eq_ok.mp h
  obtain ⟨entry, hentry, hmetadata⟩ := metadata_eq_ok hcurrent
  obtain ⟨visited, hcheck, h⟩ := bind_eq_ok.mp h
  obtain ⟨⟨parents, parent, name⟩, hparent, h⟩ := bind_eq_ok.mp h
  obtain ⟨⟨parents', parent', name'⟩, -, h⟩ := bind_eq_ok.mp h
  dsimp only at h
  split at h
  · cases h
  · rename_i found hfound
    have hsame : share.root.entryAt source = .ok found :=
      Contents.entryAt_eq_ok.mpr ⟨parents, parent, name, hparent, hfound⟩
    obtain rfl := Except.ok.inj (hentry.symm.trans hsame)
    obtain ⟨-, h⟩ := ite_error_eq_ok.mp h
    split at h
    · cases h
    · obtain ⟨-, h⟩ := ite_error_eq_ok.mp h
      refine ⟨entry, hentry, (Except.ok.inj h).symm, ?_⟩
      by_cases hkind : current.kind = .directory
      · by_cases hdeeper : destination.depth > source.depth
        · rw [if_pos ⟨hkind, hdeeper⟩] at hcheck
          exact .inr (.inr (height_of_checkSubtree hentry hcheck))
        · exact .inr (.inl (not_lt.mp hdeeper))
      · exact .inl (height_of_file hmetadata hkind)

/-- A move to Trash takes the entry out of the tree and keeps it as a payload; the payload's own
entries stay within the limit there. -/
theorem moveIntoTrash_eq_ok {path : VirtualPath} {expected : EntryMetadata} {deletedBy : String}
    {retentionDays : ℕ} {now : ℤ} {ids : List TrashId} {published : State} {entry : TrashEntry}
    (h : share.moveIntoTrash path expected deletedBy retentionDays now ids published =
      .ok (next, entry)) :
    ∃ id payload, share.root.entryAt path = .ok payload ∧
      payload.height ≤ maxPathDepth - path.depth ∧ next.root = share.root.eraseAt path ∧
      next.trash.payloads = share.trash.payloads.insert id payload := by
  obtain ⟨-, -, h⟩ := bind_eq_ok.mp h
  obtain ⟨-, h⟩ := ite_error_eq_ok.mp h
  obtain ⟨current, hcurrent, h⟩ := bind_eq_ok.mp h
  obtain ⟨-, h⟩ := ite_error_eq_ok.mp h
  obtain ⟨visited, hcheck, h⟩ := bind_eq_ok.mp h
  obtain ⟨⟨parents, parent, name⟩, hparent, h⟩ := bind_eq_ok.mp h
  obtain ⟨payload, hpayload, hmetadata⟩ := metadata_eq_ok hcurrent
  dsimp only at h
  split at h
  · cases h
  · rename_i id hid
    split at h
    · cases h
    · rename_i found hfound
      have hsame : share.root.entryAt path = .ok found :=
        Contents.entryAt_eq_ok.mpr ⟨parents, parent, name, hparent, hfound⟩
      obtain rfl := Except.ok.inj (hpayload.symm.trans hsame)
      obtain ⟨moved, -, h⟩ := bind_eq_ok.mp h
      obtain ⟨-, h⟩ := ite_error_eq_ok.mp h
      obtain ⟨item, -, h⟩ := bind_eq_ok.mp h
      obtain ⟨rfl, -⟩ := Prod.mk.inj (Except.ok.inj h)
      refine ⟨id, payload, hpayload, ?_, rfl, rfl⟩
      by_cases hkind : current.kind = .directory
      · rw [if_pos hkind] at hcheck
        exact height_of_checkSubtree hpayload hcheck
      · rw [height_of_file hmetadata hkind]
        exact Nat.zero_le _

/-- A restore puts the payload where it fits within the limit. -/
theorem restoreTrash_eq_ok {id : TrashId} {destination : Option VirtualPath} {target : VirtualPath}
    (h : share.restoreTrash id destination = .ok (next, target)) :
    ∃ payload, share.trash.payloads.get? id = some payload ∧
      target.depth + payload.height ≤ maxPathDepth ∧
      next.root = share.root.insertAt target payload ∧
      next.trash.payloads = share.trash.payloads.erase id := by
  obtain ⟨-, -, h⟩ := bind_eq_ok.mp h
  obtain ⟨sidecar, -, h⟩ := bind_eq_ok.mp h
  obtain ⟨-, h⟩ := ite_error_eq_ok.mp h
  obtain ⟨entry, -, h⟩ := bind_eq_ok.mp h
  obtain ⟨-, -, h⟩ := bind_eq_ok.mp h
  obtain ⟨before, -, h⟩ := bind_eq_ok.mp h
  obtain ⟨-, h⟩ := ite_error_eq_ok.mp h
  obtain ⟨hdepth, h⟩ := ite_error_eq_ok.mp h
  split at h
  · cases h
  · rename_i payload hpayload
    obtain ⟨visited, hcheck, h⟩ := bind_eq_ok.mp h
    obtain ⟨⟨parents, parent, name⟩, -, h⟩ := bind_eq_ok.mp h
    obtain ⟨-, h⟩ := ite_error_eq_ok.mp h
    obtain ⟨rfl, rfl⟩ := Prod.mk.inj (Except.ok.inj h)
    have hheight := height_of_checkPayload hcheck
    exact ⟨payload, hpayload, by omega, rfl, rfl⟩

end AuthorizedShare

end Crabinet.Share
