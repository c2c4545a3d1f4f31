import Crabinet.Filesystem.Walks
import Crabinet.Library.KeyedMap

/-!
# Trash storage

The private Trash directory holds, for every item, a payload under the item's identifier
and a sidecar that says where it came from and in which state it is. A sidecar is written
to a temporary file and renamed into place. The directory is a map for each kind of name;
in which order it lists its names is up to the file system.
-/

namespace Crabinet.Trash

open Crabinet.Filesystem Crabinet.Library

/-- `MAX_SIDECAR_BYTES`. -/
def maxSidecarBytes : ℕ := 8192

/-- `SIDECAR_SCHEMA_VERSION`. -/
def sidecarSchemaVersion : ℕ := 1

/-- `PAYLOAD_DEPTH`. -/
def payloadDepth : ℕ := 1

/-- `valid_id`. -/
def validId (id : String) : Bool :=
  id.utf8ByteSize == 32 && id.toList.all fun c => ('0' ≤ c && c ≤ '9') || ('a' ≤ c && c ≤ 'f')

/-- The identifier of an item. -/
@[ext]
structure TrashId where
  text : String
  valid : validId text = true
deriving DecidableEq

/-- `State`. -/
inductive State where
  | pending | live | purging
deriving DecidableEq, Repr

/-- `Sidecar`. The path, the kind and the deadline are what their texts parse to; the deadline is
in seconds since the Unix epoch. -/
structure Sidecar where
  schemaVersion : ℕ
  id : TrashId
  originalPath : FsResult VirtualPath
  kind : Option EntryKind
  expiresAt : Option ℤ
  state : State

/-- What a sidecar must say to be read under an identifier. -/
structure Sidecar.Readable (sidecar : Sidecar) (id : TrashId) : Prop where
  id_eq : sidecar.id = id
  schema : sidecar.schemaVersion = sidecarSchemaVersion
  path : ∃ path, sidecar.originalPath = .ok path
  kind : sidecar.kind.isSome = true
  deadline : sidecar.expiresAt.isSome = true

/-- `TrashEntry`. -/
structure TrashEntry where
  id : TrashId
  originalPath : VirtualPath
  kind : EntryKind

/-- `Sidecar::entry`. -/
def Sidecar.entry (sidecar : Sidecar) : FsResult TrashEntry := do
  let originalPath ← sidecar.originalPath
  match sidecar.kind with
  | some kind => return ⟨sidecar.id, originalPath, kind⟩
  | none => .error .unavailable

/-- A name that no Trash item has. -/
inductive StrayName where
  | text (value : String)
  /-- Not UTF-8. -/
  | undecodable (bytes : List UInt8)
deriving DecidableEq

/-- A name in the Trash directory. -/
inductive TrashName where
  /-- `.tmp-` and an identifier. -/
  | temporary (id : TrashId)
  | payload (id : TrashId)
  /-- `sidecar_name`. -/
  | sidecar (id : TrashId)
  | stray (name : StrayName)
deriving DecidableEq

/-- The Trash directory. A temporary file may turn out to be no regular file, and a sidecar may
turn out to be unreadable. -/
structure TrashDirectory where
  temporaries : KeyedMap TrashId LeafType
  payloads : KeyedMap TrashId Entry
  sidecars : KeyedMap TrashId (Option Sidecar)
  strays : List StrayName

namespace TrashDirectory

/-- The names in the directory. -/
def names (trash : TrashDirectory) : List TrashName :=
  trash.temporaries.keys.map .temporary ++ trash.payloads.keys.map .payload ++
    trash.sidecars.keys.map .sidecar ++ trash.strays.map .stray

/-- Whether a name is in the directory. -/
def has (trash : TrashDirectory) : TrashName → Bool
  | .temporary id => (trash.temporaries.get? id).isSome
  | .payload id => (trash.payloads.get? id).isSome
  | .sidecar id => (trash.sidecars.get? id).isSome
  | .stray name => name ∈ trash.strays

theorem has_eq_true {trash : TrashDirectory} {name : TrashName} :
    trash.has name = true ↔ name ∈ trash.names := by
  cases name <;> simp [has, names, KeyedMap.get?_isSome]

/-- `read_sidecar`. -/
def readSidecar (trash : TrashDirectory) (id : TrashId) : FsResult Sidecar :=
  match trash.sidecars.get? id with
  | none => .error .notFound
  | some none => .error .unavailable
  | some (some sidecar) =>
    if sidecar.id ≠ id then .error .unavailable
    else if sidecar.schemaVersion ≠ sidecarSchemaVersion then .error .unavailable
    else do
      let _ ← sidecar.entry
      match sidecar.expiresAt with
      | some _ => return sidecar
      | none => .error .unavailable

/-- A sidecar is read exactly when it is there and says what it must. -/
theorem readSidecar_eq_ok {trash : TrashDirectory} {id : TrashId} {sidecar : Sidecar} :
    trash.readSidecar id = .ok sidecar ↔
      trash.sidecars.get? id = some (some sidecar) ∧ sidecar.Readable id := by
  unfold readSidecar
  split
  · rename_i hnone
    simp [hnone]
  · rename_i hnone
    simp [hnone]
  · rename_i found hfound
    rw [hfound, ite_error_eq_ok, ite_error_eq_ok, bind_eq_ok]
    simp only [not_not, Sidecar.entry, Option.some.injEq]
    constructor
    · rintro ⟨hid, hschema, entry, hentry, hdeadline⟩
      obtain ⟨path, hpath, hentry⟩ := bind_eq_ok.mp hentry
      split at hdeadline
      · rename_i deadline hsome
        obtain rfl := Except.ok.inj hdeadline
        refine ⟨rfl, hid, hschema, ⟨path, hpath⟩, ?_, by rw [hsome]; rfl⟩
        split at hentry
        · rename_i hkind
          rw [hkind]
          rfl
        · cases hentry
      · cases hdeadline
    · rintro ⟨rfl, hread⟩
      obtain ⟨path, hpath⟩ := hread.path
      obtain ⟨kind, hkind⟩ := Option.isSome_iff_exists.mp hread.kind
      obtain ⟨deadline, hdeadline⟩ := Option.isSome_iff_exists.mp hread.deadline
      refine ⟨hread.id_eq, hread.schema, ⟨found.id, path, kind⟩, ?_, by rw [hdeadline]; rfl⟩
      rw [hpath, ok_bind, hkind]
      rfl

/-- `write_sidecar`, replacing what is there. -/
def writeSidecar (trash : TrashDirectory) (sidecar : Sidecar) : TrashDirectory :=
  { trash with sidecars := trash.sidecars.insert sidecar.id (some sidecar) }

/-- The file identities of all payloads. -/
def fileIds (trash : TrashDirectory) : List ℕ :=
  trash.payloads.entries.flatMap fun payload => payload.2.fileIds

/-- A new payload brings its identities. -/
theorem fileIds_insertPayload {trash : TrashDirectory} {id : TrashId}
    (h : trash.payloads.get? id = none) (entry : Entry) :
    { trash with payloads := trash.payloads.insert id entry }.fileIds =
      entry.fileIds ++ trash.fileIds := by
  have herase := KeyedMap.erase_of_not_mem (KeyedMap.get?_eq_none.mp h)
  simp only [fileIds, KeyedMap.insert, herase, List.flatMap_cons]

/-- A payload that goes takes its identities. -/
theorem fileIds_erasePayload {trash : TrashDirectory} {id : TrashId} {entry : Entry}
    (h : trash.payloads.get? id = some entry) :
    (entry.fileIds ++ { trash with payloads := trash.payloads.erase id }.fileIds).Perm
      trash.fileIds := by
  have hperm := (KeyedMap.entries_perm_of_get? h).flatMap_right
    fun payload : TrashId × Entry => payload.2.fileIds
  rwa [List.flatMap_cons] at hperm

/-- `payload_metadata`. -/
def payloadMetadata (trash : TrashDirectory) (id : TrashId) : FsResult EntryMetadata :=
  match trash.payloads.get? id with
  | none => .error .notFound
  | some entry => entry.metadata

/-- `measure_trash`, over the names in the order in which the directory lists them. -/
def measureTrash (trash : TrashDirectory) : List TrashName → UsageScan → Except UsageError UsageScan
  | [], scan => .ok scan
  | name :: rest, scan => do
    let scan ← scan.visit
    match name with
    | .stray (.undecodable _) => .error (.fs .unsupportedEntry)
    | .payload id =>
      match trash.payloads.get? id with
      | none => .error (.fs .notFound)
      | some (.leaf .file stat) =>
        if stat.links ≠ 1 then .error (.fs .unsupportedEntry)
        else do
          let scan ← scan.charge stat.size
          trash.measureTrash rest scan
      | some (.leaf .other _) => .error (.fs .unsupportedEntry)
      | some (.directory _ inside) => do
        let scan ← scan.charge directoryQuotaBytes
        let scan ← inside.measureDirectory scan payloadDepth
        trash.measureTrash rest scan
    | _ => trash.measureTrash rest scan

/-- Payloads within the depth limit are never too deep to measure. -/
theorem measureTrash_ne_tooDeep {trash : TrashDirectory}
    (h : ∀ id entry, trash.payloads.get? id = some entry → payloadDepth + entry.height ≤ maxPathDepth)
    (names : List TrashName) (scan : UsageScan) :
    trash.measureTrash names scan ≠ .error .tooDeep := by
  induction names generalizing scan with
  | nil => simp [measureTrash]
  | cons name rest ih =>
    unfold measureTrash
    refine bind_ne_error scan.visit_ne_tooDeep fun scan => ?_
    split
    · simp
    · rename_i id
      split
      · simp
      · split
        · simp
        · exact bind_ne_error (scan.charge_ne_tooDeep _) ih
      · simp
      · rename_i stat inside hpayload
        refine bind_ne_error (scan.charge_ne_tooDeep _) fun scan => ?_
        exact bind_ne_error (Contents.measureDirectory_ne_tooDeep (h id _ hpayload) scan) ih
    · exact ih scan

end TrashDirectory

end Crabinet.Trash
