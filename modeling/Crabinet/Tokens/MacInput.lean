import Crabinet.Filesystem.PathText
import Crabinet.Library.Framing
import Mathlib.Data.Set.Function

/-!
# What the cursor key authenticates

Directory cursors, Trash cursors and metadata validators are authenticated with one key.
Each kind writes its own message from length-prefixed strings and fields of fixed width. A
message determines the kind and everything that was put into it.
-/

namespace Crabinet.Tokens

open Crabinet.Filesystem Crabinet.Library

/-- What `validate_identifier` accepts. -/
def isIdentifier (value : String) : Bool :=
  1 ≤ value.utf8ByteSize && value.utf8ByteSize ≤ 64 &&
    (value.toList.all fun c => isAsciiAlphanumeric c || c == '-' || c == '_' || c == '.') &&
    value != "." && value != ".."

/-- The name of a configured user, which is the subject of the user's requests. -/
structure Username where
  value : String
  valid : isIdentifier value = true
deriving DecidableEq

/-- `AccessLevel`. -/
inductive AccessLevel where
  | readOnly | readWrite
deriving DecidableEq, Repr

/-- The byte of an access level. -/
def AccessLevel.byte : AccessLevel → UInt8
  | readOnly => 0
  | readWrite => 1

/-- `entry_kind_order`. -/
def entryKindOrder : EntryKind → UInt8
  | .directory => 0
  | .file => 1

/-- A path of canonical names; its text fits in memory. -/
structure ValidPath (tables : UnicodeTables) where
  path : VirtualPath
  canonical : path.Canonical (EntryName.accepts tables)
  fits : pathBytes path < 256 ^ 8
deriving DecidableEq

/-- A byte slice. -/
structure Slice where
  bytes : List UInt8
  fits : bytes.length < 256 ^ 8
deriving DecidableEq

/-! ### Messages -/

/-- The bytes of a string. -/
def utf8 (value : String) : List UInt8 := value.toByteArray.data.toList

/-- The bytes of a path's text. -/
def pathUtf8 (path : VirtualPath) : List UInt8 := utf8 (String.ofList (pathText path))

/-- `update_cursor_mac`. -/
def updateCursorMac (subject : String) (share : ShareId) (path : VirtualPath) (access : AccessLevel)
    (offset : UInt64) (fingerprint : Vector UInt8 32) : List UInt8 :=
  framed (utf8 subject) ++ (framed (utf8 share.value) ++ (framed (pathUtf8 path) ++
    (access.byte :: (beBytes 8 offset.toNat ++ fingerprint.toList))))

/-- `trash_cursor_mac`. -/
def trashCursorMac (subject : String) (share : ShareId) (access : AccessLevel) (body : List UInt8) :
    List UInt8 :=
  framed (utf8 "crabinet:trash-cursor") ++ (framed (utf8 subject) ++ (framed (utf8 share.value) ++
    (framed body ++ [access.byte])))

/-- A modification time as seconds and nanoseconds since the Unix epoch; none before it. -/
def encodedTime (modified : Option SystemTime) : Option (UInt64 × Fin 1000000000) := do
  let time ← modified
  let seconds ← time.secondsSinceEpoch
  return (UInt64.ofNat seconds, time.nanos)

/-- `update_time_mac`, of an encoded time. -/
def updateTimeMac : Option (UInt64 × Fin 1000000000) → List UInt8
  | some (seconds, nanos) => 1 :: (beBytes 8 seconds.toNat ++ beBytes 4 nanos)
  | none => [0]

/-- The message of `metadata_etag`. -/
def metadataEtagMac (share : ShareId) (path : VirtualPath) (len : UInt64)
    (time : Option (UInt64 × Fin 1000000000)) (fileId : UInt64) (kind : EntryKind) : List UInt8 :=
  framed (utf8 share.value) ++ (framed (pathUtf8 path) ++
    (beBytes 8 len.toNat ++ (beBytes 8 fileId.toNat ++ (entryKindOrder kind :: updateTimeMac time))))

/-- An authentication of any kind. -/
inductive MacCall (tables : UnicodeTables) where
  | directoryCursor (subject : Username) (share : ShareId) (path : ValidPath tables)
      (access : AccessLevel) (offset : UInt64) (fingerprint : Vector UInt8 32)
  | trashCursor (subject : Username) (share : ShareId) (access : AccessLevel) (body : Slice)
  | metadataEtag (share : ShareId) (path : ValidPath tables) (len : UInt64)
      (time : Option (UInt64 × Fin 1000000000)) (fileId : UInt64) (kind : EntryKind)

variable {tables : UnicodeTables}

/-- The message that is authenticated. -/
def MacCall.input : MacCall tables → List UInt8
  | directoryCursor subject share path access offset fingerprint =>
    updateCursorMac subject.value share path.path access offset fingerprint
  | trashCursor subject share access body => trashCursorMac subject.value share access body.bytes
  | metadataEtag share path len time fileId kind =>
    metadataEtagMac share path.path len time fileId kind

/-! ### A message determines its fields -/

theorem utf8_inj {value other : String} : utf8 value = utf8 other ↔ value = other := by
  refine ⟨fun h => ?_, fun h => by rw [h]⟩
  exact String.toByteArray_inj.mp (ByteArray.ext (Array.toList_inj.mp h))

theorem length_utf8 (value : String) : (utf8 value).length = value.utf8ByteSize := by
  rw [utf8, Array.length_toList]
  rfl

theorem length_pathUtf8 (path : VirtualPath) : (pathUtf8 path).length = pathBytes path := by
  rw [pathUtf8, length_utf8, utf8ByteSize_eq_sum, String.toList_ofList, sum_pathText]

theorem ValidPath.pathUtf8_inj {path other : ValidPath tables} :
    pathUtf8 path.path = pathUtf8 other.path ↔ path = other := by
  refine ⟨fun h => ?_, fun h => by rw [h]⟩
  have htext := String.ofList_injective (utf8_inj.mp h)
  have hpath := (pathText_inj (separable_accepts tables) path.canonical other.canonical).mp htext
  cases path
  cases other
  cases hpath
  rfl

theorem ValidPath.length_lt (path : ValidPath tables) : (pathUtf8 path.path).length < 256 ^ 8 := by
  rw [length_pathUtf8]
  exact path.fits

theorem Username.utf8_inj {subject other : Username} :
    utf8 subject.value = utf8 other.value ↔ subject = other := by
  rw [Tokens.utf8_inj]
  cases subject
  cases other
  simp

theorem Username.length_lt (subject : Username) : (utf8 subject.value).length < 256 ^ 8 := by
  have hvalid := subject.valid
  simp only [isIdentifier, Bool.and_eq_true, decide_eq_true_eq] at hvalid
  rw [length_utf8]
  omega

theorem shareId_utf8_inj {share other : ShareId} :
    utf8 share.value = utf8 other.value ↔ share = other := by
  rw [utf8_inj]
  cases share
  cases other
  simp

theorem shareId_length_lt (share : ShareId) : (utf8 share.value).length < 256 ^ 8 := by
  have hvalid := share.valid
  simp only [isShareId, Bool.and_eq_true, decide_eq_true_eq] at hvalid
  unfold maxShareIdBytes at hvalid
  rw [length_utf8]
  omega

theorem entryName_utf8_inj {name other : EntryName} :
    utf8 name.value = utf8 other.value ↔ name = other := by
  rw [utf8_inj]
  cases name
  cases other
  simp

theorem beBytes_uint64_inj {value other : UInt64} :
    beBytes 8 value.toNat = beBytes 8 other.toNat ↔ value = other := by
  rw [beBytes_inj value.toNat_lt other.toNat_lt, UInt64.toNat_inj]

theorem AccessLevel.byte_inj {access other : AccessLevel} : access.byte = other.byte ↔ access = other := by
  cases access <;> cases other <;> decide

theorem entryKindOrder_inj {kind other : EntryKind} :
    entryKindOrder kind = entryKindOrder other ↔ kind = other := by
  cases kind <;> cases other <;> decide

theorem updateTimeMac_inj {time other : Option (UInt64 × Fin 1000000000)} :
    updateTimeMac time = updateTimeMac other ↔ time = other := by
  refine ⟨fun h => ?_, fun h => by rw [h]⟩
  match time, other, h with
  | none, none, _ => rfl
  | some (seconds, nanos), some (seconds', nanos'), h =>
    obtain ⟨hseconds, hnanos⟩ := List.append_inj (List.cons.inj h).2 (by simp)
    have hnanosLt := nanos.isLt
    have hnanosLt' := nanos'.isLt
    rw [beBytes_inj (by omega) (by omega), Fin.val_inj] at hnanos
    rw [beBytes_uint64_inj.mp hseconds, hnanos]

theorem length_updateTimeMac_le (time : Option (UInt64 × Fin 1000000000)) :
    (updateTimeMac time).length ≤ 13 := by
  match time with
  | none => simp [updateTimeMac]
  | some (seconds, nanos) => simp [updateTimeMac]

theorem updateCursorMac_inj {subject subject' : Username} {share share' : ShareId}
    {path path' : ValidPath tables} {access access' : AccessLevel} {offset offset' : UInt64}
    {fingerprint fingerprint' : Vector UInt8 32}
    (h : updateCursorMac subject.value share path.path access offset fingerprint =
      updateCursorMac subject'.value share' path'.path access' offset' fingerprint') :
    subject = subject' ∧ share = share' ∧ path = path' ∧ access = access' ∧ offset = offset' ∧
      fingerprint = fingerprint' := by
  unfold updateCursorMac at h
  rw [framed_append_inj subject.length_lt subject'.length_lt,
    framed_append_inj (shareId_length_lt share) (shareId_length_lt share'),
    framed_append_inj path.length_lt path'.length_lt] at h
  obtain ⟨hsubject, hshare, hpath, hrest⟩ := h
  obtain ⟨haccess, hrest⟩ := List.cons.inj hrest
  obtain ⟨hoffset, hfingerprint⟩ := List.append_inj hrest (by simp)
  exact ⟨Username.utf8_inj.mp hsubject, shareId_utf8_inj.mp hshare, ValidPath.pathUtf8_inj.mp hpath,
    AccessLevel.byte_inj.mp haccess, beBytes_uint64_inj.mp hoffset, Vector.toList_inj.mp hfingerprint⟩

theorem trashCursorMac_inj {subject subject' : Username} {share share' : ShareId}
    {access access' : AccessLevel} {body body' : List UInt8} (hbody : body.length < 256 ^ 8)
    (hbody' : body'.length < 256 ^ 8)
    (h : trashCursorMac subject.value share access body =
      trashCursorMac subject'.value share' access' body') :
    subject = subject' ∧ share = share' ∧ access = access' ∧ body = body' := by
  unfold trashCursorMac at h
  rw [List.append_right_inj, framed_append_inj subject.length_lt subject'.length_lt,
    framed_append_inj (shareId_length_lt share) (shareId_length_lt share'),
    framed_append_inj hbody hbody'] at h
  obtain ⟨hsubject, hshare, hbody, haccess⟩ := h
  exact ⟨Username.utf8_inj.mp hsubject, shareId_utf8_inj.mp hshare,
    AccessLevel.byte_inj.mp (List.cons.inj haccess).1, hbody⟩

theorem metadataEtagMac_inj {share share' : ShareId} {path path' : ValidPath tables}
    {len len' fileId fileId' : UInt64} {time time' : Option (UInt64 × Fin 1000000000)}
    {kind kind' : EntryKind}
    (h : metadataEtagMac share path.path len time fileId kind =
      metadataEtagMac share' path'.path len' time' fileId' kind') :
    share = share' ∧ path = path' ∧ len = len' ∧ time = time' ∧ fileId = fileId' ∧ kind = kind' := by
  unfold metadataEtagMac at h
  rw [framed_append_inj (shareId_length_lt share) (shareId_length_lt share'),
    framed_append_inj path.length_lt path'.length_lt] at h
  obtain ⟨hshare, hpath, hrest⟩ := h
  obtain ⟨hlen, hrest⟩ := List.append_inj hrest (by simp)
  obtain ⟨hfileId, hrest⟩ := List.append_inj hrest (by simp)
  obtain ⟨hkind, htime⟩ := List.cons.inj hrest
  exact ⟨shareId_utf8_inj.mp hshare, ValidPath.pathUtf8_inj.mp hpath, beBytes_uint64_inj.mp hlen,
    updateTimeMac_inj.mp htime, beBytes_uint64_inj.mp hfileId, entryKindOrder_inj.mp hkind⟩

/-! ### The kinds have no message in common -/

/-- No user has the Trash cursors' first field as a name. -/
theorem updateCursorMac_ne_trashCursorMac {subject subject' : Username} {share share' : ShareId}
    {path : VirtualPath} {access access' : AccessLevel} {offset : UInt64}
    {fingerprint : Vector UInt8 32} {body : List UInt8} :
    updateCursorMac subject.value share path access offset fingerprint ≠
      trashCursorMac subject'.value share' access' body := by
  intro h
  obtain ⟨hsubject, -⟩ := (framed_append_inj subject.length_lt (by rw [length_utf8]; decide)).mp h
  have hvalid := subject.valid
  rw [utf8_inj.mp hsubject] at hvalid
  exact absurd hvalid (by decide)

/-- No share has it as its identifier. -/
theorem metadataEtagMac_ne_trashCursorMac {subject : Username} {share share' : ShareId}
    {path : VirtualPath} {len fileId : UInt64} {time : Option (UInt64 × Fin 1000000000)}
    {kind : EntryKind} {access : AccessLevel} {body : List UInt8} :
    metadataEtagMac share path len time fileId kind ≠
      trashCursorMac subject.value share' access body := by
  intro h
  obtain ⟨hshare, -⟩ :=
    (framed_append_inj (shareId_length_lt share) (by rw [length_utf8]; decide)).mp h
  have hvalid := share.valid
  rw [utf8_inj.mp hshare] at hvalid
  exact absurd hvalid (by decide)

/-- A validator's message is too short, after two strings, to be a directory cursor's. -/
theorem updateCursorMac_ne_metadataEtagMac {subject : Username} {share share' : ShareId}
    {path : VirtualPath} {path' : ValidPath tables} {access : AccessLevel} {offset len fileId : UInt64}
    {fingerprint : Vector UInt8 32} {time : Option (UInt64 × Fin 1000000000)} {kind : EntryKind} :
    updateCursorMac subject.value share path access offset fingerprint ≠
      metadataEtagMac share' path'.path len time fileId kind := by
  intro h
  obtain ⟨-, h⟩ := (framed_append_inj subject.length_lt (shareId_length_lt share')).mp h
  obtain ⟨-, h⟩ := (framed_append_inj (shareId_length_lt share) path'.length_lt).mp h
  have hlength := congrArg List.length h
  have htime := length_updateTimeMac_le time
  simp only [List.length_append, List.length_cons, beBytes_length, length_framed,
    Vector.length_toList] at hlength
  omega

theorem MacCall.input_injective : Function.Injective (MacCall.input : MacCall tables → List UInt8) := by
  intro call other h
  cases call with
  | directoryCursor subject share path access offset fingerprint =>
    cases other with
    | directoryCursor subject' share' path' access' offset' fingerprint' =>
      obtain ⟨rfl, rfl, rfl, rfl, rfl, rfl⟩ := updateCursorMac_inj h
      rfl
    | trashCursor subject' share' access' body' => exact absurd h updateCursorMac_ne_trashCursorMac
    | metadataEtag share' path' len' time' fileId' kind' =>
      exact absurd h updateCursorMac_ne_metadataEtagMac
  | trashCursor subject share access body =>
    cases other with
    | directoryCursor subject' share' path' access' offset' fingerprint' =>
      exact absurd h.symm updateCursorMac_ne_trashCursorMac
    | trashCursor subject' share' access' body' =>
      obtain ⟨bytes, hbytes⟩ := body
      obtain ⟨bytes', hbytes'⟩ := body'
      obtain ⟨rfl, rfl, rfl, rfl⟩ := trashCursorMac_inj hbytes hbytes' h
      rfl
    | metadataEtag share' path' len' time' fileId' kind' =>
      exact absurd h.symm metadataEtagMac_ne_trashCursorMac
  | metadataEtag share path len time fileId kind =>
    cases other with
    | directoryCursor subject' share' path' access' offset' fingerprint' =>
      exact absurd h.symm updateCursorMac_ne_metadataEtagMac
    | trashCursor subject' share' access' body' => exact absurd h metadataEtagMac_ne_trashCursorMac
    | metadataEtag share' path' len' time' fileId' kind' =>
      obtain ⟨rfl, rfl, rfl, rfl, rfl, rfl⟩ := metadataEtagMac_inj h
      rfl

end Crabinet.Tokens
