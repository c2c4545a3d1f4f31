import Crabinet.Client.HeaderText
import Crabinet.Tokens.Separation

/-!
# Version tags and cache keys

The version tag of an entry and the cache key of a thumbnail are keyed hashes of what
identifies a version. A modification time before the Unix epoch is written like a missing one,
so the tags of two versions can agree although their times do not.
-/

namespace Crabinet.Tokens

open Crabinet.Filesystem Crabinet.Library
open Crabinet.Client (toStr bytesOf IsVisible toStr_bytesOf)

/-- Metadata of a file system: sizes and identifiers have 64 bits, and times are counted by a signed
clock of 64 bits. -/
structure FileVersion extends EntryMetadata where
  size_lt : size < 2 ^ 64
  fileId_lt : fileId < 2 ^ 64
  modified_lt : ∀ time ∈ modified, time.seconds < 2 ^ 63

/-- `SourceIdentity`. -/
structure SourceIdentity where
  len : UInt64
  modified : Option SystemTime
  fileId : UInt64
  modified_lt : ∀ time ∈ modified, time.seconds < 2 ^ 63

/-- `Rejection`, with its reason. -/
inductive Rejection where
  | conflict (reason : String)
deriving DecidableEq, Repr

/-- `metadata_etag`. -/
def metadataEtag (mac : Mac) (share : ShareId) (path : VirtualPath) (len : UInt64)
    (modified : Option SystemTime) (fileId : UInt64) (kind : EntryKind) : List Char :=
  etagText (mac (metadataEtagMac share path len (encodedTime modified) fileId kind))

/-- `version_tag`, by `entry_etag`. -/
def versionTag (mac : Mac) (share : ShareId) (path : VirtualPath) (metadata : EntryMetadata) :
    List Char :=
  metadataEtag mac share path (UInt64.ofNat metadata.size) metadata.modified
    (UInt64.ofNat metadata.fileId) metadata.kind

/-- `require_if_match_value`. -/
def requireIfMatchValue (mac : Mac) (share : ShareId) (path : VirtualPath) (metadata : EntryMetadata)
    (supplied : Option (List UInt8)) : Except Rejection Unit :=
  match supplied.bind toStr with
  | none => .error (.conflict "stale_validator")
  | some supplied =>
    if supplied = versionTag mac share path metadata then .ok ()
    else .error (.conflict "stale_validator")

/-- `KEY_DOMAIN`. -/
def keyDomain : List UInt8 := utf8 "crabinet:thumbnail:v1\x00"

/-- The message of `cache_key`. -/
def cacheKeyMac (share : ShareId) (path : VirtualPath) (size : UInt32) (source : SourceIdentity) :
    List UInt8 :=
  keyDomain ++ (framed (utf8 share.value) ++ (framed (pathUtf8 path) ++ (beBytes 4 size.toNat ++
    (beBytes 8 source.len.toNat ++ (beBytes 8 source.fileId.toNat ++
      updateTimeMac (encodedTime source.modified))))))

/-- `cache_key`. -/
def cacheKey (mac : Mac) (share : ShareId) (path : VirtualPath) (size : UInt32)
    (source : SourceIdentity) : Vector UInt8 32 := mac (cacheKeyMac share path size source)

/-- The message that a version's tag is over. -/
def versionMessage (share : ShareId) (path : VirtualPath) (metadata : EntryMetadata) : List UInt8 :=
  metadataEtagMac share path (UInt64.ofNat metadata.size) (encodedTime metadata.modified)
    (UInt64.ofNat metadata.fileId) metadata.kind

/-- A modification time that is not written: none, or one before 1970. -/
def Unwritten (modified : Option SystemTime) : Prop := ∀ time ∈ modified, time.seconds < 0

/-- Two versions whose modification times, where nothing else tells them apart, are the same or not
both unwritten. -/
def FileVersion.Discerned (first second : FileVersion) : Prop :=
  first.kind ≠ second.kind ∨ first.size ≠ second.size ∨ first.fileId ≠ second.fileId ∨
    first.modified = second.modified ∨ ¬Unwritten first.modified ∨ ¬Unwritten second.modified

/-- The same for the sources of thumbnails. -/
def SourceIdentity.Discerned (first second : SourceIdentity) : Prop :=
  first.len ≠ second.len ∨ first.fileId ≠ second.fileId ∨ first.modified = second.modified ∨
    ¬Unwritten first.modified ∨ ¬Unwritten second.modified

/-! ### What a tag determines -/

variable {tables : UnicodeTables} {mac : Mac} {share : ShareId} {path : ValidPath tables}

theorem encodedTime_eq_none {modified : Option SystemTime} :
    encodedTime modified = none ↔ Unwritten modified := by
  cases modified with
  | none => exact iff_of_true rfl nofun
  | some time =>
    by_cases htime : 0 ≤ time.seconds
    · simp [encodedTime, Unwritten, SystemTime.secondsSinceEpoch, htime]
    · simp [encodedTime, Unwritten, SystemTime.secondsSinceEpoch, htime]
      omega

/-- A written time is determined by how it is written. -/
theorem encodedTime_inj {first second : Option SystemTime}
    (hfirst : ∀ time ∈ first, time.seconds < 2 ^ 63) (hsecond : ∀ time ∈ second, time.seconds < 2 ^ 63) :
    encodedTime first = encodedTime second ↔
      first = second ∨ Unwritten first ∧ Unwritten second := by
  constructor
  · intro h
    by_cases hunwritten : Unwritten first
    · exact .inr ⟨hunwritten, encodedTime_eq_none.mp (h ▸ encodedTime_eq_none.mpr hunwritten)⟩
    · obtain ⟨⟨seconds, nanos⟩, hwritten⟩ := Option.ne_none_iff_exists'.mp
        (fun hnone => hunwritten (encodedTime_eq_none.mp hnone))
      have hread {modified : Option SystemTime} (hbound : ∀ time ∈ modified, time.seconds < 2 ^ 63)
          (hmodified : encodedTime modified = some (seconds, nanos)) :
          modified = some ⟨seconds.toNat, nanos⟩ := by
        obtain ⟨time, rfl, hrest⟩ := Option.bind_eq_some_iff.mp hmodified
        obtain ⟨whole, hwhole, hpair⟩ := Option.bind_eq_some_iff.mp hrest
        obtain ⟨rfl, rfl⟩ := Prod.mk.inj (Option.some.inj hpair)
        obtain ⟨hpositive, hwhole⟩ := Option.ite_none_right_eq_some.mp hwhole
        obtain rfl := Option.some.inj hwhole
        have htime := hbound time rfl
        have hfits : time.seconds.toNat < 2 ^ 64 := by omega
        rw [UInt64.toNat_ofNat_of_lt' hfits, Int.toNat_of_nonneg hpositive]
      exact .inl ((hread hfirst hwritten).trans (hread hsecond (h ▸ hwritten)).symm)
  · rintro (rfl | ⟨hfirst, hsecond⟩)
    · rfl
    · rw [encodedTime_eq_none.mpr hfirst, encodedTime_eq_none.mpr hsecond]

/-- The message of a version determines everything but an unwritten time. -/
theorem versionMessage_inj {first second : FileVersion} :
    versionMessage share path.path first.toEntryMetadata =
        versionMessage share path.path second.toEntryMetadata ↔
      (first.kind = second.kind ∧ first.size = second.size ∧ first.fileId = second.fileId) ∧
        (first.modified = second.modified ∨ Unwritten first.modified ∧ Unwritten second.modified) := by
  rw [← encodedTime_inj first.modified_lt second.modified_lt]
  constructor
  · intro h
    obtain ⟨-, -, hsize, htime, hfileId, hkind⟩ := metadataEtagMac_inj h
    refine ⟨⟨hkind, ?_, ?_⟩, htime⟩
    · rwa [← UInt64.toNat_inj, UInt64.toNat_ofNat_of_lt' first.size_lt,
        UInt64.toNat_ofNat_of_lt' second.size_lt] at hsize
    · rwa [← UInt64.toNat_inj, UInt64.toNat_ofNat_of_lt' first.fileId_lt,
        UInt64.toNat_ofNat_of_lt' second.fileId_lt] at hfileId
  · rintro ⟨⟨hkind, hsize, hfileId⟩, htime⟩
    rw [versionMessage, versionMessage, hkind, hsize, hfileId, htime]

/-- So does the message of a cache key. -/
theorem cacheKeyMac_inj {size : UInt32} {first second : SourceIdentity} :
    cacheKeyMac share path.path size first = cacheKeyMac share path.path size second ↔
      (first.len = second.len ∧ first.fileId = second.fileId) ∧
        (first.modified = second.modified ∨ Unwritten first.modified ∧ Unwritten second.modified) := by
  rw [← encodedTime_inj first.modified_lt second.modified_lt]
  constructor
  · intro h
    simp only [cacheKeyMac, List.append_cancel_left_eq] at h
    obtain ⟨hlen, h⟩ := List.append_inj h (by simp)
    obtain ⟨hfileId, htime⟩ := List.append_inj h (by simp)
    exact ⟨⟨beBytes_uint64_inj.mp hlen, beBytes_uint64_inj.mp hfileId⟩, updateTimeMac_inj.mp htime⟩
  · rintro ⟨⟨hlen, hfileId⟩, htime⟩
    rw [cacheKeyMac, cacheKeyMac, hlen, hfileId, htime]

theorem versionTag_eq {metadata other : EntryMetadata}
    (hmac : mac (versionMessage share path.path metadata) = mac (versionMessage share path.path other) →
      versionMessage share path.path metadata = versionMessage share path.path other) :
    versionTag mac share path.path metadata = versionTag mac share path.path other ↔
      versionMessage share path.path metadata = versionMessage share path.path other := by
  refine ⟨fun h => hmac (etagText_inj h), fun h => ?_⟩
  exact congrArg (fun message => etagText (mac message)) h

/-! ### What a check of a tag passes -/

theorem hexDigit_visible {value : ℕ} (h : value < 16) :
    32 ≤ (hexDigit value).toNat ∧ (hexDigit value).toNat < 127 := by
  have hall : ∀ value : Fin 16, 32 ≤ (hexDigit value).toNat ∧ (hexDigit value).toNat < 127 := by decide
  exact hall ⟨value, h⟩

/-- A tag can be sent in a header. -/
theorem etagText_visible (tag : Vector UInt8 32) : IsVisible (etagText tag) := by
  intro c hc
  simp only [etagText, List.mem_cons, List.mem_append, List.not_mem_nil, or_false] at hc
  rcases hc with rfl | rfl | rfl | hc | rfl
  any_goals decide
  obtain ⟨byte, -, hc⟩ := List.mem_flatMap.mp hc
  have hbyte := byte.toNat_lt
  simp only [List.mem_cons, List.not_mem_nil, or_false] at hc
  rcases hc with rfl | rfl
  · exact hexDigit_visible (by omega)
  · exact hexDigit_visible (by omega)

/-- A request with the tag of a version passes where the tag is the current one. -/
theorem requireIfMatchValue_eq_ok {path : VirtualPath} {seen current : EntryMetadata} :
    requireIfMatchValue mac share path current (some (bytesOf (versionTag mac share path seen))) = .ok () ↔
      versionTag mac share path seen = versionTag mac share path current := by
  have htext : toStr (bytesOf (versionTag mac share path seen)) = some (versionTag mac share path seen) :=
    toStr_bytesOf (etagText_visible _)
  rw [requireIfMatchValue, Option.bind_some, htext]
  dsimp only
  split
  · rename_i heq
    exact iff_of_true rfl heq
  · rename_i hne
    exact iff_of_false nofun hne

/-- The tags of two versions are told apart: equal tags mean that the validators match, and so what a
request with the tag of one of them may overwrite is that version. -/
def TagsTellVersions (mac : Mac) (share : ShareId) (path : VirtualPath) (seen current : FileVersion) :
    Prop :=
  (versionTag mac share path seen.toEntryMetadata = versionTag mac share path current.toEntryMetadata →
    seen.matchesValidator current.toEntryMetadata = true) ∧
  (requireIfMatchValue mac share path current.toEntryMetadata
      (some (bytesOf (versionTag mac share path seen.toEntryMetadata))) = .ok () →
    current.matchesValidator seen.toEntryMetadata = true)

/-- The cache keys of two sources are told apart. -/
def KeysTellSources (mac : Mac) (share : ShareId) (path : VirtualPath) (size : UInt32)
    (first second : SourceIdentity) : Prop :=
  cacheKey mac share path size first = cacheKey mac share path size second →
    first.len = second.len ∧ first.modified = second.modified ∧ first.fileId = second.fileId

/-- Versions are the same when all that identifies them is. -/
theorem FileVersion.toEntryMetadata_eq_iff {first second : FileVersion} :
    first.toEntryMetadata = second.toEntryMetadata ↔
      (first.kind = second.kind ∧ first.size = second.size ∧ first.fileId = second.fileId) ∧
        first.modified = second.modified := by
  obtain ⟨⟨kind, size, modified, fileId⟩, -, -, -⟩ := first
  obtain ⟨⟨kind', size', modified', fileId'⟩, -, -, -⟩ := second
  rw [EntryMetadata.mk.injEq]
  exact ⟨fun ⟨hkind, hsize, htime, hfileId⟩ => ⟨⟨hkind, hsize, hfileId⟩, htime⟩,
    fun ⟨⟨hkind, hsize, hfileId⟩, htime⟩ => ⟨hkind, hsize, htime, hfileId⟩⟩

/-- What agrees but for an unwritten time is the same unless both times are unwritten and differ. -/
theorem same_of_agree_iff {same time unwritten : Prop} :
    (same ∧ (time ∨ unwritten) → same ∧ time) ↔ ¬same ∨ time ∨ ¬unwritten := by
  tauto

/-- Tags are told apart when the versions are the same wherever their messages agree. -/
theorem tagsTellVersions_iff {seen current : FileVersion}
    (htag : versionTag mac share path.path seen.toEntryMetadata =
        versionTag mac share path.path current.toEntryMetadata ↔
      versionMessage share path.path seen.toEntryMetadata =
        versionMessage share path.path current.toEntryMetadata) :
    TagsTellVersions mac share path.path seen current ↔ seen.Discerned current := by
  have hmatch : seen.matchesValidator current.toEntryMetadata = true ↔
      seen.toEntryMetadata = current.toEntryMetadata := EntryMetadata.matchesValidator_iff _ _
  have hmatch' : current.matchesValidator seen.toEntryMetadata = true ↔
      seen.toEntryMetadata = current.toEntryMetadata :=
    (EntryMetadata.matchesValidator_iff _ _).trans eq_comm
  rw [TagsTellVersions, requireIfMatchValue_eq_ok, hmatch, hmatch', and_self_iff, htag,
    versionMessage_inj, FileVersion.toEntryMetadata_eq_iff, same_of_agree_iff]
  simp only [FileVersion.Discerned, not_and_or, or_assoc]

/-- Cache keys are told apart when the sources are the same wherever their messages agree. -/
theorem keysTellSources_iff {size : UInt32} {first second : SourceIdentity}
    (hkey : cacheKey mac share path.path size first = cacheKey mac share path.path size second ↔
      cacheKeyMac share path.path size first = cacheKeyMac share path.path size second) :
    KeysTellSources mac share path.path size first second ↔ first.Discerned second := by
  have hagree : (first.len = second.len ∧ first.modified = second.modified ∧
        first.fileId = second.fileId) ↔
      (first.len = second.len ∧ first.fileId = second.fileId) ∧ first.modified = second.modified :=
    ⟨fun ⟨hlen, htime, hfileId⟩ => ⟨⟨hlen, hfileId⟩, htime⟩,
      fun ⟨⟨hlen, hfileId⟩, htime⟩ => ⟨hlen, htime, hfileId⟩⟩
  rw [KeysTellSources, hkey, cacheKeyMac_inj, hagree, same_of_agree_iff]
  simp only [SourceIdentity.Discerned, not_and_or, or_assoc]

/-- Where the keyed hash function does not collide on their messages, two versions of an entry, and
two sources of a thumbnail, are told apart exactly when their times are the same, or not both before
1970 or missing, or something else differs. -/
theorem versions_told_apart_iff (share : ShareId) (path : ValidPath tables) (size : UInt32)
    (seen current : FileVersion) (first second : SourceIdentity)
    (htag : Set.InjOn mac {versionMessage share path.path seen.toEntryMetadata,
      versionMessage share path.path current.toEntryMetadata})
    (hkey : Set.InjOn mac {cacheKeyMac share path.path size first,
      cacheKeyMac share path.path size second}) :
    (TagsTellVersions mac share path.path seen current ↔ seen.Discerned current) ∧
      (KeysTellSources mac share path.path size first second ↔ first.Discerned second) :=
  ⟨tagsTellVersions_iff (versionTag_eq (htag (.inl rfl) (.inr rfl))),
    keysTellSources_iff ⟨hkey (.inl rfl) (.inr rfl), congrArg mac⟩⟩

/-! ### Versions by their time alone -/

open Crabinet.Browse.BrowseState (asciiTables)

/-- A function that keeps the end of a message, where a version's time stands. -/
def tailMac : Mac := fun message => Vector.ofFn fun index => message.reverse.getD index 0

/-- The share of the versions below. -/
def docsShare : ShareId := ⟨"docs", by decide⟩

/-- Their path. -/
def notesPath : ValidPath asciiTables where
  path := ⟨[⟨"notes"⟩]⟩
  canonical := by
    intro name hname
    obtain rfl := List.mem_singleton.mp hname
    decide
  fits := by decide

/-- A version of so many seconds since 1970. -/
def versionAt (seconds : ℤ) (h : seconds < 2 ^ 63) : FileVersion where
  kind := .file
  size := 12
  modified := some ⟨seconds, 0⟩
  fileId := 7
  size_lt := by decide
  fileId_lt := by decide
  modified_lt := by
    rintro time ⟨⟩
    exact h

/-- The same as the source of a thumbnail. -/
def sourceAt (seconds : ℤ) (h : seconds < 2 ^ 63) : SourceIdentity where
  len := 12
  modified := some ⟨seconds, 0⟩
  fileId := 7
  modified_lt := by
    rintro time ⟨⟩
    exact h

theorem injOn_pair {message other : List UInt8} (h : mac message ≠ mac other) :
    Set.InjOn mac {message, other} := by
  rintro a (rfl | rfl) b (rfl | rfl) heq
  · rfl
  · exact absurd heq h
  · exact absurd heq.symm h
  · rfl

theorem not_unwritten {seconds : ℤ} (h : 0 ≤ seconds) : ¬Unwritten (some ⟨seconds, 0⟩) := fun hunwritten =>
  absurd (hunwritten _ rfl) (by simpa using h)

/-- Versions of the fifth and the sixth second are told apart. -/
theorem versions_told_apart_later :
    TagsTellVersions tailMac docsShare notesPath.path (versionAt 5 (by decide)) (versionAt 6 (by decide)) ∧
      KeysTellSources tailMac docsShare notesPath.path 256 (sourceAt 5 (by decide))
        (sourceAt 6 (by decide)) := by
  have htold := versions_told_apart_iff docsShare notesPath 256 (versionAt 5 (by decide))
    (versionAt 6 (by decide)) (sourceAt 5 (by decide)) (sourceAt 6 (by decide))
    (injOn_pair (by decide +kernel : tailMac _ ≠ tailMac _)) (injOn_pair (by decide +kernel))
  have hwritten : ¬Unwritten (some ⟨5, 0⟩) := not_unwritten (by decide)
  exact ⟨htold.1.mpr (.inr (.inr (.inr (.inr (.inl hwritten))))),
    htold.2.mpr (.inr (.inr (.inr (.inl hwritten))))⟩

/-- Two versions from before 1970 have one tag and one cache key. -/
theorem versions_before_epoch_collide :
    ¬TagsTellVersions tailMac docsShare notesPath.path (versionAt (-5) (by decide))
        (versionAt (-10) (by decide)) ∧
      ¬KeysTellSources tailMac docsShare notesPath.path 256 (sourceAt (-5) (by decide))
        (sourceAt (-10) (by decide)) := by
  constructor
  · rintro ⟨htags, -⟩
    exact absurd (htags rfl) (by decide)
  · intro hkeys
    exact absurd (hkeys rfl).2.1 (by decide)

end Crabinet.Tokens
