import Crabinet.Library.Base64
import Crabinet.Tokens.DirectoryCursor
import Crabinet.Trash.ListPage

/-!
# Trash cursors

A Trash cursor is the position of the last item of a page: its deletion time behind a
length byte and its identifier, with a tag over both, the user, the share and the access
level. The decoder limits the length of the time; what is listed does not.
-/

namespace Crabinet.Tokens

open Crabinet.Filesystem Crabinet.Library Crabinet.Trash

/-- `TRASH_CURSOR_VERSION`. -/
def trashCursorVersion : UInt8 := 1

/-- `TRASH_CURSOR_MAX_TIME_BYTES`. -/
def trashCursorMaxTimeBytes : ℕ := 64

/-- `TRASH_CURSOR_MAX_ENCODED_BYTES`. -/
def trashCursorMaxEncodedBytes : ℕ := 256

/-- `TRASH_ID_BYTES`. -/
def trashIdBytes : ℕ := 32

/-- `str::from_utf8`. -/
def fromUtf8 (bytes : List UInt8) : Option String := String.fromUTF8? ⟨bytes.toArray⟩

/-- What a Trash cursor is bound to. -/
structure TrashScope where
  subject : Username
  share : ShareId
  access : AccessLevel
deriving DecidableEq

namespace TrashScope

/-- The tag over a cursor's body. -/
def tag (mac : Mac) (scope : TrashScope) (body : List UInt8) : Vector UInt8 32 :=
  mac (trashCursorMac scope.subject.value scope.share scope.access body)

/-- What a cursor says before its tag. -/
def body (position : TrashPosition) : List UInt8 :=
  trashCursorVersion :: UInt8.ofNat position.deletedAt.utf8ByteSize ::
    (utf8 position.deletedAt ++ utf8 position.id)

/-- `encode_trash_cursor`; none where it panics. -/
def encodeTrashCursor (mac : Mac) (scope : TrashScope) (last : ListedItem) : Option (List Char) :=
  -- The length must fit the one byte.
  if last.deletedAt.utf8ByteSize > 255 then none
  else some (Base64.encode (body last.position ++ (tag mac scope (body last.position)).toList))

/-- `decode_trash_cursor`. -/
def decodeTrashCursor (mac : Mac) (scope : TrashScope) (encoded : List Char) :
    Except AppError TrashPosition :=
  if (encoded.map Char.utf8Size).sum > trashCursorMaxEncodedBytes then .error .conflict
  else
    match Base64.decode encoded with
    | some (version :: timeLen :: rest) =>
      if version ≠ trashCursorVersion ∨ timeLen.toNat > trashCursorMaxTimeBytes ∨
          rest.length ≠ timeLen.toNat + trashIdBytes + 32 then .error .conflict
      else
        let bytes := version :: timeLen :: rest
        if bytes.drop (bytes.length - 32) ≠ (tag mac scope (bytes.take (bytes.length - 32))).toList then
          .error .conflict
        else
          match fromUtf8 (rest.take timeLen.toNat),
            fromUtf8 ((rest.drop timeLen.toNat).take trashIdBytes) with
          | some deletedAt, some id => .ok ⟨deletedAt, id⟩
          | _, _ => .error .conflict
    | _ => .error .conflict

variable {mac : Mac} {scope other : TrashScope} {item : ListedItem}

theorem fromUtf8_utf8 (value : String) : fromUtf8 (utf8 value) = some value := by
  unfold fromUtf8 String.fromUTF8?
  exact dif_pos value.isValidUTF8

theorem length_id (id : TrashId) : (utf8 id.text).length = trashIdBytes := by
  have hvalid := id.valid
  simp only [validId, Bool.and_eq_true, beq_iff_eq] at hvalid
  rw [length_utf8, hvalid.1]
  rfl

theorem length_body (item : ListedItem) :
    (body item.position).length = 2 + item.deletedAt.utf8ByteSize + trashIdBytes := by
  simp only [body, List.length_cons, List.length_append, length_utf8, ListedItem.position]
  have hid := length_id item.entry.id
  rw [length_utf8] at hid
  omega

theorem toNat_timeLen {item : ListedItem} (h : item.deletedAt.utf8ByteSize ≤ 255) :
    (UInt8.ofNat item.deletedAt.utf8ByteSize).toNat = item.deletedAt.utf8ByteSize := by
  rw [UInt8.toNat_ofNat']
  omega

/-- A cursor whose time is too long for the decoder is refused. -/
theorem decodeTrashCursor_of_long {cursor : List Char}
    (hencode : encodeTrashCursor mac scope item = some cursor)
    (hlong : item.deletedAt.utf8ByteSize > trashCursorMaxTimeBytes) :
    decodeTrashCursor mac other cursor = .error .conflict := by
  unfold encodeTrashCursor at hencode
  split at hencode
  · cases hencode
  · rename_i hfits
    obtain rfl := Option.some.inj hencode
    have htime := toNat_timeLen (Nat.not_lt.mp hfits)
    unfold decodeTrashCursor
    split
    · rfl
    · rw [Base64.decode_encode, body, List.cons_append, List.cons_append]
      dsimp only
      rw [if_pos (.inr (.inl (by rw [ListedItem.position, htime]; exact hlong)))]

/-- A shorter one is accepted where its tag is the one of the scope. -/
theorem decodeTrashCursor_of_short {cursor : List Char}
    (hencode : encodeTrashCursor mac scope item = some cursor)
    (hshort : item.deletedAt.utf8ByteSize ≤ trashCursorMaxTimeBytes) :
    decodeTrashCursor mac other cursor =
      if tag mac scope (body item.position) = tag mac other (body item.position) then
        .ok item.position
      else .error .conflict := by
  unfold encodeTrashCursor at hencode
  split at hencode
  · cases hencode
  · rename_i hfits
    obtain rfl := Option.some.inj hencode
    have htime := toNat_timeLen (Nat.not_lt.mp hfits)
    have hbody := length_body item
    have hid := length_id item.entry.id
    have htimeLength := length_utf8 item.deletedAt
    unfold trashCursorMaxTimeBytes at hshort
    unfold trashIdBytes at hbody hid
    have hencoded : ¬((Base64.encode (body item.position ++
        (tag mac scope (body item.position)).toList)).map Char.utf8Size).sum >
          trashCursorMaxEncodedBytes := by
      rw [Base64.sum_utf8Size_encode, Base64.length_encode, List.length_append, hbody,
        Vector.length_toList, trashCursorMaxEncodedBytes]
      omega
    unfold decodeTrashCursor
    rw [if_neg hencoded, Base64.decode_encode]
    have hsplit : body item.position ++ (tag mac scope (body item.position)).toList =
        trashCursorVersion :: UInt8.ofNat item.deletedAt.utf8ByteSize ::
          (utf8 item.deletedAt ++ (utf8 item.entry.id.text ++
            (tag mac scope (body item.position)).toList)) := by
      simp [body, ListedItem.position]
    have hlength : (body item.position ++ (tag mac scope (body item.position)).toList).length - 32 =
        (body item.position).length := by
      simp
    rw [hsplit]
    dsimp only
    rw [← hsplit, hlength, List.take_left, List.drop_left, htime, if_neg, List.take_left' htimeLength,
      List.drop_left' htimeLength, List.take_left' (by rw [hid]; rfl), fromUtf8_utf8, fromUtf8_utf8]
    · by_cases htag : tag mac scope (body item.position) = tag mac other (body item.position)
      · rw [if_pos htag, htag, if_neg (by simp)]
        rfl
      · rw [if_neg htag, if_pos]
        simpa [Vector.toList_inj] using htag
    · simp [trashCursorMaxTimeBytes, trashIdBytes, htimeLength, hid]
      omega

/-- The cursor after an item leads back to its position, for its own scope alone, and the page from
there starts strictly after it. -/
structure Survives (mac : Mac) (scope : TrashScope) (item : ListedItem) : Prop where
  decodes : ∃ cursor, encodeTrashCursor mac scope item = some cursor ∧
    decodeTrashCursor mac scope cursor = .ok item.position ∧
    ∀ other, other ≠ scope →
      -- The keyed hash does not collide on the two messages.
      (tag mac scope (body item.position) = tag mac other (body item.position) →
        trashCursorMac scope.subject.value scope.share scope.access (body item.position) =
          trashCursorMac other.subject.value other.share other.access (body item.position)) →
      decodeTrashCursor mac other cursor = .error .conflict
  after : ∀ (listing : TrashListing) (names : List TrashName) (maxEntries limit : ℕ) (page : TrashPage),
    listing.listTrashPage names maxEntries (some item.position) limit = .ok page →
      ∀ next ∈ page.items, isAfter next item.position = true

theorem survives_of_short (mac : Mac) (scope : TrashScope) {item : ListedItem}
    (hshort : item.deletedAt.utf8ByteSize ≤ trashCursorMaxTimeBytes) : Survives mac scope item := by
  have hfits : ¬item.deletedAt.utf8ByteSize > 255 := by
    unfold trashCursorMaxTimeBytes at hshort
    omega
  have hencode : encodeTrashCursor mac scope item = some (Base64.encode (body item.position ++
      (tag mac scope (body item.position)).toList)) := if_neg hfits
  refine ⟨⟨_, hencode, ?_, fun other hother hcollision => ?_⟩, ?_⟩
  · rw [decodeTrashCursor_of_short hencode hshort, if_pos rfl]
  · rw [decodeTrashCursor_of_short hencode hshort]
    refine if_neg fun htag => hother ?_
    have hbody : (body item.position).length < 256 ^ 8 := by
      rw [length_body, trashIdBytes]
      omega
    obtain ⟨hsubject, hshare, haccess, -⟩ := trashCursorMac_inj hbody hbody (hcollision htag)
    obtain ⟨subject, share, access⟩ := scope
    obtain ⟨subject', share', access'⟩ := other
    dsimp only at hsubject hshare haccess
    rw [hsubject, hshare, haccess]
  · intro listing names maxEntries limit page hpage next hnext
    exact (TrashListing.onPage_of_listTrashPage hpage next hnext).after _ rfl

/-- For every item that a page can hold, its cursor survives exactly when the deletion time is no
longer than the decoder's limit. -/
theorem survives_iff_short (mac : Mac) (scope : TrashScope) {listing : TrashListing}
    {names : List TrashName} {maxEntries limit : ℕ} {after : Option TrashPosition} {page : TrashPage}
    (hpage : listing.listTrashPage names maxEntries after limit = .ok page) :
    ∀ item ∈ page.items, listing.parses item.deletedAt = true ∧
      (Survives mac scope item ↔ item.deletedAt.utf8ByteSize ≤ trashCursorMaxTimeBytes) := by
  intro item hitem
  refine ⟨(TrashListing.onPage_of_listTrashPage hpage item hitem).parses, fun hsurvives => ?_,
    survives_of_short mac scope⟩
  by_contra hlong
  obtain ⟨cursor, hencode, hdecode, -⟩ := hsurvives.decodes
  rw [decodeTrashCursor_of_long hencode (Nat.not_le.mp hlong)] at hdecode
  cases hdecode

/-! ### A deletion time with many digits -/

/-- A time with 240 digits of a second's fraction. -/
def longTime : String :=
  String.ofList ("2024-01-01T00:00:00.".toList ++ List.replicate 240 '0' ++ ['Z'])

theorem validId_first : validId "0123456789abcdef0123456789abcdef" = true := by decide

theorem validId_second : validId "1123456789abcdef0123456789abcdef" = true := by decide

def firstId : TrashId := ⟨"0123456789abcdef0123456789abcdef", validId_first⟩

def secondId : TrashId := ⟨"1123456789abcdef0123456789abcdef", validId_second⟩

/-- A live item's sidecar. -/
def liveSidecar (id : TrashId) : Sidecar :=
  { schemaVersion := sidecarSchemaVersion, id, originalPath := .ok ⟨[⟨"f"⟩]⟩, kind := some .file
    expiresAt := some 0, state := .live }

/-- Two live items that were deleted at a time. -/
def twoItems (time : String) : TrashListing :=
  { trash :=
      { temporaries := .empty
        payloads := (KeyedMap.empty.insert firstId (.leaf .file ⟨1, none, 1, 1⟩)).insert secondId
          (.leaf .file ⟨1, none, 2, 1⟩)
        sidecars := (KeyedMap.empty.insert firstId (some (liveSidecar firstId))).insert secondId
          (some (liveSidecar secondId))
        strays := [] }
    deletedAt := fun _ => time
    parses := fun text => text == time }

/-- The names of the two sidecars. -/
def twoNames : List TrashName := [.sidecar firstId, .sidecar secondId]

/-- What is listed of them. -/
def twoListed (time : String) (id : TrashId) : ListedItem := ⟨⟨id, ⟨[⟨"f"⟩]⟩, .file⟩, time⟩

theorem listTrashPage_twoItems (time : String) :
    (twoItems time).listTrashPage twoNames 100000 none 1 =
      .ok ⟨[twoListed time firstId], true, 0⟩ := by
  have hfirst : (twoItems time).listableItem firstId = some (some (twoListed time firstId)) := by
    simp only [TrashListing.listableItem, twoItems, beq_self_eq_true, Bool.not_true]
    rfl
  have hsecond : (twoItems time).listableItem secondId = some (some (twoListed time secondId)) := by
    simp only [TrashListing.listableItem, twoItems, beq_self_eq_true, Bool.not_true]
    rfl
  have hcollect : (twoItems time).collectItems 100000 2 64 none 0 0 [] twoNames =
      .ok ([twoListed time firstId, twoListed time secondId], 0) := by
    simp only [twoNames, TrashListing.collectItems, hfirst, hsecond, TrashListing.keepItem]
    rfl
  have hids : firstId.text ≤ secondId.text := by decide
  have horder : ∀ item ∈ [twoListed time secondId], itemOrder (twoListed time firstId) item := by
    intro item hitem
    obtain rfl := List.mem_singleton.mp hitem
    exact .inr ⟨rfl, hids⟩
  have hsort : [twoListed time firstId, twoListed time secondId].insertionSort itemOrder =
      [twoListed time firstId, twoListed time secondId] := by
    rw [List.insertionSort_cons_of_forall_rel _ horder]
    rfl
  unfold TrashListing.listTrashPage
  dsimp only
  rw [show TrashListing.keepFor 1 = 2 by decide, show max (min (2 * 2) usizeMax) 64 = 64 by decide,
    hcollect, ok_bind]
  dsimp only
  rw [hsort]
  rfl

theorem utf8ByteSize_longTime : longTime.utf8ByteSize = 20 + 240 * 1 + 1 := by
  have hstart : ("2024-01-01T00:00:00.".toList.map Char.utf8Size).sum = 20 := by decide
  have hzero : Char.utf8Size '0' = 1 := by decide
  have hzone : (['Z'].map Char.utf8Size).sum = 1 := by decide
  rw [utf8ByteSize_eq_sum]
  unfold longTime
  rw [String.toList_ofList, List.map_append, List.map_append, List.sum_append, List.sum_append, hstart,
    hzone, List.map_replicate, List.sum_replicate_nat, hzero]

/-- The page of one item has a next page, and the cursor for it cannot be encoded. -/
theorem longTime_panics :
    ∃ page item, (twoItems longTime).listTrashPage twoNames 100000 none 1 = .ok page ∧
      page.hasMore = true ∧ page.items = [item] ∧
      ∀ mac scope, encodeTrashCursor mac scope item = none ∧ ¬Survives mac scope item := by
  have hencode : ∀ (mac : Mac) (scope : TrashScope),
      encodeTrashCursor mac scope (twoListed longTime firstId) = none := by
    intro mac scope
    have hlong := utf8ByteSize_longTime
    exact if_pos (by rw [twoListed, hlong]; decide)
  refine ⟨_, twoListed longTime firstId, listTrashPage_twoItems longTime, rfl, rfl, fun mac scope =>
    ⟨hencode mac scope, fun hsurvives => ?_⟩⟩
  obtain ⟨cursor, hcursor, -⟩ := hsurvives.decodes
  rw [hencode mac scope] at hcursor
  cases hcursor

/-! ### A usual deletion time -/

/-- A deletion time as the program writes it. -/
def usualTime : String := "2024-01-01T00:00:00Z"

theorem isIdentifier_sample : isIdentifier "user" = true := by decide

theorem isShareId_sample : isShareId "share" = true := by decide

def sampleScope : TrashScope :=
  ⟨⟨"user", isIdentifier_sample⟩, ⟨"share", isShareId_sample⟩, .readWrite⟩

/-- The HMAC-SHA-256 tag of the cursor after the first item, for a key of ones. -/
def usualTag : Vector UInt8 32 :=
  #v[95, 110, 196, 52, 26, 145, 181, 107, 159, 208, 76, 211, 11, 105, 127, 224, 123, 133, 182, 32, 0, 154,
    104, 167, 110, 31, 194, 6, 82, 94, 37, 103]

/-- The keyed hash function, with its value on the message of that cursor. -/
def sampleMac : Mac := fun message =>
  if message = trashCursorMac "user" ⟨"share", isShareId_sample⟩ .readWrite
      (body (twoListed usualTime firstId).position) then usualTag
  else Vector.replicate 32 0

theorem survives_iff_short_usual : Survives sampleMac sampleScope (twoListed usualTime firstId) :=
  (survives_iff_short sampleMac sampleScope (listTrashPage_twoItems usualTime) _
    (List.mem_singleton_self _)).2.mpr (by decide)

end TrashScope

end Crabinet.Tokens
