import Crabinet.Browse.Pagination
import Crabinet.Tokens.TrashCursor

/-!
# Tokens are accepted only for what they were issued for

The two decoders and the comparison of validators accept a tag only where it is the one of
their own message. Where the keyed hash function does not collide on the messages that are
authenticated, a tag issued for another message is refused everywhere else.
-/

namespace Crabinet.Tokens

open Crabinet.Filesystem Crabinet.Library Crabinet.Trash

variable {tables : UnicodeTables} {mac : Mac}

/-- A digit of `hex`. -/
def hexDigit (value : ℕ) : Char :=
  if value < 10 then Char.ofNat (48 + value) else Char.ofNat (87 + value)

/-- `hex`. -/
def hex (bytes : List UInt8) : List Char :=
  bytes.flatMap fun byte => [hexDigit (byte.toNat / 16), hexDigit (byte.toNat % 16)]

/-- The text of a metadata validator with a tag. -/
def etagText (tag : Vector UInt8 32) : List Char := 'W' :: '/' :: '"' :: (hex tag.toList ++ ['"'])

/-- The end of a cursor, where its tag stands. -/
def tagOf (encoded : List Char) : Option (List UInt8) :=
  (Base64.decode encoded).map fun bytes => bytes.drop (bytes.length - 32)

/-- The start of a cursor, which its tag is over. -/
def bodyOf (encoded : List Char) : List UInt8 :=
  ((Base64.decode encoded).map fun bytes => bytes.take (bytes.length - 32)).getD []

theorem hexDigit_inj {value other : ℕ} (hvalue : value < 16) (hother : other < 16)
    (h : hexDigit value = hexDigit other) : value = other := by
  have hall : ∀ value other : Fin 16, hexDigit value = hexDigit other → value = other := by decide
  exact congrArg Fin.val (hall ⟨value, hvalue⟩ ⟨other, hother⟩ h)

theorem hex_injective : Function.Injective hex := by
  intro bytes other h
  induction bytes generalizing other with
  | nil =>
    cases other with
    | nil => rfl
    | cons byte rest => simp [hex] at h
  | cons byte rest ih =>
    cases other with
    | nil => simp [hex] at h
    | cons byte' rest' =>
      have hbyte := byte.toNat_lt
      have hbyte' := byte'.toNat_lt
      rw [hex, hex, List.flatMap_cons, List.flatMap_cons] at h
      obtain ⟨hdigits, hrest⟩ := List.append_inj h rfl
      obtain ⟨hhigh, hdigits⟩ := List.cons.inj hdigits
      have hlow := (List.cons.inj hdigits).1
      have hhigh := hexDigit_inj (by omega) (by omega) hhigh
      have hlow := hexDigit_inj (by omega) (by omega) hlow
      have hsame : byte = byte' := UInt8.toNat_inj.mp (by omega)
      rw [hsame, ih hrest]

theorem etagText_inj {tag other : Vector UInt8 32} (h : etagText tag = etagText other) : tag = other := by
  have htail := (List.cons.inj (List.cons.inj (List.cons.inj h).2).2).2
  exact Vector.toList_inj.mp (hex_injective (List.append_cancel_right htail))

/-- An accepted directory cursor ends with the tag of its own message. -/
theorem tagOf_of_decodeCursor {scope : CursorScope tables} {current : Vector UInt8 32}
    {encoded : List Char} {offset : UInt64}
    (h : scope.decodeCursor mac current encoded = .ok offset) :
    tagOf encoded = some (mac (scope.call offset current).input).toList := by
  rw [CursorScope.eq_encodeCursor_of_decodeCursor h, tagOf, CursorScope.encodeCursor,
    Base64.decode_encode, Option.map_some, ← List.append_assoc, ← List.cons_append]
  refine congrArg some (List.drop_left' ?_)
  simp

/-- An accepted Trash cursor ends with the tag over what stands before it. -/
theorem tagOf_of_decodeTrashCursor {scope : TrashScope} {encoded : List Char} {position : TrashPosition}
    (h : scope.decodeTrashCursor mac encoded = .ok position) :
    tagOf encoded = some (scope.tag mac (bodyOf encoded)).toList ∧
      (bodyOf encoded).length < 256 ^ 8 := by
  unfold TrashScope.decodeTrashCursor at h
  split at h
  · cases h
  · split at h
    · rename_i version timeLen rest hdecode
      split at h
      · cases h
      · rename_i hshape
        dsimp only at h
        split at h
        · cases h
        · rename_i htag
          rw [not_not] at htag
          simp only [not_or, not_not] at hshape
          obtain ⟨-, htime, hlength⟩ := hshape
          refine ⟨by rw [tagOf, bodyOf, hdecode, Option.map_some, Option.map_some, htag]; rfl, ?_⟩
          have hbody : (bodyOf encoded).length ≤ rest.length := by
            rw [bodyOf, hdecode, Option.map_some, Option.getD_some, List.length_take, List.length_cons,
              List.length_cons]
            omega
          unfold trashCursorMaxTimeBytes at htime
          unfold trashIdBytes at hlength
          omega
    · cases h

/-- The message of an authentication determines its kind and its arguments. Where the keyed hash
function does not collide on the authenticated messages, a token whose tag was issued for one of them
is accepted for no other: not as a directory cursor, as a Trash cursor or as a validator. -/
theorem tokens_separated {made : Set (MacCall tables)}
    (hmac : Set.InjOn (fun call : MacCall tables => mac call.input) made) :
    Function.Injective (MacCall.input : MacCall tables → List UInt8) ∧
      ∀ issued ∈ made,
        (∀ (scope : CursorScope tables) (current : Vector UInt8 32) (encoded : List Char)
          (offset : UInt64), tagOf encoded = some (mac issued.input).toList →
          scope.decodeCursor mac current encoded = .ok offset → scope.call offset current ∈ made →
            issued = scope.call offset current) ∧
        (∀ (scope : TrashScope) (encoded : List Char) (position : TrashPosition),
          tagOf encoded = some (mac issued.input).toList →
          scope.decodeTrashCursor mac encoded = .ok position →
            ∃ body : Slice, body.bytes = bodyOf encoded ∧
              (.trashCursor scope.subject scope.share scope.access body ∈ made →
                issued = .trashCursor scope.subject scope.share scope.access body)) ∧
        ∀ checked ∈ made, etagText (mac issued.input) = etagText (mac checked.input) →
          issued = checked := by
  refine ⟨MacCall.input_injective, fun issued hissued => ⟨?_, ?_, ?_⟩⟩
  · intro scope current encoded offset htag hdecode hmade
    refine hmac hissued hmade (Vector.toList_inj.mp (Option.some.inj ?_))
    exact htag.symm.trans (tagOf_of_decodeCursor hdecode)
  · intro scope encoded position htag hdecode
    obtain ⟨hown, hfits⟩ := tagOf_of_decodeTrashCursor hdecode
    refine ⟨⟨bodyOf encoded, hfits⟩, rfl, fun hmade => ?_⟩
    exact hmac hissued hmade (Vector.toList_inj.mp (Option.some.inj (htag.symm.trans hown)))
  · intro checked hchecked htext
    exact hmac hissued hchecked (etagText_inj htext)

/-! ### Two tokens -/

open Crabinet.Browse.BrowseState (asciiTables twoUser twoDigest twoTag)
open TrashScope (sampleScope usualTime usualTag twoListed firstId)

theorem pathBytes_root_lt : pathBytes .root < 256 ^ 8 := by decide

/-- Cursors of the share's root. -/
def rootScope : CursorScope asciiTables :=
  twoUser.scope ⟨.root, fun _ hname => (List.not_mem_nil hname).elim, pathBytes_root_lt⟩

/-- The authentication of a directory cursor. -/
def directoryCall : MacCall asciiTables := rootScope.call 1 twoDigest

/-- The authentication of a Trash cursor. -/
def trashCall : MacCall asciiTables :=
  .trashCursor sampleScope.subject sampleScope.share sampleScope.access
    ⟨TrashScope.body (twoListed usualTime firstId).position, by decide⟩

/-- The keyed hash function, with its values on both messages. -/
def twoMac : Mac := fun message =>
  if message = directoryCall.input then twoTag
  else if message = trashCall.input then usualTag
  else Vector.replicate 32 0

/-- A directory cursor with the tag of the Trash cursor. -/
def forgedCursor : List Char :=
  Base64.encode ((cursorVersion :: (beBytes 8 1 ++ twoDigest.toList)) ++ (twoMac trashCall.input).toList)

theorem twoMac_injOn :
    Set.InjOn (fun call : MacCall asciiTables => twoMac call.input) {directoryCall, trashCall} := by
  have hinput : trashCall.input ≠ directoryCall.input := fun h =>
    nomatch MacCall.input_injective h
  have hfirst : twoMac directoryCall.input = twoTag := if_pos rfl
  have hsecond : twoMac trashCall.input = usualTag := by
    rw [twoMac, if_neg hinput, if_pos rfl]
  have htag : twoTag ≠ usualTag := by decide
  rintro call (rfl | rfl) other (rfl | rfl) h
  · rfl
  · exact absurd (hfirst.symm.trans (h.trans hsecond)) htag
  · exact absurd (hfirst.symm.trans (h.symm.trans hsecond)) htag
  · rfl

theorem tokens_separated_two : rootScope.decodeCursor twoMac twoDigest forgedCursor ≠ .ok 1 := by
  intro hdecode
  have htag : tagOf forgedCursor = some (twoMac trashCall.input).toList := by
    rw [tagOf, forgedCursor, Base64.decode_encode, Option.map_some]
    exact congrArg some (List.drop_left' (by simp))
  have hsame := ((tokens_separated twoMac_injOn).2 trashCall (.inr rfl)).1 rootScope twoDigest
    forgedCursor 1 htag hdecode (.inl rfl)
  cases hsame

end Crabinet.Tokens
