import Crabinet.Library.Base64
import Crabinet.Tokens.MacInput

/-!
# Directory cursors

A cursor is an offset and the fingerprint of the listing it belongs to, with a tag over
both, the user, the share, the path and the access level. A cursor is accepted only for the
listing as it is now.
-/

namespace Crabinet.Tokens

open Crabinet.Filesystem Crabinet.Library

/-- `AppError`, as far as listings use it. -/
inductive AppError where
  | invalidRequest | conflict | tooLarge | notFound | pathTooDeep | internal
deriving DecidableEq, Repr

/-- `CURSOR_VERSION`. -/
def cursorVersion : UInt8 := 1

/-- `CURSOR_BYTES`. -/
def cursorBytes : ℕ := 1 + 8 + 32 + 32

/-- The keyed hash function, with its key. -/
abbrev Mac := List UInt8 → Vector UInt8 32

/-- What a directory cursor is bound to besides the listing. -/
structure CursorScope (tables : UnicodeTables) where
  subject : Username
  share : ShareId
  path : ValidPath tables
  access : AccessLevel
deriving DecidableEq

variable {tables : UnicodeTables}

namespace CursorScope

/-- The call that authenticates a cursor. -/
def call (scope : CursorScope tables) (offset : UInt64) (fingerprint : Vector UInt8 32) :
    MacCall tables :=
  .directoryCursor scope.subject scope.share scope.path scope.access offset fingerprint

/-- `cursor_tag`. -/
def cursorTag (mac : Mac) (scope : CursorScope tables) (offset : UInt64)
    (fingerprint : Vector UInt8 32) : Vector UInt8 32 :=
  mac (updateCursorMac scope.subject.value scope.share scope.path.path scope.access offset fingerprint)

/-- `encode_cursor`. -/
def encodeCursor (mac : Mac) (scope : CursorScope tables) (offset : UInt64)
    (fingerprint : Vector UInt8 32) : List Char :=
  Base64.encode (cursorVersion :: (beBytes 8 offset.toNat ++ (fingerprint.toList ++
    (cursorTag mac scope offset fingerprint).toList)))

/-- `decode_cursor`. -/
def decodeCursor (mac : Mac) (scope : CursorScope tables) (current : Vector UInt8 32)
    (encoded : List Char) : Except AppError UInt64 :=
  if (encoded.map Char.utf8Size).sum > 128 then .error .conflict
  else
    match Base64.decode encoded with
    | none => .error .conflict
    | some bytes =>
      if bytes.length ≠ cursorBytes ∨ bytes.head? ≠ some cursorVersion then .error .conflict
      else
        let offset := UInt64.ofNat (beValue ((bytes.drop 1).take 8))
        let fingerprint := (bytes.drop 9).take 32
        if fingerprint ≠ current.toList then .error .conflict
        else if bytes.drop 41 ≠ (cursorTag mac scope offset current).toList then .error .conflict
        else .ok offset

variable {mac : Mac} {scope other : CursorScope tables} {offset offset' : UInt64}
  {fingerprint fingerprint' : Vector UInt8 32}

theorem length_encodeCursor : (encodeCursor mac scope offset fingerprint).length = 98 := by
  simp [encodeCursor, Base64.length_encode]

/-- A cursor is decoded to its offset while the listing is the same. -/
theorem decodeCursor_encodeCursor (mac : Mac) (scope : CursorScope tables) (offset : UInt64)
    (fingerprint : Vector UInt8 32) :
    decodeCursor mac scope fingerprint (encodeCursor mac scope offset fingerprint) = .ok offset := by
  have hlength : ((encodeCursor mac scope offset fingerprint).map Char.utf8Size).sum = 98 := by
    rw [encodeCursor, Base64.sum_utf8Size_encode]
    exact length_encodeCursor
  have hoffset : UInt64.ofNat (beValue (beBytes 8 offset.toNat)) = offset := by
    rw [beValue_beBytes_of_lt offset.toNat_lt, UInt64.ofNat_toNat]
  unfold decodeCursor
  rw [if_neg (by omega), encodeCursor, Base64.decode_encode]
  simp only [List.length_cons, List.length_append, beBytes_length, Vector.length_toList, cursorBytes,
    List.head?_cons, ne_eq, not_true_eq_false, or_self, if_false, List.drop_succ_cons, List.drop_zero]
  rw [List.take_left' (beBytes_length 8 _), hoffset]
  have hfingerprint : List.take 32 (List.drop 8 (beBytes 8 offset.toNat ++ (fingerprint.toList ++
      (cursorTag mac scope offset fingerprint).toList))) = fingerprint.toList := by
    rw [List.drop_left' (beBytes_length 8 _), List.take_left' (Vector.length_toList)]
  have htag : List.drop 40 (beBytes 8 offset.toNat ++ (fingerprint.toList ++
      (cursorTag mac scope offset fingerprint).toList)) =
        (cursorTag mac scope offset fingerprint).toList := by
    rw [← List.append_assoc]
    exact List.drop_left' (by simp)
  rw [hfingerprint, htag]
  simp

/-- An accepted cursor is one that was encoded for this scope and this listing. -/
theorem eq_encodeCursor_of_decodeCursor {encoded : List Char}
    (h : decodeCursor mac scope fingerprint encoded = .ok offset) :
    encoded = encodeCursor mac scope offset fingerprint := by
  unfold decodeCursor at h
  split at h
  · cases h
  · split at h
    · cases h
    · rename_i bytes hbytes
      split at h
      · cases h
      · rename_i hshape
        dsimp only at h
        split at h
        · cases h
        · rename_i hfingerprint
          split at h
          · cases h
          · rename_i htag
            obtain rfl := Except.ok.inj h
            rw [not_or, not_not, not_not] at hshape
            rw [not_not] at hfingerprint htag
            obtain ⟨hlength, hhead⟩ := hshape
            rw [← Base64.encode_of_decode hbytes]
            obtain ⟨rest, rfl⟩ := List.head?_eq_some_iff.mp hhead
            have hrest : rest.length = 72 := by
              simpa [cursorBytes] using hlength
            have hwidth : (rest.take 8).length = 8 := by
              rw [List.length_take]
              omega
            have hvalue := beValue_lt (rest.take 8)
            rw [hwidth] at hvalue
            have hoffset : beBytes 8 (UInt64.ofNat (beValue (rest.take 8))).toNat = rest.take 8 := by
              rw [UInt64.toNat_ofNat_of_lt' hvalue]
              have hwrite := beBytes_beValue (rest.take 8)
              rwa [hwidth] at hwrite
            simp only [List.drop_succ_cons, List.drop_zero] at hfingerprint htag ⊢
            rw [encodeCursor, hoffset, ← hfingerprint, ← htag]
            have hsplit : rest.take 8 ++ ((rest.drop 8).take 32 ++ rest.drop 40) = rest := by
              rw [show rest.drop 40 = (rest.drop 8).drop 32 by rw [List.drop_drop],
                List.take_append_drop, List.take_append_drop]
            rw [hsplit]

/-- A cursor determines its offset and its fingerprint, and the tag that was made for it. -/
theorem encodeCursor_inj
    (h : encodeCursor mac scope offset fingerprint = encodeCursor mac other offset' fingerprint') :
    offset = offset' ∧ fingerprint = fingerprint' ∧
      cursorTag mac scope offset fingerprint = cursorTag mac other offset' fingerprint' := by
  have hbytes := (List.cons.inj (Base64.encode_injective h)).2
  obtain ⟨hoffset, hbytes⟩ := List.append_inj hbytes (by simp)
  obtain ⟨hfingerprint, htag⟩ := List.append_inj hbytes (by simp)
  exact ⟨beBytes_uint64_inj.mp hoffset, Vector.toList_inj.mp hfingerprint, Vector.toList_inj.mp htag⟩

end CursorScope

end Crabinet.Tokens
