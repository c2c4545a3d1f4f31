import Crabinet.Library.Text

/-!
# Decoding UTF-8

The decoder of the encoding standard, which takes one byte at a time. A byte that cannot
follow those before it ends an error and is read again as the first of a character. An error
is replaced by U+FFFD, or makes the decoding fail. What was encoded is decoded again.
-/

namespace Crabinet.Library

namespace Utf8Decoder

/-- A character of which some bytes are still needed: their number, the bounds of the next one, and
the code point so far. -/
structure Pending where
  needed : ℕ
  lower : ℕ
  upper : ℕ
  point : ℕ

/-- The first byte of a character. An error is `none` in the output. -/
def lead (byte : ℕ) : List (Option Char) × Option Pending :=
  if byte ≤ 0x7F then ([some (Char.ofNat byte)], none)
  else if 0xC2 ≤ byte ∧ byte ≤ 0xDF then ([], some ⟨1, 0x80, 0xBF, byte % 32⟩)
  else if 0xE0 ≤ byte ∧ byte ≤ 0xEF then
    ([], some ⟨2, if byte = 0xE0 then 0xA0 else 0x80, if byte = 0xED then 0x9F else 0xBF, byte % 16⟩)
  else if 0xF0 ≤ byte ∧ byte ≤ 0xF4 then
    ([], some ⟨3, if byte = 0xF0 then 0x90 else 0x80, if byte = 0xF4 then 0x8F else 0xBF, byte % 8⟩)
  else ([none], none)

/-- A byte after those of the character that is pending. -/
def follow (pending : Pending) (byte : ℕ) : List (Option Char) × Option Pending :=
  if pending.lower ≤ byte ∧ byte ≤ pending.upper then
    let point := pending.point * 64 + byte % 64
    if pending.needed = 1 then ([some (Char.ofNat point)], none)
    else ([], some ⟨pending.needed - 1, 0x80, 0xBF, point⟩)
  else (none :: (lead byte).1, (lead byte).2)

/-- What is decoded after the bytes that are pending. -/
def decodeFrom (state : Option Pending) : List UInt8 → List (Option Char)
  | [] => if state.isSome then [none] else []
  | byte :: rest =>
    let (output, next) := (state.elim lead follow) byte.toNat
    output ++ decodeFrom next rest

end Utf8Decoder

open Utf8Decoder

/-- The text of bytes, with U+FFFD for each error. -/
def utf8Lossy (bytes : List UInt8) : List Char :=
  (decodeFrom none bytes).map fun found => found.getD '\ufffd'

/-- The text of bytes without an error. -/
def utf8Text (bytes : List UInt8) : Option (List Char) := (decodeFrom none bytes).mapM id

namespace Utf8Decoder

theorem toNat_ofNat_of_le {value : ℕ} (h : value ≤ 0xFF) : (UInt8.ofNat value).toNat = value :=
  UInt8.toNat_ofNat_of_lt (Nat.lt_succ_of_le h)

/-- A byte that others follow. -/
theorem decodeFrom_follow {needed lower upper point value : ℕ} (rest : List UInt8) (hlower : lower ≤ value)
    (hupper : value ≤ upper) (hvalue : value ≤ 0xFF) :
    decodeFrom (some ⟨needed + 2, lower, upper, point⟩) (UInt8.ofNat value :: rest) =
      decodeFrom (some ⟨needed + 1, 0x80, 0xBF, point * 64 + value % 64⟩) rest := by
  rw [decodeFrom, toNat_ofNat_of_le hvalue, Option.elim_some, follow, if_pos ⟨hlower, hupper⟩]
  rfl

/-- The last byte. -/
theorem decodeFrom_last {lower upper point value : ℕ} (rest : List UInt8) (hlower : lower ≤ value)
    (hupper : value ≤ upper) (hvalue : value ≤ 0xFF) :
    decodeFrom (some ⟨1, lower, upper, point⟩) (UInt8.ofNat value :: rest) =
      some (Char.ofNat (point * 64 + value % 64)) :: decodeFrom none rest := by
  rw [decodeFrom, toNat_ofNat_of_le hvalue, Option.elim_some, follow, if_pos ⟨hlower, hupper⟩]
  rfl

/-- The first byte of several. -/
theorem decodeFrom_lead {pending : Pending} {value : ℕ} (rest : List UInt8) (hvalue : value ≤ 0xFF)
    (h : lead value = ([], some pending)) :
    decodeFrom none (UInt8.ofNat value :: rest) = decodeFrom (some pending) rest := by
  rw [decodeFrom, toNat_ofNat_of_le hvalue, Option.elim_none, h]
  rfl

/-- A character is decoded from its own bytes. -/
theorem decodeFrom_utf8EncodeChar (c : Char) (rest : List UInt8) :
    decodeFrom none (String.utf8EncodeChar c ++ rest) = some c :: decodeFrom none rest := by
  obtain ⟨value, hvalue⟩ : ∃ value, c.val.toNat = value := ⟨_, rfl⟩
  have hchar : Char.ofNat value = c := by rw [← hvalue]; exact Char.ofNat_toNat c
  have hvalid : value < 0xD800 ∨ 0xDFFF < value ∧ value < 0x110000 := hvalue ▸ c.valid
  unfold String.utf8EncodeChar
  dsimp only
  rw [hvalue]
  split_ifs with hone htwo hthree
  · rw [List.singleton_append, decodeFrom, toNat_ofNat_of_le (hone.trans (by decide)), Option.elim_none,
      lead, if_pos hone, hchar]
    rfl
  · have hlead : lead (value / 64 % 32 + 0xC0) = ([], some ⟨1, 0x80, 0xBF, value / 64⟩) := by
      rw [lead, if_neg (by omega), if_pos (by omega)]
      congr 3
      omega
    have hpoint : value / 64 * 64 + (value % 64 + 0x80) % 64 = value := by omega
    rw [List.cons_append, List.singleton_append, decodeFrom_lead _ (by omega) hlead,
      decodeFrom_last _ (by omega) (by omega) (by omega), hpoint, hchar]
  · have hlead : lead (value / 4096 % 16 + 0xE0) = ([], some ⟨2, if value / 4096 = 0 then 0xA0 else 0x80,
        if value / 4096 = 13 then 0x9F else 0xBF, value / 4096⟩) := by
      rw [lead, if_neg (by omega), if_neg (by omega), if_pos (by omega)]
      congr 3
      · split_ifs <;> omega
      · split_ifs <;> omega
      · omega
    have hpoint : (value / 4096 * 64 + (value / 64 % 64 + 0x80) % 64) * 64 +
        (value % 64 + 0x80) % 64 = value := by omega
    rw [List.cons_append, List.cons_append, List.singleton_append, decodeFrom_lead _ (by omega) hlead,
      decodeFrom_follow _ (by split_ifs <;> omega) (by split_ifs <;> omega) (by omega),
      decodeFrom_last _ (by omega) (by omega) (by omega), hpoint, hchar]
  · have hlead : lead (value / 262144 % 8 + 0xF0) = ([], some ⟨3,
        if value / 262144 = 0 then 0x90 else 0x80, if value / 262144 = 4 then 0x8F else 0xBF,
        value / 262144⟩) := by
      rw [lead, if_neg (by omega), if_neg (by omega), if_neg (by omega), if_pos (by omega)]
      congr 3
      · split_ifs <;> omega
      · split_ifs <;> omega
      · omega
    have hpoint : ((value / 262144 * 64 + (value / 4096 % 64 + 0x80) % 64) * 64 +
        (value / 64 % 64 + 0x80) % 64) * 64 + (value % 64 + 0x80) % 64 = value := by omega
    rw [List.cons_append, List.cons_append, List.cons_append, List.singleton_append,
      decodeFrom_lead _ (by omega) hlead,
      decodeFrom_follow _ (by split_ifs <;> omega) (by split_ifs <;> omega) (by omega),
      decodeFrom_follow _ (by omega) (by omega) (by omega),
      decodeFrom_last _ (by omega) (by omega) (by omega), hpoint, hchar]

end Utf8Decoder

theorem decodeFrom_utf8Bytes (text : List Char) : decodeFrom none (utf8Bytes text) = text.map some := by
  induction text with
  | nil => rfl
  | cons c rest ih =>
    rw [utf8Bytes, List.flatMap_cons, ← utf8Bytes, decodeFrom_utf8EncodeChar, ih, List.map_cons]

/-- What was encoded has no error. -/
theorem utf8Lossy_utf8Bytes (text : List Char) : utf8Lossy (utf8Bytes text) = text := by
  rw [utf8Lossy, decodeFrom_utf8Bytes, List.map_map]
  exact List.map_id text

theorem utf8Text_utf8Bytes (text : List Char) : utf8Text (utf8Bytes text) = some text := by
  rw [utf8Text, decodeFrom_utf8Bytes]
  induction text with
  | nil => rfl
  | cons c rest ih =>
    rw [List.map_cons, List.mapM_cons, ih]
    rfl

end Crabinet.Library
