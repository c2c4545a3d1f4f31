import Crabinet.Library.ReflectedCrc

/-!
# The sliced CRC-32 of the ZIP writer

`Crc32` reads eight bytes at a time through eight generated tables. Here the tables and
the update loop are embedded as they stand, next to the bitwise reference that the
independent reader uses, and the two are proved equal for every byte string.
-/

namespace Crabinet.Zip

open Crabinet.Library

/-- The reflected IEEE 802.3 polynomial. -/
def crcPolynomial : BitVec 32 := 0xEDB88320#32

/-- The first generated table: an index clocked eight times. -/
def crcTable0 (index : BitVec 32) : BitVec 32 := crcClocks crcPolynomial 8 index

/-- All generated tables: each one after the first moves the previous table's entry past one
more zero byte. -/
def crcTables : ℕ → BitVec 32 → BitVec 32
  | 0, index => crcTable0 index
  | table + 1, index =>
    let previous := crcTables table index
    (previous >>> 8) ^^^ crcTable0 (previous &&& 0xFF#32)

/-- A running CRC-32. -/
structure Crc32 where
  register : BitVec 32
deriving DecidableEq, Repr

/-- `Crc32::new`. -/
def Crc32.new : Crc32 := ⟨BitVec.allOnes 32⟩

/-- The byte-at-a-time tail of the update loop. -/
def updateByte (crc : BitVec 32) (byte : UInt8) : BitVec 32 :=
  crcTables 0 ((crc ^^^ byteRegister byte) &&& 0xFF#32) ^^^ (crc >>> 8)

/-- One chunk of the update loop: eight bytes, one lookup each. -/
def updateChunk (low high : BitVec 32) : BitVec 32 :=
  crcTables 7 (low &&& 0xFF#32) ^^^
  crcTables 6 ((low >>> 8) &&& 0xFF#32) ^^^
  crcTables 5 ((low >>> 16) &&& 0xFF#32) ^^^
  crcTables 4 (low >>> 24) ^^^
  crcTables 3 (high &&& 0xFF#32) ^^^
  crcTables 2 ((high >>> 8) &&& 0xFF#32) ^^^
  crcTables 1 ((high >>> 16) &&& 0xFF#32) ^^^
  crcTables 0 (high >>> 24)

/-- The update loop: chunks of eight bytes, then the remainder. -/
def updateRegister (crc : BitVec 32) : List UInt8 → BitVec 32
  | c0 :: c1 :: c2 :: c3 :: c4 :: c5 :: c6 :: c7 :: rest =>
    updateRegister (updateChunk (wordRegister c0 c1 c2 c3 ^^^ crc) (wordRegister c4 c5 c6 c7)) rest
  | remainder => remainder.foldl updateByte crc

/-- `Crc32::update`. -/
def Crc32.update (crc : Crc32) (bytes : List UInt8) : Crc32 := ⟨updateRegister crc.register bytes⟩

/-- `Crc32::finish`. -/
def Crc32.finish (crc : Crc32) : BitVec 32 := ~~~crc.register

/-- `verify::reference_crc`: one bit at a time, without tables. -/
def referenceCrc (bytes : List UInt8) : BitVec 32 :=
  ~~~(bytes.foldl (crcFeed crcPolynomial) (BitVec.allOnes 32))

/-- Table `k` holds its index clocked past `k + 1` bytes. -/
theorem crcTables_eq (table : ℕ) (index : BitVec 32) :
    crcTables table index = crcClocks crcPolynomial (8 * (table + 1)) index := by
  induction table with
  | zero => rfl
  | succ table ih =>
    rw [crcTables, ih, crcTable0, BitVec.xor_comm, ← crcClocks_eight, crcClocks_add]
    rfl

/-- A table lookup feeds one byte. -/
theorem updateByte_eq (crc : BitVec 32) (byte : UInt8) :
    updateByte crc byte = crcFeed crcPolynomial crc byte := by
  have hshift : (crc ^^^ byteRegister byte) >>> 8 = crc >>> 8 := by
    rw [BitVec.ushiftRight_xor_distrib]
    have hzero : byteRegister byte >>> 8 = 0#32 := by
      ext i hi
      rw [← BitVec.getLsbD_eq_getElem, BitVec.getLsbD_ushiftRight, byteRegister_high _ _ (by omega)]
      simp
    rw [hzero, BitVec.xor_zero]
  rw [updateByte, crcFeed, crcClocks_eight, hshift]
  rfl

/-- A chunk's lookups clock its low word past eight bytes and its high word past four. -/
theorem updateChunk_eq (low high : BitVec 32) :
    updateChunk low high = crcClocks crcPolynomial 64 low ^^^ crcClocks crcPolynomial 32 high := by
  have hlow := crcClocks_word crcPolynomial 32 low
  have hhigh := crcClocks_word crcPolynomial 0 high
  simp only [Nat.reduceAdd] at hlow hhigh
  rw [hlow, hhigh, updateChunk]
  simp only [crcTables_eq, Nat.reduceAdd, Nat.reduceMul, BitVec.xor_assoc]

/-- A chunk feeds its eight bytes in order. -/
theorem updateChunk_feeds (crc : BitVec 32) (c0 c1 c2 c3 c4 c5 c6 c7 : UInt8) :
    updateChunk (wordRegister c0 c1 c2 c3 ^^^ crc) (wordRegister c4 c5 c6 c7) =
      [c4, c5, c6, c7].foldl (crcFeed crcPolynomial)
        ([c0, c1, c2, c3].foldl (crcFeed crcPolynomial) crc) := by
  rw [crcFeed_word, crcFeed_word, updateChunk_eq, BitVec.xor_comm crc,
    crcClocks_xor _ _ (crcClocks _ _ _), crcClocks_add]

/-- The whole update loop feeds its bytes in order. -/
theorem updateRegister_eq (crc : BitVec 32) (bytes : List UInt8) :
    updateRegister crc bytes = bytes.foldl (crcFeed crcPolynomial) crc := by
  have hbytes : updateByte = crcFeed crcPolynomial := by
    funext crc byte
    exact updateByte_eq crc byte
  induction crc, bytes using updateRegister.induct with
  | case1 crc c0 c1 c2 c3 c4 c5 c6 c7 rest ih =>
    rw [updateRegister, ih, updateChunk_feeds]
    rfl
  | case2 crc remainder hshort =>
    rw [updateRegister, hbytes]
    exact hshort

/-- Updates compose over concatenation. -/
theorem Crc32.update_append (crc : Crc32) (first second : List UInt8) :
    (crc.update first).update second = crc.update (first ++ second) := by
  simp only [Crc32.update, updateRegister_eq, List.foldl_append]

@[simp] theorem Crc32.update_nil (crc : Crc32) : crc.update [] = crc := rfl

/-- The sliced CRC of a whole byte string is the bitwise reference. -/
theorem Crc32.finish_update_new (bytes : List UInt8) :
    (Crc32.new.update bytes).finish = referenceCrc bytes := by
  rw [Crc32.finish, Crc32.update, updateRegister_eq]
  rfl

/-- However a byte string is cut into updates, its sliced CRC is the bitwise reference. -/
theorem sliced_crc_exact (pieces : List (List UInt8)) :
    (pieces.foldl Crc32.update Crc32.new).finish = referenceCrc pieces.flatten := by
  have hupdates (crc : Crc32) : pieces.foldl Crc32.update crc = crc.update pieces.flatten := by
    induction pieces generalizing crc with
    | nil => rfl
    | cons piece rest ih => rw [List.foldl_cons, ih, Crc32.update_append, List.flatten_cons]
  rw [hupdates, Crc32.finish_update_new]

end Crabinet.Zip
