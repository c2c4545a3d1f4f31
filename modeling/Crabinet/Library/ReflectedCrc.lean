import Mathlib.Logic.Function.Iterate
import Mathlib.Tactic.Common

/-!
# Reflected 32-bit CRC registers

One clock of a reflected CRC register is linear over XOR, and clocking a register whose
low bits are clear only shifts it. These two facts turn a byte-at-a-time computation
into a sum of independently clocked bytes, which is what a sliced table looks up. The
polynomial is a parameter.
-/

namespace Crabinet.Library

/-- One clock of the register: the bit shifted out selects the polynomial. -/
def crcClock (polynomial register : BitVec 32) : BitVec 32 :=
  if register &&& 1#32 = 0#32 then register >>> 1 else polynomial ^^^ (register >>> 1)

/-- `count` clocks of the register. -/
def crcClocks (polynomial : BitVec 32) (count : ℕ) : BitVec 32 → BitVec 32 :=
  (crcClock polynomial)^[count]

/-- A byte as a register whose other bits are clear. -/
def byteRegister (byte : UInt8) : BitVec 32 := byte.toBitVec.setWidth 32

/-- Feed one byte: add it to the low bits and clock eight times. -/
def crcFeed (polynomial register : BitVec 32) (byte : UInt8) : BitVec 32 :=
  crcClocks polynomial 8 (register ^^^ byteRegister byte)

variable (polynomial : BitVec 32)

/-- The clock in terms of the bit shifted out. -/
theorem crcClock_eq (register : BitVec 32) :
    crcClock polynomial register =
      (register >>> 1) ^^^ (if register.getLsbD 0 then polynomial else 0#32) := by
  have hbit : register &&& 1#32 = 0#32 ↔ register.getLsbD 0 = false := by
    rw [BitVec.and_one_eq_setWidth_ofBool_getLsbD]
    cases register.getLsbD 0 <;> decide
  unfold crcClock
  by_cases h : register.getLsbD 0
  · rw [if_neg (by rw [hbit, h]; decide), if_pos h, BitVec.xor_comm]
  · have hfalse : register.getLsbD 0 = false := by simpa using h
    rw [if_pos (hbit.mpr hfalse), if_neg h, BitVec.xor_zero]

/-- One clock is linear over XOR. -/
theorem crcClock_xor (x y : BitVec 32) :
    crcClock polynomial (x ^^^ y) = crcClock polynomial x ^^^ crcClock polynomial y := by
  simp only [crcClock_eq, BitVec.getLsbD_xor, BitVec.ushiftRight_xor_distrib]
  ext i hi
  cases x.getLsbD 0 <;> cases y.getLsbD 0 <;>
    simp only [Bool.false_xor, Bool.true_xor, Bool.xor_false, Bool.not_true,
      Bool.false_eq_true, if_true, if_false, BitVec.xor_zero, BitVec.getElem_xor] <;>
    cases (x >>> 1)[i] <;> cases (y >>> 1)[i] <;> cases polynomial[i] <;> rfl

@[simp] theorem crcClocks_zero (register : BitVec 32) : crcClocks polynomial 0 register = register :=
  rfl

/-- Any number of clocks is linear over XOR. -/
theorem crcClocks_xor (count : ℕ) (x y : BitVec 32) :
    crcClocks polynomial count (x ^^^ y) =
      crcClocks polynomial count x ^^^ crcClocks polynomial count y := by
  induction count generalizing x y with
  | zero => rfl
  | succ count ih =>
    change crcClocks polynomial count (crcClock polynomial (x ^^^ y)) = _
    rw [crcClock_xor, ih]
    rfl

/-- Clocks add up. -/
theorem crcClocks_add (first second : ℕ) (register : BitVec 32) :
    crcClocks polynomial second (crcClocks polynomial first register) =
      crcClocks polynomial (first + second) register := by
  rw [Nat.add_comm, crcClocks, crcClocks, crcClocks, Function.iterate_add_apply]

/-- Clocking clear low bits only shifts the register. -/
theorem crcClocks_of_low_clear (count : ℕ) (register : BitVec 32)
    (hlow : ∀ i < count, register.getLsbD i = false) :
    crcClocks polynomial count register = register >>> count := by
  induction count generalizing register with
  | zero => simp
  | succ count ih =>
    have hclock : crcClock polynomial register = register >>> 1 := by
      rw [crcClock_eq, hlow 0 (Nat.succ_pos count)]
      simp
    change crcClocks polynomial count (crcClock polynomial register) = _
    rw [hclock, ih, ← BitVec.shiftRight_add, Nat.add_comm]
    intro i hi
    rw [BitVec.getLsbD_ushiftRight, Nat.add_comm]
    exact hlow (i + 1) (Nat.succ_lt_succ hi)

/-- A value shifted up by whole bits comes back after as many clocks, if none was lost. -/
theorem crcClocks_shiftLeft (count extra : ℕ) (register : BitVec 32)
    (hhigh : ∀ i, 32 ≤ i + count → register.getLsbD i = false) :
    crcClocks polynomial (count + extra) (register <<< count) =
      crcClocks polynomial extra register := by
  have hback : crcClocks polynomial count (register <<< count) = register := by
    rw [crcClocks_of_low_clear]
    · ext i hi
      rw [← BitVec.getLsbD_eq_getElem, ← BitVec.getLsbD_eq_getElem, BitVec.getLsbD_ushiftRight,
        BitVec.getLsbD_shiftLeft]
      by_cases h : count + i < 32
      · simp [h]
      · rw [hhigh i (by omega)]
        simp [h]
    · intro i hi
      rw [BitVec.getLsbD_shiftLeft]
      simp [hi]
  rw [← crcClocks_add, hback]

/-- A byte has no bits above its eight. -/
theorem byteRegister_high (byte : UInt8) (i : ℕ) (hi : 8 ≤ i) :
    (byteRegister byte).getLsbD i = false := by
  rw [byteRegister, BitVec.getLsbD_setWidth, BitVec.getLsbD_of_ge _ i hi, Bool.and_false]

/-- Four bytes as one little-endian register. -/
def wordRegister (b0 b1 b2 b3 : UInt8) : BitVec 32 :=
  byteRegister b0 ^^^ byteRegister b1 <<< 8 ^^^ byteRegister b2 <<< 16 ^^^ byteRegister b3 <<< 24

/-- Feeding a word byte by byte clocks the sum of register and word 32 times. -/
theorem crcFeed_word (register : BitVec 32) (b0 b1 b2 b3 : UInt8) :
    [b0, b1, b2, b3].foldl (crcFeed polynomial) register =
      crcClocks polynomial 32 (register ^^^ wordRegister b0 b1 b2 b3) := by
  have hbyte (byte : UInt8) (count : ℕ) (hcount : count ≤ 24) :
      byteRegister byte = crcClocks polynomial count (byteRegister byte <<< count) := by
    have h := crcClocks_shiftLeft polynomial count 0 (byteRegister byte)
      (fun i hi => byteRegister_high byte i (by omega))
    simpa using h.symm
  simp only [List.foldl_cons, List.foldl_nil, crcFeed]
  rw [hbyte b1 8 (by omega), ← crcClocks_xor, crcClocks_add,
    hbyte b2 16 (by omega), ← crcClocks_xor, crcClocks_add,
    hbyte b3 24 (by omega), ← crcClocks_xor, crcClocks_add, wordRegister]
  simp only [BitVec.xor_assoc]

/-- The low byte of a register and what lies above it. -/
theorem register_split (register : BitVec 32) :
    register = (register &&& 0xFF#32) ^^^ (register >>> 8) <<< 8 := by
  ext i hi
  rw [BitVec.getElem_xor, BitVec.getElem_and, ← BitVec.getLsbD_eq_getElem (x := 0xFF#32),
    ← BitVec.getLsbD_eq_getElem (x := (register >>> 8) <<< 8), BitVec.getLsbD_shiftLeft,
    BitVec.getLsbD_ushiftRight]
  have hmask : (0xFF#32).getLsbD i = decide (i < 8) := by
    change (BitVec.setWidth 32 (BitVec.allOnes 8)).getLsbD i = _
    rw [BitVec.getLsbD_setWidth, BitVec.getLsbD_allOnes]
    simp [hi]
  rw [hmask]
  by_cases h : i < 8
  · simp [h]
  · have hsum : 8 + (i - 8) = i := by omega
    simp [h, hi, hsum]

/-- Eight clocks look the low byte up and shift the rest down. -/
theorem crcClocks_eight (register : BitVec 32) :
    crcClocks polynomial 8 register =
      crcClocks polynomial 8 (register &&& 0xFF#32) ^^^ (register >>> 8) := by
  conv_lhs => rw [register_split register]
  rw [crcClocks_xor]
  congr 1
  have h := crcClocks_shiftLeft polynomial 8 0 (register >>> 8) (fun i hi => by
    rw [BitVec.getLsbD_ushiftRight]
    exact BitVec.getLsbD_of_ge _ _ (by omega))
  simpa using h

/-- Thirty-two clocks of a register, as the sum of its four bytes clocked separately. -/
theorem crcClocks_word (extra : ℕ) (register : BitVec 32) :
    crcClocks polynomial (32 + extra) register =
      crcClocks polynomial (32 + extra) (register &&& 0xFF#32) ^^^
      crcClocks polynomial (24 + extra) ((register >>> 8) &&& 0xFF#32) ^^^
      crcClocks polynomial (16 + extra) ((register >>> 16) &&& 0xFF#32) ^^^
      crcClocks polynomial (8 + extra) (register >>> 24) := by
  have hstep (count : ℕ) (x : BitVec 32) :
      crcClocks polynomial (8 + count) x =
        crcClocks polynomial (8 + count) (x &&& 0xFF#32) ^^^ crcClocks polynomial count (x >>> 8) := by
    conv_lhs => rw [← crcClocks_add, crcClocks_eight, crcClocks_xor, crcClocks_add]
  have h1 := hstep (24 + extra) register
  have h2 := hstep (16 + extra) (register >>> 8)
  have h3 := hstep (8 + extra) (register >>> 16)
  rw [← BitVec.shiftRight_add] at h2 h3
  rw [show 8 + (24 + extra) = 32 + extra by omega] at h1
  rw [show 8 + (16 + extra) = 24 + extra by omega] at h2
  rw [show 8 + (8 + extra) = 16 + extra by omega] at h3
  rw [h1, h2, h3]
  simp only [BitVec.xor_assoc]

end Crabinet.Library
