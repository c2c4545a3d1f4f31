import Mathlib.Data.List.Basic
import Mathlib.Tactic.Common

/-!
# Lists of blocks

A list whose length is a multiple of a block size, read and written block by block. A list of
whole blocks is determined by its blocks, and writes to different blocks do not disturb each
other.
-/

namespace Crabinet.Library

variable {α : Type} {size index other count : ℕ} {items value : List α}

/-- The block at an index, which is cut where the list ends. -/
def block (size : ℕ) (items : List α) (index : ℕ) : List α := (items.drop (index * size)).take size

/-- Write a block over the one at an index. -/
def setBlock (size : ℕ) (items : List α) (index : ℕ) (value : List α) : List α :=
  items.take (index * size) ++ value ++ items.drop ((index + 1) * size)

/-- Copy a block of one list over one of another; both must lie within their lists. -/
def copyBlock (size : ℕ) (source target : List α) (move : ℕ × ℕ) : Option (List α) :=
  if move.1 * size + size ≤ source.length ∧ move.2 * size + size ≤ target.length then
    some (setBlock size target move.2 (block size source move.1))
  else none

/-- The blocks up to a count lie within the list. -/
theorem block_end_le (hlength : items.length = count * size) (hindex : index < count) :
    index * size + size ≤ items.length := by
  rw [hlength, ← Nat.succ_mul]
  exact Nat.mul_le_mul_right size hindex

theorem length_block (h : index * size + size ≤ items.length) :
    (block size items index).length = size := by
  rw [block, List.length_take, List.length_drop]
  omega

theorem length_setBlock (h : index * size + size ≤ items.length) (hvalue : value.length = size) :
    (setBlock size items index value).length = items.length := by
  rw [setBlock, List.length_append, List.length_append, List.length_take, List.length_drop,
    Nat.succ_mul]
  omega

theorem block_setBlock_self (h : index * size + size ≤ items.length)
    (hvalue : value.length = size) :
    block size (setBlock size items index value) index = value := by
  have hbefore : (items.take (index * size)).length = index * size := by
    rw [List.length_take]
    omega
  rw [block, setBlock, List.append_assoc, List.drop_left' hbefore, List.take_left' hvalue]

/-- A write to one block leaves the others. -/
theorem block_setBlock_ne (h : index * size + size ≤ items.length) (hvalue : value.length = size)
    (hne : other ≠ index) :
    block size (setBlock size items index value) other = block size items other := by
  have hbefore : (items.take (index * size)).length = index * size := by
    rw [List.length_take]
    omega
  rcases Nat.lt_or_gt_of_ne hne with hlt | hgt
  · have hend : other * size + size ≤ index * size := by
      rw [← Nat.succ_mul]
      exact Nat.mul_le_mul_right size hlt
    rw [block, setBlock, List.append_assoc, List.drop_append_of_le_length (by omega),
      List.take_append_of_le_length (by rw [List.length_drop]; omega), List.drop_take,
      List.take_take, Nat.min_eq_left (by omega), block]
  · have hend : (index + 1) * size ≤ other * size := Nat.mul_le_mul_right size hgt
    have hfront : (items.take (index * size) ++ value).length = (index + 1) * size := by
      rw [List.length_append, hbefore, hvalue, Nat.succ_mul]
    rw [block, setBlock, List.drop_append, hfront, List.drop_eq_nil_of_le (by omega),
      List.nil_append, List.drop_drop, block]
    congr 2
    omega

/-- Lists of whole blocks with the same blocks are the same. -/
theorem eq_of_blocks {first second : List α} (hfirst : first.length = count * size)
    (hsecond : second.length = count * size)
    (h : ∀ index < count, block size first index = block size second index) : first = second := by
  induction count generalizing first second with
  | zero =>
    rw [Nat.zero_mul] at hfirst hsecond
    rw [List.eq_nil_of_length_eq_zero hfirst, List.eq_nil_of_length_eq_zero hsecond]
  | succ count ih =>
    have hhead := h 0 (Nat.succ_pos count)
    simp only [block, Nat.zero_mul, List.drop_zero] at hhead
    have hrest : first.drop size = second.drop size := by
      refine ih (by rw [List.length_drop, hfirst, Nat.succ_mul]; omega)
        (by rw [List.length_drop, hsecond, Nat.succ_mul]; omega) fun index hindex => ?_
      have hnext := h (index + 1) (Nat.succ_lt_succ hindex)
      unfold block at hnext ⊢
      rwa [Nat.succ_mul, Nat.add_comm, ← List.drop_drop, ← List.drop_drop] at hnext
    rw [← List.take_append_drop size first, ← List.take_append_drop size second, hhead, hrest]

/-- Blocks that are copied to different places are all there in the end. -/
theorem foldlM_copyBlock {source target : List α} {sources targets : ℕ} {moves : List (ℕ × ℕ)}
    (hsource : source.length = sources * size) (htarget : target.length = targets * size)
    (hmoves : ∀ move ∈ moves, move.1 < sources ∧ move.2 < targets)
    (hdistinct : (moves.map Prod.snd).Nodup) :
    ∃ result, moves.foldlM (copyBlock size source) target = some result ∧
      result.length = targets * size ∧
      (∀ move ∈ moves, block size result move.2 = block size source move.1) ∧
      ∀ index, index ∉ moves.map Prod.snd → block size result index = block size target index := by
  induction moves generalizing target with
  | nil => exact ⟨target, rfl, htarget, nofun, fun _ _ => rfl⟩
  | cons move rest ih =>
    obtain ⟨⟨hfrom, hto⟩, hrest⟩ := List.forall_mem_cons.mp hmoves
    rw [List.map_cons, List.nodup_cons] at hdistinct
    have hread := block_end_le hsource hfrom
    have hwrite := block_end_le htarget hto
    have hvalue := length_block hread
    have hlength := (length_setBlock hwrite hvalue).trans htarget
    obtain ⟨result, hresult, hsize, hcopied, hkept⟩ := ih hlength hrest hdistinct.2
    refine ⟨result, ?_, hsize, List.forall_mem_cons.mpr ⟨?_, hcopied⟩, fun index hindex => ?_⟩
    · rw [List.foldlM_cons, copyBlock, if_pos ⟨hread, hwrite⟩]
      exact hresult
    · rw [hkept move.2 hdistinct.1, block_setBlock_self hwrite hvalue]
    · rw [List.map_cons, List.mem_cons, not_or] at hindex
      rw [hkept index hindex.2, block_setBlock_ne hwrite hvalue hindex.1]

end Crabinet.Library
