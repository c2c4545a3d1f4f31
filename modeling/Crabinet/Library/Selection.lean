import Mathlib.Data.List.Sort

/-!
# The first elements of a sorted list

The first elements of a list in sorted order, and that they may be collected in rounds: an
element that a round drops would be dropped at the end as well.
-/

namespace Crabinet.Library

variable {α : Type} {r : α → α → Prop}

/-- Elements of the list that sort alike are the same. -/
def Distinguishes (r : α → α → Prop) (list : List α) : Prop :=
  ∀ a ∈ list, ∀ b ∈ list, r a b → r b a → a = b

theorem Distinguishes.subset {list larger : List α} (h : Distinguishes r larger)
    (hsubset : list ⊆ larger) : Distinguishes r list :=
  fun a ha b hb => h a (hsubset ha) b (hsubset hb)

variable [DecidableRel r]

/-- The first elements of a list in sorted order. -/
def first (r : α → α → Prop) [DecidableRel r] (number : ℕ) (list : List α) : List α :=
  (list.insertionSort r).take number

/-- Which elements come first after an insertion depends on those that came first before it. -/
theorem take_orderedInsert (number : ℕ) (a : α) (list : List α) :
    (list.orderedInsert r a).take number = ((list.take number).orderedInsert r a).take number := by
  induction list generalizing number with
  | nil => simp
  | cons b rest ih =>
    cases number with
    | zero => simp
    | succ number =>
      rw [List.take_succ_cons]
      by_cases hle : r a b
      · rw [List.orderedInsert_cons_of_le r _ hle, List.orderedInsert_cons_of_le r _ hle,
          List.take_succ_cons, List.take_succ_cons]
        cases number with
        | zero => simp
        | succ number => rw [List.take_succ_cons, List.take_succ_cons, List.take_take,
            Nat.min_eq_left (Nat.le_succ number)]
      · rw [List.orderedInsert_of_not_le r _ hle, List.orderedInsert_of_not_le r _ hle,
          List.take_succ_cons, List.take_succ_cons, ih]

theorem first_cons_congr {number : ℕ} {a : α} {list other : List α}
    (h : first r number list = first r number other) :
    first r number (a :: list) = first r number (a :: other) := by
  simp only [first, List.insertionSort_cons] at *
  rw [take_orderedInsert, h, ← take_orderedInsert]

theorem length_first (number : ℕ) (list : List α) :
    (first r number list).length = min number list.length := by
  rw [first, List.length_take, List.length_insertionSort]

theorem first_subset (number : ℕ) (list : List α) : first r number list ⊆ list :=
  fun _ hmem => (List.mem_insertionSort r).mp (List.mem_of_mem_take hmem)

theorem take_first {number larger : ℕ} (h : number ≤ larger) (list : List α) :
    (first r larger list).take number = first r number list := by
  rw [first, List.take_take, Nat.min_eq_left h, first]

variable [Std.Total r] [IsTrans α r]

/-- The sorted order does not depend on the order before. -/
theorem insertionSort_eq_of_perm {list other : List α} (hperm : list.Perm other)
    (hlist : Distinguishes r list) : list.insertionSort r = other.insertionSort r := by
  have hsorted := (List.perm_insertionSort r list).trans
    (hperm.trans (List.perm_insertionSort r other).symm)
  refine List.Perm.eq_of_pairwise (fun a b ha hb => ?_) (List.pairwise_insertionSort r list)
    (List.pairwise_insertionSort r other) hsorted
  exact hlist a ((List.mem_insertionSort r).mp ha) b
    (hperm.symm.subset ((List.mem_insertionSort r).mp hb))

/-- A round of selection drops nothing that comes first. -/
theorem first_first (number : ℕ) (list : List α) :
    first r number (first r number list) = first r number list := by
  have hsorted : (first r number list).Pairwise r :=
    (List.pairwise_insertionSort r list).sublist (List.take_sublist _ _)
  rw [first, hsorted.insertionSort_eq, first, List.take_take, Nat.min_self]

/-- An element that comes first in a larger list comes first in a smaller one that has it. -/
theorem mem_take_of_sublist {small large : List α} (hsublist : small.Sublist large)
    (hlarge : large.Nodup) {number : ℕ} {a : α} (hfirst : a ∈ large.take number) (ha : a ∈ small) :
    a ∈ small.take number := by
  induction hsublist generalizing number with
  | slnil => exact hfirst
  | cons b hrest ih =>
    obtain ⟨hb, hnodup⟩ := List.nodup_cons.mp hlarge
    cases number with
    | zero => cases hfirst
    | succ number =>
      rw [List.take_succ_cons, List.mem_cons] at hfirst
      rcases hfirst with rfl | hfirst
      · exact absurd (hrest.subset ha) hb
      · exact List.take_subset_take_left _ (Nat.le_succ number) (ih hnodup hfirst ha)
  | cons_cons b hrest ih =>
    obtain ⟨hb, hnodup⟩ := List.nodup_cons.mp hlarge
    cases number with
    | zero => cases hfirst
    | succ number =>
      rw [List.take_succ_cons, List.mem_cons] at hfirst ⊢
      rcases hfirst with rfl | hfirst
      · exact .inl rfl
      · rcases List.mem_cons.mp ha with rfl | ha
        · exact .inl rfl
        · exact .inr (ih hnodup hfirst ha)

open Classical in
/-- What comes first in a list comes first in any part of it. -/
theorem mem_first_of_subset {small large : List α} (hsubset : small ⊆ large) (hsmall : small.Nodup)
    (hlarge : large.Nodup) (hdistinguishes : Distinguishes r small) {number : ℕ} {a : α}
    (hfirst : a ∈ first r number large) (ha : a ∈ small) : a ∈ first r number small := by
  have hnodup : (large.insertionSort r).Nodup :=
    (List.perm_insertionSort r large).nodup_iff.mpr hlarge
  have hperm : (small.insertionSort r).Perm ((large.insertionSort r).filter (· ∈ small)) := by
    refine (List.perm_insertionSort r small).trans
      ((List.perm_ext_iff_of_nodup hsmall (hnodup.filter _)).mpr fun b => ?_)
    rw [List.mem_filter, List.mem_insertionSort, decide_eq_true_eq]
    exact (and_iff_right_of_imp (@hsubset b)).symm
  have hsorted : (small.insertionSort r).Sublist (large.insertionSort r) := by
    rw [List.Perm.eq_of_pairwise (fun b c hb hc => ?_) (List.pairwise_insertionSort r small)
      ((List.pairwise_insertionSort r large).filter _) hperm]
    · exact List.filter_sublist
    · exact hdistinguishes b ((List.mem_insertionSort r).mp hb) c
        ((List.mem_insertionSort r).mp (hperm.symm.subset hc))
  exact mem_take_of_sublist hsorted hnodup hfirst ((List.mem_insertionSort r).mpr ha)

end Crabinet.Library
