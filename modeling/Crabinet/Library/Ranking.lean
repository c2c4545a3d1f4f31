import Mathlib.Data.List.Sort

/-!
# What lies beyond the first of a ranking

A list in descending order of a rank, and what is left of it after its first elements. An
element is left exactly when enough others rank above it.
-/

namespace Crabinet.Library

variable {α β : Type} [LinearOrder β] (rank : α → β)

/-- Highest rank first. -/
def ranked (list : List α) : List α := list.insertionSort fun left right => rank right ≤ rank left

/-- What a list holds besides its first elements in the ranking. -/
def beyond (number : ℕ) (list : List α) : List α := (ranked rank list).drop number

variable {rank}

instance total_rank : Std.Total fun left right : α => rank right ≤ rank left := ⟨fun _ _ => le_total _ _⟩

instance trans_rank : IsTrans α fun left right : α => rank right ≤ rank left :=
  ⟨fun _ _ _ h h' => le_trans h' h⟩

theorem ranked_perm (list : List α) : (ranked rank list).Perm list := List.perm_insertionSort _ _

/-- In a strictly descending list an element stands beyond as many as rank above it. -/
theorem mem_drop_of_descending {list : List α}
    (hdescending : list.Pairwise fun left right => rank right < rank left) (number : ℕ) (a : α) :
    a ∈ list.drop number ↔ a ∈ list ∧ number ≤ list.countP fun b => rank a < rank b := by
  induction list generalizing number with
  | nil => simp
  | cons first rest ih =>
    obtain ⟨hfirst, hrest⟩ := List.pairwise_cons.mp hdescending
    cases number with
    | zero => simp
    | succ number =>
      rw [List.drop_succ_cons, ih hrest, List.mem_cons]
      constructor
      · rintro ⟨hmem, hnumber⟩
        refine ⟨.inr hmem, ?_⟩
        rw [List.countP_cons_of_pos (by simpa using hfirst a hmem)]
        omega
      · rintro ⟨rfl | hmem, hnumber⟩
        · have hnone : rest.countP (fun b => rank a < rank b) = 0 := by
            refine List.countP_eq_zero.mpr fun b hb => ?_
            simpa using (hfirst b hb).le
          rw [List.countP_cons_of_neg (by simp), hnone] at hnumber
          omega
        · rw [List.countP_cons_of_pos (by simpa using hfirst a hmem)] at hnumber
          exact ⟨hmem, by omega⟩

/-- An element lies beyond the first ones exactly when that many rank above it. -/
theorem mem_beyond {list : List α} (hdistinct : (list.map rank).Nodup) (number : ℕ) (a : α) :
    a ∈ beyond rank number list ↔ a ∈ list ∧ number ≤ list.countP fun b => rank a < rank b := by
  have hperm : (ranked rank list).Perm list := ranked_perm list
  have hsorted : (ranked rank list).Pairwise fun left right => rank right ≤ rank left :=
    List.pairwise_insertionSort _ _
  have hne : (ranked rank list).Pairwise fun left right => rank left ≠ rank right :=
    List.pairwise_map.mp ((hperm.map rank).nodup_iff.mpr hdistinct)
  have hdescending : (ranked rank list).Pairwise fun left right => rank right < rank left :=
    (hsorted.and hne).imp fun h => lt_of_le_of_ne h.1 (Ne.symm h.2)
  rw [beyond, mem_drop_of_descending hdescending, hperm.mem_iff, hperm.countP_eq]

theorem beyond_subset (number : ℕ) (list : List α) : beyond rank number list ⊆ list :=
  fun _ hmem => (ranked_perm list).mem_iff.mp (List.mem_of_mem_drop hmem)

/-- Without what lies beyond the first ones, no more than these are left. -/
theorem length_filter_not_beyond [DecidableEq α] (number : ℕ) (list : List α) :
    (list.filter fun a => a ∉ beyond rank number list).length ≤ number := by
  have hperm : (ranked rank list).Perm list := ranked_perm list
  rw [← (hperm.filter _).length_eq]
  calc ((ranked rank list).filter fun a => a ∉ beyond rank number list).length
      = (((ranked rank list).take number ++ beyond rank number list).filter
          fun a => a ∉ beyond rank number list).length := by
        rw [beyond, List.take_append_drop]
    _ = (((ranked rank list).take number).filter
          fun a => a ∉ beyond rank number list).length := by
        have hnone : (beyond rank number list).filter (fun a => a ∉ beyond rank number list) = [] :=
          List.filter_eq_nil_iff.mpr fun a hmem => by simpa using hmem
        rw [List.filter_append, hnone, List.append_nil]
    _ ≤ ((ranked rank list).take number).length := List.length_filter_le _ _
    _ ≤ number := by
        rw [List.length_take]
        exact Nat.min_le_left _ _

end Crabinet.Library
