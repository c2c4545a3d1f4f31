import Mathlib.Data.List.Count
import Mathlib.Data.List.Nodup
import Mathlib.Data.Set.Function
import Mathlib.Order.Basic

/-!
# Numbered occurrences

Every item of a list with the number of the equal ones before it. No such pair is there twice, so
labels made of them are distinct just where the labelling is injective on them.
-/

namespace Crabinet.Library

variable {α β : Type} [DecidableEq α]

/-- The items with how often each was there before, after the items of `before`. -/
def occurrencesFrom (before : List α) : List α → List (α × ℕ)
  | [] => []
  | item :: rest => (item, before.count item) :: occurrencesFrom (before ++ [item]) rest

/-- The items with how often each was there before. -/
def occurrences (items : List α) : List (α × ℕ) := occurrencesFrom [] items

variable {before items : List α} {item : α} {number : ℕ}

/-- The numbers of an item are those from its count before to its count after. -/
theorem mem_occurrencesFrom : (item, number) ∈ occurrencesFrom before items ↔
    before.count item ≤ number ∧ number < before.count item + items.count item := by
  induction items generalizing before with
  | nil => simp [occurrencesFrom]
  | cons head rest ih =>
    rw [occurrencesFrom, List.mem_cons, ih, Prod.mk.injEq, List.count_append]
    by_cases hhead : head = item
    · subst hhead
      rw [List.count_cons_self, List.count_cons_self, List.count_nil]
      simp only [true_and]
      omega
    · rw [List.count_cons_of_ne hhead, List.count_cons_of_ne hhead, List.count_nil, Nat.add_zero]
      simp [Ne.symm hhead]

theorem mem_occurrences : (item, number) ∈ occurrences items ↔ number < items.count item := by
  rw [occurrences, mem_occurrencesFrom]
  simp

theorem nodup_occurrencesFrom : (occurrencesFrom before items).Nodup := by
  induction items generalizing before with
  | nil => exact List.nodup_nil
  | cons head rest ih =>
    rw [occurrencesFrom, List.nodup_cons, mem_occurrencesFrom, List.count_append, List.count_singleton_self]
    exact ⟨fun h => Nat.not_succ_le_self _ h.1, ih⟩

theorem nodup_occurrences : (occurrences items).Nodup := nodup_occurrencesFrom

/-- Labels of the occurrences are distinct just where no two occurrences have the same. -/
theorem nodup_map_occurrences {label : α × ℕ → β} : ((occurrences items).map label).Nodup ↔
    Set.InjOn label {occurrence | occurrence.2 < items.count occurrence.1} := by
  have hset : {occurrence : α × ℕ | occurrence.2 < items.count occurrence.1} =
      {occurrence | occurrence ∈ occurrences items} :=
    Set.ext fun _ => mem_occurrences.symm
  rw [hset, List.nodup_map_iff_inj_on nodup_occurrences]
  exact ⟨fun h first hfirst second hsecond => h first hfirst second hsecond,
    fun h first hfirst second hsecond => h hfirst hsecond⟩

end Crabinet.Library
