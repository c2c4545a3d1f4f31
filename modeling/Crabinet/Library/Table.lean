import Mathlib.Data.List.Basic
import Mathlib.Logic.Function.Basic
import Mathlib.Tactic.Common

/-!
# Tables and counted loops

A list given by what it holds at each index, and loops that count upwards. Writing to a table
updates the function; a loop that can fail is done when each of its rounds keeps an invariant of
the count.
-/

namespace Crabinet.Library

variable {α β σ : Type} {n m index : ℕ}

/-- The list of a length that holds the values of a function. -/
def table (n : ℕ) (f : ℕ → α) : List α := (List.range n).map f

@[simp] theorem length_table (n : ℕ) (f : ℕ → α) : (table n f).length = n := by
  rw [table, List.length_map, List.length_range]

theorem getElem?_table {f : ℕ → α} (h : index < n) : (table n f)[index]? = some (f index) := by
  rw [table, List.getElem?_map, List.getElem?_range h]
  rfl

theorem table_congr {f g : ℕ → α} (h : ∀ index < n, f index = g index) : table n f = table n g :=
  List.map_congr_left fun index hindex => h index (List.mem_range.mp hindex)

theorem replicate_eq_table (value : α) : List.replicate n value = table n fun _ => value := by
  rw [table, List.map_const', List.length_range]

/-- A computation for each index that never fails gives a table. -/
theorem mapM_range {f : ℕ → Option α} {g : ℕ → α} (h : ∀ index < n, f index = some (g index)) :
    (List.range n).mapM f = some (table n g) := by
  have hlist (indices : List ℕ) (hindices : ∀ index ∈ indices, f index = some (g index)) :
      indices.mapM f = some (indices.map g) := by
    induction indices with
    | nil => rfl
    | cons index rest ih =>
      obtain ⟨hindex, hrest⟩ := List.forall_mem_cons.mp hindices
      rw [List.mapM_cons, hindex, ih hrest]
      rfl
  exact hlist _ fun index hindex => h index (List.mem_range.mp hindex)

theorem set_table {f : ℕ → α} (value : α) :
    (table n f).set index value = table n (Function.update f index value) := by
  refine List.ext_getElem? fun other => ?_
  by_cases hother : other < n
  · rw [List.getElem?_set, getElem?_table hother, getElem?_table hother, length_table]
    by_cases heq : index = other
    · subst heq
      rw [if_pos rfl, if_pos hother, Function.update_self]
    · rw [if_neg heq, Function.update_of_ne (Ne.symm heq)]
  · rw [List.getElem?_eq_none (by rw [List.length_set, length_table]; exact Nat.le_of_not_lt hother),
      List.getElem?_eq_none (by rw [length_table]; exact Nat.le_of_not_lt hother)]

theorem zip_table {f : ℕ → α} {g : ℕ → β} :
    (table n f).zip (table m g) = table (min n m) fun index => (f index, g index) := by
  refine List.ext_getElem? fun index => ?_
  rw [List.zip, List.getElem?_zipWith]
  by_cases hindex : index < min n m
  · obtain ⟨hn, hm⟩ := Nat.lt_min.mp hindex
    rw [getElem?_table hn, getElem?_table hm, getElem?_table hindex]
  · rw [List.getElem?_eq_none (l := table (min n m) _) (by rw [length_table]; omega)]
    rcases Nat.lt_or_ge index n with hn | hn
    · rw [List.getElem?_eq_none (l := table m g) (by rw [length_table]; omega)]
      cases (table n f)[index]? <;> rfl
    · rw [List.getElem?_eq_none (l := table n f) (by rw [length_table]; omega)]

/-- A loop over the indices of a table ends when each round keeps an invariant of the count. -/
theorem foldlM_table (f : ℕ → α) (step : σ → α → Option σ) (Inv : ℕ → σ → Prop) (state : σ)
    (hstart : Inv 0 state)
    (hstep : ∀ count state, count < n → Inv count state →
      ∃ next, step state (f count) = some next ∧ Inv (count + 1) next) :
    ∃ last, (table n f).foldlM step state = some last ∧ Inv n last := by
  induction n with
  | zero => exact ⟨state, rfl, hstart⟩
  | succ n ih =>
    obtain ⟨middle, hmiddle, hinv⟩ := ih fun count state hcount =>
      hstep count state (Nat.lt_succ_of_lt hcount)
    obtain ⟨last, hlast, hinv⟩ := hstep n middle (Nat.lt_succ_self n) hinv
    refine ⟨last, ?_, hinv⟩
    rw [table, List.range_succ, List.map_append, List.foldlM_append]
    change (table n f).foldlM step state >>= _ = _
    rw [hmiddle]
    change step middle (f n) >>= _ = _
    rw [hlast]
    rfl

end Crabinet.Library
