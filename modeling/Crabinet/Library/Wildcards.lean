import Mathlib.Data.List.Infix

/-!
# Patterns with wildcards

A pattern is a list of items to be matched one by one, among them one that stands for any list.
A pattern that ends with it asks for a prefix, one that also begins with it for a sublist in one
piece.
-/

namespace Crabinet.Library

/-- An item of a pattern. -/
inductive Wildcard (α : Type) where
  | run
  | one
  | item (value : α)
deriving DecidableEq, Repr

variable {α : Type} [DecidableEq α]

/-- Whether a whole list matches a pattern. -/
def wildcardMatch : List (Wildcard α) → List α → Bool
  | [], list => list.isEmpty
  | .run :: pattern, list => list.tails.any (wildcardMatch pattern)
  | .one :: pattern, list =>
    match list with
    | [] => false
    | _ :: rest => wildcardMatch pattern rest
  | .item value :: pattern, list =>
    match list with
    | [] => false
    | first :: rest => first == value && wildcardMatch pattern rest

variable {pattern : List (Wildcard α)} {values list : List α}

@[simp] theorem wildcardMatch_nil : wildcardMatch ([] : List (Wildcard α)) list = true ↔ list = [] := by
  simp [wildcardMatch]

/-- The rest of a pattern after a run matches some end of the list. -/
theorem wildcardMatch_run :
    wildcardMatch (.run :: pattern) list = true ↔ ∃ rest, rest <:+ list ∧ wildcardMatch pattern rest = true := by
  simp [wildcardMatch]

/-- A run alone matches everything. -/
theorem wildcardMatch_run_nil : wildcardMatch [.run] list = true :=
  wildcardMatch_run.mpr ⟨[], List.nil_suffix, by simp⟩

/-- The items at the start of a pattern are those at the start of the list. -/
theorem wildcardMatch_items : wildcardMatch (values.map .item ++ pattern) list = true ↔
    ∃ rest, list = values ++ rest ∧ wildcardMatch pattern rest = true := by
  induction values generalizing list with
  | nil => simp
  | cons value values ih =>
    cases list with
    | nil => simp [wildcardMatch]
    | cons first list =>
      rw [List.map_cons, List.cons_append, wildcardMatch, Bool.and_eq_true, beq_iff_eq, ih]
      constructor
      · rintro ⟨rfl, rest, rfl, hrest⟩
        exact ⟨rest, rfl, hrest⟩
      · rintro ⟨rest, hlist, hrest⟩
        obtain ⟨rfl, rfl⟩ := List.cons.inj hlist
        exact ⟨rfl, rest, rfl, hrest⟩

/-- Items and a run ask for a prefix. -/
theorem wildcardMatch_after :
    wildcardMatch (values.map .item ++ [.run]) list = true ↔ values <+: list := by
  rw [wildcardMatch_items]
  constructor
  · rintro ⟨rest, rfl, -⟩
    exact List.prefix_append _ _
  · rintro ⟨rest, rfl⟩
    exact ⟨rest, rfl, wildcardMatch_run_nil⟩

/-- Items between two runs ask for a part in one piece. -/
theorem wildcardMatch_around :
    wildcardMatch (.run :: (values.map .item ++ [.run])) list = true ↔ values <:+: list := by
  simp only [wildcardMatch_run, wildcardMatch_after]
  constructor
  · rintro ⟨rest, hrest, hvalues⟩
    exact hvalues.isInfix.trans hrest.isInfix
  · rintro ⟨before, after, rfl⟩
    exact ⟨values ++ after, ⟨before, by simp⟩, List.prefix_append _ _⟩

end Crabinet.Library
