import Mathlib.Data.List.Basic
import Mathlib.Data.List.Infix
import Mathlib.Tactic.Common

/-!
# Ranges of joined lists

In the lexicographic order, the lists from one with a last item up to the one with the next item
there are those that continue the first. Lists of parts, joined with a separator that is in no
part, continue each other exactly when their parts do.
-/

namespace Crabinet.Library

variable {α : Type}

/-- The lists in a range that ends at the next item are those with a common start. -/
theorem mem_range_iff_isPrefix [LT α] [Std.Irrefl (· < · : α → α → Prop)] {front list : List α} {a b : α}
    (hlt : a < b) (hnext : ∀ c, ¬c < a → c < b → c = a) :
    front ++ [a] ≤ list ∧ list < front ++ [b] ↔ front ++ [a] <+: list := by
  rw [← List.not_lt]
  induction front generalizing list with
  | nil =>
    cases list with
    | nil => simp
    | cons c rest =>
      simp only [List.nil_append, List.cons_lt_cons_iff, List.not_lt_nil, and_false, or_false,
        List.cons_prefix_cons, List.nil_prefix, and_true]
      constructor
      · rintro ⟨hlow, hhigh⟩
        exact (hnext c hlow hhigh).symm
      · rintro rfl
        exact ⟨Std.Irrefl.irrefl a, hlt⟩
  | cons first front ih =>
    cases list with
    | nil => simp
    | cons c rest =>
      rw [List.cons_append, List.cons_append, List.cons_lt_cons_iff, List.cons_lt_cons_iff,
        List.cons_prefix_cons, ← ih]
      constructor
      · rintro ⟨hlow, hhigh⟩
        obtain ⟨hlow, hlow'⟩ := not_or.mp hlow
        obtain ⟨rfl, hrest⟩ := hhigh.resolve_left hlow
        exact ⟨rfl, fun h => hlow' ⟨rfl, h⟩, hrest⟩
      · rintro ⟨rfl, hlow, hhigh⟩
        refine ⟨?_, .inr ⟨rfl, hhigh⟩⟩
        rintro (h | ⟨-, h⟩)
        · exact Std.Irrefl.irrefl _ h
        · exact hlow h

variable {separator : α} {first second rest rest' : List α} {parts more : List (List α)}

/-- Up to their first separators, lists with a separator after them agree. -/
theorem append_separator_isPrefix_iff (hfirst : separator ∉ first) (hsecond : separator ∉ second) :
    first ++ separator :: rest <+: second ++ separator :: rest' ↔ first = second ∧ rest <+: rest' := by
  induction first generalizing second with
  | nil =>
    cases second with
    | nil => simp
    | cons item second =>
      have hne : separator ≠ item := fun h => hsecond (h ▸ List.mem_cons_self)
      simp [hne]
  | cons item first ih =>
    cases second with
    | nil =>
      have hne : item ≠ separator := fun h => hfirst (h ▸ List.mem_cons_self)
      simp [hne]
    | cons other second =>
      have hrest := ih (fun h => hfirst (List.mem_cons_of_mem _ h))
        (fun h => hsecond (List.mem_cons_of_mem _ h))
      rw [List.cons_append, List.cons_append, List.cons_prefix_cons, hrest, List.cons.injEq, and_assoc]

/-- A list without separators has no beginning with one. -/
theorem not_separator_isPrefix (hsecond : separator ∉ second) :
    ¬first ++ separator :: rest <+: second := fun h =>
  hsecond (h.subset (List.mem_append_right _ List.mem_cons_self))

/-- Joined parts with a separator after them are the start of other joined parts exactly when the
parts are, and there are more of the others. -/
theorem intercalate_append_isPrefix_iff (hparts : ∀ part ∈ parts, separator ∉ part)
    (hmore : ∀ part ∈ more, separator ∉ part) (hne : parts ≠ []) :
    List.intercalate [separator] parts ++ [separator] <+: List.intercalate [separator] more ↔
      parts <+: more ∧ parts ≠ more := by
  induction parts generalizing more with
  | nil => exact absurd rfl hne
  | cons part parts ih =>
    have hpart := hparts part List.mem_cons_self
    have hrest := fun other hother => hparts other (List.mem_cons_of_mem _ hother)
    cases more with
    | nil => simp
    | cons other more =>
      have hother := hmore other List.mem_cons_self
      have hmoreRest := fun part hpart => hmore part (List.mem_cons_of_mem _ hpart)
      rw [List.cons_prefix_cons, ne_eq, List.cons.injEq]
      cases more with
      | nil =>
        rw [List.intercalate_singleton]
        refine iff_of_false ?_ ?_
        · cases parts with
          | nil => simpa using not_separator_isPrefix hother
          | cons next parts =>
            rw [List.intercalate_cons_cons, List.append_assoc, List.append_assoc, List.singleton_append]
            exact not_separator_isPrefix hother
        · rintro ⟨⟨rfl, hnil⟩, hne⟩
          exact hne ⟨rfl, List.prefix_nil.mp hnil⟩
      | cons next more =>
        rw [List.intercalate_cons_cons, List.append_assoc, List.singleton_append]
        cases parts with
        | nil =>
          rw [List.intercalate_singleton, append_separator_isPrefix_iff hpart hother]
          simp
        | cons second parts =>
          rw [List.intercalate_cons_cons, List.append_assoc, List.append_assoc, List.singleton_append,
            append_separator_isPrefix_iff hpart hother, ih hrest hmoreRest (List.cons_ne_nil _ _)]
          tauto

end Crabinet.Library
