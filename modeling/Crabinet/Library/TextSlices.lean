import Crabinet.Library.CharBoundary

/-!
# Finding and slicing in a text

Searches return the byte where they found something, and slices at a byte that is not a character
boundary of the text fail. A slice where a search found something does not fail.
-/

namespace Crabinet.Library

/-- The text from a byte on; `none` when it is not a boundary of the text. -/
def strFrom : List Char → ℕ → Option (List Char)
  | text, 0 => some text
  | [], _ + 1 => none
  | c :: rest, index + 1 =>
    if c.utf8Size ≤ index + 1 then strFrom rest (index + 1 - c.utf8Size) else none

/-- The text up to a byte; `none` when it is not a boundary of the text. -/
def strTo : List Char → ℕ → Option (List Char)
  | _, 0 => some []
  | [], _ + 1 => none
  | c :: rest, index + 1 =>
    if c.utf8Size ≤ index + 1 then (strTo rest (index + 1 - c.utf8Size)).map (c :: ·) else none

/-- `str::find` of a character. -/
def findChar (p : Char → Bool) : List Char → Option ℕ
  | [] => none
  | c :: rest => if p c then some 0 else (findChar p rest).map (c.utf8Size + ·)

/-- `str::find` of a text. -/
def findText (pattern : List Char) : List Char → Option ℕ
  | [] => if pattern = [] then some 0 else none
  | c :: rest =>
    if pattern.isPrefixOf (c :: rest) then some 0
    else (findText pattern rest).map (c.utf8Size + ·)

variable {p : Char → Bool} {pattern before rest text : List Char} {c : Char} {index : ℕ}

theorem strFrom_zero (text : List Char) : strFrom text 0 = some text := by
  cases text <;> rfl

theorem strTo_zero (text : List Char) : strTo text 0 = some [] := by
  cases text <;> rfl

/-- A slice that starts behind a character starts in what follows it. -/
theorem strFrom_cons (c : Char) (rest : List Char) (index : ℕ) :
    strFrom (c :: rest) (c.utf8Size + index) = strFrom rest index := by
  have hpos := c.utf8Size_pos
  obtain ⟨size, hsize⟩ : ∃ size, c.utf8Size + index = size + 1 := ⟨c.utf8Size + index - 1, by omega⟩
  rw [hsize, strFrom, if_pos (by omega), ← hsize, Nat.add_sub_cancel_left]

theorem strTo_cons (c : Char) (rest : List Char) (index : ℕ) :
    strTo (c :: rest) (c.utf8Size + index) = (strTo rest index).map (c :: ·) := by
  have hpos := c.utf8Size_pos
  obtain ⟨size, hsize⟩ : ∃ size, c.utf8Size + index = size + 1 := ⟨c.utf8Size + index - 1, by omega⟩
  rw [hsize, strTo, if_pos (by omega), ← hsize, Nat.add_sub_cancel_left]

theorem strFrom_append_add (before rest : List Char) (index : ℕ) :
    strFrom (before ++ rest) (utf8Length before + index) = strFrom rest index := by
  induction before with
  | nil => rw [utf8Length_nil, Nat.zero_add, List.nil_append]
  | cons c before ih => rw [utf8Length_cons, List.cons_append, Nat.add_assoc, strFrom_cons, ih]

theorem strFrom_append (before rest : List Char) :
    strFrom (before ++ rest) (utf8Length before) = some rest :=
  (strFrom_append_add before rest 0).trans (strFrom_zero rest)

theorem strTo_append (before rest : List Char) :
    strTo (before ++ rest) (utf8Length before) = some before := by
  induction before with
  | nil => exact strTo_zero rest
  | cons c before ih =>
    rw [utf8Length_cons, List.cons_append, strTo_cons, ih]
    rfl

/-- A slice up to a boundary is that of the first bytes. -/
theorem strTo_eq_sliceTo (h : isCharBoundary text index = true) :
    strTo text index = some (sliceTo text index) := by
  induction text, index using strTo.induct with
  | case1 text =>
    rw [strTo_zero]
    exact congrArg some (List.length_eq_zero_iff.mp (by
      have hbytes := utf8Length_sliceTo_le text 0
      cases hslice : sliceTo text 0 with
      | nil => rfl
      | cons c rest =>
        have hpos := c.utf8Size_pos
        rw [hslice, utf8Length_cons] at hbytes
        omega)).symm
  | case2 index => cases h
  | case3 c rest index hle ih =>
    rw [isCharBoundary, Bool.and_eq_true] at h
    rw [strTo, if_pos hle, sliceTo, if_pos hle, ih h.2]
    rfl
  | case4 c rest index hgt =>
    rw [isCharBoundary, decide_eq_false hgt] at h
    cases h

theorem length_strFrom (h : strFrom text index = some rest) : rest.length ≤ text.length := by
  induction text, index using strFrom.induct with
  | case1 text =>
    rw [strFrom_zero] at h
    rw [Option.some.inj h]
  | case2 index => cases h
  | case3 c text index hle ih =>
    rw [strFrom, if_pos hle] at h
    exact (ih h).trans (Nat.le_succ _)
  | case4 c text index hgt =>
    rw [strFrom, if_neg hgt] at h
    cases h

/-- A search for a character finds the first. -/
theorem findChar_append (hbefore : ∀ b ∈ before, p b = false) (hc : p c = true) :
    findChar p (before ++ c :: rest) = some (utf8Length before) := by
  induction before with
  | nil => rw [List.nil_append, findChar, if_pos hc, utf8Length_nil]
  | cons b before ih =>
    obtain ⟨hb, hbefore⟩ := List.forall_mem_cons.mp hbefore
    rw [List.cons_append, findChar, if_neg (by rw [hb]; exact Bool.false_ne_true), ih hbefore,
      utf8Length_cons]
    rfl

theorem findChar_eq_none (h : ∀ b ∈ text, p b = false) : findChar p text = none := by
  induction text with
  | nil => rfl
  | cons b text ih =>
    obtain ⟨hb, htext⟩ := List.forall_mem_cons.mp h
    rw [findChar, if_neg (by rw [hb]; exact Bool.false_ne_true), ih htext]
    rfl

/-- Either no character of a text is searched for, or there is a first. -/
theorem exists_first (p : Char → Bool) (text : List Char) : (∀ b ∈ text, p b = false) ∨
    ∃ before c rest, text = before ++ c :: rest ∧ (∀ b ∈ before, p b = false) ∧ p c = true := by
  induction text with
  | nil => exact .inl nofun
  | cons b text ih =>
    cases hb : p b with
    | true => exact .inr ⟨[], b, text, rfl, nofun, hb⟩
    | false =>
      rcases ih with hnone | ⟨before, c, rest, rfl, hbefore, hc⟩
      · exact .inl (List.forall_mem_cons.mpr ⟨hb, hnone⟩)
      · exact .inr ⟨b :: before, c, rest, rfl, List.forall_mem_cons.mpr ⟨hb, hbefore⟩, hc⟩

theorem append_dropLast_isPrefix (before pattern rest : List Char) :
    before ++ pattern.dropLast <+: before ++ (pattern ++ rest) :=
  List.prefix_append_right_inj before |>.mpr
    ((List.dropLast_prefix pattern).trans (List.prefix_append _ _))

/-- A search for a text finds the first, which is where none ends before. -/
theorem findText_append (hpattern : pattern ≠ [])
    (hbefore : ¬pattern <:+: before ++ pattern.dropLast) :
    findText pattern (before ++ (pattern ++ rest)) = some (utf8Length before) := by
  induction before with
  | nil =>
    obtain ⟨c, tail, rfl⟩ := List.exists_cons_of_ne_nil hpattern
    rw [List.nil_append, List.cons_append, findText, if_pos, utf8Length_nil]
    exact List.isPrefixOf_iff_prefix.mpr ⟨rest, rfl⟩
  | cons b before ih =>
    have hlater : ¬pattern <:+: before ++ pattern.dropLast := fun hinfix =>
      hbefore (List.infix_cons hinfix)
    have hfirst : ¬pattern.isPrefixOf (b :: (before ++ (pattern ++ rest))) = true := by
      intro hfront
      refine hbefore (List.IsPrefix.isInfix ?_)
      refine List.prefix_of_prefix_length_le (List.isPrefixOf_iff_prefix.mp hfront) ?_ ?_
      · exact append_dropLast_isPrefix (b :: before) pattern rest
      · rw [List.length_append, List.length_cons, List.length_dropLast]
        omega
    rw [List.cons_append, findText, if_neg hfirst, ih hlater, utf8Length_cons]
    rfl

/-- Either a text does not contain another, or there is a first place where it does. -/
theorem findText_cases (hpattern : pattern ≠ []) (text : List Char) :
    findText pattern text = none ∨ ∃ before rest, text = before ++ (pattern ++ rest) ∧
      ¬pattern <:+: before ++ pattern.dropLast := by
  induction text with
  | nil => exact .inl (if_neg hpattern)
  | cons c text ih =>
    by_cases hfront : pattern.isPrefixOf (c :: text) = true
    · obtain ⟨rest, hrest⟩ := List.isPrefixOf_iff_prefix.mp hfront
      refine .inr ⟨[], rest, hrest.symm, fun hinfix => ?_⟩
      have hlength := hinfix.length_le
      have hpos := List.length_pos_iff.mpr hpattern
      rw [List.nil_append, List.length_dropLast] at hlength
      omega
    · rcases ih with hnone | ⟨before, rest, rfl, hbefore⟩
      · refine .inl ?_
        rw [findText, if_neg hfront, hnone]
        rfl
      · refine .inr ⟨c :: before, rest, rfl, fun hinfix => ?_⟩
        rcases List.infix_cons_iff.mp hinfix with hstart | hlater
        · exact hfront (List.isPrefixOf_iff_prefix.mpr
            (hstart.trans (append_dropLast_isPrefix (c :: before) pattern rest)))
        · exact hbefore hlater

end Crabinet.Library
