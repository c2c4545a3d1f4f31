import Crabinet.Filesystem.PathGrammar
import Crabinet.Library.CharBoundary
import Crabinet.Library.Text

/-!
# Numbered names

A number after the beginning of a valid name gives a valid name again, unless the beginning is
the one that the temporary names of the store have before their own dash.
-/

namespace Crabinet.Filesystem

open Crabinet.Library

/-- `EntryName::new`. -/
def EntryName.new (tables : UnicodeTables) (value : String) : FsResult EntryName :=
  if EntryName.accepts tables value then .ok ⟨value⟩ else .error .invalidPath

/-- The suffix of a numbered sibling. -/
def numberSuffix (number : ℕ) : List Char := '-' :: Nat.toDigits 10 number

/-- What the temporary names begin with, up to the dash. -/
def temporaryStem : List Char := ".index-tmp".toList

/-- The documented behaviour of the Unicode tables: a beginning of a normalised text is normalised,
and so is one with ASCII after it; upper case is taken character by character. -/
structure UnicodeTables.Lawful (tables : UnicodeTables) : Prop where
  nfc_front : ∀ first second, tables.isNfc (String.ofList (first ++ second)) = true →
    tables.isNfc (String.ofList first) = true
  nfc_ascii : ∀ first second, tables.isNfc (String.ofList first) = true →
    (∀ c ∈ second, c.toNat < 0x80) → tables.isNfc (String.ofList (first ++ second)) = true
  uppercase : ∃ upper : Char → List Char,
    (∀ text, (tables.toUppercase (String.ofList text)).toList = text.flatMap upper) ∧
    ∀ c, c.toNat < 0x80 → upper c = [c.toUpper]

/-- A text without an item lies before or after it. -/
theorem infix_of_infix_append_cons {α : Type} {pattern first second : List α} {item : α}
    (hitem : item ∉ pattern) (h : pattern <:+: first ++ item :: second) :
    pattern <:+: first ∨ pattern <:+: second := by
  obtain ⟨before, after, htext⟩ := h
  rcases List.append_eq_append_iff.mp htext with ⟨rest, rfl, -⟩ | ⟨rest, hfirst, hsecond⟩
  · exact .inl ⟨before, rest, rfl⟩
  · cases rest with
    | nil =>
      rw [List.append_nil] at hfirst
      exact .inl ⟨before, [], by rw [List.append_nil, hfirst]⟩
    | cons other rest =>
      obtain ⟨rfl, rfl⟩ := List.cons_eq_cons.mp hsecond
      rcases List.append_eq_append_iff.mp hfirst with ⟨middle, -, hpattern⟩ | ⟨middle, -, hpattern⟩
      · exact absurd (hpattern ▸ List.mem_append_right _ List.mem_cons_self) hitem
      · cases middle with
        | nil =>
          rw [List.nil_append] at hpattern
          exact absurd (hpattern ▸ List.mem_cons_self) hitem
        | cons head middle =>
          obtain ⟨-, rfl⟩ := List.cons_eq_cons.mp hpattern
          exact .inr ⟨middle, after, rfl⟩

variable {tables : UnicodeTables} {name stem : List Char} {number : ℕ}

/-- The dash, or a digit. -/
theorem code_of_mem_numberSuffix {c : Char} (h : c ∈ numberSuffix number) :
    c.toNat = 45 ∨ 48 ≤ c.toNat ∧ c.toNat ≤ 57 := by
  rcases List.mem_cons.mp h with rfl | hdigit
  · exact .inl rfl
  · have hdigit := isAsciiDigit_of_mem_toDigits hdigit
    simp only [isAsciiDigit, Bool.and_eq_true, decide_eq_true_eq, Char.le_def, UInt32.le_iff_toNat_le] at hdigit
    exact .inr hdigit

/-- A character of the stem or of the suffix. -/
theorem forall_mem_numbered {property : Char → Prop} (hstem : stem <+: name)
    (hname : ∀ c ∈ name, property c)
    (hsuffix : ∀ c : Char, c.toNat = 45 ∨ 48 ≤ c.toNat ∧ c.toNat ≤ 57 → property c) :
    ∀ c ∈ stem ++ numberSuffix number, property c := by
  intro c hc
  rcases List.mem_append.mp hc with hc | hc
  · exact hname c (hstem.subset hc)
  · exact hsuffix c (code_of_mem_numberSuffix hc)

theorem digits_ne_nil : Nat.toDigits 10 number ≠ [] := Nat.toDigits_ne_nil

/-- The suffix ends the text with a digit. -/
theorem not_suffix_numbered {c : Char} (hc : ¬(48 ≤ c.toNat ∧ c.toNat ≤ 57)) :
    ¬[c] <:+ stem ++ numberSuffix number := by
  intro hsuffix
  have hlast := getLast?_eq_iff_suffix.mpr hsuffix
  have hdigits : (stem ++ numberSuffix number).getLast? = (Nat.toDigits 10 number).getLast? := by
    rw [numberSuffix, List.getLast?_append_cons, List.getLast?_cons_of_ne_nil digits_ne_nil]
  rw [hdigits] at hlast
  have hmem := List.mem_of_getLast? hlast
  have hdigit := isAsciiDigit_of_mem_toDigits hmem
  simp only [isAsciiDigit, Bool.and_eq_true, decide_eq_true_eq, Char.le_def, UInt32.le_iff_toNat_le] at hdigit
  exact hc hdigit

/-- A number does not make a device's name. -/
theorem not_device_numbered (hlaws : tables.Lawful) (hstem : stem <+: name)
    (hname : isWindowsDeviceName tables (String.ofList name) = false) :
    isWindowsDeviceName tables (String.ofList (stem ++ numberSuffix number)) = false := by
  obtain ⟨upper, hupper, hascii⟩ := hlaws.uppercase
  by_cases hdot : '.' ∈ stem
  · -- The part before the first dot is that of the name.
    obtain ⟨rest, rfl⟩ := hstem
    have htake (after : List Char) : (stem ++ after).takeWhile (· != '.') = stem.takeWhile (· != '.') := by
      rw [List.takeWhile_append, if_neg]
      intro hlength
      have hself := (List.takeWhile_prefix _).eq_of_length hlength
      rw [List.takeWhile_eq_self_iff] at hself
      exact absurd (hself '.' hdot) (by decide)
    unfold isWindowsDeviceName at hname ⊢
    rw [String.toList_ofList, htake] at hname ⊢
    exact hname
  · have htake : (stem ++ numberSuffix number).takeWhile (· != '.') = stem ++ numberSuffix number := by
      rw [List.takeWhile_eq_self_iff]
      intro c hc
      rcases List.mem_append.mp hc with hc | hc
      · simpa using fun heq : c = '.' => hdot (heq ▸ hc)
      · have hcode := code_of_mem_numberSuffix hc
        refine bne_iff_ne.mpr ?_
        rintro rfl
        revert hcode
        decide
    have hdash : '-' ∈ (tables.toUppercase (String.ofList (stem ++ numberSuffix number))).toList := by
      rw [hupper, List.mem_flatMap]
      exact ⟨'-', List.mem_append_right _ List.mem_cons_self, by rw [hascii _ (by decide)]; decide⟩
    unfold isWindowsDeviceName
    rw [String.toList_ofList, htake]
    set upperStem := tables.toUppercase (String.ofList (stem ++ numberSuffix number)) with hupperStem
    dsimp only
    rw [Bool.or_eq_false_iff]
    constructor
    · rw [← Bool.not_eq_true, List.contains_iff_mem]
      intro hmem
      have hnone : (["CON", "PRN", "AUX", "NUL", "CLOCK$", "CONIN$", "CONOUT$"].all fun device =>
          !device.toList.contains '-') = true := by decide
      have hfree := List.all_eq_true.mp hnone _ hmem
      simp [hdash] at hfree
    · -- Four characters, the last of them the dash.
      rw [← Bool.not_eq_true]
      intro hport
      simp only [Bool.and_eq_true, Bool.or_eq_true, beq_iff_eq] at hport
      obtain ⟨⟨hstart, -⟩, hall⟩ := hport
      rw [← List.take_append_drop 3 upperStem.toList, List.mem_append] at hdash
      rcases hdash with htaken | hdropped
      · rcases hstart with hstart | hstart
        all_goals
          have htext := congrArg String.toList hstart
          rw [String.toList_ofList] at htext
          rw [htext] at htaken
          revert htaken
          decide
      · have hdigit := List.all_eq_true.mp hall _ hdropped
        revert hdigit
        decide

theorem toLower_of_code {c : Char} (h : c.toNat = 45 ∨ 48 ≤ c.toNat ∧ c.toNat ≤ 57) : c.toLower = c := by
  unfold Char.toLower
  rw [dif_neg]
  rintro ⟨hlow, -⟩
  have hlow : 65 ≤ c.toNat := hlow
  omega

/-- A number makes a reserved name of the temporary names' stem, and of no other beginning of a name
that is not reserved. -/
theorem reserved_numbered_iff (hstem : stem <+: name)
    (hname : isReservedName (String.ofList name) = false) :
    isReservedName (String.ofList (stem ++ numberSuffix number)) = true ↔
      stem.map Char.toLower = temporaryStem := by
  have hlower : (numberSuffix number).map Char.toLower = numberSuffix number := by
    refine (List.map_congr_left fun c hc => ?_).trans (List.map_id _)
    exact toLower_of_code (code_of_mem_numberSuffix hc)
  have htext : asciiLower (String.ofList (stem ++ numberSuffix number)) =
      stem.map Char.toLower ++ numberSuffix number := by
    rw [asciiLower, String.toList_ofList, List.map_append, hlower]
  -- A text without digits is not one with a number.
  have hne {text : List Char} (hfree : (text.all fun c => !isAsciiDigit c) = true) :
      asciiLower (String.ofList (stem ++ numberSuffix number)) ≠ text := by
    rintro rfl
    obtain ⟨c, hc⟩ := List.exists_mem_of_ne_nil _ (@digits_ne_nil number)
    have hmem : c ∈ asciiLower (String.ofList (stem ++ numberSuffix number)) := by
      rw [htext]
      exact List.mem_append_right _ (List.mem_cons_of_mem _ hc)
    have hnot := List.all_eq_true.mp hfree c hmem
    simp [isAsciiDigit_of_mem_toDigits hc] at hnot
  have hfront : ¬temporaryStem ++ ['-'] <+: stem.map Char.toLower := by
    intro hstart
    have hreserved : isReservedName (String.ofList name) = true := by
      unfold isReservedName
      rw [Bool.or_eq_true, List.isPrefixOf_iff_prefix, asciiLower, String.toList_ofList]
      exact .inr (List.IsPrefix.trans hstart (hstem.map _))
    rw [hname] at hreserved
    cases hreserved
  unfold isReservedName
  rw [htext, Bool.or_eq_true, Bool.or_eq_true, beq_iff_eq, beq_iff_eq, List.isPrefixOf_iff_prefix, ← htext]
  constructor
  · rintro ((h | h) | h)
    · exact absurd h (hne (by decide))
    · exact absurd h (hne (by decide))
    · rw [htext] at h
      change temporaryStem ++ ['-'] <+: _ at h
      rcases List.prefix_or_prefix_of_prefix h (List.prefix_append _ _) with hstart | ⟨rest, hrest⟩
      · exact absurd hstart hfront
      · rw [← hrest, List.prefix_append_right_inj] at h
        cases rest with
        | nil =>
          rw [List.append_nil] at hrest
          exact absurd (hrest ▸ List.prefix_refl _) hfront
        | cons c rest =>
          obtain ⟨rfl, hdigits⟩ := List.cons_prefix_cons.mp h
          cases rest with
          | nil => exact List.append_cancel_right hrest
          | cons c rest =>
            -- The reserved text has no digits.
            have hdigit := isAsciiDigit_of_mem_toDigits (hdigits.subset List.mem_cons_self)
            have hmem : c ∈ temporaryStem ++ ['-'] := by
              rw [← hrest]
              simp
            have hfree : ((temporaryStem ++ ['-']).all fun c => !isAsciiDigit c) = true := by decide
            have hnot := List.all_eq_true.mp hfree c hmem
            simp [hdigit] at hnot
  · intro h
    refine .inr ?_
    rw [htext, h]
    exact ⟨Nat.toDigits 10 number, rfl⟩

/-- A number after the beginning of a valid name is a valid name, except after the temporary names'
stem. -/
theorem validName_numbered_iff (hlaws : tables.Lawful) (hname : ValidName tables (String.ofList name))
    (hstem : stem <+: name) (hbytes : utf8Length (stem ++ numberSuffix number) ≤ maxComponentBytes) :
    ValidName tables (String.ofList (stem ++ numberSuffix number)) ↔
      stem.map Char.toLower ≠ temporaryStem := by
  have hdash : '-' ∈ stem ++ numberSuffix number := List.mem_append_right _ List.mem_cons_self
  rw [ne_eq, ← reserved_numbered_iff hstem hname.reserved, Bool.not_eq_true]
  refine ⟨ValidName.reserved, fun hreserved => ?_⟩
  have hseparators := hname.separators
  have hcontrols := hname.controls
  have hescapes := hname.escapes
  have hnormalized := hname.normalized
  rw [String.toList_ofList] at hseparators hcontrols hescapes
  have hnotMem {c : Char} (hc : c ∉ name) (hcode : ¬(c.toNat = 45 ∨ 48 ≤ c.toNat ∧ c.toNat ≤ 57)) :
      c ∉ stem ++ numberSuffix number := by
    rw [List.mem_append, not_or]
    exact ⟨fun hmem => hc (hstem.subset hmem), fun hmem => hcode (code_of_mem_numberSuffix hmem)⟩
  refine
    { nonempty := ?_
      short := ?_
      named := ⟨?_, ?_⟩
      separators := ?_
      controls := ?_
      ending := ?_
      escapes := ?_
      normalized := ?_
      device := not_device_numbered hlaws hstem hname.device
      reserved := hreserved }
  · intro h
    rw [← String.toList_inj, String.toList_ofList] at h
    rw [h] at hdash
    exact absurd hdash (by decide)
  · rw [utf8ByteSize_eq_sum, String.toList_ofList]
    exact hbytes
  · intro h
    rw [← String.toList_inj, String.toList_ofList] at h
    rw [h] at hdash
    exact absurd hdash (by decide)
  · intro h
    rw [← String.toList_inj, String.toList_ofList] at h
    rw [h] at hdash
    exact absurd hdash (by decide)
  · rw [String.toList_ofList]
    exact ⟨hnotMem hseparators.1 (by decide), hnotMem hseparators.2.1 (by decide),
      hnotMem hseparators.2.2 (by decide)⟩
  · rw [String.toList_ofList]
    refine forall_mem_numbered hstem hcontrols fun c hcode => ?_
    simp only [isControl, Bool.or_eq_false_iff, decide_eq_false_iff_not, Bool.and_eq_false_iff]
    omega
  · rw [String.toList_ofList]
    exact ⟨not_suffix_numbered (by decide), not_suffix_numbered (by decide)⟩
  · intro high low hhigh hlow hwithin
    rw [String.toList_ofList] at hwithin
    have hnone : '-' ∉ ['%', high, low] := by
      simp only [List.mem_cons, List.not_mem_nil, or_false, not_or]
      refine ⟨by decide, ?_, ?_⟩
      · rintro rfl
        exact absurd hhigh (by decide)
      · rintro rfl
        exact absurd hlow (by decide)
    rcases infix_of_infix_append_cons hnone hwithin with hwithin | hwithin
    · exact hescapes high low hhigh hlow (hwithin.trans hstem.isInfix)
    · exact absurd (isAsciiDigit_of_mem_toDigits (hwithin.subset List.mem_cons_self)) (by decide)
  · obtain ⟨rest, hrest⟩ := hstem
    rw [← hrest] at hnormalized
    refine hlaws.nfc_ascii _ _ (hlaws.nfc_front _ _ hnormalized) fun c hc => ?_
    have := code_of_mem_numberSuffix hc
    omega

/-- A number after the beginning of a creatable name is a creatable name. -/
theorem creatable_numbered (hstem : stem <+: name)
    (hname : ensureCreatable ⟨String.ofList name⟩ = .ok ()) :
    ensureCreatable ⟨String.ofList (stem ++ numberSuffix number)⟩ = .ok () := by
  have hnone {text : List Char} (h : ∀ c ∈ text, isSpoofingCharacter c = false) :
      text.any isSpoofingCharacter = false :=
    List.any_eq_false.mpr fun c hc => Bool.eq_false_iff.mp (h c hc)
  unfold ensureCreatable at hname ⊢
  rw [String.toList_ofList] at hname ⊢
  have hfree : name.any isSpoofingCharacter = false := by
    cases hany : name.any isSpoofingCharacter with
    | false => rfl
    | true => rw [hany, if_pos rfl] at hname; cases hname
  rw [hnone, if_neg Bool.false_ne_true]
  refine forall_mem_numbered hstem (fun c hc => ?_) fun c hcode => ?_
  · exact Bool.eq_false_iff.mpr (List.any_eq_false.mp hfree c hc)
  · simp only [isSpoofingCharacter, Bool.or_eq_false_iff, beq_eq_false_iff_ne, Bool.and_eq_false_iff,
      decide_eq_false_iff_not]
    omega

end Crabinet.Filesystem
