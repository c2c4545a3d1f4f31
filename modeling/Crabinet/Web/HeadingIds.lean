import Crabinet.Library.Occurrences
import Crabinet.Library.Text
import Crabinet.Web.MarkdownParser

/-!
# The ids of headings

A heading's id is its slug with the number of the headings before it that have the same slug. The
numbers tell these apart, but no id is kept from a heading whose own slug ends in such a number.
-/

namespace Crabinet.Web

open Crabinet.Library

variable {unicode : UnicodeClasses} {slugs : KeyedMap String ℕ} {token : Token} {tokens rest : List Token}

/-- The opening tokens of headings, each with its inline content. -/
def headings (tokens : List Token) : List (Token × Token) :=
  (tokens.zip tokens.tail).filter fun pair => pair.1.type = .headingOpen ∧ pair.2.type = .inline

/-- The texts of the headings of a document. -/
def headingTexts (tokens : List Token) : List String := (headings tokens).map fun heading => plainText heading.2

/-- The ids of the headings of a document. -/
def headingIds (tokens : List Token) : List (Option String) :=
  (headings tokens).map fun heading => heading.1.attrs.get? "id"

/-- The ids of a sequence of texts. -/
def uniqueSlugs (unicode : UnicodeClasses) (slugs : KeyedMap String ℕ) : List String → List String
  | [] => []
  | text :: rest =>
    (uniqueSlug unicode slugs text).2 :: uniqueSlugs unicode (uniqueSlug unicode slugs text).1 rest

/-! ### The rule gives each heading the slug of its text -/

theorem headings_cons (token : Token) (rest : List Token) : headings (token :: rest) =
    (if token.type = .headingOpen then
      (rest.head?.filter fun next => next.type = .inline).toList.map fun next => (token, next)
    else []) ++ headings rest := by
  cases rest with
  | nil => simp [headings]
  | cons next later =>
    by_cases htoken : token.type = .headingOpen <;> by_cases hnext : next.type = .inline <;>
      simp [headings, Option.filter, htoken, hnext]

theorem headingText_eq (rest : List Token) :
    headingText rest = (rest.head?.filter fun next => next.type = .inline).map plainText := by
  cases rest with
  | nil => rfl
  | cons next later => by_cases hnext : next.type = .inline <;> simp [headingText, Option.filter, hnext]

/-- A text is there just before an inline token. -/
theorem headingText_isSome_iff (rest : List Token) :
    (headingText rest).isSome ↔ (rest.map Token.type).head? = some .inline := by
  cases rest with
  | nil => simp [headingText]
  | cons next later => by_cases hnext : next.type = .inline <;> simp [headingText, hnext]

/-- A heading's text is that of the token behind its opening one. -/
theorem headingTexts_cons (token : Token) (rest : List Token) : headingTexts (token :: rest) =
    (if token.type = .headingOpen then (headingText rest).toList else []) ++ headingTexts rest := by
  rw [headingTexts, headings_cons, List.map_append, headingText_eq]
  split <;> simp [headingTexts, Function.comp_def, Option.toList_map]

/-- A heading's id is in its opening token. -/
theorem headingIds_cons (token : Token) (rest : List Token) : headingIds (token :: rest) =
    (if token.type = .headingOpen ∧ (rest.map Token.type).head? = some .inline then
      [token.attrs.get? "id"] else []) ++ headingIds rest := by
  rw [headingIds, headings_cons, List.map_append, headingIds]
  cases rest with
  | nil => simp
  | cons next later =>
    by_cases htoken : token.type = .headingOpen <;> by_cases hnext : next.type = .inline <;>
      simp [Option.filter, htoken, hnext]

theorem headingTexts_cons_of_ne (h : token.type ≠ .headingOpen) :
    headingTexts (token :: rest) = headingTexts rest := by
  rw [headingTexts_cons, if_neg h, List.nil_append]

theorem headingIds_cons_of_ne (h : token.type ≠ .headingOpen) :
    headingIds (token :: rest) = headingIds rest := by
  rw [headingIds_cons, if_neg (fun hpair => h hpair.1), List.nil_append]

theorem headingTexts_hideFirst (tokens : List Token) :
    headingTexts (hideFirst tokens) = headingTexts tokens := by
  cases tokens with
  | nil => rfl
  | cons closing rest => rw [hideFirst, headingTexts_cons, headingTexts_cons]

/-- The beginning of a paragraph has no heading. -/
theorem headingTexts_paragraph {paragraph inline : Token} (hparagraph : paragraph.type = .paragraphOpen)
    (hinline : inline.type = .inline) : headingTexts (paragraph :: inline :: rest) = headingTexts rest := by
  rw [headingTexts_cons_of_ne (by rw [hparagraph]; decide), headingTexts_cons_of_ne (by rw [hinline]; decide)]

/-- Marking a task leaves the texts of headings. -/
theorem headingTexts_markTaskItem (tokens : List Token) :
    headingTexts (markTaskItem tokens) = headingTexts tokens := by
  fun_cases markTaskItem tokens with
  | case1 paragraph inline rest h =>
    rw [headingTexts_paragraph h.1 h.2]
    exact headingTexts_paragraph h.1 h.2
  | _ => rfl

/-- Marking an alert leaves the texts of headings. -/
theorem headingTexts_markAlert (quote : Token) (tokens : List Token) :
    headingTexts (markAlert quote tokens).2 = headingTexts tokens := by
  fun_cases markAlert quote tokens with
  | case1 paragraph inline rest h =>
    rw [headingTexts_paragraph h.1 h.2, ← headingTexts_hideFirst rest]
    exact headingTexts_paragraph h.1 h.2
  | case2 paragraph inline rest h =>
    rw [headingTexts_paragraph h.1 h.2]
    exact headingTexts_paragraph h.1 h.2
  | _ => rfl

theorem type_markAlert (quote : Token) (tokens : List Token) :
    (markAlert quote tokens).1.type = quote.type := by
  fun_cases markAlert quote tokens <;> rfl

theorem types_extendTokens (unicode : UnicodeClasses) (slugs : KeyedMap String ℕ) (tokens : List Token) :
    (extendTokens unicode slugs tokens).map Token.type = tokens.map Token.type := by
  fun_induction extendTokens unicode slugs tokens with
  | case1 slugs => rfl
  | case2 slugs token rest htype text htext ih =>
    rw [List.map_cons, ih]
    rfl
  | case3 slugs token rest htype htext ih => rw [List.map_cons, List.map_cons, ih]
  | case4 slugs token rest htype ih => rw [List.map_cons, List.map_cons, ih, types_markTaskItem]
  | case5 slugs token rest htype ih =>
    rw [List.map_cons, List.map_cons, ih, types_markAlert, type_markAlert]
  | case6 slugs token rest _ _ _ ih => rw [List.map_cons, List.map_cons, ih]

/-- Every heading gets the slug of its text, in their order. -/
theorem headingIds_extendTokens (unicode : UnicodeClasses) (slugs : KeyedMap String ℕ)
    (tokens : List Token) : headingIds (extendTokens unicode slugs tokens) =
      (uniqueSlugs unicode slugs (headingTexts tokens)).map some := by
  fun_induction extendTokens unicode slugs tokens with
  | case1 slugs => rfl
  | case2 slugs token rest htype text htext ih =>
    have hinline := (headingText_isSome_iff rest).mp (htext ▸ rfl)
    rw [headingIds_cons, types_extendTokens, if_pos ⟨htype, hinline⟩, ih, headingTexts_cons,
      if_pos htype, htext]
    simp [uniqueSlugs, Token.attrSet, KeyedMap.get?_insert_self]
  | case3 slugs token rest htype htext ih =>
    have hinline := (headingText_isSome_iff rest).not.mp (by simp [htext])
    rw [headingIds_cons, types_extendTokens, if_neg (fun hpair => hinline hpair.2), ih,
      headingTexts_cons, if_pos htype, htext]
    rfl
  | case4 slugs token rest htype ih =>
    have htoken : token.type ≠ .headingOpen := by rw [htype]; decide
    rw [headingIds_cons_of_ne htoken, headingTexts_cons_of_ne htoken, ih, headingTexts_markTaskItem]
  | case5 slugs token rest htype ih =>
    have htoken : token.type ≠ .headingOpen := by rw [htype]; decide
    have hmarked : (markAlert token rest).1.type ≠ .headingOpen := by rwa [type_markAlert]
    rw [headingIds_cons_of_ne hmarked, headingTexts_cons_of_ne htoken, ih, headingTexts_markAlert]
  | case6 slugs token rest htoken _ _ ih =>
    rw [headingIds_cons_of_ne htoken, headingTexts_cons_of_ne htoken, ih]

/-! ### The slugs -/

/-- The map of the slugs has how often each was there, less one. -/
def Counts (slugs : KeyedMap String ℕ) (before : List String) : Prop :=
  ∀ base, slugs.get? base = if before.count base = 0 then none else some (before.count base - 1)

/-- The slug of an occurrence. -/
def occurrenceSlug (occurrence : String × ℕ) : String :=
  if occurrence.2 = 0 then occurrence.1 else numberedSlug occurrence.1 occurrence.2

theorem uniqueSlug_snd {before : List String} (h : Counts slugs before) (text : String) :
    (uniqueSlug unicode slugs text).2 =
      occurrenceSlug (slugBase unicode text, before.count (slugBase unicode text)) := by
  have hbase := h (slugBase unicode text)
  rw [uniqueSlug, occurrenceSlug]
  split at hbase
  · rename_i hzero
    rw [hbase, if_pos hzero]
  · rename_i hcount
    rw [hbase, if_neg hcount]
    dsimp only
    rw [Nat.sub_add_cancel (Nat.pos_of_ne_zero hcount)]

theorem uniqueSlug_fst {before : List String} (h : Counts slugs before) (text : String) :
    Counts (uniqueSlug unicode slugs text).1 (before ++ [slugBase unicode text]) := by
  intro base
  have hbase := h (slugBase unicode text)
  rw [uniqueSlug]
  by_cases heq : base = slugBase unicode text
  · subst heq
    rw [List.count_append, List.count_singleton_self, if_neg (Nat.succ_ne_zero _), Nat.add_sub_cancel]
    split at hbase
    · rename_i hzero
      rw [hbase, hzero]
      exact KeyedMap.get?_insert_self _ _ _
    · rename_i hcount
      rw [hbase]
      dsimp only
      rw [KeyedMap.get?_insert_self, Nat.sub_add_cancel (Nat.pos_of_ne_zero hcount)]
  · rw [List.count_append, List.count_cons_of_ne (Ne.symm heq), List.count_nil, Nat.add_zero, ← h base]
    split <;> exact KeyedMap.get?_insert_ne _ heq _

/-- The slugs are those of the occurrences of the bases. -/
theorem uniqueSlugs_eq {before : List String} (h : Counts slugs before) (texts : List String) :
    uniqueSlugs unicode slugs texts =
      (occurrencesFrom before (texts.map (slugBase unicode))).map occurrenceSlug := by
  induction texts generalizing slugs before with
  | nil => rfl
  | cons text rest ih =>
    rw [uniqueSlugs, uniqueSlug_snd h, ih (uniqueSlug_fst h text)]
    rfl

/-- A number tells where it begins. -/
theorem numberedSlug_inj {first second : String} {number other : ℕ}
    (h : numberedSlug first number = numberedSlug second other) : first = second ∧ number = other := by
  have hdash (digits : ℕ) : '-' ∉ (Nat.toDigits 10 digits).reverse := by
    intro hmem
    exact absurd (isAsciiDigit_of_mem_toDigits (List.mem_reverse.mp hmem)) (by decide)
  have hreversed := congrArg (fun text => (String.toList text).reverse) h
  simp only [numberedSlug, String.toList_ofList, List.reverse_append, List.reverse_cons,
    List.append_assoc, List.singleton_append] at hreversed
  have hsplit := congrArg (splitOnce '-') hreversed
  rw [splitOnce_append (hdash number), splitOnce_append (hdash other), Option.some.injEq, Prod.mk.injEq,
    List.reverse_inj, List.reverse_inj] at hsplit
  refine ⟨String.toList_inj.mp hsplit.2, ?_⟩
  rw [← Nat.ofDigitChars_ten_toDigits (n := number), hsplit.1, Nat.ofDigitChars_ten_toDigits]

/-- Among the slugs, one is another with the number of a repetition of it. -/
def Collision (bases : List String) : Prop :=
  ∃ base number, 0 < number ∧ number < bases.count base ∧ numberedSlug base number ∈ bases

/-- The slugs of occurrences are distinct just where none is another with its number. -/
theorem injOn_occurrenceSlug_iff (bases : List String) :
    Set.InjOn occurrenceSlug {occurrence | occurrence.2 < bases.count occurrence.1} ↔ ¬Collision bases := by
  constructor
  · rintro hinj ⟨base, number, hpositive, hnumber, hmem⟩
    have hzero : 0 < bases.count (numberedSlug base number) := List.count_pos_iff.mpr hmem
    have hsame : occurrenceSlug (base, number) = occurrenceSlug (numberedSlug base number, 0) := by
      rw [occurrenceSlug, occurrenceSlug, if_neg hpositive.ne', if_pos rfl]
    exact hpositive.ne' (congrArg Prod.snd (hinj hnumber hzero hsame))
  · rintro hcollision ⟨first, number⟩ hfirst ⟨second, other⟩ hsecond hsame
    simp only [occurrenceSlug] at hsame
    split at hsame <;> split at hsame <;> rename_i hnumber hother
    · rw [hsame, hnumber, hother]
    · exact absurd ⟨second, other, Nat.pos_of_ne_zero hother, hsecond,
        hsame ▸ List.count_pos_iff.mp (Nat.zero_lt_of_lt hfirst)⟩ hcollision
    · exact absurd ⟨first, number, Nat.pos_of_ne_zero hnumber, hfirst,
        hsame ▸ List.count_pos_iff.mp (Nat.zero_lt_of_lt hsecond)⟩ hcollision
    · obtain ⟨rfl, rfl⟩ := numberedSlug_inj hsame
      rfl

/-- The slugs of a document, before they are told apart. -/
def slugBases (unicode : UnicodeClasses) (tokens : List Token) : List String :=
  (headingTexts tokens).map (slugBase unicode)

/-- The ids of a document are the slugs of the occurrences of its headings' slugs. -/
theorem headingIds_gitHubExtensions (unicode : UnicodeClasses) (tokens : List Token) :
    headingIds (gitHubExtensions unicode tokens) =
      (occurrences (slugBases unicode tokens)).map fun occurrence => some (occurrenceSlug occurrence) := by
  have hempty : Counts .empty [] := fun base => rfl
  rw [gitHubExtensions, headingIds_extendTokens, uniqueSlugs_eq hempty, List.map_map]
  rfl

/-- The ids of the headings of a document are distinct just where no heading has the slug of a
repeated one followed by a dash and the number of a repetition. -/
theorem heading_ids_distinct_iff (unicode : UnicodeClasses) (tokens : List Token) :
    (headingIds (gitHubExtensions unicode tokens)).Nodup ↔ ¬Collision (slugBases unicode tokens) := by
  rw [headingIds_gitHubExtensions, nodup_map_occurrences, ← injOn_occurrenceSlug_iff]
  exact ⟨fun hinj => Set.InjOn.of_comp hinj, fun hinj => (Option.some_injective _).comp_injOn hinj⟩

/-- A text of ASCII only. -/
def asciiClasses : UnicodeClasses where
  toLowerCase text := text.map Char.toLower
  isWordCharacter c := c.isAlphanum || c = '_'

/-- The tokens of a heading; the last one closes it. -/
def headingTokens (text : String) : List Token :=
  [⟨.headingOpen, .empty, false, []⟩, ⟨.inline, .empty, false, [⟨.text, text⟩]⟩, ⟨.other, .empty, false, []⟩]

/-- Of the headings `foo`, `foo` and `foo-1` the last two have one id. -/
theorem heading_ids_repeat : ¬∀ (unicode : UnicodeClasses) (tokens : List Token),
    (headingIds (gitHubExtensions unicode tokens)).Nodup := by
  intro h
  have hdistinct := h asciiClasses (headingTokens "foo" ++ headingTokens "foo" ++ headingTokens "foo-1")
  rw [headingIds_gitHubExtensions] at hdistinct
  revert hdistinct
  decide +kernel

end Crabinet.Web
