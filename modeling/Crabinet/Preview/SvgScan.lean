import Crabinet.Preview.XmlDocument

/-!
# The scan follows what it reads

What the scan does at each part of a prolog and of a start tag, and what a text that it accepts
begins with.
-/

namespace Crabinet.Preview

open Crabinet.Library

variable {text rest before next terminator : List Char} {c : Char} {seen svg : Bool}

-- `Char` is a finite type too, so a bounded quantifier is to be decided along its list
local instance decidableForallChar (p : Char → Prop) [DecidablePred p] (text : List Char) :
    Decidable (∀ c ∈ text, p c) :=
  List.decidableBAll p text

/-! ### Slices behind a search -/

theorem stripText_append (pattern rest : List Char) :
    stripText pattern (pattern ++ rest) = some rest := by
  rw [stripText, if_pos (List.isPrefixOf_iff_prefix.mpr (List.prefix_append _ _)), List.drop_left]

theorem stripText_eq_some {pattern : List Char} :
    stripText pattern text = some rest ↔ text = pattern ++ rest := by
  constructor
  · intro h
    unfold stripText at h
    split_ifs at h with hfront
    obtain ⟨tail, rfl⟩ := List.isPrefixOf_iff_prefix.mp hfront
    rw [List.drop_left] at h
    rw [Option.some.inj h]
  · rintro rfl
    exact stripText_append pattern rest

theorem after_append (hterminator : terminator ≠ [])
    (hbefore : ¬terminator <:+: before ++ terminator.dropLast) :
    after (before ++ (terminator ++ rest)) terminator = some (some rest) := by
  rw [after, findText_append hterminator hbefore]
  dsimp only
  rw [← List.append_assoc, ← utf8Length_append, strFrom_append]
  rfl

theorem after_cases (hterminator : terminator ≠ []) (text : List Char) :
    after text terminator = some none ∨ ∃ before rest, text = before ++ (terminator ++ rest) ∧
      ¬terminator <:+: before ++ terminator.dropLast := by
  rcases findText_cases hterminator text with hnone | hfound
  · rw [after, hnone]
    exact .inl rfl
  · exact .inr hfound

/-- The slices on both sides of the first character that is searched for. -/
theorem slices_at {p : Char → Bool} (rest : List Char) (hbefore : ∀ b ∈ before, p b = false) (hc : p c = true) :
    findChar p (before ++ c :: rest) = some (utf8Length before) ∧
      strTo (before ++ c :: rest) (utf8Length before) = some before ∧
      strFrom (before ++ c :: rest) (utf8Length before) = some (c :: rest) ∧
      (c.utf8Size = 1 → strFrom (before ++ c :: rest) (utf8Length before + 1) = some rest) := by
  refine ⟨findChar_append hbefore hc, strTo_append _ _, strFrom_append _ _, fun hsize => ?_⟩
  rw [strFrom_append_add, ← hsize]
  exact (strFrom_cons c rest 0).trans (strFrom_zero rest)

theorem dropWhile_space (h : ∀ c ∈ before, isXmlSpace c = true) (rest : List Char) :
    (before ++ rest).dropWhile isXmlSpace = rest.dropWhile isXmlSpace :=
  List.dropWhile_append_of_pos h

theorem dropWhile_of_head (h : isXmlSpace c = false) (rest : List Char) :
    (c :: rest).dropWhile isXmlSpace = c :: rest :=
  List.dropWhile_cons_of_neg (by rw [h]; exact Bool.false_ne_true)

/-! ### The prolog -/

/-- The loop before the first element, without its proofs of termination. -/
theorem skipProlog_eq (seen : Bool) (text : List Char) : skipProlog seen text =
    match stripText "<!--".toList (text.dropWhile isXmlSpace) with
    | some comment => andThen (after comment "-->".toList) (skipProlog seen)
    | none =>
      match stripText "<!DOCTYPE".toList (text.dropWhile isXmlSpace) with
      | some doctype =>
        match findChar (· == '>') doctype with
        | none => some none
        | some close =>
          match strTo doctype close, strFrom doctype (close + 1) with
          | some declaration, some next =>
            if seen || !namesSvg declaration then some none else skipProlog true next
          | _, _ => none
      | none => some (some (text.dropWhile isXmlSpace)) := by
  rw [skipProlog]
  unfold andThen
  split
  case h_1 comment hcomment =>
    simp only [hcomment]
    split
    all_goals
      rename_i hafter
      simp only [hafter]
  case h_2 hcomment =>
    simp only [hcomment]
    split
    case h_1 doctype hdoctype =>
      simp only [hdoctype]
      cases findChar (· == '>') doctype with
      | none => rfl
      | some close =>
        dsimp only
        split
        case h_1 declaration next hto hfrom => simp only [hto, hfrom]
        case h_2 hother =>
          split
          case h_1 declaration next hto hfrom => exact (hother declaration next hto hfrom).elim
          case h_2 => rfl
    case h_2 hdoctype => simp only [hdoctype]

theorem skipToRoot_space (h : isXmlSpace c = true) (rest : List Char) :
    skipToRoot seen (c :: rest) = skipToRoot seen rest := by
  rw [skipToRoot, skipToRoot, skipProlog_eq, skipProlog_eq seen rest,
    List.dropWhile_cons_of_pos h]

theorem skipToRoot_comment (h : ¬"-->".toList <:+: text ++ "--".toList) (rest : List Char) :
    skipToRoot seen ("<!--".toList ++ (text ++ ("-->".toList ++ rest))) = skipToRoot seen rest := by
  have hspace : ("<!--".toList ++ (text ++ ("-->".toList ++ rest))).dropWhile isXmlSpace =
      "<!--".toList ++ (text ++ ("-->".toList ++ rest)) := dropWhile_of_head rfl _
  rw [skipToRoot, skipProlog_eq, hspace, stripText_append]
  dsimp only
  rw [after_append (by decide) h]
  rfl

/-- A declaration ends at its first `>`. -/
theorem skipToRoot_doctype (h : '>' ∉ before) (rest : List Char) :
    skipToRoot seen ("<!DOCTYPE".toList ++ (before ++ '>' :: rest)) =
      if seen || !namesSvg before then some none else skipToRoot true rest := by
  have hspace : ("<!DOCTYPE".toList ++ (before ++ '>' :: rest)).dropWhile isXmlSpace =
      "<!DOCTYPE".toList ++ (before ++ '>' :: rest) := dropWhile_of_head rfl _
  have hcomment : stripText "<!--".toList ("<!DOCTYPE".toList ++ (before ++ '>' :: rest)) = none := rfl
  have hclose : ∀ b ∈ before, (b == '>') = false := fun b hb =>
    beq_eq_false_iff_ne.mpr (ne_of_mem_of_not_mem hb h)
  obtain ⟨hfind, hto, -, hfrom⟩ := slices_at rest hclose (c := '>') rfl
  rw [skipToRoot, skipProlog_eq, hspace, hcomment]
  dsimp only
  rw [stripText_append]
  dsimp only
  rw [hfind]
  dsimp only
  rw [hto, hfrom rfl]
  dsimp only
  split_ifs <;> rfl

/-- A declaration that does not end. -/
theorem skipToRoot_doctype_open (h : '>' ∉ text) :
    skipToRoot seen ("<!DOCTYPE".toList ++ text) = some none := by
  have hspace : ("<!DOCTYPE".toList ++ text).dropWhile isXmlSpace = "<!DOCTYPE".toList ++ text :=
    dropWhile_of_head rfl _
  have hcomment : stripText "<!--".toList ("<!DOCTYPE".toList ++ text) = none := rfl
  have hclose : ∀ b ∈ text, (b == '>') = false := fun b hb =>
    beq_eq_false_iff_ne.mpr (ne_of_mem_of_not_mem hb h)
  rw [skipToRoot, skipProlog_eq, hspace, hcomment]
  dsimp only
  rw [stripText_append]
  dsimp only
  rw [findChar_eq_none hclose]
  rfl

/-- A comment that does not end. -/
theorem skipToRoot_comment_open (h : after text "-->".toList = some none) :
    skipToRoot seen ("<!--".toList ++ text) = some none := by
  have hspace : ("<!--".toList ++ text).dropWhile isXmlSpace = "<!--".toList ++ text :=
    dropWhile_of_head rfl _
  rw [skipToRoot, skipProlog_eq, hspace, stripText_append]
  dsimp only
  rw [h]
  rfl

/-- Anything else is left to the start tag of the root element. -/
theorem skipToRoot_root (hspace : text.dropWhile isXmlSpace = text)
    (hcomment : stripText "<!--".toList text = none)
    (hdoctype : stripText "<!DOCTYPE".toList text = none) :
    skipToRoot seen text = skipRoot text := by
  rw [skipToRoot, skipProlog_eq, hspace, hcomment]
  dsimp only
  rw [hdoctype]
  rfl

/-! ### The start tag -/

/-- The loop over the attributes, without its proofs of termination. -/
theorem skipAttributes_eq (svg : Bool) (text : List Char) : skipAttributes svg text =
    let tag := text.dropWhile isXmlSpace
    if ['>'].isPrefixOf tag then some (if svg then some (tag.drop 1) else none)
    else if "/>".toList.isPrefixOf tag then some (if svg then some (tag.drop 2) else none)
    else
      let nameEnd := (findChar endsName tag).getD (utf8Length tag)
      match strTo tag nameEnd, strFrom tag nameEnd with
      | some name, some afterName =>
        match stripText ['='] (afterName.dropWhile isXmlSpace) with
        | none => some none
        | some quoted =>
          match quotedValue (quoted.dropWhile isXmlSpace) with
          | none => none
          | some none => some none
          | some (some (value, next)) =>
            if name = [] then some none
            else if name = "xmlns".toList then
              if value = svgNamespace then skipAttributes true next else some none
            else skipAttributes svg next
      | _, _ => none := by
  rw [skipAttributes]
  dsimp only
  by_cases hclose : ['>'].isPrefixOf (text.dropWhile isXmlSpace) = true
  · rw [if_pos hclose, if_pos hclose]
  rw [if_neg hclose, if_neg hclose]
  by_cases hempty : "/>".toList.isPrefixOf (text.dropWhile isXmlSpace) = true
  · rw [if_pos hempty, if_pos hempty]
  rw [if_neg hempty, if_neg hempty]
  split
  case h_1 name afterName hto hfrom =>
    simp only [hto, hfrom]
    split
    case h_1 hequals => simp only [hequals]
    case h_2 quoted hequals =>
      simp only [hequals]
      split
      all_goals
        rename_i hvalue
        simp only [hvalue]
  case h_2 hother =>
    split
    case h_1 name afterName hto hfrom => exact (hother name afterName hto hfrom).elim
    case h_2 => rfl

theorem utf8Size_quote {quote : Char} (hquote : quote = '"' ∨ quote = '\'') : quote.utf8Size = 1 := by
  rcases hquote with rfl | rfl <;> rfl

/-- A value in its quotes. -/
theorem quotedValue_append {quote : Char} (hquote : quote = '"' ∨ quote = '\'')
    (h : quote ∉ before) (rest : List Char) :
    quotedValue (quote :: (before ++ quote :: rest)) = some (some (before, rest)) := by
  have hsize := utf8Size_quote hquote
  have hvalue : strFrom (quote :: (before ++ quote :: rest)) 1 = some (before ++ quote :: rest) := by
    rw [← hsize]
    exact (strFrom_cons quote _ 0).trans (strFrom_zero _)
  have hother : ∀ b ∈ before, (b == quote) = false := fun b hb =>
    beq_eq_false_iff_ne.mpr (ne_of_mem_of_not_mem hb h)
  obtain ⟨hfind, hto, -, hfrom⟩ := slices_at rest hother (beq_self_eq_true quote)
  rw [quotedValue, if_pos hquote, hvalue]
  dsimp only
  rw [hfind]
  dsimp only
  rw [hto, hfrom hsize]

/-- Where no value in quotes starts, none is read. -/
theorem quotedValue_cases (text : List Char) : quotedValue text = some none ∨
    ∃ quote value rest, (quote = '"' ∨ quote = '\'') ∧ quote ∉ value ∧
      text = quote :: (value ++ quote :: rest) := by
  cases text with
  | nil => exact .inl rfl
  | cons quote inner =>
    by_cases hquote : quote = '"' ∨ quote = '\''
    · have hsize := utf8Size_quote hquote
      have hvalue : strFrom (quote :: inner) 1 = some inner := by
        rw [← hsize]
        exact (strFrom_cons quote _ 0).trans (strFrom_zero _)
      rcases exists_first (· == quote) inner with hnone | ⟨value, c, rest, rfl, hother, hc⟩
      · refine .inl ?_
        rw [quotedValue, if_pos hquote, hvalue]
        dsimp only
        rw [findChar_eq_none hnone]
      · obtain rfl := beq_iff_eq.mp hc
        exact .inr ⟨c, value, rest, hquote, fun hmem => by simpa using hother c hmem, rfl⟩
    · exact .inl (if_neg hquote)

/-- The closing bracket of a start tag. -/
theorem skipAttributes_close (rest : List Char) :
    skipAttributes svg ('>' :: rest) = some (if svg then some rest else none) := by
  rw [skipAttributes_eq]
  rfl

theorem skipAttributes_empty (rest : List Char) :
    skipAttributes svg ("/>".toList ++ rest) = some (if svg then some rest else none) := by
  rw [skipAttributes_eq]
  rfl

theorem skipAttributes_space (h : ∀ c ∈ before, isXmlSpace c = true) (rest : List Char) :
    skipAttributes svg (before ++ rest) = skipAttributes svg rest := by
  rw [skipAttributes_eq, skipAttributes_eq svg rest, dropWhile_space h]

/-- A character of a name is no white space. -/
theorem isXmlSpace_of_endsName (h : endsName c = false) : isXmlSpace c = false := by
  simp only [endsName, Bool.or_eq_false_iff] at h
  exact h.1.1.1

/-- A name is not the end of a tag. -/
theorem not_tagEnd_of_name {name : List Char} (hne : name ≠ [])
    (h : ∀ c ∈ name, endsName c = false) (rest : List Char) :
    (name ++ rest).dropWhile isXmlSpace = name ++ rest ∧
      ¬['>'].isPrefixOf (name ++ rest) = true ∧ ¬"/>".toList.isPrefixOf (name ++ rest) = true := by
  obtain ⟨first, name, rfl⟩ := List.exists_cons_of_ne_nil hne
  have hfirst := h first List.mem_cons_self
  refine ⟨dropWhile_of_head (isXmlSpace_of_endsName hfirst) _, ?_, ?_⟩
  · intro hclose
    obtain ⟨tail, heq⟩ := List.isPrefixOf_iff_prefix.mp hclose
    rw [← (List.cons.inj heq).1] at hfirst
    exact absurd hfirst (by decide)
  · intro hempty
    obtain ⟨tail, heq⟩ := List.isPrefixOf_iff_prefix.mp hempty
    rw [← (List.cons.inj heq).1] at hfirst
    exact absurd hfirst (by decide)

/-- What ends a name is white space or the sign behind it. -/
theorem slices_of_name {name spaces : List Char} (hname : ∀ c ∈ name, endsName c = false)
    (hspaces : ∀ c ∈ spaces, isXmlSpace c = true) (rest : List Char) :
    findChar endsName (name ++ (spaces ++ '=' :: rest)) = some (utf8Length name) ∧
      strTo (name ++ (spaces ++ '=' :: rest)) (utf8Length name) = some name ∧
      strFrom (name ++ (spaces ++ '=' :: rest)) (utf8Length name) = some (spaces ++ '=' :: rest) := by
  cases spaces with
  | nil =>
    obtain ⟨hfind, hto, hfrom, -⟩ := slices_at rest hname (c := '=') rfl
    exact ⟨hfind, hto, hfrom⟩
  | cons space spaces =>
    have hspace : endsName space = true := by
      rw [endsName, hspaces space List.mem_cons_self]
      rfl
    obtain ⟨hfind, hto, hfrom, -⟩ := slices_at (spaces ++ '=' :: rest) hname hspace
    exact ⟨hfind, hto, hfrom⟩

/-- An attribute is read as it is written. -/
theorem skipAttributes_attribute (item : Attribute) (rest : List Char) :
    skipAttributes svg (item.encode ++ rest) =
      if item.name = "xmlns".toList then
        if item.raw = svgNamespace then skipAttributes true rest else some none
      else skipAttributes svg rest := by
  obtain ⟨hbefore, hafter⟩ := List.forall_mem_append.mp item.space_xml
  obtain ⟨hspace, hbefore⟩ := List.forall_mem_append.mp hbefore
  have hencode : item.encode ++ rest = item.space ++ (item.name ++ (item.beforeEquals ++
      '=' :: (item.afterEquals ++ item.quote :: (item.raw ++ item.quote :: rest)))) := by
    simp only [Attribute.encode, List.append_assoc, List.cons_append, List.nil_append]
  obtain ⟨hdrop, hclose, hempty⟩ := not_tagEnd_of_name item.name_ne item.name_chars
    (item.beforeEquals ++ '=' :: (item.afterEquals ++ item.quote :: (item.raw ++ item.quote :: rest)))
  obtain ⟨hfind, hto, hfrom⟩ := slices_of_name item.name_chars hbefore
    (item.afterEquals ++ item.quote :: (item.raw ++ item.quote :: rest))
  have hquote : isXmlSpace item.quote = false := by
    rcases item.quote_eq with h | h <;> rw [h] <;> rfl
  rw [hencode, skipAttributes_space hspace, skipAttributes_eq, hdrop]
  dsimp only
  rw [if_neg hclose, if_neg hempty, hfind, Option.getD_some, hto, hfrom]
  dsimp only
  rw [dropWhile_space hbefore, dropWhile_of_head rfl]
  have hequals := stripText_append ['='] (item.afterEquals ++ item.quote ::
    (item.raw ++ item.quote :: rest))
  rw [List.singleton_append] at hequals
  rw [hequals]
  dsimp only
  rw [dropWhile_space hafter, dropWhile_of_head hquote,
    quotedValue_append item.quote_eq item.raw_quote]
  dsimp only
  rw [if_neg item.name_ne]

/-- A text is its leading white space and what follows. -/
theorem exists_spaces (text : List Char) : ∃ spaces, (∀ c ∈ spaces, isXmlSpace c = true) ∧
    text = spaces ++ text.dropWhile isXmlSpace :=
  ⟨text.takeWhile isXmlSpace, fun _ hc => List.all_eq_true.mp List.all_takeWhile _ hc,
    List.takeWhile_append_dropWhile.symm⟩

/-- What the attributes of an accepted start tag are, and its end. -/
structure Attributes (svg : Bool) (text rest : List Char) where
  attributes : List Attribute
  space : List Char
  empty : Bool
  eq : text = attributes.flatMap Attribute.encode ++ (space ++ (tagEnd empty ++ rest))
  space_xml : ∀ c ∈ space, isXmlSpace c = true
  namespace_eq : ∀ item ∈ attributes, item.name = "xmlns".toList → item.raw = svgNamespace
  declared : svg = true ∨ ∃ item ∈ attributes, item.name = "xmlns".toList

/-- A text with an attribute at its start, or one at which the scan gives up. -/
theorem skipAttributes_cases (svg : Bool) (hclose : ¬['>'].isPrefixOf (text.dropWhile isXmlSpace) = true)
    (hempty : ¬"/>".toList.isPrefixOf (text.dropWhile isXmlSpace) = true) :
    skipAttributes svg text = some none ∨
      ∃ (item : Attribute) (next : List Char), text = item.encode ++ next := by
  obtain ⟨spaces, hspaces, htext⟩ := exists_spaces text
  generalize htag : text.dropWhile isXmlSpace = tag at hclose hempty htext
  rw [skipAttributes_eq, htag]
  dsimp only
  rw [if_neg hclose, if_neg hempty]
  rcases exists_first endsName tag with hnone | ⟨name, c, tail, heq, hname, hc⟩
  · have hto := strTo_append tag []
    have hfrom := strFrom_append tag []
    rw [List.append_nil] at hto hfrom
    rw [findChar_eq_none hnone, Option.getD_none, hto, hfrom]
    exact .inl rfl
  obtain ⟨hfind, hto, hfrom, -⟩ := slices_at tail hname hc
  rw [heq, hfind, Option.getD_some, hto, hfrom]
  dsimp only
  cases hequals : stripText ['='] ((c :: tail).dropWhile isXmlSpace) with
  | none => exact .inl rfl
  | some quoted =>
    dsimp only
    obtain ⟨beforeEquals, hbefore, hafterName⟩ := exists_spaces (c :: tail)
    rw [stripText_eq_some.mp hequals, List.singleton_append] at hafterName
    obtain ⟨afterEquals, hafter, hquoted⟩ := exists_spaces quoted
    rcases quotedValue_cases (quoted.dropWhile isXmlSpace) with
      hnone | ⟨quote, value, next, hquote, hvalue, hinner⟩
    · rw [hnone]
      exact .inl rfl
    by_cases hnil : name = []
    · rw [hinner, quotedValue_append hquote hvalue]
      exact .inl (if_pos hnil)
    · refine .inr ⟨⟨spaces, name, beforeEquals, afterEquals, quote, value, value, ?_, hnil, hname,
        hquote, hvalue, fun _ _ => rfl⟩, next, ?_⟩
      · exact List.forall_mem_append.mpr ⟨List.forall_mem_append.mpr ⟨hspaces, hbefore⟩, hafter⟩
      · rw [htext, heq, hafterName, hquoted, hinner]
        simp only [Attribute.encode, List.append_assoc, List.cons_append, List.nil_append]

/-- One attribute more. -/
def Attributes.cons {next : List Char} {after : Bool} (item : Attribute)
    (parts : Attributes after next rest) (heq : text = item.encode ++ next)
    (hnamespace : item.name = "xmlns".toList → item.raw = svgNamespace)
    (hafter : after = true → svg = true ∨ item.name = "xmlns".toList) :
    Attributes svg text rest where
  attributes := item :: parts.attributes
  space := parts.space
  empty := parts.empty
  eq := by
    rw [heq, List.flatMap_cons, List.append_assoc]
    exact congrArg _ parts.eq
  space_xml := parts.space_xml
  namespace_eq := List.forall_mem_cons.mpr ⟨hnamespace, parts.namespace_eq⟩
  declared := by
    rcases parts.declared with h | ⟨other, hother, hname⟩
    · exact (hafter h).imp_right fun hname => ⟨item, List.mem_cons_self, hname⟩
    · exact .inr ⟨other, List.mem_cons_of_mem _ hother, hname⟩

/-- The loop over the attributes ends, and what it accepts are the attributes of a start tag. -/
theorem skipAttributes_spec (svg : Bool) (text : List Char) :
    ∃ result, skipAttributes svg text = some result ∧
      ∀ rest, result = some rest → Nonempty (Attributes svg text rest) := by
  induction hlength : text.length using Nat.strong_induction_on generalizing svg text with
  | h length ih =>
    obtain ⟨spaces, hspaces, htext⟩ := exists_spaces text
    have hend : ∀ (empty : Bool) (rest : List Char), text.dropWhile isXmlSpace = tagEnd empty ++ rest →
        skipAttributes svg text = some (if svg then some rest else none) →
        ∃ result, skipAttributes svg text = some result ∧
          ∀ rest, result = some rest → Nonempty (Attributes svg text rest) := by
      intro empty rest htag heq
      refine ⟨_, heq, fun found hfound => ?_⟩
      split_ifs at hfound with hsvg
      · obtain rfl := Option.some.inj hfound
        exact ⟨⟨[], spaces, empty, by rw [htag] at htext; exact htext, hspaces, nofun, .inl hsvg⟩⟩
    by_cases hclose : ['>'].isPrefixOf (text.dropWhile isXmlSpace) = true
    · obtain ⟨rest, hrest⟩ := List.isPrefixOf_iff_prefix.mp hclose
      refine hend false rest hrest.symm ?_
      rw [htext, skipAttributes_space hspaces, ← hrest]
      exact skipAttributes_close rest
    by_cases hempty : "/>".toList.isPrefixOf (text.dropWhile isXmlSpace) = true
    · obtain ⟨rest, hrest⟩ := List.isPrefixOf_iff_prefix.mp hempty
      refine hend true rest hrest.symm ?_
      rw [htext, skipAttributes_space hspaces, ← hrest]
      exact skipAttributes_empty rest
    rcases skipAttributes_cases svg hclose hempty with hnone | ⟨item, next, heq⟩
    · exact ⟨none, hnone, nofun⟩
    have hlt : next.length < length := by
      have hpos := List.length_pos_iff.mpr item.name_ne
      rw [← hlength, heq]
      simp only [Attribute.encode, List.length_append, List.length_cons]
      omega
    rw [heq, skipAttributes_attribute]
    by_cases hname : item.name = "xmlns".toList
    · by_cases hraw : item.raw = svgNamespace
      · obtain ⟨result, hresult, hparts⟩ := ih next.length hlt true next rfl
        rw [if_pos hname, if_pos hraw]
        refine ⟨result, hresult, fun rest hrest => ?_⟩
        obtain ⟨parts⟩ := hparts rest hrest
        exact ⟨parts.cons item rfl (fun _ => hraw) fun _ => .inr hname⟩
      · rw [if_pos hname, if_neg hraw]
        exact ⟨none, rfl, nofun⟩
    · obtain ⟨result, hresult, hparts⟩ := ih next.length hlt svg next rfl
      rw [if_neg hname]
      refine ⟨result, hresult, fun rest hrest => ?_⟩
      obtain ⟨parts⟩ := hparts rest hrest
      exact ⟨parts.cons item rfl (fun h => absurd h hname) .inl⟩

/-- The attributes and the end of a tag are read as they are written. -/
theorem skipAttributes_attributes (attributes : List Attribute) {space : List Char}
    (hspace : ∀ c ∈ space, isXmlSpace c = true) (empty svg : Bool) (rest : List Char) :
    ∃ result, skipAttributes svg (attributes.flatMap Attribute.encode ++
        (space ++ (tagEnd empty ++ rest))) = some result ∧
      ∀ found, result = some found ↔ found = rest ∧
        (∀ item ∈ attributes, item.name = "xmlns".toList → item.raw = svgNamespace) ∧
        (svg = true ∨ ∃ item ∈ attributes, item.name = "xmlns".toList) := by
  induction attributes generalizing svg with
  | nil =>
    refine ⟨if svg then some rest else none, ?_, fun found => ?_⟩
    · rw [List.flatMap_nil, List.nil_append, skipAttributes_space hspace]
      cases empty with
      | true => exact skipAttributes_empty rest
      | false => exact skipAttributes_close rest
    · cases svg <;> simp [eq_comm]
  | cons item attributes ih =>
    rw [List.flatMap_cons, List.append_assoc, skipAttributes_attribute]
    by_cases hname : item.name = "xmlns".toList
    · by_cases hraw : item.raw = svgNamespace
      · obtain ⟨result, hresult, hfound⟩ := ih true
        rw [if_pos hname, if_pos hraw]
        exact ⟨result, hresult, fun found => by simp [hfound, hname, hraw]⟩
      · rw [if_pos hname, if_neg hraw]
        refine ⟨none, rfl, fun found => iff_of_false nofun ?_⟩
        exact fun h => hraw (h.2.1 item List.mem_cons_self hname)
    · obtain ⟨result, hresult, hfound⟩ := ih svg
      rw [if_neg hname]
      refine ⟨result, hresult, fun found => ?_⟩
      simp only [hfound, List.forall_mem_cons, List.exists_mem_cons_iff, hname, false_or,
        false_implies, true_and]

/-- A start tag that the scan takes for one of an SVG document. -/
structure StartTag.ReadsAsSvg (tag : StartTag) : Prop where
  name : tag.name = "svg".toList
  namespace_eq : ∀ item ∈ tag.attributes, item.name = "xmlns".toList → item.raw = svgNamespace
  declared : ∃ item ∈ tag.attributes, item.name = "xmlns".toList

/-- What follows the name of a tag is white space or the end of the tag. -/
theorem exists_encodeRest (tag : StartTag) (rest : List Char) : ∃ c tail,
    tag.encodeRest ++ rest = c :: tail ∧ (isXmlSpace c || c == '>' || c == '/') = true := by
  have hspaces : ∀ {space : List Char} (tail : List Char), space ≠ [] →
      (∀ c ∈ space, isXmlSpace c = true) → ∃ c next, space ++ tail = c :: next ∧
        (isXmlSpace c || c == '>' || c == '/') = true := by
    intro space tail hne hspace
    obtain ⟨c, space, rfl⟩ := List.exists_cons_of_ne_nil hne
    exact ⟨c, space ++ tail, rfl, by rw [hspace c List.mem_cons_self]; rfl⟩
  unfold StartTag.encodeRest
  cases hattributes : tag.attributes with
  | cons item attributes =>
    have hseparated := tag.separated item (by rw [hattributes]; rfl)
    have hxml := (List.forall_mem_append.mp (List.forall_mem_append.mp item.space_xml).1).1
    simp only [List.flatMap_cons, Attribute.encode, List.append_assoc]
    exact hspaces _ hseparated hxml
  | nil =>
    rw [List.flatMap_nil, List.nil_append, List.append_assoc]
    by_cases hspace : tag.space = []
    · rw [hspace, List.nil_append]
      cases tag.empty with
      | true => exact ⟨'/', _, rfl, rfl⟩
      | false => exact ⟨'>', _, rfl, rfl⟩
    · exact hspaces _ hspace tag.space_xml

/-- A name is what stands before the first character that ends it. -/
theorem name_unique {name other : List Char} {d : Char} {tail : List Char}
    (hname : ∀ b ∈ name, endsName b = false) (hc : endsName c = true)
    (hother : ∀ b ∈ other, endsName b = false) (hd : endsName d = true)
    (h : name ++ c :: rest = other ++ d :: tail) : name = other := by
  have htake : ∀ {first : List Char} {e : Char} (last : List Char),
      (∀ b ∈ first, endsName b = false) → endsName e = true →
      (first ++ e :: last).takeWhile (fun b => !endsName b) = first := by
    intro first e last hfirst he
    rw [List.takeWhile_append_of_pos fun b hb => by rw [hfirst b hb]; rfl,
      List.takeWhile_cons_of_neg (by rw [he]; exact Bool.false_ne_true), List.append_nil]
  rw [← htake rest hname hc, h, htake tail hother hd]

/-- The start tag of the root element is read as it is written. -/
theorem skipRoot_tag (tag : StartTag) (rest : List Char) :
    ∃ result, skipRoot (tag.encode ++ rest) = some result ∧
      ∀ found, result = some found ↔ found = rest ∧ tag.ReadsAsSvg := by
  obtain ⟨c, tail, hrest, hc⟩ := exists_encodeRest tag rest
  have hends : ∀ d : Char, (isXmlSpace d || d == '>' || d == '/') = true → endsName d = true := by
    intro d hd
    simp only [endsName, Bool.or_eq_true] at hd ⊢
    rcases hd with (hd | hd) | hd
    · exact .inl (.inl (.inl hd))
    · exact .inl (.inr hd)
    · exact .inr hd
  have hchars : ∀ b ∈ tag.name, endsName b = false := by
    intro b hb
    have h := tag.name_chars b hb
    rw [Bool.or_eq_false_iff, Bool.or_eq_false_iff] at h
    exact h.1.1
  have hencode : tag.encode ++ rest = '<' :: (tag.name ++ c :: tail) := by
    rw [StartTag.encode, List.cons_append, List.append_assoc, hrest]
  rw [hencode, skipRoot]
  cases hstrip : stripText "<svg".toList ('<' :: (tag.name ++ c :: tail)) with
  | none =>
    refine ⟨none, rfl, fun found => iff_of_false nofun fun h => ?_⟩
    rw [h.2.name] at hstrip
    cases hstrip
  | some next =>
    have heq : tag.name ++ c :: tail = "svg".toList ++ next :=
      (List.cons.inj (stripText_eq_some.mp hstrip)).2
    dsimp only
    by_cases hhead : (next.head?.any fun d => isXmlSpace d || d == '>' || d == '/') = true
    · rw [if_pos hhead]
      cases next with
      | nil => cases hhead
      | cons d next =>
        have hname := name_unique hchars (hends c hc)
          (by decide : ∀ b ∈ "svg".toList, endsName b = false) (hends d hhead) heq
        rw [hname] at heq
        rw [← List.append_cancel_left heq, ← hrest, StartTag.encodeRest, List.append_assoc,
          List.append_assoc]
        obtain ⟨result, hresult, hfound⟩ :=
          skipAttributes_attributes tag.attributes tag.space_xml tag.empty false rest
        refine ⟨result, hresult, fun found => (hfound found).trans (and_congr_right fun _ => ?_)⟩
        constructor
        · rintro ⟨hnamespace, hdeclared⟩
          exact ⟨hname, hnamespace, hdeclared.resolve_left Bool.false_ne_true⟩
        · exact fun h => ⟨h.namespace_eq, .inr h.declared⟩
    · rw [if_neg hhead]
      refine ⟨none, rfl, fun found => iff_of_false nofun fun h => hhead ?_⟩
      rw [h.2.name] at heq
      rw [← List.append_cancel_left heq]
      exact hc

/-- What an accepted text begins with: white space and comments, at most one declaration up to its
first `>`, and the start tag of an SVG document. -/
inductive Head : Bool → List Char → Prop where
  | space {seen : Bool} {head : List Char} (c : Char) (h : isXmlSpace c = true) (hhead : Head seen head) :
    Head seen (c :: head)
  | comment {seen : Bool} {head : List Char} (text : List Char) (h : ¬"-->".toList <:+: text ++ "--".toList)
    (hhead : Head seen head) : Head seen ("<!--".toList ++ (text ++ ("-->".toList ++ head)))
  | doctype {head : List Char} (declaration : List Char) (h : '>' ∉ declaration)
    (hname : namesSvg declaration = true) (hhead : Head true head) :
    Head false ("<!DOCTYPE".toList ++ (declaration ++ '>' :: head))
  | root {seen : Bool} (tag : StartTag) (h : tag.ReadsAsSvg) : Head seen tag.encode

theorem stripText_name {name tail : List Char} {second : Char} {pattern : List Char}
    (hname : ∀ b ∈ name, (endsName b || b == '?' || b == '!') = false) (hne : name ≠ [])
    (hsecond : (endsName second || second == '?' || second == '!') = true) :
    stripText ('<' :: second :: pattern) ('<' :: (name ++ tail)) = none := by
  cases hstrip : stripText ('<' :: second :: pattern) ('<' :: (name ++ tail)) with
  | none => rfl
  | some next =>
    obtain ⟨first, name, rfl⟩ := List.exists_cons_of_ne_nil hne
    have heq := (List.cons.inj (stripText_eq_some.mp hstrip)).2
    rw [← (List.cons.inj heq).1, hname first List.mem_cons_self] at hsecond
    exact absurd hsecond Bool.false_ne_true

/-- The start tag of the root element ends the prolog. -/
theorem skipToRoot_tag (tag : StartTag) (rest : List Char) :
    skipToRoot seen (tag.encode ++ rest) = skipRoot (tag.encode ++ rest) := by
  have hencode : tag.encode ++ rest = '<' :: (tag.name ++ (tag.encodeRest ++ rest)) := by
    rw [StartTag.encode, List.cons_append, List.append_assoc]
  rw [hencode]
  refine skipToRoot_root (dropWhile_of_head rfl _) ?_ ?_
  · exact stripText_name tag.name_chars tag.name_ne rfl
  · exact stripText_name tag.name_chars tag.name_ne rfl

/-- What reads as the head of an SVG document is accepted. -/
theorem Head.scan {head : List Char} (h : Head seen head) (rest : List Char) :
    skipToRoot seen (head ++ rest) = some (some rest) := by
  induction h with
  | space c hc hhead ih => rw [List.cons_append, skipToRoot_space hc, ih]
  | comment text htext hhead ih =>
    rw [List.append_assoc, List.append_assoc, List.append_assoc, skipToRoot_comment htext, ih]
  | doctype declaration hopen hname hhead ih =>
    rw [List.append_assoc, List.append_assoc, List.cons_append, skipToRoot_doctype hopen, hname]
    exact ih
  | root tag htag =>
    obtain ⟨result, hresult, hfound⟩ := skipRoot_tag tag rest
    rw [skipToRoot_tag, hresult, (hfound rest).mpr ⟨rfl, htag⟩]

/-- The tag of a root element that is accepted. -/
theorem skipRoot_spec (text : List Char) : ∃ result, skipRoot text = some result ∧
    ∀ rest, result = some rest → ∃ tag : StartTag, tag.ReadsAsSvg ∧ text = tag.encode ++ rest := by
  unfold skipRoot
  cases hstrip : stripText "<svg".toList text with
  | none => exact ⟨none, rfl, nofun⟩
  | some next =>
    dsimp only
    by_cases hhead : (next.head?.any fun d => isXmlSpace d || d == '>' || d == '/') = true
    · rw [if_pos hhead]
      obtain ⟨result, hresult, hparts⟩ := skipAttributes_spec false next
      refine ⟨result, hresult, fun rest hrest => ?_⟩
      obtain ⟨parts⟩ := hparts rest hrest
      have hseparated : ∀ item ∈ parts.attributes.head?, item.space ≠ [] := by
        intro item hitem hnil
        obtain ⟨others, hothers⟩ := List.head?_eq_some_iff.mp hitem
        obtain ⟨first, name, hname⟩ := List.exists_cons_of_ne_nil item.name_ne
        have hfirst := item.name_chars first (hname ▸ List.mem_cons_self)
        rw [parts.eq, hothers, List.flatMap_cons, Attribute.encode, hnil, hname] at hhead
        change (isXmlSpace first || first == '>' || first == '/') = true at hhead
        simp only [endsName, Bool.or_eq_false_iff] at hfirst
        rw [hfirst.1.1.1, hfirst.1.2, hfirst.2] at hhead
        exact Bool.false_ne_true hhead
      refine ⟨⟨"svg".toList, parts.attributes, parts.space, parts.empty, by decide, by decide,
        hseparated, parts.space_xml⟩, ⟨rfl, parts.namespace_eq, ?_⟩, ?_⟩
      · exact parts.declared.resolve_left Bool.false_ne_true
      · refine (stripText_eq_some.mp hstrip).trans ((congrArg _ parts.eq).trans ?_)
        simp only [StartTag.encode, StartTag.encodeRest, List.append_assoc, List.cons_append]
        rfl
    · rw [if_neg hhead]
      exact ⟨none, rfl, nofun⟩

/-- The scan ends, and what it accepts is the head of an SVG document. -/
theorem skipToRoot_spec (seen : Bool) (text : List Char) :
    ∃ result, skipToRoot seen text = some result ∧
      ∀ rest, result = some rest → ∃ head, Head seen head ∧ text = head ++ rest := by
  induction hlength : text.length using Nat.strong_induction_on generalizing seen text with
  | h length ih =>
    by_cases hspace : text.dropWhile isXmlSpace = text
    · cases hcomment : stripText "<!--".toList text with
      | some comment =>
        have htext := stripText_eq_some.mp hcomment
        rcases after_cases (by decide : "-->".toList ≠ []) comment with
          hnone | ⟨before, next, rfl, hbefore⟩
        · rw [htext, skipToRoot_comment_open hnone]
          exact ⟨none, rfl, nofun⟩
        · have hlt : next.length < length := by
            rw [← hlength, htext]
            simp only [List.length_append]
            change _ < 4 + _
            omega
          obtain ⟨result, hresult, hheads⟩ := ih next.length hlt seen next rfl
          rw [htext, skipToRoot_comment hbefore]
          refine ⟨result, hresult, fun rest hrest => ?_⟩
          obtain ⟨head, hhead, rfl⟩ := hheads rest hrest
          exact ⟨_, .comment before hbefore hhead, by simp only [List.append_assoc]⟩
      | none =>
        cases hdoctype : stripText "<!DOCTYPE".toList text with
        | some doctype =>
          have htext := stripText_eq_some.mp hdoctype
          rcases exists_first (· == '>') doctype with hnone | ⟨before, c, next, rfl, hbefore, hc⟩
          · rw [htext, skipToRoot_doctype_open fun hmem => by simpa using hnone _ hmem]
            exact ⟨none, rfl, nofun⟩
          · obtain rfl := beq_iff_eq.mp hc
            have hopen : '>' ∉ before := fun hmem => by simpa using hbefore _ hmem
            have hlt : next.length < length := by
              rw [← hlength, htext]
              simp only [List.length_append, List.length_cons]
              omega
            rw [htext, skipToRoot_doctype hopen]
            cases seen with
            | true => exact ⟨none, rfl, nofun⟩
            | false =>
              rw [Bool.false_or]
              cases hname : namesSvg before with
              | false => exact ⟨none, rfl, nofun⟩
              | true =>
                obtain ⟨result, hresult, hheads⟩ := ih next.length hlt true next rfl
                refine ⟨result, hresult, fun rest hrest => ?_⟩
                obtain ⟨head, hhead, rfl⟩ := hheads rest hrest
                refine ⟨_, .doctype before hopen hname hhead, ?_⟩
                simp only [List.append_assoc, List.cons_append]
        | none =>
          obtain ⟨result, hresult, htags⟩ := skipRoot_spec text
          rw [skipToRoot_root hspace hcomment hdoctype]
          refine ⟨result, hresult, fun rest hrest => ?_⟩
          obtain ⟨tag, htag, htext⟩ := htags rest hrest
          exact ⟨tag.encode, .root tag htag, htext⟩
    · cases text with
      | nil => exact absurd rfl hspace
      | cons c next =>
        have hc : isXmlSpace c = true := by
          by_contra hc
          exact hspace (List.dropWhile_cons_of_neg hc)
        obtain ⟨result, hresult, hheads⟩ := ih next.length (by rw [← hlength]; exact Nat.lt_succ_self _)
          seen next rfl
        rw [skipToRoot_space hc]
        refine ⟨result, hresult, fun rest hrest => ?_⟩
        obtain ⟨head, hhead, rfl⟩ := hheads rest hrest
        exact ⟨c :: head, .space c hc hhead, rfl⟩

end Crabinet.Preview
