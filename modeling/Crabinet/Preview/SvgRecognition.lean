import Crabinet.Preview.SvgScan

/-!
# Which documents are taken for SVG

The recognition depends only on the first 64 KiB of a text and does not panic. A document that is
taken for SVG is one, unless a literal of its document type declaration hides the start of another.
-/

namespace Crabinet.Preview

open Crabinet.Library

variable {text rest front : List Char} {c : Char} {seen : Bool} {document : XmlDocument}

attribute [local instance] decidableForallChar

/-! ### The first 64 KiB -/

theorem isSvgDocument_eq (text : List Char) :
    isSvgDocument text = (scanSvg (sliceTo text signatureHeaderBytes)).map Option.isSome := by
  have hboundary := isCharBoundary_floorCharBoundary text (min (utf8Length text) signatureHeaderBytes)
  rw [isSvgDocument, strTo_eq_sliceTo hboundary, sliceTo_floorCharBoundary, sliceTo_min]

/-- Only the longest beginning of at most 64 KiB is looked at. -/
theorem isSvgDocument_front (hfront : front <+: text)
    (hslice : sliceTo text signatureHeaderBytes <+: front) :
    isSvgDocument front = isSvgDocument text := by
  have hsame : sliceTo text signatureHeaderBytes = sliceTo front signatureHeaderBytes := by
    refine eq_sliceTo_iff.mpr ⟨⟨hslice, utf8Length_sliceTo_le _ _⟩, fun other hother hfits => ?_⟩
    exact isPrefix_sliceTo_iff.mpr ⟨hother.trans hfront, hfits⟩
  rw [isSvgDocument_eq, isSvgDocument_eq text, hsame]

/-! ### The start of a text -/

/-- A text without a byte-order mark or an XML declaration. -/
structure Bare (text : List Char) : Prop where
  mark : stripText ['\ufeff'] text = none
  declaration : stripText "<?xml".toList text = none

theorem bare_of_space (h : isXmlSpace c = true) (rest : List Char) : Bare (c :: rest) := by
  have hmark : c ≠ '\ufeff' := by
    rintro rfl
    exact absurd h (by decide)
  have hopen : c ≠ '<' := by
    rintro rfl
    exact absurd h (by decide)
  constructor
  · rw [stripText, if_neg]
    simpa using hmark.symm
  · rw [stripText, if_neg]
    simpa using fun h => absurd h.symm hopen

theorem Head.bare {head : List Char} (h : Head seen head) (rest : List Char) :
    Bare (head ++ rest) := by
  cases h with
  | space c hc hhead => exact bare_of_space hc _
  | comment text htext hhead => exact ⟨rfl, rfl⟩
  | doctype declaration hopen hname hhead => exact ⟨rfl, rfl⟩
  | root tag htag =>
    rw [StartTag.encode, htag.name]
    exact ⟨rfl, rfl⟩

theorem startsWithSpace_append {first : List Char} (h : startsWithSpace first = true)
    (rest : List Char) : startsWithSpace (first ++ rest) = true := by
  cases first with
  | nil => cases h
  | cons c first => exact h

theorem skipDeclaration_of_rest (h : (stripText ['\ufeff'] text).getD text = rest) :
    skipDeclaration text =
      match stripText "<?xml".toList rest with
      | none => some (some rest)
      | some declaration =>
        if startsWithSpace declaration then after declaration "?>".toList else some none := by
  subst h
  rfl

/-- A byte-order mark is passed over. -/
theorem skipDeclaration_mark (byteOrderMark : Bool) (h : stripText ['\ufeff'] text = none) :
    skipDeclaration ((if byteOrderMark then ['\ufeff'] else []) ++ text) =
      match stripText "<?xml".toList text with
      | none => some (some text)
      | some declaration =>
        if startsWithSpace declaration then after declaration "?>".toList else some none := by
  apply skipDeclaration_of_rest
  cases byteOrderMark with
  | true => rw [if_pos rfl, stripText_append, Option.getD_some]
  | false => rw [if_neg Bool.false_ne_true, List.nil_append, h, Option.getD_none]

theorem skipDeclaration_declared (byteOrderMark : Bool) (hspace : startsWithSpace text = true)
    (hend : ¬"?>".toList <:+: text ++ ['?']) (rest : List Char) :
    skipDeclaration (encodeStart byteOrderMark (some text) ++ rest) = some (some rest) := by
  rw [encodeStart, List.append_assoc, Option.map_some, Option.getD_some, List.append_assoc,
    List.append_assoc, skipDeclaration_mark byteOrderMark rfl, stripText_append]
  dsimp only
  rw [if_pos (startsWithSpace_append hspace _)]
  exact after_append (by decide) hend

theorem skipDeclaration_start (byteOrderMark : Bool) {declaration : Option (List Char)}
    (hspace : ∀ text ∈ declaration, startsWithSpace text = true)
    (hend : ∀ text ∈ declaration, ¬"?>".toList <:+: text ++ ['?']) (h : Bare rest) :
    skipDeclaration (encodeStart byteOrderMark declaration ++ rest) = some (some rest) := by
  cases declaration with
  | none =>
    rw [encodeStart, List.append_assoc, Option.map_none, Option.getD_none, List.nil_append,
      skipDeclaration_mark byteOrderMark h.mark, h.declaration]
  | some text => exact skipDeclaration_declared byteOrderMark (hspace text rfl) (hend text rfl) rest

/-- What an accepted text begins with. -/
structure Accepted (head : List Char) : Prop where
  exists_start : ∃ byteOrderMark declaration body, Head false body ∧
    (∀ text ∈ declaration, startsWithSpace text = true) ∧
    (∀ text ∈ declaration, ¬"?>".toList <:+: text ++ ['?']) ∧
    head = encodeStart byteOrderMark declaration ++ body

theorem Accepted.scan {head : List Char} (h : Accepted head) (rest : List Char) :
    scanSvg (head ++ rest) = some (some rest) := by
  obtain ⟨byteOrderMark, declaration, body, hbody, hspace, hend, rfl⟩ := h.exists_start
  rw [scanSvg, List.append_assoc, skipDeclaration_start byteOrderMark hspace hend (hbody.bare rest)]
  exact hbody.scan rest

theorem skipDeclaration_cases (text : List Char) : skipDeclaration text = some none ∨
    ∃ byteOrderMark declaration rest, skipDeclaration text = some (some rest) ∧
      (∀ text ∈ declaration, startsWithSpace text = true) ∧
      (∀ text ∈ declaration, ¬"?>".toList <:+: text ++ ['?']) ∧
      text = encodeStart byteOrderMark declaration ++ rest := by
  have hmark : ∃ byteOrderMark : Bool, text = (if byteOrderMark then ['\ufeff'] else []) ++
      (stripText ['\ufeff'] text).getD text := by
    cases hstrip : stripText ['\ufeff'] text with
    | none => exact ⟨false, rfl⟩
    | some next => exact ⟨true, stripText_eq_some.mp hstrip⟩
  obtain ⟨byteOrderMark, htext⟩ := hmark
  rw [skipDeclaration]
  generalize (stripText ['\ufeff'] text).getD text = next at htext ⊢
  cases hstrip : stripText "<?xml".toList next with
  | none =>
    refine .inr ⟨byteOrderMark, none, next, rfl, nofun, nofun, ?_⟩
    rw [encodeStart, Option.map_none, Option.getD_none, List.append_nil]
    exact htext
  | some declaration =>
    dsimp only
    by_cases hspace : startsWithSpace declaration = true
    · rw [if_pos hspace]
      rcases after_cases (by decide : "?>".toList ≠ []) declaration with
        hnone | ⟨before, rest, rfl, hbefore⟩
      · exact .inl hnone
      · refine .inr ⟨byteOrderMark, some before, rest, after_append (by decide) hbefore, ?_, ?_, ?_⟩
        · rintro _ ⟨⟩
          cases before with
          | nil => cases hspace
          | cons c before => exact hspace
        · rintro _ ⟨⟩
          exact hbefore
        · rw [htext, stripText_eq_some.mp hstrip, encodeStart, Option.map_some, Option.getD_some]
          simp only [List.append_assoc]
    · exact .inl (if_neg hspace)

/-- The scan ends, and an accepted text begins as one that is. -/
theorem scanSvg_spec (text : List Char) : ∃ result, scanSvg text = some result ∧
    ∀ rest, result = some rest → ∃ head, Accepted head ∧ text = head ++ rest := by
  rw [scanSvg]
  rcases skipDeclaration_cases text with hnone | ⟨byteOrderMark, declaration, next, hnext, hspace, hend, htext⟩
  · rw [hnone]
    exact ⟨none, rfl, nofun⟩
  · obtain ⟨result, hresult, hheads⟩ := skipToRoot_spec false next
    rw [hnext]
    refine ⟨result, hresult, fun rest hrest => ?_⟩
    obtain ⟨head, hhead, rfl⟩ := hheads rest hrest
    exact ⟨_, ⟨byteOrderMark, declaration, head, hhead, hspace, hend, rfl⟩,
      by rw [htext, List.append_assoc]⟩

theorem isSvgDocument_total (text : List Char) : ∃ accepted, isSvgDocument text = some accepted := by
  obtain ⟨result, hresult, -⟩ := scanSvg_spec (sliceTo text signatureHeaderBytes)
  rw [isSvgDocument_eq, hresult]
  exact ⟨_, rfl⟩

/-- A text is accepted when the scan of the whole text ends within the first 64 KiB. -/
theorem isSvgDocument_iff : isSvgDocument text = some true ↔
    ∃ rest, scanSvg text = some (some rest) ∧
      utf8Length text ≤ signatureHeaderBytes + utf8Length rest := by
  rw [isSvgDocument_eq]
  constructor
  · intro h
    obtain ⟨result, hresult, hheads⟩ := scanSvg_spec (sliceTo text signatureHeaderBytes)
    rw [hresult] at h
    obtain ⟨rest, hrest⟩ := Option.isSome_iff_exists.mp (Option.some.inj h)
    obtain ⟨head, hhead, hslice⟩ := hheads rest hrest
    have hfits : head <+: sliceTo text signatureHeaderBytes := ⟨rest, hslice.symm⟩
    obtain ⟨⟨more, rfl⟩, hbytes⟩ := isPrefix_sliceTo_iff.mp hfits
    refine ⟨more, hhead.scan more, ?_⟩
    rw [utf8Length_append]
    omega
  · rintro ⟨rest, hscan, hbytes⟩
    obtain ⟨result, hresult, hheads⟩ := scanSvg_spec text
    rw [hscan] at hresult
    obtain ⟨head, hhead, rfl⟩ := hheads rest (Option.some.inj hresult).symm
    rw [utf8Length_append] at hbytes
    have hfits : head <+: sliceTo (head ++ rest) signatureHeaderBytes :=
      isPrefix_sliceTo_iff.mpr ⟨List.prefix_append _ _, by omega⟩
    obtain ⟨more, hmore⟩ := hfits
    rw [← hmore, hhead.scan more]
    rfl

/-! ### Documents -/

def Misc.isInstruction : Misc → Bool
  | .instruction .. => true
  | _ => false

/-- A processing instruction ends the scan. -/
theorem skipToRoot_instruction (rest : List Char) :
    skipToRoot seen ("<?".toList ++ rest) = some none := by
  change skipToRoot seen ('<' :: '?' :: rest) = some none
  rw [skipToRoot_root (dropWhile_of_head rfl _) rfl rfl]
  rfl

/-- White space and comments are skipped, and processing instructions are not. -/
theorem skipToRoot_misc (items : List Misc) (rest : List Char) :
    skipToRoot seen (items.flatMap Misc.encode ++ rest) =
      if items.any Misc.isInstruction then some none else skipToRoot seen rest := by
  induction items with
  | nil => rfl
  | cons item items ih =>
    rw [List.flatMap_cons, List.append_assoc]
    cases item with
    | space c h =>
      rw [Misc.encode, List.singleton_append, skipToRoot_space h, ih]
      rfl
    | comment text h =>
      rw [Misc.encode, List.append_assoc, List.append_assoc, skipToRoot_comment h, ih]
      rfl
    | instruction text h htarget =>
      rw [Misc.encode, List.append_assoc, skipToRoot_instruction]
      rfl

/-- What follows the name in a declaration is white space or a subset. -/
theorem exists_encodeRest_doctype (doctype : Doctype) :
    ∀ c ∈ doctype.encodeRest.head?, isXmlSpace c = true ∨ c = '[' := by
  have hspaces : ∀ {space : List Char} (tail : List Char), space ≠ [] →
      (∀ c ∈ space, isXmlSpace c = true) → ∀ c ∈ (space ++ tail).head?, isXmlSpace c = true := by
    intro space tail hne hspace c hc
    obtain ⟨first, space, rfl⟩ := List.exists_cons_of_ne_nil hne
    rw [List.cons_append, List.head?_cons, Option.mem_some_iff] at hc
    exact hc ▸ hspace first List.mem_cons_self
  have hbefore := (List.forall_mem_append.mp doctype.space_xml).2
  unfold Doctype.encodeRest
  intro c hc
  cases hexternal : doctype.external with
  | some external =>
    rw [hexternal, Option.map_some, Option.getD_some, ExternalId.encode, List.append_assoc] at hc
    exact .inl (hspaces _ external.space_ne external.space_xml c hc)
  | none =>
    rw [hexternal, Option.map_none, Option.getD_none, List.nil_append] at hc
    by_cases hnil : doctype.beforeSubset = []
    · rw [hnil, List.nil_append] at hc
      cases hsubset : doctype.subset with
      | none =>
        rw [hsubset] at hc
        cases hc
      | some subset =>
        rw [hsubset] at hc
        exact .inr (Option.mem_some_iff.mp hc).symm
    · exact .inl (hspaces _ hnil hbefore c hc)

/-- A declaration with this beginning names what the document does. -/
theorem namesSvg_doctype (doctype : Doctype) {tail : List Char}
    (htail : ∀ c ∈ tail.head?, isXmlSpace c = true ∨ c = '[') :
    namesSvg (doctype.space ++ (doctype.name ++ tail)) = true ↔
      '[' ∉ tail ∧ doctype.name = "svg".toList := by
  have hspace := (List.forall_mem_append.mp doctype.space_xml).1
  obtain ⟨blank, spaces, hblank⟩ := List.exists_cons_of_ne_nil doctype.space_ne
  obtain ⟨first, name, hname⟩ := List.exists_cons_of_ne_nil doctype.name_ne
  have hchars : ∀ c ∈ doctype.name, isXmlSpace c = false ∧ c ≠ '[' := by
    intro c hc
    have h := doctype.name_chars c hc
    rw [Bool.or_eq_false_iff, Bool.or_eq_false_iff] at h
    exact ⟨h.1.1, beq_eq_false_iff_ne.mp h.2⟩
  have hstart : startsWithSpace (doctype.space ++ (doctype.name ++ tail)) = true := by
    rw [hblank]
    exact hspace blank (hblank ▸ List.mem_cons_self)
  have hdrop : (doctype.space ++ (doctype.name ++ tail)).dropWhile isXmlSpace =
      doctype.name ++ tail := by
    rw [dropWhile_space hspace, hname]
    exact dropWhile_of_head (hchars first (hname ▸ List.mem_cons_self)).1 _
  have hbracket : '[' ∈ doctype.space ++ (doctype.name ++ tail) ↔ '[' ∈ tail := by
    rw [List.mem_append, List.mem_append]
    refine ⟨fun h => ?_, fun h => .inr (.inr h)⟩
    rcases h with h | h | h
    · exact absurd (hspace _ h) (by decide)
    · exact absurd rfl (hchars _ h).2
    · exact h
  have htoken : '[' ∉ tail →
      (doctype.name ++ tail).takeWhile (fun c => !isXmlSpace c) = doctype.name := by
    intro hopen
    rw [List.takeWhile_append_of_pos fun c hc => by rw [(hchars c hc).1]; rfl]
    cases tail with
    | nil => rw [List.takeWhile_nil, List.append_nil]
    | cons c tail =>
      have hc := (htail c rfl).resolve_right fun h => hopen (h ▸ List.mem_cons_self)
      rw [List.takeWhile_cons_of_neg (by rw [hc]; exact Bool.false_ne_true), List.append_nil]
  rw [namesSvg, hstart, hdrop, Bool.and_true, Bool.and_eq_true, Bool.not_eq_true',
    ← Bool.not_eq_true, List.contains_iff_mem, hbracket]
  exact and_congr_right fun hopen => by rw [htoken hopen, beq_iff_eq]

/-- A declaration is cut at its first `>` behind the name. -/
theorem exists_tail_of_body {doctype : Doctype} {before after : List Char}
    (h : doctype.body = before ++ '>' :: after) :
    ∃ tail, before = doctype.space ++ (doctype.name ++ tail) ∧
      doctype.encodeRest = tail ++ '>' :: after := by
  have hopen : '>' ∉ doctype.space ++ doctype.name := by
    intro hmem
    rcases List.mem_append.mp hmem with hmem | hmem
    · exact absurd ((List.forall_mem_append.mp doctype.space_xml).1 _ hmem) (by decide)
    · exact absurd (doctype.name_chars _ hmem) (by decide)
  rw [Doctype.body, ← List.append_assoc] at h
  rcases List.append_eq_append_iff.mp h with ⟨tail, hbefore, hrest⟩ | ⟨tail, hname, hrest⟩
  · exact ⟨tail, by rw [hbefore, List.append_assoc], hrest⟩
  · cases tail with
    | nil => exact ⟨[], by rw [List.append_nil, ← hname.trans (List.append_nil _)], hrest.symm⟩
    | cons c tail =>
      obtain rfl := (List.cons.inj hrest).1
      exact absurd (hname ▸ List.mem_append_right _ List.mem_cons_self) hopen

/-- A document whose declaration has a literal with a `>` that is followed by what reads as the
head of an SVG document, within the first 64 KiB. -/
structure XmlDocument.Disguised (document : XmlDocument) : Prop where
  exists_head : ∃ doctype ∈ document.doctype, ∃ before after head,
    doctype.body = before ++ '>' :: after ∧ '>' ∉ before ∧ '[' ∉ before ∧
    doctype.name = "svg".toList ∧ document.before.any Misc.isInstruction = false ∧
    Head true head ∧ head <+: after ++ '>' :: document.encodeAfter ∧
    utf8Length (encodeStart document.byteOrderMark document.declaration ++
      (document.before.flatMap Misc.encode ++
        ("<!DOCTYPE".toList ++ (before ++ '>' :: head)))) ≤ signatureHeaderBytes

/-- The root element of a document is read as it is written. -/
theorem skipToRoot_after (seen : Bool) (document : XmlDocument) : ∃ result,
    skipToRoot seen document.encodeAfter = some result ∧
      ∀ rest, result = some rest → document.root.ReadsAsSvg := by
  obtain ⟨result, hresult, hfound⟩ := skipRoot_tag document.root document.rest
  rw [XmlDocument.encodeAfter, skipToRoot_misc]
  split_ifs
  · exact ⟨none, rfl, nofun⟩
  · rw [skipToRoot_tag]
    exact ⟨result, hresult, fun rest hrest => ((hfound rest).mp hrest).2⟩

theorem XmlDocument.isSvg_of_reads (hroot : document.root.ReadsAsSvg)
    (hsubset : ∀ doctype ∈ document.doctype, doctype.subset = none) : document.IsSvg where
  name := hroot.name
  declared := hroot.declared
  namespace_eq := by
    intro item hitem hname
    have hraw := hroot.namespace_eq item hitem hname
    rw [item.plain (by rw [hraw]; decide) (by rw [hraw]; decide), hraw]
  no_subset := hsubset

/-- A text that starts neither with a byte-order mark nor with an XML declaration, though perhaps
with an instruction that has a longer name. -/
structure Undeclared (text : List Char) : Prop where
  mark : stripText ['\ufeff'] text = none
  declaration : ∀ declaration, stripText "<?xml".toList text = some declaration →
    startsWithSpace declaration = false

theorem Bare.undeclared (h : Bare text) : Undeclared text where
  mark := h.mark
  declaration := by
    intro declaration heq
    rw [h.declaration] at heq
    cases heq

theorem bare_tag (tag : StartTag) (rest : List Char) : Bare (tag.encode ++ rest) := by
  rw [StartTag.encode, List.cons_append, List.append_assoc]
  exact ⟨rfl, stripText_name tag.name_chars tag.name_ne rfl⟩

/-- The name of an instruction is not that of an XML declaration. -/
theorem undeclared_instruction (h : ∀ c rest, text = "xml".toList ++ c :: rest → isXmlSpace c = false)
    (rest : List Char) : Undeclared ("<?".toList ++ (text ++ ("?>".toList ++ rest))) := by
  refine ⟨rfl, fun declaration hstrip => ?_⟩
  have heq : text ++ ("?>".toList ++ rest) = "xml".toList ++ declaration :=
    (List.cons.inj (List.cons.inj (stripText_eq_some.mp hstrip)).2).2
  rcases List.append_eq_append_iff.mp heq with ⟨tail, hname, hrest⟩ | ⟨tail, rfl, hrest⟩
  · cases tail with
    | nil =>
      rw [List.nil_append] at hrest
      rw [← hrest]
      rfl
    | cons c tail =>
      obtain rfl : '?' = c := (List.cons.inj hrest).1
      have hmem : '?' ∈ "xml".toList := hname ▸ List.mem_append_right _ List.mem_cons_self
      exact absurd hmem (by decide)
  · rw [hrest]
    cases tail with
    | nil => rfl
    | cons c tail => exact h c tail rfl

theorem undeclared_misc (items : List Misc) (h : Undeclared rest) :
    Undeclared (items.flatMap Misc.encode ++ rest) := by
  cases items with
  | nil => exact h
  | cons item items =>
    rw [List.flatMap_cons, List.append_assoc]
    cases item with
    | space c hspace => exact (bare_of_space hspace _).undeclared
    | comment text htext => exact ⟨rfl, nofun⟩
    | instruction text htext htarget =>
      rw [Misc.encode, List.append_assoc, List.append_assoc]
      exact undeclared_instruction htarget _

theorem XmlDocument.undeclared_encodeBody (document : XmlDocument) :
    Undeclared document.encodeBody := by
  refine undeclared_misc _ ?_
  cases document.doctype with
  | some doctype => exact ⟨rfl, nofun⟩
  | none => exact undeclared_misc _ (bare_tag _ _).undeclared

/-- The body of a document is left, or nothing is accepted. -/
theorem XmlDocument.skipDeclaration_encode (document : XmlDocument) :
    skipDeclaration document.encode = some (some document.encodeBody) ∨
      skipDeclaration document.encode = some none := by
  have hundeclared := document.undeclared_encodeBody
  unfold XmlDocument.encode
  cases hdeclaration : document.declaration with
  | some text =>
    exact .inl (skipDeclaration_declared _ (document.declaration_space text hdeclaration)
      (document.declaration_end text hdeclaration) _)
  | none =>
    rw [encodeStart, List.append_assoc, Option.map_none, Option.getD_none, List.nil_append,
      skipDeclaration_mark _ hundeclared.mark]
    cases hstrip : stripText "<?xml".toList document.encodeBody with
    | none => exact .inl rfl
    | some declaration =>
      dsimp only
      rw [hundeclared.declaration declaration hstrip]
      exact .inr rfl

theorem bare_misc {items : List Misc} (hitems : items.any Misc.isInstruction = false)
    (h : Bare rest) : Bare (items.flatMap Misc.encode ++ rest) := by
  cases items with
  | nil => exact h
  | cons item items =>
    rw [List.flatMap_cons, List.append_assoc]
    cases item with
    | space c hspace => exact bare_of_space hspace _
    | comment text htext => exact ⟨rfl, rfl⟩
    | instruction text htext htarget => cases hitems

/-- What is left of an accepted document. -/
theorem XmlDocument.encodeBody_of_accepted (h : scanSvg document.encode = some (some rest)) :
    document.before.any Misc.isInstruction = false ∧
      skipToRoot false ((document.doctype.map fun doctype =>
        "<!DOCTYPE".toList ++ (doctype.body ++ ['>'])).getD [] ++ document.encodeAfter) =
        some (some rest) := by
  rw [scanSvg] at h
  rcases document.skipDeclaration_encode with hstart | hstart
  · rw [hstart] at h
    change skipToRoot false document.encodeBody = _ at h
    rw [XmlDocument.encodeBody, skipToRoot_misc] at h
    cases hbefore : document.before.any Misc.isInstruction with
    | true =>
      rw [hbefore] at h
      cases h
    | false =>
      rw [hbefore, if_neg Bool.false_ne_true] at h
      exact ⟨rfl, h⟩
  · rw [hstart] at h
    cases h

theorem isSvg_of_after (h : skipToRoot seen document.encodeAfter = some (some rest))
    (hsubset : ∀ doctype ∈ document.doctype, doctype.subset = none) : document.IsSvg := by
  obtain ⟨result, hresult, hreads⟩ := skipToRoot_after seen document
  rw [h] at hresult
  exact XmlDocument.isSvg_of_reads (hreads rest (Option.some.inj hresult).symm) hsubset

theorem subset_eq_none {doctype : Doctype} (h : '[' ∉ doctype.encodeRest) :
    doctype.subset = none := by
  cases hsubset : doctype.subset with
  | none => rfl
  | some subset =>
    refine absurd (List.mem_append_right _ (List.mem_append_right _ ?_)) h
    rw [hsubset]
    exact List.mem_cons_self

/-- An accepted document is one of SVG or a disguised one. -/
theorem XmlDocument.isSvg_or_disguised (h : isSvgDocument document.encode = some true) :
    document.IsSvg ∨ document.Disguised := by
  obtain ⟨rest, hscan, hbytes⟩ := isSvgDocument_iff.mp h
  obtain ⟨hbefore, hbody⟩ := document.encodeBody_of_accepted hscan
  cases hdoctype : document.doctype with
  | none =>
    rw [hdoctype] at hbody
    refine .inl (isSvg_of_after hbody ?_)
    rw [hdoctype]
    exact nofun
  | some doctype =>
    rw [hdoctype, Option.map_some, Option.getD_some, List.append_assoc, List.append_assoc,
      List.singleton_append] at hbody
    by_cases hclose : '>' ∈ doctype.body
    · -- the declaration is cut in one of its literals
      obtain ⟨before, after, hcut, hopen⟩ := List.eq_append_cons_of_mem hclose
      obtain ⟨tail, htail, hrest⟩ := exists_tail_of_body hcut
      have hends : ∀ c ∈ tail.head?, isXmlSpace c = true ∨ c = '[' := by
        intro c hc
        obtain ⟨others, rfl⟩ := List.head?_eq_some_iff.mp hc
        exact exists_encodeRest_doctype doctype c (by rw [hrest]; rfl)
      rw [hcut, List.append_assoc, List.cons_append, skipToRoot_doctype hopen, Bool.false_or] at hbody
      cases hnames : namesSvg before with
      | false =>
        rw [hnames] at hbody
        cases hbody
      | true =>
        rw [hnames] at hbody
        change skipToRoot true _ = _ at hbody
        have hbracket : '[' ∉ before := by
          intro hmem
          rw [namesSvg, List.contains_iff_mem.mpr hmem] at hnames
          cases hnames
        obtain ⟨-, hname⟩ := (namesSvg_doctype doctype hends).mp (htail ▸ hnames)
        obtain ⟨result, hresult, hheads⟩ :=
          skipToRoot_spec true (after ++ '>' :: document.encodeAfter)
        rw [hbody] at hresult
        obtain ⟨head, hhead, htext⟩ := hheads rest (Option.some.inj hresult).symm
        refine .inr ⟨doctype, hdoctype, before, after, head, hcut, hopen, hbracket, hname, hbefore,
          hhead, ⟨rest, htext.symm⟩, ?_⟩
        rw [XmlDocument.encode, XmlDocument.encodeBody, hdoctype, Option.map_some, Option.getD_some,
          hcut] at hbytes
        have hlength := congrArg utf8Length htext
        simp only [utf8Length_append, utf8Length_cons, utf8Length_nil] at hbytes hlength ⊢
        omega
    · rw [skipToRoot_doctype hclose, Bool.false_or] at hbody
      cases hnames : namesSvg doctype.body with
      | false =>
        rw [hnames] at hbody
        cases hbody
      | true =>
        rw [hnames] at hbody
        change skipToRoot true _ = _ at hbody
        refine .inl (isSvg_of_after hbody ?_)
        obtain ⟨hbracket, -⟩ :=
          (namesSvg_doctype doctype (exists_encodeRest_doctype doctype)).mp hnames
        rw [hdoctype]
        rintro _ ⟨⟩
        exact subset_eq_none hbracket

/-- A disguised document is accepted. -/
theorem XmlDocument.Disguised.accepted (h : document.Disguised) :
    isSvgDocument document.encode = some true := by
  obtain ⟨doctype, hdoctype, before, after, head, hcut, hopen, hbracket, hname, hmisc, hhead,
    ⟨rest, hrest⟩, hbytes⟩ := h.exists_head
  obtain ⟨tail, htail, hencode⟩ := exists_tail_of_body hcut
  have hends : ∀ c ∈ tail.head?, isXmlSpace c = true ∨ c = '[' := by
    intro c hc
    obtain ⟨others, rfl⟩ := List.head?_eq_some_iff.mp hc
    exact exists_encodeRest_doctype doctype c (by rw [hencode]; rfl)
  have hnames : namesSvg before = true := by
    rw [htail]
    refine (namesSvg_doctype doctype hends).mpr ⟨fun hmem => hbracket ?_, hname⟩
    rw [htail]
    exact List.mem_append_right _ (List.mem_append_right _ hmem)
  have hbody : document.encodeBody = document.before.flatMap Misc.encode ++
      ("<!DOCTYPE".toList ++ (before ++ '>' :: (head ++ rest))) := by
    rw [XmlDocument.encodeBody, hdoctype, Option.map_some, Option.getD_some, hcut, hrest]
    simp only [List.append_assoc, List.cons_append, List.nil_append]
  refine isSvgDocument_iff.mpr ⟨rest, ?_, ?_⟩
  · rw [scanSvg, XmlDocument.encode, hbody, skipDeclaration_start _ document.declaration_space
      document.declaration_end (bare_misc hmisc ⟨rfl, rfl⟩)]
    change skipToRoot false _ = _
    rw [skipToRoot_misc, hmisc, if_neg Bool.false_ne_true, skipToRoot_doctype hopen, hnames]
    exact hhead.scan rest
  · rw [XmlDocument.encode, hbody]
    simp only [utf8Length_append, utf8Length_cons] at hbytes ⊢
    omega

/-! ### What the recognition keeps -/

/-- A document that is taken for SVG is one exactly when it is one or is not disguised; the answer
is that for every beginning with the first 64 KiB; and no slice panics. -/
theorem svg_recognition_sound (document : XmlDocument) :
    ((isSvgDocument document.encode = some true → document.IsSvg) ∧
      (∀ text front, front <+: text → sliceTo text signatureHeaderBytes <+: front →
        isSvgDocument front = isSvgDocument text) ∧
      ∀ text, isSvgDocument text ≠ none) ↔ (document.IsSvg ∨ ¬document.Disguised) := by
  constructor
  · rintro ⟨hsound, -, -⟩
    by_cases hdisguised : document.Disguised
    · exact .inl (hsound hdisguised.accepted)
    · exact .inr hdisguised
  · intro h
    refine ⟨fun haccepted => ?_, fun text front => isSvgDocument_front, fun text hnone => ?_⟩
    · rcases document.isSvg_or_disguised haccepted with hsvg | hdisguised
      · exact hsvg
      · exact h.resolve_right (not_not.mpr hdisguised)
    · obtain ⟨accepted, haccepted⟩ := isSvgDocument_total text
      rw [hnone] at haccepted
      cases haccepted

/-- `<svg xmlns='http://www.w3.org/2000/svg'>`. -/
def hiddenTag : StartTag where
  name := "svg".toList
  attributes := [{
    space := [' '], name := "xmlns".toList, beforeEquals := [], afterEquals := [], quote := '\'',
    raw := svgNamespace, value := svgNamespace, space_xml := by decide, name_ne := by decide,
    name_chars := by decide, quote_eq := .inr rfl, raw_quote := by decide,
    plain := fun _ _ => rfl }]
  space := []
  empty := false
  name_ne := by decide
  name_chars := by decide
  separated := by
    rintro _ ⟨⟩
    decide
  space_xml := nofun

/-- An HTML element behind a declaration whose system identifier holds that tag. -/
def hiddenDocument : XmlDocument where
  byteOrderMark := false
  declaration := none
  before := []
  doctype := some {
    space := [' '], name := "svg".toList, beforeSubset := [], subset := none
    external := some {
      space := [' '], publicId := none, space_ne := by decide, space_xml := by decide
      systemId := {
        space := [' '], quote := '"', text := '>' :: hiddenTag.encode, space_xml := by decide,
        quote_eq := .inl rfl, text_quote := by decide } }
    space_ne := by decide, space_xml := by decide, name_ne := by decide, name_chars := by decide }
  after := []
  root := {
    name := "html".toList, attributes := [], space := [], empty := true, name_ne := by decide,
    name_chars := by decide, separated := nofun, space_xml := nofun }
  rest := []
  declaration_space := nofun
  declaration_end := nofun

theorem svg_recognition_misled :
    hiddenDocument.encode =
      "<!DOCTYPE svg SYSTEM \"><svg xmlns='http://www.w3.org/2000/svg'>\"><html/>".toList ∧
    isSvgDocument hiddenDocument.encode = some true ∧ ¬hiddenDocument.IsSvg := by
  refine ⟨by decide, XmlDocument.Disguised.accepted ⟨_, rfl, " svg SYSTEM \"".toList,
    hiddenTag.encode ++ ['"'], hiddenTag.encode, by decide, by decide, by decide, rfl, rfl, ?_,
    ⟨_, (List.append_assoc _ _ _).symm⟩, by decide⟩, fun h => absurd h.name (by decide)⟩
  exact .root hiddenTag ⟨rfl, by decide, by decide⟩

end Crabinet.Preview
