import Crabinet.Library.TextSlices
import Crabinet.Preview.Signature

/-!
# The recognition of SVG documents

The scan for an `svg` root element over the first 64 KiB of a text. A slice that is not at a
character boundary is `none`; inside of it stands what follows the part that was scanned, which is
`none` where the scan gives up.
-/

namespace Crabinet.Preview

open Crabinet.Library

/-- `SVG_NAMESPACE`. -/
def svgNamespace : List Char := "http://www.w3.org/2000/svg".toList

def isXmlSpace (c : Char) : Bool := c == ' ' || c == '\t' || c == '\r' || c == '\n'

/-- `strip_prefix`. -/
def stripText (pattern text : List Char) : Option (List Char) :=
  if pattern.isPrefixOf text then some (text.drop pattern.length) else none

/-- The text starts with a white space. -/
def startsWithSpace (text : List Char) : Bool := text.head?.any isXmlSpace

/-- `after`. -/
def after (rest terminator : List Char) : Option (Option (List Char)) :=
  match findText terminator rest with
  | none => some none
  | some index => (strFrom rest (index + utf8Length terminator)).map some

/-- A declaration names `svg` and has no internal subset. -/
def namesSvg (declaration : List Char) : Bool :=
  !declaration.contains '[' && startsWithSpace declaration &&
    (declaration.dropWhile isXmlSpace).takeWhile (fun c => !isXmlSpace c) == "svg".toList

theorem length_stripText {pattern text rest : List Char} (h : stripText pattern text = some rest) :
    rest.length + pattern.length ≤ text.length := by
  unfold stripText at h
  split_ifs at h with hfront
  rw [← Option.some.inj h, List.length_drop,
    Nat.sub_add_cancel (List.isPrefixOf_iff_prefix.mp hfront).length_le]

theorem length_after {rest terminator next : List Char} (h : after rest terminator = some (some next)) :
    next.length ≤ rest.length := by
  unfold after at h
  split at h
  · cases h
  · obtain ⟨found, hfound, heq⟩ := Option.map_eq_some_iff.mp h
    exact Option.some.inj heq ▸ length_strFrom hfound

/-- The loop of `is_svg_document` before the first element. -/
def skipProlog (seenDoctype : Bool) (text : List Char) : Option (Option (List Char)) :=
  let rest := text.dropWhile isXmlSpace
  match hcomment : stripText "<!--".toList rest with
  | some comment =>
    match hnext : after comment "-->".toList with
    | none => none
    | some none => some none
    | some (some next) => skipProlog seenDoctype next
  | none =>
    match hdoctype : stripText "<!DOCTYPE".toList rest with
    | some doctype =>
      match findChar (· == '>') doctype with
      | none => some none
      | some close =>
        match strTo doctype close, hnext : strFrom doctype (close + 1) with
        | some declaration, some next =>
          if seenDoctype || !namesSvg declaration then some none else skipProlog true next
        | _, _ => none
    | none => some (some rest)
termination_by text.length
decreasing_by
  · have hspaces : rest.length ≤ text.length := (List.dropWhile_suffix isXmlSpace).length_le
    have hstrip := length_stripText hcomment
    have hafter := length_after hnext
    change comment.length + 4 ≤ rest.length at hstrip
    omega
  · have hspaces : rest.length ≤ text.length := (List.dropWhile_suffix isXmlSpace).length_le
    have hstrip := length_stripText hdoctype
    have hslice := length_strFrom hnext
    change doctype.length + 9 ≤ rest.length at hstrip
    omega

/-- The characters that end the name of an attribute. -/
def endsName (c : Char) : Bool := isXmlSpace c || c == '=' || c == '>' || c == '/'

/-- The value of an attribute and what follows it, when a quote starts it. -/
def quotedValue (text : List Char) : Option (Option (List Char × List Char)) :=
  match text with
  | quote :: _ =>
    if quote = '"' ∨ quote = '\'' then
      match strFrom text 1 with
      | none => none
      | some value =>
        match findChar (· == quote) value with
        | none => some none
        | some close =>
          match strTo value close, strFrom value (close + 1) with
          | some inner, some next => some (some (inner, next))
          | _, _ => none
    else some none
  | [] => some none

theorem length_quotedValue {text value next : List Char}
    (h : quotedValue text = some (some (value, next))) : next.length ≤ text.length := by
  unfold quotedValue at h
  split at h
  · split_ifs at h
    · split at h
      · cases h
      · rename_i inner hinner
        split at h
        · cases h
        · split at h
          · rename_i hslice
            obtain ⟨-, rfl⟩ := Prod.mk.inj (Option.some.inj (Option.some.inj h))
            exact (length_strFrom hslice).trans (length_strFrom hinner)
          · cases h
    · cases h
  · cases h

/-- The loop of `is_svg_document` over the attributes of a start tag. -/
def skipAttributes (svg : Bool) (text : List Char) : Option (Option (List Char)) :=
  let tag := text.dropWhile isXmlSpace
  if ['>'].isPrefixOf tag then some (if svg then some (tag.drop 1) else none)
  else if "/>".toList.isPrefixOf tag then some (if svg then some (tag.drop 2) else none)
  else
    let nameEnd := (findChar endsName tag).getD (utf8Length tag)
    match strTo tag nameEnd, hname : strFrom tag nameEnd with
    | some name, some afterName =>
      match hequals : stripText ['='] (afterName.dropWhile isXmlSpace) with
      | none => some none
      | some quoted =>
        match hvalue : quotedValue (quoted.dropWhile isXmlSpace) with
        | none => none
        | some none => some none
        | some (some (value, next)) =>
          if name = [] then some none
          else if name = "xmlns".toList then
            if value = svgNamespace then skipAttributes true next else some none
          else skipAttributes svg next
    | _, _ => none
termination_by text.length
decreasing_by
  all_goals
    have hspaces : tag.length ≤ text.length := (List.dropWhile_suffix isXmlSpace).length_le
    have hslice := length_strFrom hname
    have hspaces' := (List.dropWhile_suffix isXmlSpace (l := afterName)).length_le
    have hstrip := length_stripText hequals
    have hspaces'' := (List.dropWhile_suffix isXmlSpace (l := quoted)).length_le
    have hnext := length_quotedValue hvalue
    change _ + 1 ≤ _ at hstrip
    omega

/-- The start tag of the root element. -/
def skipRoot (rest : List Char) : Option (Option (List Char)) :=
  match stripText "<svg".toList rest with
  | none => some none
  | some tag =>
    if tag.head?.any fun c => isXmlSpace c || c == '>' || c == '/' then skipAttributes false tag
    else some none

/-- What follows the byte-order mark and the XML declaration. -/
def skipDeclaration (text : List Char) : Option (Option (List Char)) :=
  let rest := (stripText ['\ufeff'] text).getD text
  match stripText "<?xml".toList rest with
  | none => some (some rest)
  | some declaration => if startsWithSpace declaration then after declaration "?>".toList else some none

/-- One scan after another. -/
def andThen (scan : Option (Option (List Char)))
    (next : List Char → Option (Option (List Char))) : Option (Option (List Char)) :=
  match scan with
  | none => none
  | some none => some none
  | some (some rest) => next rest

/-- The scan of `is_svg_document` after the XML declaration. -/
def skipToRoot (seenDoctype : Bool) (text : List Char) : Option (Option (List Char)) :=
  andThen (skipProlog seenDoctype text) skipRoot

/-- The scan of `is_svg_document`. -/
def scanSvg (text : List Char) : Option (Option (List Char)) :=
  andThen (skipDeclaration text) (skipToRoot false)

/-- `is_svg_document`; a slice that panics is `none`. -/
def isSvgDocument (text : List Char) : Option Bool :=
  let stop := floorCharBoundary text (min (utf8Length text) signatureHeaderBytes)
  match strTo text stop with
  | none => none
  | some text => (scanSvg text).map Option.isSome

end Crabinet.Preview
