import Crabinet.Preview.SvgDocument

/-!
# XML documents up to their root element

The grammar of what stands before the content of an XML document. Names, literals, and comments may
hold more than XML allows: every well-formed document is one of these.
-/

namespace Crabinet.Preview

/-- An attribute as it is written, and its value, which is what is written where nothing is
referenced or normalized. -/
structure Attribute where
  space : List Char
  name : List Char
  beforeEquals : List Char
  afterEquals : List Char
  quote : Char
  raw : List Char
  value : List Char
  space_xml : ∀ c ∈ space ++ beforeEquals ++ afterEquals, isXmlSpace c = true
  name_ne : name ≠ []
  name_chars : ∀ c ∈ name, endsName c = false
  quote_eq : quote = '"' ∨ quote = '\''
  raw_quote : quote ∉ raw
  plain : '&' ∉ raw → (∀ c ∈ raw, isXmlSpace c = false) → value = raw

def Attribute.encode (item : Attribute) : List Char :=
  item.space ++ (item.name ++ (item.beforeEquals ++ '=' :: (item.afterEquals ++
    item.quote :: (item.raw ++ [item.quote]))))

/-- A start tag, or the tag of an empty element. -/
structure StartTag where
  name : List Char
  attributes : List Attribute
  space : List Char
  empty : Bool
  name_ne : name ≠ []
  name_chars : ∀ c ∈ name, (endsName c || c == '?' || c == '!') = false
  separated : ∀ item ∈ attributes.head?, item.space ≠ []
  space_xml : ∀ c ∈ space, isXmlSpace c = true

/-- The end of a tag. -/
def tagEnd (empty : Bool) : List Char := if empty then "/>".toList else ['>']

/-- A tag after its name. -/
def StartTag.encodeRest (tag : StartTag) : List Char :=
  tag.attributes.flatMap Attribute.encode ++ (tag.space ++ tagEnd tag.empty)

def StartTag.encode (tag : StartTag) : List Char := '<' :: (tag.name ++ tag.encodeRest)

/-- What may stand around the document type declaration. -/
inductive Misc where
  | space (c : Char) (h : isXmlSpace c = true)
  | comment (text : List Char) (h : ¬"-->".toList <:+: text ++ "--".toList)
  | instruction (text : List Char) (h : ¬"?>".toList <:+: text ++ ['?'])
      (htarget : ∀ c rest, text = "xml".toList ++ c :: rest → isXmlSpace c = false)

def Misc.encode : Misc → List Char
  | .space c _ => [c]
  | .comment text _ => "<!--".toList ++ (text ++ "-->".toList)
  | .instruction text _ _ => "<?".toList ++ (text ++ "?>".toList)

/-- A literal in its quotes, after white space. -/
structure Literal where
  space : List Char
  quote : Char
  text : List Char
  space_xml : ∀ c ∈ space, isXmlSpace c = true
  quote_eq : quote = '"' ∨ quote = '\''
  text_quote : quote ∉ text

def Literal.encode (literal : Literal) : List Char :=
  literal.space ++ literal.quote :: (literal.text ++ [literal.quote])

/-- The identifiers of an external subset, after white space. -/
structure ExternalId where
  space : List Char
  publicId : Option Literal
  systemId : Literal
  space_ne : space ≠ []
  space_xml : ∀ c ∈ space, isXmlSpace c = true

def ExternalId.encode (external : ExternalId) : List Char :=
  external.space ++ ((match external.publicId with
    | some literal => "PUBLIC".toList ++ literal.encode
    | none => "SYSTEM".toList) ++ external.systemId.encode)

/-- A document type declaration. -/
structure Doctype where
  space : List Char
  name : List Char
  external : Option ExternalId
  beforeSubset : List Char
  /-- The internal subset, and the white space after it. -/
  subset : Option (List Char × List Char)
  space_ne : space ≠ []
  space_xml : ∀ c ∈ space ++ beforeSubset, isXmlSpace c = true
  name_ne : name ≠ []
  name_chars : ∀ c ∈ name, (isXmlSpace c || c == '>' || c == '[') = false

/-- What stands in a declaration after the name. -/
def Doctype.encodeRest (doctype : Doctype) : List Char :=
  (doctype.external.map ExternalId.encode).getD [] ++ (doctype.beforeSubset ++
    match doctype.subset with
    | some (text, space) => '[' :: (text ++ ']' :: space)
    | none => [])

/-- What stands between `<!DOCTYPE` and the `>` that closes the declaration. -/
def Doctype.body (doctype : Doctype) : List Char :=
  doctype.space ++ (doctype.name ++ doctype.encodeRest)

/-- A document: what stands before its root element, the start tag of that, and everything after
it. -/
structure XmlDocument where
  byteOrderMark : Bool
  /-- The XML declaration after `<?xml`. -/
  declaration : Option (List Char)
  before : List Misc
  doctype : Option Doctype
  after : List Misc
  root : StartTag
  rest : List Char
  declaration_space : ∀ text ∈ declaration, startsWithSpace text = true
  declaration_end : ∀ text ∈ declaration, ¬"?>".toList <:+: text ++ ['?']

/-- A byte-order mark and an XML declaration. -/
def encodeStart (byteOrderMark : Bool) (declaration : Option (List Char)) : List Char :=
  (if byteOrderMark then ['\ufeff'] else []) ++
    (declaration.map fun text => "<?xml".toList ++ (text ++ "?>".toList)).getD []

namespace XmlDocument

variable (document : XmlDocument)

/-- What follows the document type declaration. -/
def encodeAfter : List Char :=
  document.after.flatMap Misc.encode ++ (document.root.encode ++ document.rest)

/-- What follows the XML declaration. -/
def encodeBody : List Char :=
  document.before.flatMap Misc.encode ++
    ((document.doctype.map fun doctype => "<!DOCTYPE".toList ++ (doctype.body ++ ['>'])).getD [] ++
      document.encodeAfter)

def encode : List Char :=
  encodeStart document.byteOrderMark document.declaration ++ document.encodeBody

/-- The root element is an unprefixed `svg` element in the SVG namespace, and there is no internal
subset. -/
structure IsSvg : Prop where
  name : document.root.name = "svg".toList
  declared : ∃ item ∈ document.root.attributes, item.name = "xmlns".toList
  namespace_eq : ∀ item ∈ document.root.attributes, item.name = "xmlns".toList →
    item.value = svgNamespace
  no_subset : ∀ doctype ∈ document.doctype, doctype.subset = none

end XmlDocument

end Crabinet.Preview
