import Crabinet.Library.Text
import Mathlib.Algebra.Ring.Nat
import Mathlib.Algebra.Ring.Int.Defs
import Mathlib.Data.Int.Order.Basic
import Mathlib.Data.List.DropRight

/-!
# From a Markdown document to elements

The walk of `safe-markdown.tsx` over the document a browser parsed. Lower case and the parsing of
addresses are the browser's.
-/

namespace Crabinet.Web

open Crabinet.Library

/-- A node of the parsed document; comments and what else has no text are `other`. -/
inductive DomNode where
  | text (data : String)
  | element (namespaceURI : Option String) (localName : String)
      (attributes : List (String × String)) (childNodes : List DomNode)
  | other

/-- An address: its scheme and what its serialization has after it. -/
structure Url where
  scheme : String
  afterScheme : String
deriving DecidableEq

def Url.protocol (url : Url) : String := url.scheme ++ ":"

def Url.href (url : Url) : String := url.protocol ++ url.afterScheme

/-- What the walk asks of the browser. -/
structure Browser where
  toLowerCase : String → String
  /-- `new URL`; `none` where it throws. -/
  newUrl : String → Option Url

/-- The value of a property. -/
inductive PropValue where
  | string (value : String)
  | number (value : ℤ)
  | flag (value : Bool)
  /-- A style that sets only `textAlign`. -/
  | textAlign (value : String)
deriving DecidableEq

abbrev Props := List (String × PropValue)

/-- What an element is: a tag or one of the application's components. -/
inductive Kind where
  | tag (name : String)
  | icon (name : String)
  | highlightedCode
deriving DecidableEq

/-- What is given to the page; `key` is left out of the properties. -/
inductive Rendered where
  | text (data : String)
  | nothing
  | fragment (children : List Rendered)
  | element (kind : Kind) (props : Props) (children : List Rendered)

def maxDepth : ℕ := 64

def idPrefix : String := "user-content-"

def xhtml : String := "http://www.w3.org/1999/xhtml"

/-- Elements whose content is dropped, not shown as text. -/
def dropped : List String :=
  ["audio", "base", "canvas", "dialog", "embed", "frame", "frameset", "head", "iframe", "link",
    "math", "meta", "noembed", "noframes", "noscript", "object", "picture", "script", "select",
    "source", "style", "svg", "template", "textarea", "title", "track", "video"]

/-- Elements rendered as themselves. Anything else is unwrapped to its content. -/
def allowed : List String :=
  ["abbr", "b", "bdi", "bdo", "blockquote", "br", "caption", "cite", "code", "col", "colgroup",
    "dd", "del", "details", "dfn", "div", "dl", "dt", "em", "figcaption", "figure", "h1", "h2",
    "h3", "h4", "h5", "h6", "hr", "i", "ins", "kbd", "li", "mark", "ol", "p", "pre", "q", "rp",
    "rt", "ruby", "s", "samp", "section", "small", "span", "strike", "strong", "sub", "summary",
    "sup", "table", "tbody", "td", "tfoot", "th", "thead", "time", "tr", "tt", "u", "ul", "var",
    "wbr"]

def alignable : List String :=
  ["div", "p", "h1", "h2", "h3", "h4", "h5", "h6", "table", "tr", "td", "th"]

def alignments : List String := ["left", "right", "center", "justify"]

def linkProtocols : List String := ["http:", "https:", "mailto:"]

/-- The languages that `languageLoaders` has. -/
def highlightLanguages : List String :=
  ["c", "cpp", "css", "go", "html", "java", "javascript", "json", "jsx", "kotlin", "lua",
    "markdown", "php", "python", "ruby", "rust", "shell", "sql", "swift", "toml", "tsx",
    "typescript", "xml", "yaml"]

def languageAliases : List (String × String) :=
  [("bash", "shell"), ("c++", "cpp"), ("htm", "html"), ("js", "javascript"), ("kt", "kotlin"),
    ("md", "markdown"), ("mjs", "javascript"), ("py", "python"), ("rb", "ruby"), ("rs", "rust"),
    ("sh", "shell"), ("shellscript", "shell"), ("ts", "typescript"), ("yml", "yaml"),
    ("zsh", "shell")]

/-- The titles and icons of the alerts. -/
def alerts : List (String × String × String) :=
  [("note", "Note", "Info"), ("tip", "Tip", "Lightbulb"),
    ("important", "Important", "MessageSquareWarning"), ("warning", "Warning", "TriangleAlert"),
    ("caution", "Caution", "OctagonAlert")]

/-! ### Strings of the browser -/

/-- White space and line terminators. -/
def isSpace (c : Char) : Bool :=
  c.toNat ∈ [0x9, 0xA, 0xB, 0xC, 0xD, 0x20, 0xA0, 0x1680, 0x2028, 0x2029, 0x202F, 0x205F, 0x3000,
    0xFEFF] || (0x2000 ≤ c.toNat && c.toNat ≤ 0x200A)

/-- `String.prototype.trim`. -/
def trimmed (text : String) : String :=
  String.ofList ((text.toList.dropWhile isSpace).rdropWhile isSpace)

/-- The least integer whose nearest number is infinite. -/
def infinite : ℤ := 2 ^ 1024 - 2 ^ 970

/-- `Number.parseInt` in base ten; `none` where the result is not finite. -/
def parseInt (text : String) : Option ℤ :=
  let start := text.toList.dropWhile isSpace
  let (negative, unsigned) := match start with
    | '-' :: rest => (true, rest)
    | '+' :: rest => (false, rest)
    | rest => (false, rest)
  let digits := unsigned.takeWhile isAsciiDigit
  if digits = [] then none
  else
    let size : ℤ := (Nat.ofDigitChars 10 digits 0 : ℕ)
    if size < infinite then some (if negative then -size else size) else none

/-! ### Attributes -/

/-- `getAttribute`. -/
def getAttribute (attributes : List (String × String)) (name : String) : Option String :=
  attributes.lookup name

/-- `hasAttribute`. -/
def hasAttribute (attributes : List (String × String)) (name : String) : Bool :=
  (getAttribute attributes name).isSome

/-- The id of an element, kept apart from the application's own. -/
def idProps (element : List (String × String)) : Props :=
  match getAttribute element "id" with
  | some id => if id = "" then [] else [("id", .string (idPrefix ++ id))]
  | none => []

/-- An attribute that is copied as it is. -/
def copied (element : List (String × String)) (name prop : String) : Props :=
  ((getAttribute element name).map fun value => (prop, .string value)).toList

/-- An attribute that is set. -/
def copyFlag (element : List (String × String)) (name : String) : Props :=
  if hasAttribute element name then [(name, .flag true)] else []

def copyNumber (element : List (String × String)) (name : String) (min max : ℤ) : Props :=
  match parseInt ((getAttribute element name).getD "") with
  | some value => [(name, .number (Min.min max (Max.max min value)))]
  | none => []

def alignProps (browser : Browser) (element : List (String × String)) (tag : String) : Props :=
  match (getAttribute element "align").map browser.toLowerCase with
  | some align => if tag ∈ alignable ∧ align ∈ alignments then [("align", .string align)] else []
  | none => []

/-- The alignment of a cell, which is written as an inline style of exactly this form. -/
def styleProps (element : List (String × String)) : Props :=
  match (["left", "right", "center"]).find? fun align =>
      getAttribute element "style" = some ("text-align:" ++ align) with
  | some align => [("style", .textAlign align)]
  | none => []

def attributes (browser : Browser) (element : List (String × String)) (tag : String) : Props :=
  idProps element ++ copied element "title" "title" ++ copied element "lang" "lang" ++
    copied element "dir" "dir" ++ alignProps browser element tag ++
    (if tag = "td" ∨ tag = "th" then styleProps element ++ copyNumber element "colspan" 1 1000 ++
      copyNumber element "rowspan" 0 65534 else []) ++
    (if tag = "ol" then copyNumber element "start" (-1000000000) 1000000000 ++
      copyFlag element "reversed" else []) ++
    (if tag = "li" then copyNumber element "value" (-1000000000) 1000000000 else []) ++
    (if tag = "details" then copyFlag element "open" else []) ++
    (if tag = "time" then copied element "datetime" "dateTime" else [])

/-! ### Elements of their own kind -/

def link (browser : Browser) (element : List (String × String)) (children : List Rendered) :
    Rendered :=
  let href := trimmed ((getAttribute element "href").getD "")
  let inert := Rendered.element (.tag "span") (idProps element ++
    [("class", .string "markdown-inert-link")] ++
    (if href = "" then [] else [("title", .string ("Link not opened: " ++ href))])) children
  match href.toList with
  | '#' :: _ :: _ => .element (.tag "a") (idProps element ++ [("href", .string href)]) children
  | _ =>
    match browser.newUrl href with
    | some url =>
      if url.protocol ∈ linkProtocols then
        .element (.tag "a") (idProps element ++ [("href", .string url.href),
          ("target", .string "_blank"), ("rel", .string "noopener noreferrer nofollow")]) children
      else inert
    | none => inert

def iconElement (name : String) (size : ℤ) : Rendered :=
  .element (.icon name) [("aria-hidden", .string "true"), ("size", .number size)] []

def imagePlaceholder (element : List (String × String)) : Rendered :=
  let alt := trimmed ((getAttribute element "alt").getD "")
  .element (.tag "span") [("class", .string "markdown-image-placeholder"),
      ("title", .string "Images in Markdown are not loaded")]
    [iconElement "ImageOff" 14, .text (if alt = "" then "Image" else alt)]

def checkbox (browser : Browser) (element : List (String × String)) : Rendered :=
  if (getAttribute element "type").map browser.toLowerCase = some "checkbox" then
    .element (.tag "input") [("type", .string "checkbox"), ("class", .string "markdown-task"),
      ("disabled", .flag true), ("checked", .flag (hasAttribute element "checked"))] []
  else .nothing

mutual

/-- `textContent`. -/
def textContent : DomNode → String
  | .text data => data
  | .element _ _ _ childNodes => textContents childNodes
  | .other => ""

def textContents : List DomNode → String
  | [] => ""
  | node :: nodes => textContent node ++ textContents nodes

end

/-- The children of an element that are elements. -/
def childElements (childNodes : List DomNode) : List DomNode :=
  childNodes.filter fun
    | .element .. => true
    | _ => false

/-- The language at the start of a text, after `language-`. -/
def languageName (text : List Char) : Option (List Char) :=
  if "language-".toList.isPrefixOf text then
    let name := (text.drop 9).takeWhile fun c => !isSpace c
    if name = [] then none else some name
  else none

/-- The first language after white space. -/
def languageAfterSpace : List Char → Option (List Char)
  | [] => none
  | c :: rest =>
    if isSpace c then (languageName rest).or (languageAfterSpace rest) else languageAfterSpace rest

/-- The match of `(?:^|\s)language-(\S+)`. -/
def languageInfo (text : String) : Option String :=
  ((languageName text.toList).or (languageAfterSpace text.toList)).map String.ofList

/-- Maps a fence info string to a highlighter language, if one is supported. -/
def highlightLanguage (browser : Browser) (info : String) : Option String :=
  let name := browser.toLowerCase (trimmed info)
  let language := (languageAliases.lookup name).getD name
  if language ∈ highlightLanguages then some language else none

/-- A text without a line feed at its end. -/
def withoutFinalLineFeed (text : String) : String :=
  if text.toList.getLast? = some '\n' then String.ofList text.toList.dropLast else text

def codeBlock (browser : Browser) (childNodes : List DomNode) (children : List Rendered) :
    Rendered :=
  match childElements childNodes with
  | [.element _ "code" attributes nodes] =>
    let source := withoutFinalLineFeed (textContents nodes)
    match (languageInfo ((getAttribute attributes "class").getD "")).bind
        (highlightLanguage browser) with
    | some language =>
      .element .highlightedCode [("source", .string source), ("language", .string language),
        ("wrap", .flag false), ("label", .string "Code block")] []
    | none =>
      .element (.tag "pre") [("class", .string "markdown-code"), ("tabIndex", .number 0),
        ("aria-label", .string "Code block")] [.element (.tag "code") [] [.text source]]
  | _ => .element (.tag "pre") [("class", .string "markdown-code"), ("tabIndex", .number 0)] children

def alertBlock (kind title icon : String) (children : List Rendered) : Rendered :=
  .element (.tag "div") [("class", .string ("markdown-alert markdown-alert-" ++ kind)),
      ("role", .string "note")]
    [.element (.tag "p") [("class", .string "markdown-alert-title")]
      [iconElement icon 16, .text title], .fragment children]

/-! ### The walk -/

/-- What an element becomes, from its children. -/
def fromElement (browser : Browser) (tag : String) (element : List (String × String))
    (childNodes : List DomNode) (children : List Rendered) : Rendered :=
  if tag = "a" then link browser element children
  else if tag = "img" then imagePlaceholder element
  else if tag = "input" then checkbox browser element
  else if tag = "pre" then codeBlock browser childNodes children
  else
    let alert := if tag = "blockquote" then
      (getAttribute element "data-alert").bind fun kind =>
        (alerts.lookup kind).map fun (title, icon) => alertBlock kind title icon children
      else none
    alert.getD <|
      if tag ∈ allowed then .element (.tag tag) (attributes browser element tag) children
      else .fragment children

mutual

def toElements (browser : Browser) : List DomNode → ℕ → List Rendered
  | [], _ => []
  | node :: nodes, depth => toElement browser node depth :: toElements browser nodes depth

def toElement (browser : Browser) : DomNode → ℕ → Rendered
  | .text data, _ => .text data
  | .other, _ => .nothing
  | .element namespaceURI tag element childNodes, depth =>
    if namespaceURI ≠ some xhtml then .nothing
    else if tag ∈ dropped then .nothing
    -- beyond this depth, nesting is flattened to its text
    else if maxDepth ≤ depth then .text (textContents childNodes)
    else fromElement browser tag element childNodes (toElements browser childNodes (depth + 1))

end

end Crabinet.Web
