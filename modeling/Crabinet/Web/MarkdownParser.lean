import Crabinet.Library.KeyedMap
import Crabinet.Web.MarkdownTree

/-!
# GitHub's extensions of Markdown

The rule of `markdown-parser.ts` over the tokens of a parsed document: headings get their ids,
items of task lists their checkboxes, and quotes their alerts. The tokens themselves are those of
the parser, and the classes of characters those of Unicode.
-/

namespace Crabinet.Web

open Crabinet.Library

/-- What the extensions ask of Unicode. -/
structure UnicodeClasses where
  toLowerCase : String → String
  /-- `\p{L}`, `\p{M}`, `\p{N}` and `\p{Pc}`. -/
  isWordCharacter : Char → Bool

/-- `Token.type`; a type that the extensions do not look for is `other`. -/
inductive TokenType where
  | headingOpen | inline | listItemOpen | paragraphOpen | blockquoteOpen
  | text | codeInline | softbreak | htmlInline | other
deriving DecidableEq, Repr

/-- A token of the children of an inline token. -/
structure InlineToken where
  type : TokenType
  content : String
deriving DecidableEq, Repr

/-- A token of the document; the children of one that has none are empty. -/
structure Token where
  type : TokenType
  attrs : KeyedMap String String
  hidden : Bool
  children : List InlineToken

def Token.attrSet (token : Token) (name value : String) : Token :=
  { token with attrs := token.attrs.insert name value }

/-- `plainText`. -/
def plainText (inline : Token) : String :=
  ((inline.children.filter fun child => child.type = .text ∨ child.type = .codeInline).map
    InlineToken.content).foldl (· ++ ·) ""

/-! ### Slugs -/

/-- The slug of a text, before it is told apart from the others. -/
def slugBase (unicode : UnicodeClasses) (text : String) : String :=
  let kept := (trimmed (unicode.toLowerCase text)).toList.filter fun c =>
    unicode.isWordCharacter c || c = ' ' || c = '-'
  String.ofList (kept.map fun c => if c = ' ' then '-' else c)

/-- A slug with the number of a repetition. -/
def numberedSlug (base : String) (number : ℕ) : String :=
  String.ofList (base.toList ++ '-' :: Nat.toDigits 10 number)

/-- `uniqueSlug`. -/
def uniqueSlug (unicode : UnicodeClasses) (slugs : KeyedMap String ℕ) (text : String) :
    KeyedMap String ℕ × String :=
  let base := slugBase unicode text
  match slugs.get? base with
  | none => (slugs.insert base 0, base)
  | some seen => (slugs.insert base (seen + 1), numberedSlug base (seen + 1))

/-! ### Task lists and alerts -/

/-- `TASK_MARKER`: what is between the brackets, and the text after the marker. -/
def taskMarker (content : String) : Option (Char × String) :=
  match content.toList with
  | '[' :: mark :: ']' :: space :: rest =>
    if mark ∈ [' ', 'x', 'X'] ∧ space ∈ [' ', '\t'] then some (mark, String.ofList rest) else none
  | _ => none

/-- `markTaskItem`, on what follows the opening token of the item. -/
def markTaskItem : List Token → List Token
  | paragraph :: inline :: rest =>
    if paragraph.type = .paragraphOpen ∧ inline.type = .inline then
      match inline.children with
      | first :: others =>
        match (if first.type = .text then taskMarker first.content else none) with
        | some (mark, content) =>
          let checkbox : InlineToken :=
            ⟨.htmlInline, "<input type=\"checkbox\" disabled" ++ (if mark = ' ' then "" else " checked") ++ ">"⟩
          paragraph :: { inline with children := checkbox :: { first with content } :: others } :: rest
        | none => paragraph :: inline :: rest
      | [] => paragraph :: inline :: rest
    else paragraph :: inline :: rest
  | tokens => tokens

/-- `ALERT_MARKER`: the kind of the alert, in lower case. -/
def alertMarker (content : String) : Option String :=
  ["note", "tip", "important", "warning", "caution"].find? fun kind =>
    content.toList.map Char.toLower = "[!".toList ++ kind.toList ++ "]".toList

/-- Hides the token that closes a paragraph. -/
def hideFirst : List Token → List Token
  | closing :: rest => { closing with hidden := true } :: rest
  | [] => []

/-- `markAlert`, on the opening token of a quote and what follows it. A paragraph that had only the
marker is hidden; the parser closes every paragraph. -/
def markAlert (quote : Token) : List Token → Token × List Token
  | paragraph :: inline :: rest =>
    if paragraph.type = .paragraphOpen ∧ inline.type = .inline then
      let marker := inline.children.head?.bind fun first =>
        if first.type = .text then alertMarker first.content else none
      let next := inline.children[1]?.map InlineToken.type
      match marker with
      | some kind =>
        if next = none ∨ next = some .softbreak then
          let children := inline.children.drop 2
          let marked := quote.attrSet "data-alert" kind
          if children = [] then
            (marked, { paragraph with hidden := true } :: { inline with children } :: hideFirst rest)
          else (marked, paragraph :: { inline with children } :: rest)
        else (quote, paragraph :: inline :: rest)
      | none => (quote, paragraph :: inline :: rest)
    else (quote, paragraph :: inline :: rest)
  | tokens => (quote, tokens)

/-! ### The rule -/

/-- The text of a heading, from what follows its opening token. -/
def headingText : List Token → Option String
  | inline :: _ => if inline.type = .inline then some (plainText inline) else none
  | [] => none

theorem types_markTaskItem (tokens : List Token) :
    (markTaskItem tokens).map Token.type = tokens.map Token.type := by
  fun_cases markTaskItem tokens <;> rfl

theorem types_hideFirst (tokens : List Token) :
    (hideFirst tokens).map Token.type = tokens.map Token.type := by
  cases tokens <;> rfl

theorem types_markAlert (quote : Token) (tokens : List Token) :
    (markAlert quote tokens).2.map Token.type = tokens.map Token.type := by
  fun_cases markAlert quote tokens <;> simp [*, types_hideFirst]

theorem length_markTaskItem (tokens : List Token) : (markTaskItem tokens).length = tokens.length := by
  simpa using congrArg List.length (types_markTaskItem tokens)

theorem length_markAlert (quote : Token) (tokens : List Token) :
    (markAlert quote tokens).2.length = tokens.length := by
  simpa using congrArg List.length (types_markAlert quote tokens)

/-- The loop of `gitHubExtensions`, over the tokens from the index on: none before it is looked at
again. -/
def extendTokens (unicode : UnicodeClasses) (slugs : KeyedMap String ℕ) : List Token → List Token
  | [] => []
  | token :: rest =>
    match token.type with
    | .headingOpen =>
      match headingText rest with
      | some text =>
        token.attrSet "id" (uniqueSlug unicode slugs text).2 ::
          extendTokens unicode (uniqueSlug unicode slugs text).1 rest
      | none => token :: extendTokens unicode slugs rest
    | .listItemOpen => token :: extendTokens unicode slugs (markTaskItem rest)
    | .blockquoteOpen =>
      (markAlert token rest).1 :: extendTokens unicode slugs (markAlert token rest).2
    | _ => token :: extendTokens unicode slugs rest
termination_by tokens => tokens.length
decreasing_by
  all_goals simp only [List.length_cons, length_markTaskItem, length_markAlert]; omega

/-- `gitHubExtensions`. -/
def gitHubExtensions (unicode : UnicodeClasses) (tokens : List Token) : List Token :=
  extendTokens unicode .empty tokens

end Crabinet.Web
