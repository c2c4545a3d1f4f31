import Crabinet.Filesystem.PathText
import Crabinet.Library.Outcome
import Crabinet.Library.Text
import Mathlib.Algebra.Ring.Nat

/-!
# Search queries

A query is cut into tokens at the spaces that are not quoted. A token is a filter or a search
term; a token that was quoted is a term whatever it says. What the grammar uses of Unicode and
of the calendar is an argument.
-/

namespace Crabinet.Search

open Crabinet.Filesystem Crabinet.Library

/-- `MAX_QUERY_BYTES`. -/
def maxQueryBytes : ℕ := 1024

/-- `AppError`, as far as a query is refused. -/
inductive QueryError where
  | invalidRequest
deriving DecidableEq, Repr

/-- What the query grammar uses of Unicode and of the calendar. -/
structure QueryTables where
  normalize : List Char → List Char
  parseDate : List Char → Option ℤ

/-- The comparisons of a filter. -/
inductive Operator where
  | ge | le | gt | lt | eq
deriving DecidableEq, Repr

/-- `SearchQuery`. -/
structure SearchQuery where
  terms : List (List Char)
  types : List (List Char)
  extensions : List (List Char)
  sizes : List (Operator × ℤ)
  dates : List (Operator × ℤ)
deriving DecidableEq, Repr

namespace SearchQuery

/-- `Default`. -/
def empty : SearchQuery := ⟨[], [], [], [], []⟩

/-- The items of two queries, list by list. -/
def append (first second : SearchQuery) : SearchQuery where
  terms := first.terms ++ second.terms
  types := first.types ++ second.types
  extensions := first.extensions ++ second.extensions
  sizes := first.sizes ++ second.sizes
  dates := first.dates ++ second.dates

@[simp] theorem empty_append (query : SearchQuery) : empty.append query = query := rfl

@[simp] theorem append_empty (query : SearchQuery) : query.append empty = query := by
  simp [append, empty]

theorem append_assoc (first second third : SearchQuery) :
    (first.append second).append third = first.append (second.append third) := by
  simp [append]

end SearchQuery

/-! ### Tokens -/

/-- The state of the loop over the characters: the tokens so far, each with whether it is literal,
the token being read, and the two flags. -/
structure Tokenizer where
  tokens : List (List Char × Bool)
  token : List Char
  quoted : Bool
  literal : Bool
deriving DecidableEq, Repr

/-- One character of the loop. -/
def Tokenizer.feed (state : Tokenizer) (c : Char) : Tokenizer :=
  if c = '"' then
    { state with literal := state.literal || state.token.isEmpty, quoted := !state.quoted }
  else if isWhitespace c && !state.quoted then
    if state.token.isEmpty then state
    else ⟨state.tokens ++ [(state.token, state.literal)], [], state.quoted, false⟩
  else { state with token := state.token ++ [c] }

/-- What the loop leaves: nothing where a quote is open. -/
def Tokenizer.finish (state : Tokenizer) : Option (List (List Char × Bool)) :=
  if state.quoted then none
  else if state.token.isEmpty then some state.tokens
  else some (state.tokens ++ [(state.token, state.literal)])

/-- The tokens of a query. -/
def tokenize (raw : List Char) : Option (List (List Char × Bool)) :=
  (raw.foldl Tokenizer.feed ⟨[], [], false, false⟩).finish

/-! ### Items -/

/-- What a token adds to a query. -/
inductive Item where
  | term (value : List Char)
  | category (value : List Char)
  | extension (value : List Char)
  | size (operator : Operator) (value : ℤ)
  | date (operator : Operator) (value : ℤ)
deriving DecidableEq, Repr

/-- The query of one item. -/
def Item.query : Item → SearchQuery
  | term value => { SearchQuery.empty with terms := [value] }
  | category value => { SearchQuery.empty with types := [value] }
  | extension value => { SearchQuery.empty with extensions := [value] }
  | size operator value => { SearchQuery.empty with sizes := [(operator, value)] }
  | date operator value => { SearchQuery.empty with dates := [(operator, value)] }

/-- `comparison`. -/
def comparison (value : List Char) : Operator × List Char :=
  let found := [(">=", Operator.ge), ("<=", .le), (">", .gt), ("<", .lt), ("=", .eq)].findSome?
    fun (text, operator) => (value.dropPrefix? text.toList).map fun rest => (operator, rest)
  found.getD (.eq, value)

/-- The types of a `type:` filter. -/
def categories : List (List Char) :=
  ["pdf", "image", "video", "audio", "document", "code", "folder", "other", "file"].map String.toList

/-- The units of a `size:` filter. -/
def units : List (List Char × ℕ) :=
  [("", 1), ("b", 1), ("kb", 1000), ("mb", 1000000), ("gb", 1000000000), ("kib", 1024),
    ("mib", 1024 * 1024), ("gib", 1024 * 1024 * 1024)].map fun (unit, factor) => (unit.toList, factor)

/-- The largest number of a `size:` filter. -/
def maxSize : ℕ := 2 ^ 63 - 1

/-- A number of the type `i64`, written in digits. -/
def parseDigits (digits : List Char) : Option ℕ :=
  if digits.isEmpty then none
  else
    let number := Nat.ofDigitChars 10 digits 0
    if number ≤ maxSize then some number else none

/-- The bytes that a `size:` filter names. -/
def parseSize (value : List Char) : Option ℤ := do
  let number ← parseDigits (value.takeWhile isAsciiDigit)
  let factor ← units.lookup (value.dropWhile isAsciiDigit)
  if number * factor ≤ maxSize then some (number * factor) else none

/-- An item, or a refusal. -/
def accept (item : Option Item) : Except QueryError Item :=
  item.elim (.error .invalidRequest) .ok

/-- The body of the loop over the tokens. -/
def readToken (tables : QueryTables) (token : List Char) (literal : Bool) : Except QueryError Item :=
  let token := tables.normalize token
  if literal then .ok (.term token)
  else
    match token.dropPrefix? "type:".toList with
    | some value => accept (if categories.contains value then some (.category value) else none)
    | none =>
      match token.dropPrefix? "ext:".toList with
      | some value =>
        accept (if value.isEmpty || (value.map Char.utf8Size).sum > 32 || !value.all isAsciiAlphanumeric
          then none else some (.extension value))
      | none =>
        match token.dropPrefix? "size:".toList with
        | some value =>
          let (operator, value) := comparison value
          accept ((parseSize value).map (.size operator))
        | none =>
          match token.dropPrefix? "modified:".toList with
          | some value =>
            let (operator, value) := comparison value
            accept ((tables.parseDate value).map (.date operator))
          | none => accept (if token.contains ':' then none else some (.term token))

/-- The loop over the tokens. -/
def readTokens (tables : QueryTables) : List (List Char × Bool) → Except QueryError SearchQuery
  | [] => .ok .empty
  | (token, literal) :: rest => do
    let item ← readToken tables token literal
    let query ← readTokens tables rest
    return item.query.append query

/-- `SearchQuery::parse`. -/
def parse (tables : QueryTables) (raw : List Char) : Except QueryError SearchQuery :=
  if (raw.map Char.utf8Size).sum > maxQueryBytes || raw.any isControl then .error .invalidRequest
  else
    match tokenize raw with
    | none => .error .invalidRequest
    | some tokens =>
      if tokens.length > 32 then .error .invalidRequest else readTokens tables tokens

end Crabinet.Search
