import Crabinet.Library.Wildcards
import Crabinet.Search.Index
import Crabinet.Search.Paging
import Crabinet.Search.PathRange
import Crabinet.Search.Query
import Mathlib.Data.List.Lex
import Mathlib.Data.List.Sort
import Mathlib.Data.Prod.Lex

/-!
# The candidates of a search

The statement of a search selects rows of the index over all shares, in a total order, and a page of
them is checked against the live shares. The rows are whatever the tables hold: texts that need not
be paths, kinds that need not be kinds, and trigrams that need not be those of the row.

The comparisons, `GLOB`, `instr` and `MATCH` of the database are written out for the arguments that
the statement passes to them. How the database folds case and how a time is written are arguments,
as are the tables of Unicode.
-/

namespace Crabinet.Search

open Crabinet.Filesystem Crabinet.Library Crabinet.Tokens

/-! ### The tables -/

/-- A row of `entries` but for its number; the parent is not read here. -/
structure Columns where
  share : String
  path : List Char
  name : List Char
  normalized : List Char
  kind : List Char
  category : List Char
  extension : List Char
  size : Option ℤ
  modified : Option ℤ
deriving DecidableEq

/-- A row of `entries`. -/
structure EntryRow extends Columns where
  id : ℤ
deriving DecidableEq

/-- The tables `entries` and `names`, the latter as the texts whose trigrams are stored under a row
number. -/
structure Tables where
  entries : List EntryRow
  names : List (ℤ × List Char)
  /-- `PRIMARY KEY`. -/
  numbered : (entries.map EntryRow.id).Nodup
  /-- `UNIQUE(share,path)`. -/
  unique : (entries.map fun row => (row.share, row.path)).Nodup

/-! ### The functions of the database -/

/-- The bytes of a text, which order the texts of the database. -/
def textUtf8 (text : List Char) : List UInt8 := utf8 (String.ofList text)

/-- A character of a `GLOB` pattern without sets. -/
def wildcard : Char → Wildcard Char
  | '*' => .run
  | '?' => .one
  | c => .item c

/-- `GLOB`. -/
def glob (pattern : String) (text : List Char) : Bool :=
  wildcardMatch (pattern.toList.map wildcard) text

/-- `instr`: where a text begins in another, from one, or zero. -/
def instr (text needle : List Char) : ℕ :=
  if needle.isPrefixOf text then 1
  else
    match text with
    | [] => 0
    | _ :: rest =>
      match instr rest needle with
      | 0 => 0
      | position + 1 => position + 2

/-- A term as a phrase of a full-text expression. -/
def quotePhrase (term : List Char) : List Char :=
  '"' :: term.flatMap (fun c => if c = '"' then ['"', '"'] else [c]) ++ ['"']

/-- The rest of a quoted phrase, up to the quote that ends the expression. -/
def readQuoted : List Char → Option (List Char)
  | [] => none
  | ['"'] => some []
  | '"' :: '"' :: rest => (readQuoted rest).map ('"' :: ·)
  | c :: rest => if c = '"' then none else (readQuoted rest).map (c :: ·)

/-- The phrase of an expression that is one quoted phrase. -/
def readPhrase : List Char → Option (List Char)
  | '"' :: rest => readQuoted rest
  | _ => none

/-- `MATCH` of a phrase by trigrams: whether the text has the phrase in it, but for case. -/
def phraseMatch (fold : Char → Char) (expression text : List Char) : Bool :=
  (readPhrase expression).any fun phrase => decide (phrase.map fold <:+: text.map fold)

/-- `id IN (SELECT rowid FROM names WHERE names MATCH ?)`. -/
def Tables.found (tables : Tables) (fold : Char → Char) (id : ℤ) (expression : List Char) : Bool :=
  ((tables.names.filter fun row => phraseMatch fold expression row.2).map Prod.fst).contains id

/-! ### The statement -/

/-- `compare`. -/
def compare (value : ℤ) (operator : Operator) (target : ℤ) : Bool :=
  match operator with
  | .gt => value > target
  | .ge => value ≥ target
  | .lt => value < target
  | .le => value ≤ target
  | .eq => value = target

/-- The range of the scope; the root's text is empty. -/
def inScope (path : VirtualPath) (text : List Char) : Bool :=
  (pathText path).isEmpty ||
    (decide (textUtf8 (pathText path ++ ['/']) ≤ textUtf8 text) &&
      decide (textUtf8 text < textUtf8 (pathText path ++ ['0'])))

/-- The patterns of hidden names. -/
def shown (text : List Char) : Bool := !glob ".*" text && !glob "*/.*" text

/-- What the filter of the statement is made of. -/
structure Filter where
  allowed : List String
  path : VirtualPath
  query : SearchQuery
  hidden : Bool

/-- The filter, with the expressions that find a row. -/
def Filter.keeps (filter : Filter) (row : Columns) (found : List Char → Bool) : Bool :=
  let query := filter.query
  filter.allowed.contains row.share && inScope filter.path row.path &&
    (filter.hidden || shown row.path) &&
    (query.terms.all fun term =>
      if term.length ≥ 3 then found (quotePhrase term) else instr row.normalized term > 0) &&
    (query.types.isEmpty || query.types.any fun category =>
      if category = "file".toList then row.kind == "file".toList else row.category == category) &&
    (query.extensions.isEmpty || query.extensions.contains row.extension) &&
    (query.sizes.all fun (operator, value) => row.size.any (compare · operator value)) &&
    query.dates.all fun (operator, value) => row.modified.any (compare · operator value)

/-- What all terms together look for at the start of a name. -/
def needle (query : SearchQuery) : List Char := List.intercalate [' '] query.terms

/-- The key of `ORDER BY`. -/
def orderKey (needle : List Char) (row : Columns) : ℕ ×ₗ List ℕ ×ₗ List ℕ ×ₗ List ℕ :=
  let bytes (text : List Char) : List ℕ := (textUtf8 text).map UInt8.toNat
  let rank := if row.normalized = needle then 0 else if instr row.normalized needle = 1 then 1 else 2
  toLex (rank, toLex (bytes row.normalized, toLex (bytes row.share.toList, bytes row.path)))

/-- The rows that the statement selects, before it cuts out a page. -/
def Tables.select (tables : Tables) (fold : Char → Char) (filter : Filter) : List Columns :=
  ((tables.entries.filter fun row => filter.keeps row.toColumns (tables.found fold row.id)).map
    EntryRow.toColumns).insertionSort fun row other =>
      orderKey (needle filter.query) row ≤ orderKey (needle filter.query) other

/-! ### The check against the live shares -/

/-- What a search uses of Unicode, of the database and of the calendar. -/
structure SearchTables where
  unicode : UnicodeTables
  fold : Char → Char
  rfc3339 : ℕ → Option (List Char)

/-- `metadata` of a share's view, which is its live state. -/
abbrev LiveView := VirtualPath → FsResult EntryMetadata

/-- `SearchEntry`. -/
structure SearchEntry where
  shareId : String
  path : List Char
  name : List Char
  kind : List Char
  size : Option ℕ
  modified : Option (List Char)
deriving DecidableEq, Repr

/-- The body of the loop over the candidates. -/
def validate (tables : SearchTables) (allowed : KeyedMap String LiveView) (query : SearchQuery)
    (row : Columns) : Option SearchEntry :=
  match parsePath (EntryName.accepts tables.unicode) row.path with
  | .error _ => none
  | .ok path =>
    match allowed.get? row.share with
    | none => none -- The filter leaves only shares that are keys.
    | some view =>
      match view path with
      | .error _ => none
      | .ok metadata =>
        if (metadata.kind == .directory) != (row.kind == "directory".toList) then none
        else
          let size := if metadata.kind = .file then some metadata.size else none
          let modified := unixSeconds metadata.modified
          if (query.sizes.all fun (operator, value) =>
                (size.filter (· ≤ i64Max)).any fun bytes : ℕ => compare bytes operator value) &&
              query.dates.all fun (operator, value) =>
                modified.any fun seconds : ℕ => compare seconds operator value then
            some ⟨row.share, row.path, row.name, row.kind, size, modified.bind tables.rfc3339⟩
          else none

/-! ### The search -/

/-- The flags of an `IndexedShare`. -/
structure ShareFlags where
  invalidated : Bool
  complete : Bool
  indexing : Bool
  polling : Bool
deriving DecidableEq, Repr

/-- `AppError`, as far as a search fails with it. -/
inductive SearchError where
  | tooLarge | busy | internal
deriving DecidableEq, Repr

/-- `SearchService`, as far as a search reads it; `refusal` is what its connections fail with: no
reader is free, the deadline passes, or there is a fault. -/
structure SearchService where
  shares : String → ShareFlags
  refusal : Option SearchError

/-- `SearchPage`, with its flags. -/
structure SearchResults where
  page : SearchPage SearchEntry
  indexing : Bool
  incomplete : Bool
deriving DecidableEq, Repr

/-- `SearchService::query`. -/
def SearchService.query (service : SearchService) (tables : SearchTables) (index : Tables)
    (allowed : KeyedMap String LiveView) (path : VirtualPath) (query : SearchQuery) (hidden : Bool)
    (paging : Paging) : Except SearchError SearchResults :=
  let indexing := allowed.keys.any fun id =>
    let share := service.shares id
    share.indexing || (share.invalidated && share.polling)
  let incomplete := allowed.keys.any fun id => !(service.shares id).complete
  if allowed.size = 0 then .ok ⟨⟨[], none, none⟩, indexing, incomplete⟩
  else if allowed.size > 1024 then .error .tooLarge
  else
    match service.refusal with
    | some error => .error error
    | none =>
      let ordered := index.select tables.fold ⟨allowed.keys, path, query, hidden⟩
      .ok ⟨Search.query (validate tables allowed query) ordered paging, indexing, incomplete⟩

end Crabinet.Search
