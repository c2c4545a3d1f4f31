import Crabinet.Library.UriComponents

/-!
# The name of a download

How a browser reads the `Content-Disposition` field of an answer: a type, and then named values
that are tokens or quoted strings. The value of `filename*` says how its bytes are written and is
taken before that of `filename`.
-/

namespace Crabinet.Library

namespace ContentDisposition

open PercentEncoding UriComponents Utf8Decoder

/-- A character of a token. -/
def isTokenChar (c : Char) : Bool := isAlphanumeric c || "!#$%&'*+-.^_`|~".toList.contains c

/-- The mark between the parts of an extended value. -/
def apostrophe : Char := Char.ofNat 39

/-- A quoted string after its first mark, and what follows it; `none` where it does not end. -/
def readQuoted : List Char → Option (List Char × List Char)
  | [] => none
  | c :: rest =>
    if c = '"' then some ([], rest)
    else if c = '\\' then
      match rest with
      | [] => none
      | next :: after => (readQuoted after).map fun read => (next :: read.1, read.2)
    else (readQuoted rest).map fun read => (c :: read.1, read.2)

/-- A value, and what follows it. -/
def readValue (text : List Char) : Option (List Char × List Char) :=
  if text.head? = some '"' then readQuoted text.tail
  else if (text.takeWhile isTokenChar).isEmpty then none
  else some (text.takeWhile isTokenChar, text.dropWhile isTokenChar)

/-- At most so many named values. -/
def readParameters : ℕ → List Char → Option (List (List Char × List Char))
  | _, [] => some []
  | 0, _ :: _ => none
  | fuel + 1, c :: rest =>
    if c ≠ ';' then none
    else
      let named := rest.dropWhile (· == ' ')
      if (named.dropWhile isTokenChar).head? ≠ some '=' then none
      else do
        let read ← readValue (named.dropWhile isTokenChar).tail
        let others ← readParameters fuel (read.2.dropWhile (· == ' '))
        some ((named.takeWhile isTokenChar, read.1) :: others)

end ContentDisposition

/-- What the field says. -/
structure ContentDisposition where
  kind : List Char
  parameters : List (List Char × List Char)

namespace ContentDisposition

open PercentEncoding UriComponents Utf8Decoder

/-- The field of a text. -/
def read (text : List Char) : Option ContentDisposition :=
  if (text.takeWhile isTokenChar).isEmpty then none
  else (readParameters text.length ((text.dropWhile isTokenChar).dropWhile (· == ' '))).map fun parameters =>
    ⟨text.takeWhile isTokenChar, parameters⟩

/-- A value whose bytes are escaped, after the name of its encoding and a language. -/
def extendedValue (text : List Char) : Option (List Char) :=
  let language := (text.dropWhile (· != apostrophe)).tail
  let encoded := (language.dropWhile (· != apostrophe)).tail
  if (text.takeWhile (· != apostrophe)).map Char.toLower = "utf-8".toList ∧
      (language.dropWhile (· != apostrophe)).head? = some apostrophe ∧ isWellFormed encoded then
    utf8Text (decode encoded)
  else none

/-- The value of a name. -/
def parameter (disposition : ContentDisposition) (name : String) : Option (List Char) :=
  disposition.parameters.lookup name.toList

/-- The name to save under. -/
def filename (disposition : ContentDisposition) : Option (List Char) :=
  ((disposition.parameter "filename*").bind extendedValue).or (disposition.parameter "filename")

/-! ### What is read of what was written -/

section Reading

variable {text rest name value after : List Char} {fuel : ℕ} {parameters : List (List Char × List Char)}

/-- A token ends where its characters do. -/
theorem takeWhile_token (h : ∀ c ∈ name, isTokenChar c = true)
    (hrest : ∀ c, rest.head? = some c → isTokenChar c = false) :
    (name ++ rest).takeWhile isTokenChar = name ∧ (name ++ rest).dropWhile isTokenChar = rest := by
  rw [List.takeWhile_append_of_pos h, List.dropWhile_append_of_pos h]
  cases rest with
  | nil => exact ⟨List.append_nil _, rfl⟩
  | cons c rest =>
    have hc := hrest c rfl
    rw [List.takeWhile_cons, List.dropWhile_cons, hc]
    exact ⟨List.append_nil _, rfl⟩

/-- A quoted string without marks in it. -/
theorem readQuoted_append (h : ∀ c ∈ value, c ≠ '"' ∧ c ≠ '\\') :
    readQuoted (value ++ '"' :: rest) = some (value, rest) := by
  induction value with
  | nil =>
    rw [List.nil_append, readQuoted.eq_def]
    exact if_pos rfl
  | cons c value ih =>
    obtain ⟨hquote, hbackslash⟩ := h c List.mem_cons_self
    have hread := ih fun other hother => h other (List.mem_cons_of_mem _ hother)
    rw [List.cons_append, readQuoted.eq_def]
    dsimp only
    rw [if_neg hquote, if_neg hbackslash, hread]
    rfl

/-- A quoted value. -/
theorem readValue_quoted (h : ∀ c ∈ value, c ≠ '"' ∧ c ≠ '\\') :
    readValue ('"' :: (value ++ '"' :: rest)) = some (value, rest) := by
  rw [readValue, List.head?_cons, if_pos rfl, List.tail_cons, readQuoted_append h]

/-- A value that is a token, at the end. -/
theorem readValue_token (hne : value ≠ []) (h : ∀ c ∈ value, isTokenChar c = true) :
    readValue value = some (value, []) := by
  have hquote : value.head? ≠ some '"' := by
    intro hhead
    have hmem := h '"' (List.mem_of_mem_head? hhead)
    exact absurd hmem (by decide)
  have htoken : value.takeWhile isTokenChar = value := List.takeWhile_eq_self_iff.mpr h
  have hnone : value.dropWhile isTokenChar = [] := List.dropWhile_eq_nil_iff.mpr h
  rw [readValue, if_neg hquote, htoken, hnone, if_neg (by simpa using hne)]

/-- One named value and those that follow it. -/
theorem readParameters_cons (hname : ∀ c ∈ name, isTokenChar c = true)
    (hvalue : readValue text = some (value, after))
    (hrest : readParameters fuel (after.dropWhile (· == ' ')) = some parameters) :
    readParameters (fuel + 1) (';' :: ' ' :: (name ++ '=' :: text)) =
      some ((name, value) :: parameters) := by
  have hequals : ∀ c, ('=' :: text).head? = some c → isTokenChar c = false := by
    intro c hc
    obtain rfl := Option.some.inj hc
    decide
  have hspaces : (' ' :: (name ++ '=' :: text)).dropWhile (· == ' ') = name ++ '=' :: text := by
    rw [List.dropWhile_cons, if_pos (beq_self_eq_true _)]
    cases name with
    | nil => rfl
    | cons c name =>
      have hc : (c == ' ') = false := by
        have htoken := hname c List.mem_cons_self
        refine beq_eq_false_iff_ne.mpr fun heq => ?_
        rw [heq] at htoken
        exact absurd htoken (by decide)
      rw [List.cons_append, List.dropWhile_cons, hc]
      rfl
  obtain ⟨htake, hdrop⟩ := takeWhile_token hname hequals
  rw [readParameters]
  dsimp only
  rw [if_neg (not_not.mpr rfl), hspaces, hdrop, htake, List.head?_cons, if_neg (not_not.mpr rfl),
    List.tail_cons, hvalue]
  dsimp only [Option.bind_eq_bind, Option.bind_some]
  rw [hrest]
  rfl

end Reading

end ContentDisposition

end Crabinet.Library
