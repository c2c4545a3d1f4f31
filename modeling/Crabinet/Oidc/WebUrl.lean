import Crabinet.Library.PercentEncoding

/-!
# How a browser resolves a location

The parsing of a location against an `https` address, by the states of the URL standard. Where a
location brings a scheme or an authority of its own, it may lead anywhere: what these are is not
looked at.
-/

namespace Crabinet.Oidc

open Crabinet.Library Crabinet.Library.PercentEncoding

/-- The part of an `https` address after its origin. -/
structure WebUrl where
  path : List (List Char)
  query : Option (List Char)
  fragment : Option (List Char)
deriving DecidableEq

/-- Where a location leads. -/
inductive Destination where
  | sameOrigin (url : WebUrl)
  | elsewhere

/-- The text of the path. -/
def WebUrl.pathText (url : WebUrl) : List Char := url.path.flatMap ('/' :: ·)

/-- A C0 control or a space. -/
def isC0OrSpace (c : Char) : Bool := c.toNat ≤ 0x20

/-- An ASCII tab or newline. -/
def isTabOrNewline (c : Char) : Bool := c.toNat == 0x9 || c.toNat == 0xA || c.toNat == 0xD

/-- An ASCII letter. -/
def isAsciiLetter (c : Char) : Bool := ('a' ≤ c && c ≤ 'z') || ('A' ≤ c && c ≤ 'Z')

/-- A character of a scheme. -/
def isSchemeCharacter (c : Char) : Bool :=
  isAsciiLetter c || isAsciiDigit c || c == '+' || c == '-' || c == '.'

/-- What is kept in the queries of special addresses. -/
def keepInQuery (c : Char) : Bool := 0x20 < c.toNat && c.toNat ≤ 0x7E && !"\"#<>'".toList.contains c

/-- What is kept in paths. -/
def keepInPath (c : Char) : Bool :=
  0x20 < c.toNat && c.toNat ≤ 0x7E && !"\"#<>?^\x60\x7b\x7d".toList.contains c

/-- What is kept in fragments. -/
def keepInFragment (c : Char) : Bool :=
  0x20 < c.toNat && c.toNat ≤ 0x7E && !"\"<>\x60".toList.contains c

/-- A single-dot segment. -/
def isSingleDot (segment : List Char) : Bool :=
  let lower := segment.map Char.toLower
  lower == ".".toList || lower == "%2e".toList

/-- A double-dot segment. -/
def isDoubleDot (segment : List Char) : Bool :=
  let lower := segment.map Char.toLower
  lower == "..".toList || lower == ".%2e".toList || lower == "%2e.".toList || lower == "%2e%2e".toList

/-- The path after a segment, which ends at a slash or ends the path. -/
def endSegment (path : List (List Char)) (segment : List Char) (slash : Bool) : List (List Char) :=
  if isDoubleDot segment then if slash then path.dropLast else path.dropLast ++ [[]]
  else if isSingleDot segment then if slash then path else path ++ [[]]
  else path ++ [segment]

/-- The fragment state. -/
def fragmentState (path : List (List Char)) (query : Option (List Char)) (input : List Char) : WebUrl :=
  ⟨path, query, some (encode keepInFragment input)⟩

/-- The query state. -/
def queryState (path : List (List Char)) (query : List Char) : List Char → WebUrl
  | [] => ⟨path, some query, none⟩
  | c :: rest =>
    if c = '#' then fragmentState path (some query) rest
    else queryState path (query ++ encodeChar keepInQuery c) rest

/-- The path state of a special address. -/
def pathState (path : List (List Char)) (buffer : List Char) : List Char → WebUrl
  | [] => ⟨endSegment path buffer false, none, none⟩
  | c :: rest =>
    if c = '/' ∨ c = '\\' then pathState (endSegment path buffer true) [] rest
    else if c = '?' then queryState (endSegment path buffer false) [] rest
    else if c = '#' then fragmentState (endSegment path buffer false) none rest
    else pathState path (buffer ++ encodeChar keepInPath c) rest

/-- The relative slash state. -/
def relativeSlashState (input : List Char) : Destination :=
  match input with
  | '/' :: _ | '\\' :: _ => .elsewhere
  | input => .sameOrigin (pathState [] [] input)

/-- The relative state. -/
def relativeState (base : WebUrl) (input : List Char) : Destination :=
  match input with
  | '/' :: rest | '\\' :: rest => relativeSlashState rest
  | [] => .sameOrigin ⟨base.path, base.query, none⟩
  | '?' :: rest => .sameOrigin (queryState base.path [] rest)
  | '#' :: rest => .sameOrigin (fragmentState base.path base.query rest)
  | input => .sameOrigin (pathState base.path.dropLast [] input)

/-- The location starts with a scheme. -/
def hasScheme (input : List Char) : Bool :=
  match input with
  | c :: rest => isAsciiLetter c && (rest.dropWhile isSchemeCharacter).head? == some ':'
  | [] => false

/-- Resolve a location against an address. -/
def resolve (base : WebUrl) (location : List Char) : Destination :=
  let input := ((location.dropWhile isC0OrSpace).rdropWhile isC0OrSpace).filter (!isTabOrNewline ·)
  if hasScheme input then .elsewhere else relativeState base input

end Crabinet.Oidc
