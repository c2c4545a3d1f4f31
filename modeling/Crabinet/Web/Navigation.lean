import Crabinet.Library.UriComponents
import Crabinet.Oidc.WebUrl
import Crabinet.Web.NumberText
import Crabinet.Web.VirtualPath

/-!
# Locations of the web client

The routes of the client, the location of a route, and the route that is read from an
address. Addresses are those that a browser makes of locations.
-/

namespace Crabinet.Web

open Crabinet.Filesystem Crabinet.Library Crabinet.Library.UriComponents
open Crabinet.Oidc (WebUrl)

/-- What the client uses of the browser: the Unicode tables and lower-case texts. -/
structure Platform extends UnicodeTables where
  toLowerCase : List Char → List Char
  toLowerCase_ascii : ∀ text : List Char, (∀ c ∈ text, c.toNat < 0x80) →
    toLowerCase text = text.map Char.toLower

inductive View where
  | trash | rendered
deriving DecidableEq, Repr

inductive PreviewMode where
  | side | full
deriving DecidableEq, Repr

inductive SearchScope where
  | share | folder | all
deriving DecidableEq, Repr

/-- `BrowserRoute`. A field that is null is one that is left out. -/
structure BrowserRoute where
  shareId : Option (List Char) := none
  path : List Char := []
  view : Option View := none
  previewPath : Option (List Char) := none
  previewMode : Option PreviewMode := none
  searchQuery : Option (List Char) := none
  searchScope : Option SearchScope := none
  searchOffset : Option ℕ := none
  previewShareId : Option (List Char) := none
  searchShareId : Option (List Char) := none
  unresolved : Bool := false
deriving DecidableEq, Repr

/-- `reservedShareIds`. -/
def reservedShareIds : List String :=
  ["api", "assets", "browse", "crabinet.png", "favicon.ico", "google-g.png", "health", "index.html",
    "node_modules", "src", "trash"]

/-- `isReservedShareId`. -/
def isReservedShareId (platform : Platform) (segment : List Char) : Bool :=
  reservedShareIds.any (fun id => id.toList == platform.toLowerCase segment) || segment.head? == some '@'

/-! ### From an address to a route -/

/-- The first expression that `routeFromUrl` matches, along the segments of the path: the share of a
Trash address. -/
def trashMatch (path : List (List Char)) : Option (Option (List Char)) :=
  match path with
  | [first] | [first, []] => if first = "trash".toList then some none else none
  | [first, share] | [first, share, []] =>
    if first = "trash".toList ∧ share ≠ [] then some (some share) else none
  | _ => none

/-- The second one: the share, and the segments after it. -/
def shareMatch (path : List (List Char)) : Option (List Char × List (List Char)) :=
  match path with
  | [] => none
  | first :: rest =>
    match if first = "browse".toList then rest else [] with
    | (c :: share) :: rest => some (c :: share, rest)
    | _ => if first = [] then none else some (first, rest)

/-- The number of UTF-16 code units of a character. -/
def unitsOf (c : Char) : ℕ := if c.toNat ≤ 0xFFFF then 1 else 2

/-- `slice(0, limit)`. The half of a character that the cut leaves is no text. -/
def sliceUnits (limit : ℕ) : List Char → List Char
  | [] => []
  | c :: rest => if unitsOf c ≤ limit then c :: sliceUnits (limit - unitsOf c) rest else []

/-- A share that the query names. -/
def namedShare (platform : Platform) (params : Params) (name : String) : Option (List Char) :=
  (params.get name).filter fun share =>
    share ≠ [] && !isReservedShareId platform share && !share.contains '/'

/-- The fields of a search. -/
def withSearch (platform : Platform) (params : Params) (route : BrowserRoute) : BrowserRoute :=
  match params.get "search" with
  | none => route
  | some query =>
    let scope := match params.get "scope" with
      | some scope =>
        if scope = "all".toList then .all else if scope = "folder".toList then .folder else .share
      | none => .share
    { route with
      searchQuery := some (sliceUnits 1024 query)
      searchScope := some scope
      searchOffset := (params.get "offset").bind (readPositive 10000)
      searchShareId := if scope = SearchScope.share then
        (namedShare platform params "searchShare").filter fun share => some share != route.shareId
      else none
      previewShareId := namedShare platform params "previewShare" }

/-- What `routeFromUrl` reads of a share; `none` where decoding throws. -/
def readShare (platform : Platform) (share : List Char) (rest : List (List Char)) (params : Params) :
    Option BrowserRoute := do
  let segments ← (rest.filter (· ≠ [])).mapM decodeURIComponent
  let joined := ['/'].intercalate segments
  let path :=
    if segments.any (·.contains '/') then []
    else if joined = [] then (params.get "path").getD [] else joined
  let shareId ← decodeURIComponent share
  if params.get "view" = some "rendered".toList then
    if path ≠ [] ∧ isValidVirtualPath platform.toUnicodeTables path then
      return { shareId, path, view := some .rendered }
    else return { shareId }
  else
    let route : BrowserRoute :=
      { shareId, path := if isValidVirtualPath platform.toUnicodeTables path then path else [] }
    let route := withSearch platform params route
    let route := { route with
      previewPath := (params.get "preview").filter (isValidVirtualPath platform.toUnicodeTables)
      previewMode := if params.get "view" = some "full".toList then some .full else none }
    return { route with
      unresolved := route.path ≠ [] && route.previewPath.isNone && route.searchQuery.isNone }

/-- `routeFromUrl`. -/
def routeFromUrl (platform : Platform) (url : WebUrl) : BrowserRoute :=
  match trashMatch url.path with
  | some share => { shareId := share.bind decodeURIComponent, view := some .trash }
  | none =>
    match shareMatch url.path with
    | none => {}
    | some (share, rest) =>
      if isReservedShareId platform share then {}
      else (readShare platform share rest (Params.parse (url.query.getD []))).getD {}

/-! ### From a route to its location -/

/-- `pathSuffix`. -/
def pathSuffix (path : List Char) : List Char :=
  (segmentsOf path).flatMap fun segment => '/' :: encodeURIComponent segment

/-- The text of a scope. -/
def SearchScope.text : SearchScope → List Char
  | .share => "share".toList
  | .folder => "folder".toList
  | .all => "all".toList

/-- The parameters of a search. -/
def searchParams (route : BrowserRoute) : Params :=
  match route.searchQuery with
  | none => []
  | some query =>
    let params := (Params.set [] "search" query).set "scope" (route.searchScope.getD .share).text
    let params := Params.setSome params "offset"
      ((route.searchOffset.filter (· ≠ 0)).map (Nat.toDigits 10))
    let params := Params.setSome params "searchShare"
      (if route.searchScope = some .share then route.searchShareId.filter (· ≠ []) else none)
    Params.setSome params "previewShare" (route.previewShareId.filter (· ≠ []))

/-- `browserUrl`. -/
def browserUrl (platform : Platform) (route : BrowserRoute) : List Char :=
  if route.view = some .trash then "/trash".toList
  else match route.shareId with
  | none | some [] => "/".toList
  | some shareId =>
    let valid := isValidVirtualPath platform.toUnicodeTables
    let params : Params := searchParams route
    let safePath := if valid route.path then route.path else []
    if route.view = some .rendered ∧ safePath ≠ [] then
      '/' :: encodeURIComponent shareId ++ pathSuffix safePath ++
        '?' :: (params.set "view" "rendered".toList).serialize
    else
      let previewPath := route.previewPath.filter fun preview => preview ≠ [] && valid preview
      let inline := previewPath.filter fun preview =>
        route.searchQuery.isNone && parentPath platform.toUnicodeTables preview == safePath
      let params := Params.setSome params "preview" (if inline.isSome then none else previewPath)
      let params := Params.setSome params "view"
        (if route.previewMode = some .full then some "full".toList else none)
      let suffix := if params = [] then [] else '?' :: params.serialize
      '/' :: encodeURIComponent shareId ++ pathSuffix (inline.getD safePath) ++ suffix

/-- `directoryUrl`. -/
def directoryUrl (platform : Platform) (shareId : Option (List Char)) (path : List Char) : List Char :=
  browserUrl platform { shareId, path }

end Crabinet.Web
