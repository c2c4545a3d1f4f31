import Crabinet.Oidc.SafeReturn
import Crabinet.Web.Navigation

/-!
# What is read of a location

A browser keeps the location of a share as it is written, and the fields of a search are read again
from where they were written.
-/

namespace Crabinet.Web

open Crabinet.Filesystem Crabinet.Library Crabinet.Library.PercentEncoding Crabinet.Library.UriComponents
open Crabinet.Oidc (WebUrl resolve keepInPath keepInQuery queryTail isLocationCharacter)

variable {platform : Platform} {route : BrowserRoute} {share text : List Char}
  {segments : List (List Char)} {params : Params}

/-! ### The address of a location -/

/-- A query, where there are parameters. -/
def queryOf (params : Params) : Option (List Char) := if params = [] then none else some params.serialize

/-- What a component is written with is kept in paths, and ends none of their parts. -/
theorem plain_of_mem_component {c : Char} (h : c ∈ encodeURIComponent text) :
    keepInPath c = true ∧ isLocationCharacter c = true ∧ c ≠ '/' ∧ c ≠ '?' := by
  have hall : ∀ value : Fin 128, (!(keepInComponent (Char.ofNat value) || Char.ofNat value == '%') ||
      (keepInPath (Char.ofNat value) && isLocationCharacter (Char.ofNat value) &&
        Char.ofNat value != '/' && Char.ofNat value != '?')) = true := by decide +kernel
  have hkeep := of_mem_encodeURIComponent h
  have hascii : c.toNat < 128 := by
    rcases hkeep with hkeep | rfl
    · exact toNat_lt_of_keep (.inl hkeep)
    · decide
  have hplain := forall_ascii (p := fun c => !(keepInComponent c || c == '%') ||
    (keepInPath c && isLocationCharacter c && c != '/' && c != '?')) hall hascii
  have hwritten : (keepInComponent c || c == '%') = true := by
    rwa [Bool.or_eq_true, beq_iff_eq]
  rw [hwritten, Bool.not_true, Bool.false_or] at hplain
  simp only [Bool.and_eq_true, bne_iff_ne] at hplain
  exact ⟨hplain.1.1.1, hplain.1.1.2, hplain.1.2, hplain.2⟩

/-- What a query is written with is kept in queries. -/
theorem plain_of_mem_serialize {c : Char} (h : c ∈ params.serialize) :
    keepInQuery c = true ∧ isLocationCharacter c = true := by
  have hall : ∀ value : Fin 128, (!(keepInForm (Char.ofNat value) ||
      ['%', '+', '=', '&'].contains (Char.ofNat value)) ||
      (keepInQuery (Char.ofNat value) && isLocationCharacter (Char.ofNat value))) = true := by
    decide +kernel
  have hkeep := Params.of_mem_serialize h
  have hmarks : ∀ c ∈ ['%', '+', '=', '&'], c.toNat < 128 := by simp
  have hascii : c.toNat < 128 := hkeep.elim (fun hkeep => toNat_lt_of_keep (.inr hkeep)) (hmarks c)
  have hplain := forall_ascii (p := fun c => !(keepInForm c || ['%', '+', '=', '&'].contains c) ||
    (keepInQuery c && isLocationCharacter c)) hall hascii
  have hwritten : (keepInForm c || ['%', '+', '=', '&'].contains c) = true := by
    rwa [Bool.or_eq_true, List.contains_iff_mem]
  rw [hwritten, Bool.not_true, Bool.false_or] at hplain
  exact Bool.and_eq_true_iff.mp hplain

theorem encode_component (text : List Char) :
    encode keepInPath (encodeURIComponent text) = encodeURIComponent text :=
  encode_eq_self fun _ hc => (plain_of_mem_component hc).1

theorem slash_notMem_component (text : List Char) : '/' ∉ encodeURIComponent text :=
  fun hmem => (plain_of_mem_component hmem).2.2.1 rfl

/-- A component that is written as dots is dots. -/
theorem of_isDot (h : Oidc.isSingleDot (encodeURIComponent text) = true ∨
    Oidc.isDoubleDot (encodeURIComponent text) = true) : text = ['.'] ∨ text = ['.', '.'] := by
  have hbytes := Oidc.decode_of_isDot h
  rw [(decode_encodeURIComponent text).1] at hbytes
  exact hbytes.imp (fun heq => Oidc.utf8Bytes_inj heq) fun heq => Oidc.utf8Bytes_inj heq

theorem component_ne_nil (h : text ≠ []) : encodeURIComponent text ≠ [] :=
  fun hnil => h (encodeURIComponent_inj.mp (hnil.trans rfl : encodeURIComponent text = encodeURIComponent []))

/-- What the location of a share resolves to. -/
theorem resolve_location (base : WebUrl)
    (hparts : ∀ part ∈ share :: segments, part ≠ [] ∧ part ≠ ['.'] ∧ part ≠ ['.', '.']) :
    resolve base ('/' :: encodeURIComponent share ++
        segments.flatMap (fun segment => '/' :: encodeURIComponent segment) ++ queryTail (queryOf params)) =
      .sameOrigin ⟨(share :: segments).map encodeURIComponent, queryOf params, none⟩ := by
  obtain ⟨written, hwritten⟩ : ∃ written, (share :: segments).map encodeURIComponent = written := ⟨_, rfl⟩
  have hsource : ∀ part ∈ written, ∃ source ∈ share :: segments, encodeURIComponent source = part :=
    fun part hpart => List.mem_map.mp (hwritten ▸ hpart)
  have hne : written ≠ [] := by
    rw [← hwritten]
    exact List.cons_ne_nil _ _
  have hslash : ∀ part ∈ written, '/' ∉ part := by
    intro part hpart
    obtain ⟨source, -, rfl⟩ := hsource part hpart
    exact slash_notMem_component source
  have hsplit := List.splitOn_intercalate '/' hslash hne
  have hpath : ∀ c ∈ '/' :: ['/'].intercalate written, isLocationCharacter c = true ∧ c ≠ '?' := by
    intro c hc
    rw [← Oidc.flatMap_slash hne] at hc
    obtain ⟨part, hpart, hc⟩ := List.mem_flatMap.mp hc
    rcases List.mem_cons.mp hc with rfl | hc
    · decide
    · obtain ⟨source, -, rfl⟩ := hsource part hpart
      obtain ⟨-, hvisible, -, hquestion⟩ := plain_of_mem_component hc
      exact ⟨hvisible, hquestion⟩
  have hvisible : ∀ c ∈ '/' :: ['/'].intercalate written ++ queryTail (queryOf params),
      isLocationCharacter c = true := by
    intro c hc
    rcases List.mem_append.mp hc with hc | hc
    · exact (hpath c hc).1
    · unfold queryOf at hc
      split_ifs at hc
      · cases hc
      · rcases List.mem_cons.mp hc with rfl | hc
        · decide
        · exact (plain_of_mem_serialize hc).2
  have hhead : (['/'].intercalate written).head? ≠ some '/' := by
    refine (ends_intercalate (fun part hpart => ?_) hslash).1
    obtain ⟨source, hmem, rfl⟩ := hsource part hpart
    exact component_ne_nil (hparts source hmem).1
  have hnodots : ∀ segment ∈ (['/'].intercalate written).splitOn '/',
      ¬(Oidc.isSingleDot (encode keepInPath segment) = true ∨
        Oidc.isDoubleDot (encode keepInPath segment) = true) := by
    intro segment hsegment hdots
    obtain ⟨source, hmem, rfl⟩ := hsource segment (hsplit ▸ hsegment)
    rw [encode_component] at hdots
    obtain ⟨-, hsingle, hdouble⟩ := hparts source hmem
    exact (of_isDot hdots).elim hsingle hdouble
  have hkept : written.map (encode keepInPath) = written := by
    refine (List.map_congr_left fun part hpart => ?_).trans (List.map_id _)
    obtain ⟨source, -, rfl⟩ := hsource part hpart
    exact encode_component source
  have hquery : (queryOf params).map (encode keepInQuery) = queryOf params := by
    unfold queryOf
    split_ifs
    · rfl
    · exact congrArg some (encode_eq_self fun c hc => (plain_of_mem_serialize hc).1)
  have hjoin : '/' :: encodeURIComponent share ++
      segments.flatMap (fun segment => '/' :: encodeURIComponent segment) =
        '/' :: ['/'].intercalate written := by
    rw [← Oidc.flatMap_slash hne, ← hwritten, List.map_cons, List.flatMap_cons, List.flatMap_map]
  rw [hjoin, Oidc.resolve_path base hvisible (fun hmem => (hpath _ hmem).2 rfl) hhead hnodots, hsplit,
    hkept, hquery, hwritten]

/-! ### What is read from an address -/

theorem ne_reserved {id : String} (hid : id ∈ reservedShareIds)
    (h : isReservedShareId platform text = false) : text ≠ id.toList := by
  rintro rfl
  have hascii : ∀ id ∈ reservedShareIds, (∀ c ∈ id.toList, c.toNat < 0x80) ∧
      id.toList.map Char.toLower = id.toList := by simp [reservedShareIds]
  obtain ⟨hlow, hlower⟩ := hascii id hid
  have hsome : (reservedShareIds.any fun other => other.toList == platform.toLowerCase id.toList) = true := by
    rw [platform.toLowerCase_ascii _ hlow, hlower]
    exact List.any_eq_true.mpr ⟨id, hid, beq_self_eq_true _⟩
  rw [isReservedShareId, hsome] at h
  cases h

/-- The address of a share is not one of Trash. -/
theorem trashMatch_share {rest : List (List Char)} (h : isReservedShareId platform text = false) :
    trashMatch (text :: rest) = none := by
  have htrash : text ≠ "trash".toList := ne_reserved (by decide) h
  unfold trashMatch
  split <;> simp_all

theorem shareMatch_share {rest : List (List Char)} (hne : text ≠ [])
    (h : isReservedShareId platform text = false) : shareMatch (text :: rest) = some (text, rest) := by
  have hbrowse : text ≠ "browse".toList := ne_reserved (by decide) h
  rw [shareMatch, if_neg hbrowse]
  exact if_neg hne

theorem mapM_component (segments : List (List Char)) :
    (segments.map encodeURIComponent).mapM decodeURIComponent = some segments := by
  induction segments with
  | nil => rfl
  | cons segment rest ih =>
    rw [List.map_cons, List.mapM_cons, decodeURIComponent_encodeURIComponent, ih]
    rfl

/-- The route that is read of a share, a valid path and a query. -/
def locatedRoute (platform : Platform) (share path : List Char) (params : Params) : BrowserRoute :=
  if params.get "view" = some "rendered".toList then
    if path ≠ [] then { shareId := share, path, view := some .rendered } else { shareId := share }
  else
    let route := withSearch platform params { shareId := share, path }
    let route := { route with
      previewPath := (params.get "preview").filter (isValidVirtualPath platform.toUnicodeTables)
      previewMode := if params.get "view" = some "full".toList then some .full else none }
    { route with
      unresolved := route.path ≠ [] && route.previewPath.isNone && route.searchQuery.isNone }

/-- What is read of a share and a valid path. -/
theorem readShare_component (hpath : isValidVirtualPath platform.toUnicodeTables text = true)
    (hparams : params.get "path" = none) :
    readShare platform (encodeURIComponent share) ((segmentsOf text).map encodeURIComponent) params =
      some (locatedRoute platform share text params) := by
  obtain ⟨hsegments, hjoin⟩ := segmentsOf_valid hpath
  have hfilter : ((segmentsOf text).map encodeURIComponent).filter (· ≠ []) =
      (segmentsOf text).map encodeURIComponent := by
    refine List.filter_eq_self.mpr fun part hpart => ?_
    obtain ⟨source, hsource, rfl⟩ := List.mem_map.mp hpart
    exact decide_eq_true (component_ne_nil (ne_nil_of_component (hsegments source hsource)))
  have hslash : ((segmentsOf text).any (·.contains '/')) = false := by
    refine List.any_eq_false.mpr fun segment hsegment hmem => ?_
    exact (of_component (hsegments segment hsegment)).2.2 (List.contains_iff_mem.mp hmem)
  have hdefault : (if text = [] then (params.get "path").getD [] else text) = text := by
    rw [hparams]
    split_ifs with hnil
    · exact hnil.symm
    · rfl
  rw [readShare, locatedRoute, hfilter, mapM_component]
  simp only [Option.bind_eq_bind, Option.bind_some, decodeURIComponent_encodeURIComponent, hslash, hjoin,
    hdefault, hpath, Bool.false_eq_true, if_false, if_true, and_true]
  split_ifs <;> rfl

/-! ### The location of a share -/

/-- A share with a location of its own. -/
structure Addressable (platform : Platform) (share : List Char) : Prop where
  nonempty : share ≠ []
  named : share ≠ ['.'] ∧ share ≠ ['.', '.']
  unreserved : isReservedShareId platform (encodeURIComponent share) = false

/-- What is read of the location of a share. -/
theorem routeFromUrl_location (hshare : Addressable platform share)
    (hpath : isValidVirtualPath platform.toUnicodeTables text = true)
    (hparams : params.get "path" = none) (base : WebUrl) :
    ∃ url, resolve base ('/' :: encodeURIComponent share ++ pathSuffix text ++ queryTail (queryOf params)) =
        .sameOrigin url ∧
      routeFromUrl platform url = locatedRoute platform share text params := by
  have hparts : ∀ part ∈ share :: segmentsOf text, part ≠ [] ∧ part ≠ ['.'] ∧ part ≠ ['.', '.'] := by
    intro part hpart
    rcases List.mem_cons.mp hpart with rfl | hpart
    · exact ⟨hshare.nonempty, hshare.named⟩
    · have hcomponent := (segmentsOf_valid hpath).1 part hpart
      obtain ⟨hsingle, hdouble, -⟩ := of_component hcomponent
      exact ⟨ne_nil_of_component hcomponent, hsingle, hdouble⟩
  have hquery : Params.parse ((queryOf params).getD []) = params := by
    unfold queryOf
    split_ifs with hnil
    · exact hnil.symm
    · exact Params.parse_serialize params
  refine ⟨_, resolve_location base hparts, ?_⟩
  rw [routeFromUrl, List.map_cons, trashMatch_share hshare.unreserved]
  dsimp only
  rw [shareMatch_share (component_ne_nil hshare.nonempty) hshare.unreserved]
  dsimp only
  rw [if_neg (Bool.eq_false_iff.mp hshare.unreserved), hquery, readShare_component hpath hparams,
    Option.getD_some]

/-! ### Searches in normal form -/

/-- A share that a query may name. -/
structure Nameable (platform : Platform) (share : List Char) : Prop where
  nonempty : share ≠ []
  unreserved : isReservedShareId platform share = false
  unslashed : '/' ∉ share

/-- The fields of a search belong together. -/
structure NormalSearch (platform : Platform) (route : BrowserRoute) : Prop where
  paired : route.searchScope.isSome = route.searchQuery.isSome
  unsearched : route.searchQuery = none →
    route.searchOffset = none ∧ route.searchShareId = none ∧ route.previewShareId = none
  query : ∀ query ∈ route.searchQuery, (query.map unitsOf).sum ≤ 1024
  offset : ∀ offset ∈ route.searchOffset, 1 ≤ offset ∧ offset ≤ 10000
  searchShare : ∀ other ∈ route.searchShareId,
    route.searchScope = some .share ∧ route.shareId ≠ some other ∧ Nameable platform other
  previewShare : ∀ other ∈ route.previewShareId, Nameable platform other

theorem NormalSearch.scope_eq_none (hnormal : NormalSearch platform route) (h : route.searchQuery = none) :
    route.searchScope = none := by
  rw [← Option.isNone_iff_eq_none, ← Option.not_isSome, hnormal.paired, h]
  rfl

theorem sliceUnits_eq_self {limit : ℕ} (h : (text.map unitsOf).sum ≤ limit) :
    sliceUnits limit text = text := by
  induction text generalizing limit with
  | nil => rfl
  | cons c rest ih =>
    rw [List.map_cons, List.sum_cons] at h
    rw [sliceUnits, if_pos (by omega), ih (by omega)]

theorem filter_ne_nil {value : Option (List Char)} (h : ∀ text ∈ value, Nameable platform text) :
    value.filter (· ≠ []) = value := by
  cases value with
  | none => rfl
  | some text => exact if_pos (decide_eq_true (h text rfl).nonempty)

/-- A share that may be named is read again. -/
theorem namedShare_eq {name : String} {value : Option (List Char)} (hvalue : params.get name = value)
    (h : ∀ text ∈ value, Nameable platform text) : namedShare platform params name = value := by
  rw [namedShare, hvalue]
  cases value with
  | none => rfl
  | some text =>
    obtain ⟨hnonempty, hunreserved, hunslashed⟩ := h text rfl
    exact if_pos (by simp [hnonempty, hunreserved, hunslashed])

theorem scope_of_text (scope : SearchScope) :
    (if scope.text = "all".toList then SearchScope.all
      else if scope.text = "folder".toList then .folder else .share) = scope := by
  cases scope <;> rfl

/-- The values of a search under their names. -/
theorem get_searchParams {query : List Char} (hquery : route.searchQuery = some query)
    (hnormal : NormalSearch platform route) :
    (searchParams route).get "search" = some query ∧
      (searchParams route).get "scope" = some (route.searchScope.getD .share).text ∧
      (searchParams route).get "offset" = route.searchOffset.map (Nat.toDigits 10) ∧
      (searchParams route).get "searchShare" = route.searchShareId ∧
      (searchParams route).get "previewShare" = route.previewShareId := by
  have hoffset : route.searchOffset.filter (· ≠ 0) = route.searchOffset := by
    cases hoffset : route.searchOffset with
    | none => rfl
    | some offset => exact if_pos (decide_eq_true (by have := (hnormal.offset offset hoffset).1; omega))
  have hshare : (if route.searchScope = some .share then route.searchShareId.filter (· ≠ []) else none) =
      route.searchShareId := by
    rw [filter_ne_nil (fun other hother => (hnormal.searchShare other hother).2.2)]
    split_ifs with hscope
    · rfl
    · cases hother : route.searchShareId with
      | none => rfl
      | some other => exact absurd (hnormal.searchShare other hother).1 hscope
  rw [searchParams, hquery]
  dsimp only
  rw [hoffset, hshare, filter_ne_nil hnormal.previewShare]
  simp

theorem get_searchParams_of_ne {name : String}
    (h : name ∉ ["search", "scope", "offset", "searchShare", "previewShare"]) :
    (searchParams route).get name = none := by
  simp only [List.mem_cons, List.not_mem_nil, or_false, not_or] at h
  obtain ⟨hsearch, hscope, hoffset, hsearchShare, hpreviewShare⟩ := h
  unfold searchParams
  cases route.searchQuery with
  | none => rfl
  | some query =>
    dsimp only
    rw [Params.get_setSome, if_neg hpreviewShare, Params.get_setSome, if_neg hsearchShare,
      Params.get_setSome, if_neg hoffset, Params.get_set, if_neg hscope, Params.get_set, if_neg hsearch]
    rfl

/-- The fields of a search in normal form are read again. -/
theorem withSearch_searchParams (hnormal : NormalSearch platform route) (hshare : route.shareId = some share)
    (hparams : ∀ name, name ≠ "preview" → name ≠ "view" → params.get name = (searchParams route).get name) :
    withSearch platform params { shareId := share, path := text } =
      { shareId := share, path := text, searchQuery := route.searchQuery, searchScope := route.searchScope,
        searchOffset := route.searchOffset, previewShareId := route.previewShareId,
        searchShareId := route.searchShareId } := by
  rw [withSearch, hparams "search" (by decide) (by decide), hparams "scope" (by decide) (by decide),
    hparams "offset" (by decide) (by decide)]
  cases hquery : route.searchQuery with
  | none =>
    obtain ⟨hoffset, hsearchShare, hpreviewShare⟩ := hnormal.unsearched hquery
    rw [hoffset, hsearchShare, hpreviewShare, hnormal.scope_eq_none hquery, searchParams, hquery]
    rfl
  | some query =>
    obtain ⟨hsearch, hscope, hoffset, hsearchShare, hpreviewShare⟩ := get_searchParams hquery hnormal
    obtain ⟨scope, hsome⟩ : ∃ scope, route.searchScope = some scope := by
      rw [← Option.isSome_iff_exists, hnormal.paired, hquery]
      rfl
    rw [hsome, Option.getD_some] at hscope
    have hread : (route.searchOffset.map (Nat.toDigits 10)).bind (readPositive 10000) =
        route.searchOffset := by
      cases hoffset : route.searchOffset with
      | none => rfl
      | some offset =>
        obtain ⟨hpos, hle⟩ := hnormal.offset offset hoffset
        exact readPositive_toDigits hpos hle (by norm_num)
    have hother : (if scope = SearchScope.share then
        route.searchShareId.filter (fun other => some other != some share) else none) =
          route.searchShareId := by
      cases hother : route.searchShareId with
      | none => rw [Option.filter_none, ite_self]
      | some other =>
        obtain ⟨hscoped, hne, -⟩ := hnormal.searchShare other hother
        rw [hsome] at hscoped
        rw [hshare] at hne
        rw [if_pos (Option.some.inj hscoped)]
        exact if_pos (bne_iff_ne.mpr (Ne.symm hne))
    rw [hsearch, hscope, hoffset]
    dsimp only
    rw [scope_of_text, sliceUnits_eq_self (hnormal.query query hquery), hread,
      namedShare_eq ((hparams "searchShare" (by decide) (by decide)).trans hsearchShare)
        fun other hother => (hnormal.searchShare other hother).2.2,
      namedShare_eq ((hparams "previewShare" (by decide) (by decide)).trans hpreviewShare)
        hnormal.previewShare, hother, hsome]

end Crabinet.Web
