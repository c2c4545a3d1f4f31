import Crabinet.Startup.Components
import Crabinet.Web.NavigationRuns

/-!
# Routes that their locations lead back to

A route is in normal form where its location can say all of it. What is kept of such a route is
stated once, and is what is read of its location; the folder of a configured share is a case.
-/

namespace Crabinet.Web

open Crabinet.Filesystem Crabinet.Library Crabinet.Library.PercentEncoding Crabinet.Library.UriComponents
open Crabinet.Oidc (WebUrl resolve queryTail)

variable {platform : Platform} {route : BrowserRoute} {share text : List Char}

/-! ### Routes in normal form -/

/-- A route of a view or of a folder alone. -/
structure BrowserRoute.Bare (route : BrowserRoute) : Prop where
  previewPath : route.previewPath = none
  searchQuery : route.searchQuery = none
  previewMode : route.previewMode ≠ some .full

/-- What a location can say of a route. -/
structure NormalRoute (platform : Platform) (route : BrowserRoute) : Prop extends
    NormalSearch platform route where
  path : isValidVirtualPath platform.toUnicodeTables route.path = true
  share : ∀ share ∈ route.shareId, Addressable platform share
  shareless : route.shareId = none → route.path = [] ∧ route.view ≠ some .rendered ∧ route.Bare
  trash : route.view = some .trash → route.shareId = none
  rendered : route.view = some .rendered → route.path ≠ [] ∧ route.Bare
  preview : ∀ preview ∈ route.previewPath,
    preview ≠ [] ∧ isValidVirtualPath platform.toUnicodeTables preview = true

/-- A preview inside its own folder, outside a search. -/
def inlinePreview (platform : Platform) (route : BrowserRoute) : Option (List Char) :=
  route.previewPath.filter fun preview =>
    route.searchQuery.isNone && parentPath platform.toUnicodeTables preview == route.path

/-- A route as its location keeps it. -/
def keptRoute (platform : Platform) (route : BrowserRoute) : BrowserRoute :=
  let previewMode := route.previewMode.filter (· == .full)
  match inlinePreview platform route with
  | some preview => { shareId := route.shareId, path := preview, previewMode, unresolved := true }
  | none => { route with
      previewMode
      unresolved := route.view.isNone && route.path ≠ [] && route.previewPath.isNone &&
        route.searchQuery.isNone }

/-- The parameters of a share's location. -/
def locationParams (platform : Platform) (route : BrowserRoute) : Params :=
  let params := Params.setSome (searchParams route) "preview"
    (if (inlinePreview platform route).isSome then none else route.previewPath)
  Params.setSome params "view" (if route.previewMode = some .full then some "full".toList else none)

theorem filter_preview (hnormal : NormalRoute platform route) :
    (route.previewPath.filter fun preview =>
      preview ≠ [] && isValidVirtualPath platform.toUnicodeTables preview) = route.previewPath := by
  cases hpreview : route.previewPath with
  | none => rfl
  | some preview =>
    obtain ⟨hne, hvalid⟩ := hnormal.preview preview hpreview
    exact if_pos (by simp [hne, hvalid])

/-- The location of a route with a share and without a view. -/
theorem browserUrl_share (hnormal : NormalRoute platform route) (hshare : route.shareId = some share)
    (hview : route.view = none) :
    browserUrl platform route = '/' :: encodeURIComponent share ++
      pathSuffix ((inlinePreview platform route).getD route.path) ++
        queryTail (queryOf (locationParams platform route)) := by
  have hne : share ≠ [] := (hnormal.share share hshare).nonempty
  have htail (params : Params) :
      queryTail (queryOf params) = if params = [] then [] else '?' :: params.serialize := by
    unfold queryOf
    split_ifs <;> rfl
  obtain ⟨first, rest, rfl⟩ := List.exists_cons_of_ne_nil hne
  rw [htail, browserUrl, hview, if_neg (by decide), hshare]
  dsimp only
  rw [if_pos hnormal.path, filter_preview hnormal]
  rfl

/-- The values of a share's location under their names. -/
theorem get_locationParams (name : String) : (locationParams platform route).get name =
    if name = "view" then if route.previewMode = some .full then some "full".toList else none
    else if name = "preview" then if (inlinePreview platform route).isSome then none else route.previewPath
    else (searchParams route).get name := by
  rw [locationParams, Params.get_setSome, Params.get_setSome]
  by_cases hview : name = "view"
  · rw [if_pos hview, if_pos hview, hview, if_neg (by decide : "view" ≠ "preview"),
      get_searchParams_of_ne (by decide), Option.or_none]
  · rw [if_neg hview, if_neg hview]
    by_cases hpreview : name = "preview"
    · rw [if_pos hpreview, if_pos hpreview, hpreview, get_searchParams_of_ne (by decide), Option.or_none]
    · rw [if_neg hpreview, if_neg hpreview]

/-- The route that is read of a share's location. -/
theorem locatedRoute_share (hnormal : NormalRoute platform route) (hshare : route.shareId = some share)
    (hview : route.view = none) :
    locatedRoute platform share ((inlinePreview platform route).getD route.path)
      (locationParams platform route) = keptRoute platform route := by
  have hmode : (locationParams platform route).get "view" ≠ some "rendered".toList := by
    rw [get_locationParams, if_pos rfl]
    split_ifs <;> decide
  have hparams : ∀ name, name ≠ "preview" → name ≠ "view" →
      (locationParams platform route).get name = (searchParams route).get name := by
    intro name hpreview hview
    rw [get_locationParams, if_neg hview, if_neg hpreview]
  have hfull : (if (locationParams platform route).get "view" = some "full".toList then
      some PreviewMode.full else none) = route.previewMode.filter (· == .full) := by
    rw [get_locationParams, if_pos rfl]
    rcases route.previewMode with _ | _ | _ <;> rfl
  have hvalid : route.previewPath.filter (isValidVirtualPath platform.toUnicodeTables) =
      route.previewPath := by
    cases hpreview : route.previewPath with
    | none => rfl
    | some preview => exact if_pos (hnormal.preview preview hpreview).2
  rw [locatedRoute, if_neg hmode, withSearch_searchParams hnormal.toNormalSearch hshare hparams, hfull,
    get_locationParams, if_neg (by decide), if_pos rfl]
  dsimp only
  cases hinline : inlinePreview platform route with
  | none =>
    rw [if_neg (by decide), hvalid, keptRoute, hinline]
    simp [hshare, hview]
  | some preview =>
    obtain ⟨hpreview, hinside⟩ := Option.filter_eq_some_iff.mp hinline
    have hquery : route.searchQuery = none := Option.isNone_iff_eq_none.mp (Bool.and_eq_true_iff.mp hinside).1
    obtain ⟨hoffset, hsearchShare, hpreviewShare⟩ := hnormal.unsearched hquery
    have hscope := hnormal.scope_eq_none hquery
    rw [if_pos Option.isSome_some, keptRoute, hinline]
    simp [hshare, hquery, hscope, hoffset, hsearchShare, hpreviewShare, (hnormal.preview preview hpreview).1]

/-- The location of a rendered document. -/
theorem browserUrl_rendered (hnormal : NormalRoute platform route) (hshare : route.shareId = some share)
    (hview : route.view = some .rendered) :
    browserUrl platform route = '/' :: encodeURIComponent share ++ pathSuffix route.path ++
      queryTail (queryOf (Params.set [] "view" "rendered".toList)) := by
  obtain ⟨hpath, hbare⟩ := hnormal.rendered hview
  have hne : share ≠ [] := (hnormal.share share hshare).nonempty
  have hsearch : searchParams route = [] := by
    rw [searchParams, hbare.searchQuery]
  obtain ⟨first, rest, rfl⟩ := List.exists_cons_of_ne_nil hne
  rw [browserUrl, hview, if_neg (by decide), hshare]
  dsimp only
  rw [if_pos hnormal.path, if_pos ⟨rfl, hpath⟩, hsearch]
  rfl

/-- What the location of a bare route keeps. -/
theorem keptRoute_bare (hnormal : NormalSearch platform route) (hbare : route.Bare) :
    keptRoute platform route =
      { shareId := route.shareId, path := route.path, view := route.view,
        unresolved := route.view.isNone && route.path ≠ [] } := by
  obtain ⟨hpreview, hquery, hmode⟩ := hbare
  obtain ⟨hoffset, hsearchShare, hpreviewShare⟩ := hnormal.unsearched hquery
  have hscope := hnormal.scope_eq_none hquery
  have hfilter : route.previewMode.filter (· == .full) = none := by
    cases hsome : route.previewMode with
    | none => rfl
    | some mode => exact if_neg fun hfull => hmode (hsome.trans (congrArg some (beq_iff_eq.mp hfull)))
  have hinline : inlinePreview platform route = none := by
    rw [inlinePreview, hpreview]
    rfl
  rw [keptRoute, hinline]
  simp [hfilter, hpreview, hquery, hoffset, hsearchShare, hpreviewShare, hscope]

/-- The location of a route in normal form leads to what it keeps of the route. -/
theorem routeFromUrl_browserUrl (hnormal : NormalRoute platform route) (base : WebUrl) :
    ∃ url, resolve base (browserUrl platform route) = .sameOrigin url ∧
      routeFromUrl platform url = keptRoute platform route := by
  cases hshare : route.shareId with
  | none =>
    obtain ⟨hpath, hrendered, hbare⟩ := hnormal.shareless hshare
    rw [keptRoute_bare hnormal.toNormalSearch hbare, hshare, hpath, browserUrl, hshare]
    by_cases htrash : route.view = some .trash
    · rw [if_pos htrash, htrash]
      exact ⟨⟨["trash".toList], none, none⟩, rfl, rfl⟩
    · have hview : route.view = none := by
        rcases hview : route.view with _ | _ | _
        · rfl
        · exact absurd hview htrash
        · exact absurd hview hrendered
      rw [if_neg htrash, hview]
      exact ⟨⟨[[]], none, none⟩, rfl, rfl⟩
  | some share =>
    have haddressable := hnormal.share share hshare
    have htrash : route.view ≠ some .trash := by
      intro htrash
      cases hshare.symm.trans (hnormal.trash htrash)
    by_cases hrendered : route.view = some .rendered
    · obtain ⟨hpath, hbare⟩ := hnormal.rendered hrendered
      rw [browserUrl_rendered hnormal hshare hrendered, keptRoute_bare hnormal.toNormalSearch hbare, hshare,
        hrendered]
      have hparams : (Params.set [] "view" "rendered".toList).get "path" = none := rfl
      obtain ⟨url, hresolve, hroute⟩ := routeFromUrl_location haddressable hnormal.path hparams base
      refine ⟨url, hresolve, hroute.trans ?_⟩
      exact (if_pos rfl).trans (if_pos hpath)
    · have hview : route.view = none := by
        rcases hview : route.view with _ | _ | _
        · rfl
        · exact absurd hview htrash
        · exact absurd hview hrendered
      have hvalid : isValidVirtualPath platform.toUnicodeTables
          ((inlinePreview platform route).getD route.path) = true := by
        cases hinline : inlinePreview platform route with
        | none => exact hnormal.path
        | some preview => exact (hnormal.preview preview (Option.filter_eq_some_iff.mp hinline).1).2
      have hparams : (locationParams platform route).get "path" = none := by
        rw [get_locationParams, if_neg (by decide), if_neg (by decide), get_searchParams_of_ne (by decide)]
      rw [browserUrl_share hnormal hshare hview, ← locatedRoute_share hnormal hshare hview]
      exact routeFromUrl_location haddressable hvalid hparams base

/-! ### Configured shares -/

/-- A share that the configuration accepts has a location of its own. -/
theorem addressable_of_named {configured : Startup.Share} (h : configured.Named) :
    Addressable platform configured.id.toList := by
  obtain ⟨hid, hunreserved, -, -⟩ := h
  simp only [isShareId, Bool.and_eq_true, bne_iff_ne] at hid
  obtain ⟨⟨⟨⟨-, hhead⟩, hall⟩, hsingle⟩, hdouble⟩ := hid
  obtain ⟨first, hfirst, halphanumeric⟩ := (Option.any_eq_true _ _).mp hhead
  have hkept : ∀ c ∈ configured.id.toList, keepInComponent c = true := by
    intro c hc
    have hallowed := List.all_eq_true.mp hall c hc
    simp only [Bool.or_eq_true, beq_iff_eq] at hallowed
    rcases hallowed with ((halphanumeric | rfl) | rfl) | rfl
    · exact Bool.or_eq_true_iff.mpr (.inl halphanumeric)
    · rfl
    · rfl
    · rfl
  have hascii : ∀ c ∈ configured.id.toList, c.toNat < 0x80 := fun c hc => toNat_lt_of_keep (.inl (hkept c hc))
  refine ⟨?_, ⟨fun heq => hsingle (String.toList_inj.mp heq),
    fun heq => hdouble (String.toList_inj.mp heq)⟩, ?_⟩
  · intro hnil
    rw [hnil] at hfirst
    cases hfirst
  · rw [encodeURIComponent, encode_eq_self hkept, isReservedShareId, platform.toLowerCase_ascii _ hascii,
      Bool.or_eq_false_iff]
    constructor
    · refine List.any_eq_false.mpr fun reserved hreserved heq => ?_
      exact hunreserved reserved hreserved (beq_iff_eq.mp heq).symm
    · rw [hfirst]
      refine beq_eq_false_iff_ne.mpr fun heq => ?_
      rw [Option.some.inj heq] at halphanumeric
      exact absurd halphanumeric (by decide)

/-- The route of a folder is in normal form. -/
theorem normal_directory (hshare : Addressable platform share)
    (hpath : isValidVirtualPath platform.toUnicodeTables text = true) :
    NormalRoute platform { shareId := some share, path := text } where
  paired := rfl
  unsearched _ := ⟨rfl, rfl, rfl⟩
  query _ h := by cases h
  offset _ h := by cases h
  searchShare _ h := by cases h
  previewShare _ h := by cases h
  path := hpath
  share other h := by
    obtain rfl := Option.mem_some.mp h
    exact hshare
  shareless h := by cases h
  trash h := by cases h
  rendered h := by cases h
  preview _ h := by cases h

/-- What the server accepts as a path is a path in the client; the location of a configured share and of
such a path, or of its root, leads back to both; and the location of a route in normal form leads to
what it keeps of the route. -/
theorem locations_agree (platform : Platform) :
    (∀ text parsed, parsePath (EntryName.accepts platform.toUnicodeTables) text = .ok parsed →
      isValidVirtualPath platform.toUnicodeTables text = true) ∧
    (∀ around raw config, Startup.validate around raw = .ok config → ∀ share ∈ config.shares, ∀ text,
      (text = [] ∨ ∃ parsed, parsePath (EntryName.accepts platform.toUnicodeTables) text = .ok parsed) →
        ∀ base, ∃ url, resolve base (directoryUrl platform (some share.id.toList) text) = .sameOrigin url ∧
          routeFromUrl platform url =
            { shareId := some share.id.toList, path := text, unresolved := text ≠ [] }) ∧
    ∀ route, NormalRoute platform route → ∀ base, ∃ url,
      resolve base (browserUrl platform route) = .sameOrigin url ∧
        routeFromUrl platform url = keptRoute platform route := by
  refine ⟨fun text parsed h => isValidVirtualPath_of_parsePath h, ?_,
    fun route hnormal base => routeFromUrl_browserUrl hnormal base⟩
  intro around raw config hvalid share hshare text htext base
  have hpath : isValidVirtualPath platform.toUnicodeTables text = true := by
    rcases htext with rfl | ⟨parsed, hparsed⟩
    · rfl
    · exact isValidVirtualPath_of_parsePath hparsed
  have haddressable : Addressable platform share.id.toList :=
    addressable_of_named ((Startup.validate_spec hvalid).2.1 share hshare)
  obtain ⟨url, hresolve, hroute⟩ := routeFromUrl_browserUrl (normal_directory haddressable hpath) base
  refine ⟨url, hresolve, hroute.trans ?_⟩
  simp [keptRoute, inlinePreview]

/-- A browser, for texts in ASCII. -/
def asciiPlatform : Platform where
  isNfc _ := true
  toUppercase value := String.ofList (value.toList.map Char.toUpper)
  toLowerCase text := text.map Char.toLower
  toLowerCase_ascii _ _ := rfl

/-- A search of another share, with a preview from a third one. -/
def searchingRoute : BrowserRoute where
  shareId := some "documents".toList
  path := "a?b/c#d".toList
  previewPath := some "x&y/view=full".toList
  previewMode := some .full
  searchQuery := some "100% a+b".toList
  searchScope := some .share
  searchOffset := some 50
  previewShareId := some "music".toList
  searchShareId := some "photos".toList

theorem searchingRoute_normal : NormalRoute asciiPlatform searchingRoute where
  paired := rfl
  unsearched h := by cases h
  query query h := by
    obtain rfl := Option.mem_some.mp h
    decide +kernel
  offset offset h := by
    obtain rfl := Option.mem_some.mp h
    decide
  searchShare share h := by
    obtain rfl := Option.mem_some.mp h
    exact ⟨rfl, by decide, by decide, by decide +kernel, by decide⟩
  previewShare share h := by
    obtain rfl := Option.mem_some.mp h
    exact ⟨by decide, by decide +kernel, by decide⟩
  path := by decide +kernel
  share share h := by
    obtain rfl := Option.mem_some.mp h
    exact ⟨by decide, by decide, by decide +kernel⟩
  shareless h := by cases h
  trash h := by cases h
  rendered h := by cases h
  preview preview h := by
    obtain rfl := Option.mem_some.mp h
    exact ⟨by decide, by decide +kernel⟩

theorem locations_agree_search :
    isValidVirtualPath asciiPlatform.toUnicodeTables "a?b/c#d".toList = true ∧
      (∃ config, Startup.validate Startup.plainSurroundings (Startup.oneShare "Documents") = .ok config ∧
        ∃ share ∈ config.shares, ∃ url,
          resolve ⟨[], none, none⟩ (directoryUrl asciiPlatform (some share.id.toList) "a?b/c#d".toList) =
            .sameOrigin url ∧
          routeFromUrl asciiPlatform url =
            { shareId := some share.id.toList, path := "a?b/c#d".toList, unresolved := true }) ∧
      ∃ url, resolve ⟨[], none, none⟩ (browserUrl asciiPlatform searchingRoute) = .sameOrigin url ∧
        routeFromUrl asciiPlatform url = keptRoute asciiPlatform searchingRoute := by
  obtain ⟨hpaths, hshares, hroutes⟩ := locations_agree asciiPlatform
  have hparsed : parsePath (EntryName.accepts asciiPlatform.toUnicodeTables) "a?b/c#d".toList =
      .ok ⟨[⟨"a?b"⟩, ⟨"c#d"⟩]⟩ := by decide +kernel
  have haccepted : (Startup.validate Startup.plainSurroundings
      (Startup.oneShare "Documents")).toOption.isSome = true := by decide +kernel
  obtain ⟨config, hconfig⟩ := Option.isSome_iff_exists.mp haccepted
  have hvalid := toOption_eq_some.mp hconfig
  have hname : "Documents" ∈ config.shares.map (·.name) := by
    rw [(Startup.validate_spec hvalid).2.2]
    exact List.mem_singleton_self _
  obtain ⟨share, hshare, -⟩ := List.mem_map.mp hname
  exact ⟨hpaths _ _ hparsed, ⟨config, hvalid, share, hshare,
    hshares _ _ _ hvalid share hshare _ (.inr ⟨_, hparsed⟩) _⟩, hroutes _ searchingRoute_normal _⟩

end Crabinet.Web
