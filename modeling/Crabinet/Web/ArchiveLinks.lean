import Crabinet.Browse.ArchiveRequest
import Crabinet.Web.VirtualPath

/-!
# Links to archives

The client links to an archive by the paths that it holds; the server reads them back.
-/

namespace Crabinet.Web

open Crabinet.Browse Crabinet.Filesystem Crabinet.Library Crabinet.Library.UriComponents

/-- The path of `archiveUrl`. -/
def archiveBase (shareId : List Char) : List Char :=
  "/api/v1/shares/".toList ++ encodeURIComponent shareId ++ "/archive".toList

/-- `archiveUrl`, with nothing where it throws. -/
def archiveUrl (tables : UnicodeTables) (shareId : List Char) (paths : List (List Char)) : Option (List Char) :=
  if paths = [[]] then some (archiveBase shareId)
  else if paths = [] ∨ !paths.all (isValidVirtualPath tables) then none
  else some (archiveBase shareId ++ '?' :: Params.serialize (paths.map fun path => ("path".toList, path)))

/-- The query of a URL. -/
def rawQuery (url : List Char) : Option (List Char) := (splitOnce '?' url).map Prod.snd

/-- The paths that the client links to for a request. -/
def linkPaths : ArchiveRequest → List (List Char)
  | .root => [[]]
  | request => request.paths

variable {tables : UnicodeTables} {shareId url : List Char} {paths : List (List Char)} {request : ArchiveRequest}

theorem notMem_archiveBase : '?' ∉ archiveBase shareId := by
  have hcomponent : '?' ∉ encodeURIComponent shareId := by
    intro h
    have hkeep : keepInComponent '?' = false := rfl
    have hne : '?' ≠ '%' := by decide
    have hor := of_mem_encodeURIComponent h
    rw [hkeep] at hor
    exact hor.elim Bool.false_ne_true hne
  unfold archiveBase
  simp [hcomponent]

theorem rawQuery_archiveBase : rawQuery (archiveBase shareId) = none := by
  rw [rawQuery, Option.map_eq_none_iff, Option.eq_none_iff_forall_ne_some]
  rintro ⟨before, after⟩ hsplit
  refine @notMem_archiveBase shareId ?_
  rw [(splitOnce_eq_some.mp hsplit).1]
  exact List.mem_append_right _ List.mem_cons_self

theorem archivePaths_serialize (paths : List (List Char)) :
    archivePaths (Params.serialize (paths.map fun path => ("path".toList, path))) = paths := by
  rw [archivePaths, Params.parse_serialize, List.filter_map, List.map_map]
  simp [Function.comp_def]

/-- Every path of a valid request is a path of the client. -/
theorem isValidVirtualPath_of_mem_paths {text : List Char} (hvalid : request.Valid tables)
    (h : text ∈ request.paths) : isValidVirtualPath tables text = true := by
  have hparsable : ∀ {path : VirtualPath}, Parsable tables path → isValidVirtualPath tables (pathText path) = true :=
    fun hpath => isValidVirtualPath_of_parsePath (parsePath_iff.mpr ⟨hpath, rfl⟩)
  cases request with
  | root => cases h
  | single path =>
    rw [List.mem_singleton.mp h]
    exact hparsable hvalid
  | selection parent names =>
    obtain ⟨name, hname, rfl⟩ := List.mem_map.mp h
    exact hparsable (hvalid.2.2.2 name hname)

theorem linkPaths_eq (request : ArchiveRequest) : request = .root ∧ linkPaths request = [[]] ∨
    request ≠ .root ∧ linkPaths request = request.paths := by
  cases request with
  | root => exact .inl ⟨rfl, rfl⟩
  | single path => exact .inr ⟨nofun, rfl⟩
  | selection parent names => exact .inr ⟨nofun, rfl⟩

/-- Every valid request has a link, and the server reads a link as the request of its paths: it accepts the
link if and only if its paths are those of a valid request and its query is not too long. -/
theorem archive_link :
    (request.Valid tables → ∃ url, archiveUrl tables shareId (linkPaths request) = some url) ∧
      (archiveUrl tables shareId paths = some url →
        (parseArchiveQuery tables (rawQuery url) = .ok request ↔
          (((rawQuery url).getD []).map Char.utf8Size).sum ≤ maxArchiveQueryBytes ∧ request.Valid tables ∧
            paths = linkPaths request)) := by
  constructor
  · intro hvalid
    unfold archiveUrl
    rcases linkPaths_eq request with ⟨rfl, hlink⟩ | ⟨hroot, hlink⟩
    · rw [if_pos hlink]
      exact ⟨_, rfl⟩
    · have hne : linkPaths request ≠ [[]] := by
        rw [hlink]
        intro heq
        exact paths_ne_of_valid hvalid (heq ▸ List.mem_singleton_self _)
      rw [if_neg hne, if_neg]
      · exact ⟨_, rfl⟩
      · rintro (hnil | hall)
        · exact hroot (eq_root_of_paths hvalid (hlink ▸ hnil))
        · rw [Bool.not_eq_true', Bool.eq_false_iff, Ne, List.all_eq_true] at hall
          exact hall fun text htext => isValidVirtualPath_of_mem_paths hvalid (hlink ▸ htext)
  · intro hurl
    rw [parse_archive_query]
    refine and_congr_right fun _ => and_congr_right fun hvalid => ?_
    unfold archiveUrl at hurl
    split at hurl
    · rename_i hpaths
      obtain rfl := Option.some.inj hurl
      have hroot : [[]] = linkPaths request ↔ request = .root := by
        constructor
        · intro hlink
          refine (linkPaths_eq request).elim And.left fun h => ?_
          exact absurd (h.2 ▸ hlink ▸ List.mem_singleton_self _) (paths_ne_of_valid hvalid)
        · rintro rfl
          rfl
      rw [rawQuery_archiveBase, hpaths, hroot]
      have hnone : archivePaths ((none : Option (List Char)).getD []) = [] := rfl
      rw [hnone]
      constructor
      · rintro (hnil | ⟨-, hempty⟩)
        · exact eq_root_of_paths hvalid hnil.symm
        · cases hempty
      · rintro rfl
        exact .inl rfl
    · split at hurl
      · cases hurl
      · rename_i hne hchecked
        obtain rfl := Option.some.inj hurl
        have hquery : rawQuery (archiveBase shareId ++
            '?' :: Params.serialize (paths.map fun path => ("path".toList, path))) =
            some (Params.serialize (paths.map fun path => ("path".toList, path))) := by
          rw [rawQuery, splitOnce_append notMem_archiveBase]
          rfl
        rw [hquery, Option.getD_some, archivePaths_serialize]
        rcases linkPaths_eq request with ⟨rfl, hlink⟩ | ⟨-, hlink⟩
        · rw [hlink]
          refine ⟨fun h => h.elim (fun hnil => absurd (.inl hnil) hchecked) And.right, fun h => absurd h hne⟩
        · rw [hlink]
          exact ⟨fun h => h.elim id fun h => absurd h.2 hne, .inl⟩

theorem archive_link_two : archiveUrl BrowseState.asciiTables "docs".toList ["a/b".toList, "a/c".toList] =
      some "/api/v1/shares/docs/archive?path=a%2Fb&path=a%2Fc".toList ∧
    parseArchiveQuery BrowseState.asciiTables (some "path=a%2Fb&path=a%2Fc".toList) =
      .ok (.selection ⟨[⟨"a"⟩]⟩ [⟨"b"⟩, ⟨"c"⟩]) := by
  have hurl : archiveUrl BrowseState.asciiTables "docs".toList ["a/b".toList, "a/c".toList] =
      some "/api/v1/shares/docs/archive?path=a%2Fb&path=a%2Fc".toList := by decide +kernel
  have hquery : rawQuery "/api/v1/shares/docs/archive?path=a%2Fb&path=a%2Fc".toList =
      some "path=a%2Fb&path=a%2Fc".toList := by decide +kernel
  have hparsable : ∀ name ∈ [EntryName.mk "b", ⟨"c"⟩],
      Parsable BrowseState.asciiTables (VirtualPath.join ⟨[⟨"a"⟩]⟩ name) := by
    refine List.forall_mem_cons.mpr ⟨?_, List.forall_mem_cons.mpr ⟨?_, nofun⟩⟩
    · exact (parsePath_iff.mp (by decide +kernel : parsePath _ "a/b".toList = .ok ⟨[⟨"a"⟩, ⟨"b"⟩]⟩)).1
    · exact (parsePath_iff.mp (by decide +kernel : parsePath _ "a/c".toList = .ok ⟨[⟨"a"⟩, ⟨"c"⟩]⟩)).1
  have hvalid : (ArchiveRequest.selection ⟨[⟨"a"⟩]⟩ [⟨"b"⟩, ⟨"c"⟩]).Valid BrowseState.asciiTables :=
    ⟨by decide, by decide, by decide, hparsable⟩
  obtain ⟨-, hlink⟩ := @archive_link BrowseState.asciiTables "docs".toList _ _ _
  refine ⟨hurl, hquery ▸ (hlink hurl).mpr ⟨?_, hvalid, by decide +kernel⟩⟩
  rw [hquery]
  decide +kernel

end Crabinet.Web
