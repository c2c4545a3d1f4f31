import Crabinet.Search.Candidates

/-!
# What a search may show

Whatever the index holds, a result is an entry of an allowed share that exists beneath the scope. The
range and the patterns of the statement are about the text of a row; the check reads that text as a
path again, and the text of a path determines its names. Rows of other shares are not selected, so
they are not even noticed.
-/

namespace Crabinet.Search

open Crabinet.Filesystem Crabinet.Library Crabinet.Tokens

variable {path other : VirtualPath} {text term : List Char} {filter : Filter} {row : Columns}

/-! ### Hidden names -/

theorem shown_iff : shown text = true ↔ ¬['.'] <+: text ∧ ¬['/', '.'] <:+: text := by
  have hfirst : glob ".*" text = true ↔ ['.'] <+: text := @wildcardMatch_after _ _ ['.'] text
  have hlater : glob "*/.*" text = true ↔ ['/', '.'] <:+: text := @wildcardMatch_around _ _ ['/', '.'] text
  rw [shown, Bool.and_eq_true, Bool.not_eq_true', Bool.not_eq_true', ← Bool.not_eq_true, hfirst,
    ← Bool.not_eq_true, hlater]

/-- A name of a path starts its text or follows a separator. -/
theorem name_within_pathText {name : EntryName} (hname : name ∈ path.components) :
    name.value.toList <+: pathText path ∨ '/' :: name.value.toList <:+: pathText path := by
  obtain ⟨components⟩ := path
  unfold pathText
  induction components with
  | nil => cases hname
  | cons first rest ih =>
    cases rest with
    | nil =>
      obtain rfl := List.mem_singleton.mp hname
      exact .inl (by simp)
    | cons next rest =>
      rw [List.map_cons, List.map_cons, List.intercalate_cons_cons]
      rcases List.mem_cons.mp hname with rfl | hname
      · rw [List.append_assoc]
        exact .inl (List.prefix_append _ _)
      · right
        rcases ih hname with hprefix | hinfix
        · obtain ⟨after, hafter⟩ := hprefix
          rw [List.map_cons] at hafter
          exact ⟨first.value.toList, after, by simp [← hafter]⟩
        · rw [List.map_cons] at hinfix
          exact hinfix.trans (List.suffix_append _ _).isInfix

/-- No name of a shown path begins with a dot. -/
theorem head?_ne_dot (hshown : shown (pathText path) = true) {name : EntryName}
    (hname : name ∈ path.components) : name.value.toList.head? ≠ some '.' := by
  intro hhead
  obtain ⟨rest, hrest⟩ := List.head?_eq_some_iff.mp hhead
  obtain ⟨hfirst, hlater⟩ := shown_iff.mp hshown
  rcases name_within_pathText hname with hprefix | hinfix
  · exact hfirst (.trans ⟨rest, hrest.symm⟩ hprefix)
  · exact hlater (.trans ⟨[], rest, by rw [hrest]; rfl⟩ hinfix)

/-! ### The scope -/

theorem textUtf8_append (first second : List Char) :
    textUtf8 (first ++ second) = textUtf8 first ++ textUtf8 second := by
  rw [textUtf8, String.ofList_append, utf8_append]
  rfl

/-- A path in the scope's range lies strictly beneath the scope, whatever prefix the texts share. -/
theorem isUnder_of_inScope {canonical : String → Bool} (hcanonical : Separable canonical)
    (hpath : path.Canonical canonical) (hother : other.Canonical canonical) (hroot : other ≠ .root)
    (h : inScope path (pathText other) = true) : other.isUnder path = true := by
  rw [inScope, Bool.or_eq_true, List.isEmpty_iff, Bool.and_eq_true, decide_eq_true_iff,
    decide_eq_true_iff] at h
  by_cases hscope : path = .root
  · subst hscope
    exact VirtualPath.isUnder_iff.mpr ⟨VirtualPath.startsWith_root _, hroot⟩
  · rcases h with hnil | ⟨hlow, hhigh⟩
    · exact absurd hnil (pathText_ne_nil hcanonical hpath hscope)
    · have hslash : textUtf8 ['/'] = [slash] := by decide
      have hzero : textUtf8 ['0'] = [48] := by decide
      rw [textUtf8_append, hslash] at hlow
      rw [textUtf8_append, hzero] at hhigh
      have hrange : InTextRange path other := ⟨hlow, hhigh⟩
      have hunder := (inTextRange_iff hcanonical hpath hother).mp hrange
      exact ((Bool.and_eq_true _ _).mp hunder).2

/-! ### What is selected -/

theorem found_iff {tables : Tables} {fold : Char → Char} {id : ℤ} {expression : List Char} :
    tables.found fold id expression = true ↔
      ∃ text, (id, text) ∈ tables.names ∧ phraseMatch fold expression text = true := by
  simp [Tables.found, and_comm]

theorem mem_select {tables : Tables} {fold : Char → Char} : row ∈ tables.select fold filter ↔
    ∃ entry ∈ tables.entries, filter.keeps entry.toColumns (tables.found fold entry.id) = true ∧
      entry.toColumns = row := by
  simp [Tables.select, and_assoc]

/-- A selected row is of an allowed share, in the scope's range, and shown unless hidden entries are
asked for. -/
theorem of_keeps {found : List Char → Bool} (h : filter.keeps row found = true) :
    row.share ∈ filter.allowed ∧ inScope filter.path row.path = true ∧
      (filter.hidden = false → shown row.path = true) := by
  simp only [Filter.keeps, Bool.and_eq_true, List.contains_iff_mem, Bool.or_eq_true] at h
  obtain ⟨⟨⟨⟨⟨⟨⟨hshare, hscope⟩, hhidden⟩, -⟩, -⟩, -⟩, -⟩, -⟩ := h
  exact ⟨hshare, hscope, fun hfalse => hhidden.resolve_left (by simp [hfalse])⟩

/-- A quoted term is read as the term, whatever quotes it has. -/
theorem readPhrase_quotePhrase (term : List Char) : readPhrase (quotePhrase term) = some term := by
  suffices hrest : readQuoted (term.flatMap (fun c => if c = '"' then ['"', '"'] else [c]) ++ ['"']) =
      some term from hrest
  induction term with
  | nil => rfl
  | cons c rest ih =>
    by_cases hquote : c = '"'
    · simp [hquote, readQuoted, ih]
    · simp [hquote, readQuoted, ih]

/-- A row is found by a term exactly when a text under its number has the term in it, but for case. -/
theorem found_quotePhrase_iff {tables : Tables} {fold : Char → Char} {id : ℤ} :
    tables.found fold id (quotePhrase term) = true ↔
      ∃ text, (id, text) ∈ tables.names ∧ term.map fold <:+: text.map fold := by
  simp [found_iff, phraseMatch, readPhrase_quotePhrase]

/-! ### What is validated -/

/-- What the caller may see of an entry: it is in an allowed share, strictly beneath the scope by its
own names, none of which is hidden unless hidden entries are asked for; it is there now, as what it is
called, and its size and time pass the filters. -/
def Confined (tables : SearchTables) (allowed : KeyedMap String LiveView) (path : VirtualPath)
    (query : SearchQuery) (hidden : Bool) (entry : SearchEntry) : Prop :=
  ∃ view live metadata, allowed.get? entry.shareId = some view ∧
    parsePath (EntryName.accepts tables.unicode) entry.path = .ok live ∧
    live.isUnder path = true ∧
    (hidden = false → ∀ name ∈ live.components, name.value.toList.head? ≠ some '.') ∧
    view live = .ok metadata ∧
    (entry.kind = "directory".toList ↔ metadata.kind = .directory) ∧
    (∀ condition ∈ query.sizes, metadata.kind = .file ∧
      compare metadata.size condition.1 condition.2 = true) ∧
    ∀ condition ∈ query.dates, ∃ seconds, unixSeconds metadata.modified = some seconds ∧
      compare seconds condition.1 condition.2 = true

variable {tables : SearchTables} {allowed : KeyedMap String LiveView} {query : SearchQuery}
  {hidden : Bool} {entry : SearchEntry}

/-- What a validated row says is true of the live share. -/
theorem validate_eq_some (h : validate tables allowed query row = some entry) :
    entry.shareId = row.share ∧ entry.path = row.path ∧
    ∃ view live metadata, allowed.get? row.share = some view ∧
      parsePath (EntryName.accepts tables.unicode) row.path = .ok live ∧ view live = .ok metadata ∧
      (entry.kind = "directory".toList ↔ metadata.kind = .directory) ∧
      (∀ condition ∈ query.sizes, metadata.kind = .file ∧
        compare metadata.size condition.1 condition.2 = true) ∧
      ∀ condition ∈ query.dates, ∃ seconds, unixSeconds metadata.modified = some seconds ∧
        compare seconds condition.1 condition.2 = true := by
  unfold validate at h
  split at h
  · cases h
  · rename_i live hlive
    split at h
    · cases h
    · rename_i view hview
      split at h
      · cases h
      · rename_i metadata hmetadata
        obtain ⟨hkind, h⟩ := Option.ite_none_left_eq_some.mp h
        obtain ⟨hfilters, h⟩ := Option.ite_none_right_eq_some.mp h
        obtain rfl := Option.some.inj h
        rw [Bool.and_eq_true, List.all_eq_true, List.all_eq_true] at hfilters
        refine ⟨rfl, rfl, view, live, metadata, hview, hlive, hmetadata, ?_, ?_, ?_⟩
        · have hsame : (metadata.kind == .directory) = (row.kind == "directory".toList) := by
            simpa using hkind
          rw [← beq_iff_eq, ← hsame, beq_iff_eq]
        · intro condition hcondition
          have hsize := hfilters.1 condition hcondition
          rw [Option.any_eq_true] at hsize
          obtain ⟨size, hsome, hcompare⟩ := hsize
          obtain ⟨hsome, -⟩ := Option.filter_eq_some_iff.mp hsome
          obtain ⟨hfile, hsome⟩ := Option.ite_none_right_eq_some.mp hsome
          obtain rfl := Option.some.inj hsome
          exact ⟨hfile, hcompare⟩
        · intro condition hcondition
          have htime := hfilters.2 condition hcondition
          rwa [Option.any_eq_true] at htime

/-- A selected row that is validated is confined. -/
theorem confined_of_select {index : Tables}
    (hpath : path.Canonical (EntryName.accepts tables.unicode))
    (hselect : row ∈ index.select tables.fold ⟨allowed.keys, path, query, hidden⟩)
    (hvalidate : validate tables allowed query row = some entry) :
    Confined tables allowed path query hidden entry := by
  obtain ⟨stored, -, hkeeps, rfl⟩ := mem_select.mp hselect
  obtain ⟨-, hscope, hhidden⟩ := of_keeps hkeeps
  obtain ⟨hshare, htext, view, live, metadata, hview, hlive, hmetadata, hkind, hsizes, hdates⟩ :=
    validate_eq_some hvalidate
  -- The check reads the very text that the statement selected.
  obtain ⟨hsame, hcanonical, hroot, -⟩ := parsePath_eq_ok hlive
  rw [← hsame] at hscope hhidden
  refine ⟨view, live, metadata, hshare ▸ hview, htext ▸ hlive, ?_, ?_, hmetadata, hkind, hsizes,
    hdates⟩
  · exact isUnder_of_inScope (separable_accepts _) hpath hcanonical hroot hscope
  · exact fun hfalse name hname => head?_ne_dot (hhidden hfalse) hname

/-! ### What other shares cannot change -/

/-- The tables have a row, with these texts under its number in `names`. -/
def Tables.Shows (index : Tables) (row : Columns) (texts : Set (List Char)) : Prop :=
  ∃ entry ∈ index.entries, entry.toColumns = row ∧
    ∀ text, text ∈ texts ↔ (entry.id, text) ∈ index.names

/-- Two indexes have the same rows of some shares, whatever their numbers are. -/
def Agree (shares : List String) (first second : Tables) : Prop :=
  ∀ row texts, row.share ∈ shares → (first.Shows row texts ↔ second.Shows row texts)

variable {first second : Tables} {fold : Char → Char}

/-- In the order of an injective key, a selection depends only on what is selected. -/
theorem insertionSort_eq_of_mem_iff {α β : Type} [LinearOrder β] {key : α → β} {list other : List α}
    (hinj : ∀ a ∈ list, ∀ b ∈ list, key a = key b → a = b) (hlist : list.Nodup) (hother : other.Nodup)
    (hmem : ∀ a, a ∈ list ↔ a ∈ other) :
    list.insertionSort (fun a b => key a ≤ key b) = other.insertionSort fun a b => key a ≤ key b := by
  have hperm : (list.insertionSort fun a b => key a ≤ key b).Perm
      (other.insertionSort fun a b => key a ≤ key b) :=
    ((List.perm_insertionSort _ list).trans ((List.perm_ext_iff_of_nodup hlist hother).mpr hmem)).trans
      (List.perm_insertionSort _ other).symm
  have htotal : Std.Total fun a b => key a ≤ key b := ⟨fun a b => le_total (key a) (key b)⟩
  have htrans : IsTrans α fun a b => key a ≤ key b := ⟨fun _ _ _ => le_trans⟩
  refine hperm.eq_of_pairwise (fun a b ha hb hab hba => ?_) (List.pairwise_insertionSort _ list)
    (List.pairwise_insertionSort _ other)
  rw [List.mem_insertionSort] at ha hb
  exact hinj a ha b ((hmem b).mpr hb) (le_antisymm hab hba)

/-- The key of the order has a row's share and path in it. -/
theorem orderKey_inj {needle : List Char} {row other : Columns}
    (h : orderKey needle row = orderKey needle other) : row.share = other.share ∧ row.path = other.path := by
  have hbytes {text text' : List Char}
      (h : (textUtf8 text).map UInt8.toNat = (textUtf8 text').map UInt8.toNat) : text = text' := by
    have hutf8 := List.map_injective_iff.mpr (fun _ _ => UInt8.toNat_inj.mp) h
    exact String.ofList_inj.mp (utf8_inj.mp hutf8)
  simp only [orderKey, EmbeddingLike.apply_eq_iff_eq, Prod.mk.injEq] at h
  obtain ⟨-, -, hshare, hpath⟩ := h
  exact ⟨String.toList_inj.mp (hbytes hshare), hbytes hpath⟩

/-- What the filter leaves of one index is in another that agrees. -/
theorem keeps_of_agree (hagree : Agree filter.allowed first second)
    (h : ∃ entry ∈ first.entries, filter.keeps entry.toColumns (first.found fold entry.id) = true ∧
      entry.toColumns = row) :
    ∃ entry ∈ second.entries, filter.keeps entry.toColumns (second.found fold entry.id) = true ∧
      entry.toColumns = row := by
  obtain ⟨entry, hentry, hkeeps, hrow⟩ := h
  have hshare : row.share ∈ filter.allowed := hrow ▸ (of_keeps hkeeps).1
  obtain ⟨other, hother, hrow', htexts⟩ :=
    (hagree row { text | (entry.id, text) ∈ first.names } hshare).mp
      ⟨entry, hentry, hrow, fun _ => Iff.rfl⟩
  have hfound : first.found fold entry.id = second.found fold other.id := by
    funext expression
    rw [Bool.eq_iff_iff, found_iff, found_iff]
    exact exists_congr fun text => and_congr_left' (htexts text)
  exact ⟨other, hother, by rw [hrow', ← hrow, ← hfound, hkeeps], hrow'⟩

theorem nodup_columns (index : Tables) (keep : EntryRow → Bool) :
    ((index.entries.filter keep).map EntryRow.toColumns).Nodup := by
  have hkept : ((index.entries.filter keep).map fun row => (row.share, row.path)).Nodup :=
    index.unique.sublist (List.filter_sublist.map _)
  exact List.Nodup.of_map (fun row : Columns => (row.share, row.path)) (by rwa [List.map_map])

/-- The statement selects the same rows of indexes that agree, in the same order. -/
theorem select_eq_of_agree (hagree : Agree filter.allowed first second) :
    first.select fold filter = second.select fold filter := by
  refine insertionSort_eq_of_mem_iff ?_ (nodup_columns first _) (nodup_columns second _) fun row => ?_
  · intro row hrow other hother hkey
    obtain ⟨entry, hentry, rfl⟩ := List.mem_map.mp hrow
    obtain ⟨entry', hentry', rfl⟩ := List.mem_map.mp hother
    have hpair := orderKey_inj hkey
    have hsame := List.inj_on_of_nodup_map first.unique (List.mem_of_mem_filter hentry)
      (List.mem_of_mem_filter hentry') (Prod.ext hpair.1 hpair.2)
    rw [hsame]
  · simp only [List.mem_map, List.mem_filter, and_assoc]
    have hagree' : Agree filter.allowed second first := fun row texts h => (hagree row texts h).symm
    exact ⟨keeps_of_agree hagree, keeps_of_agree hagree'⟩

/-! ### The search -/

/-- An index with rows beside the scope, hidden ones, one that is not a path, one of another share and
a stale kind. -/
def docsIndex : Tables where
  entries :=
    [("docs", "a/b", "file"), ("docs", "ab/c", "file"), ("docs", "a/.x/y", "file"),
      ("docs", "a//b", "file"), ("other", "a/b", "file"), ("docs", "a/z", "directory"),
      ("docs", "a", "directory")].mapIdx fun id (share, path, kind) =>
        ⟨⟨share, path.toList, [], path.toList, kind.toList, [], [], none, none⟩, id⟩
  names := []
  numbered := by decide
  unique := by decide

/-- A share in which everything is a file. -/
def docsShare : KeyedMap String LiveView :=
  ⟨[("docs", fun _ => .ok ⟨.file, 3, none, 1⟩)], by decide⟩

/-- An idle service. -/
def idleService : SearchService := ⟨fun _ => ⟨false, true, false, false⟩, none⟩

/-- Tables that change nothing. -/
def plainTables : SearchTables := ⟨⟨fun _ => true, id⟩, id, fun _ => none⟩

end Crabinet.Search
