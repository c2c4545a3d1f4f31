import Crabinet.Browse.ArchiveWalkRuns

/-!
# Walks of folders that change

Whatever a walk meets, what it lists is within its limits, and each entry comes after the directories
that it lies in. A selection lists every selected name.
-/

namespace Crabinet.Browse

open Crabinet.Filesystem Crabinet.Library

namespace ArchiveTree

variable {tables : UnicodeTables} {limits : ArchiveLimits} {path : List EntryName} {depth spare more : ℕ}
  {walk next after : ArchiveWalk} {found others : List Found} {name : EntryName} {child : Child}

/-- Beneath a path of a folder at a depth, each entry comes after the directories that it lies in. -/
def Nested (tables : UnicodeTables) (path : List EntryName) (depth : ℕ) (found : List Found) : Prop :=
  ∀ first item last, found = first ++ item :: last → ∃ rest name, item.1 = path ++ rest ++ [name] ∧
    (∀ other ∈ rest ++ [name], EntryName.accepts tables other.value = true) ∧
    depth + (rest ++ [name]).length ≤ maxPathDepth ∧
    (rest = [] ∨ ∃ parent ∈ first, parent.1 = path ++ rest ∧ parent.2.kind = .directory)

theorem nested_nil : Nested tables path depth [] := by
  intro first item last h
  simp at h

theorem Nested.append (h : Nested tables path depth found) (h' : Nested tables path depth others) :
    Nested tables path depth (found ++ others) := by
  intro first item last heq
  rcases List.append_eq_append_iff.mp heq with ⟨middle, rfl, hothers⟩ | ⟨middle, rfl, hlast⟩
  · obtain ⟨rest, name, hpath, haccepts, hdepth, hparent⟩ := h' middle item last hothers
    refine ⟨rest, name, hpath, haccepts, hdepth, hparent.imp id ?_⟩
    rintro ⟨parent, hparent, hrest⟩
    exact ⟨parent, List.mem_append_right _ hparent, hrest⟩
  · cases middle with
    | nil =>
      rw [List.nil_append] at hlast
      obtain ⟨rest, name, hpath, haccepts, hdepth, hparent⟩ := h' [] item last hlast.symm
      refine ⟨rest, name, hpath, haccepts, hdepth, hparent.imp id ?_⟩
      rintro ⟨parent, hparent, -⟩
      cases hparent
    | cons other middle =>
      obtain ⟨rfl, hmiddle⟩ := List.cons.inj hlast
      exact h first item middle rfl

/-- An entry and what is found in it. -/
theorem Nested.cons {entry : DirectoryEntry} (haccepts : EntryName.accepts tables entry.name.value = true)
    (hdepth : depth < maxPathDepth) (hkind : found ≠ [] → entry.kind = .directory)
    (h : Nested tables (path ++ [entry.name]) (depth + 1) found) :
    Nested tables path depth ((path ++ [entry.name], entry) :: found) := by
  intro first item last heq
  cases first with
  | nil =>
    obtain ⟨rfl, -⟩ := List.cons.inj heq
    exact ⟨[], entry.name, by simp, by simpa using haccepts, by simp; omega, .inl rfl⟩
  | cons other first =>
    obtain ⟨rfl, hfound⟩ := List.cons.inj heq
    obtain ⟨rest, name, hpath, hall, hlength, hparent⟩ := h first item last hfound
    refine ⟨entry.name :: rest, name, by simpa using hpath, ?_, ?_, .inr ?_⟩
    · rw [List.cons_append]
      exact List.forall_mem_cons.mpr ⟨haccepts, hall⟩
    · rw [List.cons_append, List.length_cons]
      omega
    · rcases hparent with rfl | ⟨parent, hparent, hpath', hkind'⟩
      · refine ⟨_, List.mem_cons_self, rfl, hkind ?_⟩
        rw [hfound]
        simp
      · exact ⟨parent, List.mem_cons_of_mem _ hparent, by simpa using hpath', hkind'⟩

/-- A walk went on: what it found, and how many of the entries found had been scanned before. -/
structure Went (tables : UnicodeTables) (limits : ArchiveLimits) (path : List EntryName) (depth spare : ℕ)
    (walk after : ArchiveWalk) (found : List Found) : Prop where
  items_eq : after.items = walk.items ++ found.map itemOf
  scanned_le : walk.scanned + found.length ≤ after.scanned + spare
  bytes_eq : after.bytes = min (walk.bytes + totalBytes found) u64Max
  nameBytes_le : min (walk.nameBytes + totalNameBytes found) u64Max ≤ after.nameBytes
  within : Within limits after
  nested : Nested tables path depth found

theorem Went.refl (h : Within limits walk) : Went tables limits path depth 0 walk walk [] where
  items_eq := (List.append_nil _).symm
  scanned_le := le_rfl
  bytes_eq := (min_eq_left h.bytes_le_max).symm
  nameBytes_le := min_le_left _ _
  within := h
  nested := nested_nil

theorem Went.trans (h : Went tables limits path depth spare walk next found)
    (h' : Went tables limits path depth more next after others) :
    Went tables limits path depth (spare + more) walk after (found ++ others) where
  items_eq := by rw [h'.items_eq, h.items_eq, List.append_assoc, List.map_append]
  scanned_le := by
    have hfirst := h.scanned_le
    have hsecond := h'.scanned_le
    rw [List.length_append]
    omega
  bytes_eq := by
    rw [h'.bytes_eq, h.bytes_eq, totalBytes_append]
    omega
  nameBytes_le := by
    have hfirst := h.nameBytes_le
    have hsecond := h'.nameBytes_le
    rw [totalNameBytes_append]
    omega
  within := h'.within
  nested := h.nested.append h'.nested

/-- A visit that succeeds went on. -/
def VisitSound (tables : UnicodeTables) (limits : ArchiveLimits)
    (visit : String → ℕ → ArchiveWalk → FsResult ArchiveWalk) : Prop :=
  ∀ path depth walk after, Within limits walk → (∀ name ∈ path, name.value ≠ "") →
    visit (textOf path) depth walk = .ok after → ∃ found, Went tables limits path depth 0 walk after found

/-- A child with a canonical name and a sound visit. -/
structure ChildSound (tables : UnicodeTables) (limits : ArchiveLimits) (child : Child) : Prop where
  accepts : EntryName.accepts tables child.entry.name.value = true
  visit : VisitSound tables limits child.visit

/-- What adding a child lists: the child first, unless it vanished. -/
theorem add_went {skipVanished : Bool} (hwithin : Within limits walk) (hpath : ∀ name ∈ path, name.value ≠ "")
    (hdepth : depth < maxPathDepth) (hchild : ChildSound tables limits child)
    (h : walk.add limits (textOf path) depth skipVanished child = .ok after) :
    ∃ found, Went tables limits path depth 1 walk after found ∧ (skipVanished = false →
      ∃ inner, found = (path ++ [child.entry.name], child.entry) :: inner ∧
        Nested tables (path ++ [child.entry.name]) (depth + 1) inner) := by
  obtain ⟨hscanned, hbytes, hnames, hbytesMax, hnamesMax⟩ := hwithin
  have hname : child.entry.name.value ≠ "" := (separable_accepts tables).nonempty _ hchild.accepts
  unfold ArchiveWalk.add at h
  rw [childPath_eq hpath] at h
  obtain ⟨hlength, h⟩ := ite_error_eq_ok.mp h
  rw [Nat.not_lt, utf8ByteSize_textOf] at hlength
  dsimp only at h
  rw [utf8ByteSize_textOf] at h
  cases hkind : child.entry.kind with
  | file =>
    rw [hkind] at h
    obtain ⟨hsize, h⟩ := ite_error_eq_ok.mp h
    obtain rfl := Except.ok.inj h
    refine ⟨[(path ++ [child.entry.name], child.entry)], ?_, fun _ => ⟨[], rfl, nested_nil⟩⟩
    refine ⟨?_, by simp, ?_, ?_, ⟨hscanned, Nat.le_of_not_lt hsize, hlength, min_le_right _ _, min_le_right _ _⟩,
      .cons hchild.accepts hdepth nofun nested_nil⟩
    · simp [itemOf, hkind, textOf]
    · simp [totalBytes, hkind]
    · simp [totalNameBytes]
  | directory =>
    rw [hkind] at h
    dsimp only at h
    cases hopening : child.opening with
    | failed error =>
      rw [hopening] at h
      cases h
    | vanished =>
      rw [hopening] at h
      dsimp only at h
      split at h
      · obtain rfl := Except.ok.inj h
        refine ⟨[], ?_, fun hskip => absurd ‹_› (Bool.eq_false_iff.mp hskip)⟩
        refine ⟨(List.append_nil _).symm, by simp, ?_, ?_, ⟨hscanned, hbytes, hlength, hbytesMax,
          min_le_right _ _⟩, nested_nil⟩
        · simpa [totalBytes] using hbytesMax
        · simp only [totalNameBytes, List.map_nil, List.sum_nil]
          omega
      · cases h
    | opened =>
      rw [hopening] at h
      dsimp only at h
      have hnext : Within limits { walk with
          nameBytes := min (walk.nameBytes + pathBytes ⟨path ++ [child.entry.name]⟩) u64Max
          items := walk.items ++ [⟨textOf (path ++ [child.entry.name]), .directory, child.entry.size,
            child.entry.modified⟩] } :=
        ⟨hscanned, hbytes, hlength, hbytesMax, min_le_right _ _⟩
      obtain ⟨inner, hinner⟩ := hchild.visit _ _ _ _ hnext (forall_append_singleton hpath hname) h
      refine ⟨(path ++ [child.entry.name], child.entry) :: inner, ?_, fun _ => ⟨inner, rfl, hinner.nested⟩⟩
      have hscans := hinner.scanned_le
      have hnames' := hinner.nameBytes_le
      dsimp only at hscans hnames'
      refine ⟨?_, by simp only [List.length_cons]; omega, ?_, ?_, hinner.within,
        .cons hchild.accepts hdepth (fun _ => hkind) hinner.nested⟩
      · rw [hinner.items_eq]
        simp [itemOf, hkind, textOf]
      · rw [hinner.bytes_eq]
        simp [totalBytes, hkind]
      · simp only [totalNameBytes, List.map_cons, List.sum_cons] at hnames' ⊢
        omega

/-- What adding children lists. -/
theorem foldlM_add_went {children : List Child} (hwithin : Within limits walk)
    (hpath : ∀ name ∈ path, name.value ≠ "") (hdepth : children ≠ [] → depth < maxPathDepth)
    (hchildren : ∀ child ∈ children, ChildSound tables limits child)
    (h : children.foldlM (ArchiveWalk.add limits (textOf path) depth true) walk = .ok after) :
    ∃ found, Went tables limits path depth children.length walk after found := by
  induction children generalizing walk with
  | nil =>
    obtain rfl := Except.ok.inj h
    exact ⟨[], .refl hwithin⟩
  | cons child rest ih =>
    rw [List.foldlM_cons] at h
    obtain ⟨next, hnext, h⟩ := bind_eq_ok.mp h
    obtain ⟨hchild, hrest⟩ := List.forall_mem_cons.mp hchildren
    have hroom := hdepth (List.cons_ne_nil _ _)
    obtain ⟨found, hfound, -⟩ := add_went hwithin hpath hroom hchild hnext
    obtain ⟨others, hothers⟩ := ih hfound.within (fun _ => hroom) hrest h
    refine ⟨found ++ others, ?_⟩
    rw [List.length_cons, Nat.add_comm]
    exact hfound.trans hothers

/-- The scan of a directory collects no more children than entries, which are sound. -/
def ScanSound (tables : UnicodeTables) (limits : ArchiveLimits)
    (children : ArchiveWalk → FsResult (ArchiveWalk × List Child)) : Prop :=
  ∀ walk after found, Within limits walk → children walk = .ok (after, found) →
    (∃ scanned, after = { walk with scanned } ∧ walk.scanned + found.length ≤ scanned ∧
      scanned ≤ limits.maxEntries) ∧ ∀ child ∈ found, ChildSound tables limits child

/-- The visit to a directory whose scan is sound. -/
theorem visit_sound {children : ArchiveWalk → FsResult (ArchiveWalk × List Child)}
    (h : ScanSound tables limits children) :
    VisitSound tables limits fun before depth walk => walk.visit limits children before depth := by
  intro path depth walk after hwithin hpath hvisit
  unfold ArchiveWalk.visit at hvisit
  obtain ⟨⟨next, collected⟩, hcollected, hvisit⟩ := bind_eq_ok.mp hvisit
  obtain ⟨⟨scanned, rfl, hscanned, hle⟩, hsound⟩ := h _ _ _ hwithin hcollected
  obtain ⟨hdeep, hvisit⟩ := ite_error_eq_ok.mp hvisit
  have hnext : Within limits { walk with scanned } := { hwithin with scanned_le := hle }
  have hroom : collected.insertionSort (fun left right => nameOrder left.entry right.entry) ≠ [] →
      depth < maxPathDepth := by
    intro hsome
    by_contra hdepth
    refine hdeep ⟨?_, Nat.le_of_not_lt hdepth⟩
    rw [Bool.not_eq_true', Bool.eq_false_iff, Ne, List.isEmpty_iff]
    rintro rfl
    exact hsome rfl
  obtain ⟨found, hfound⟩ := foldlM_add_went hnext hpath hroom
    (fun child hchild => hsound child ((List.mem_insertionSort _).mp hchild)) hvisit
  have hlength := hfound.scanned_le
  rw [List.length_insertionSort] at hlength
  dsimp only at hlength hscanned
  exact ⟨found, hfound.items_eq, by omega, hfound.bytes_eq, hfound.nameBytes_le, hfound.within, hfound.nested⟩

/-- The scan of whatever a walk meets is sound. -/
theorem scan_sound (scan : Scan) : ScanSound tables limits (scan.children tables limits) := by
  induction scan with
  | done =>
    intro walk after found hwithin h
    obtain ⟨rfl, rfl⟩ := Prod.mk.inj (Except.ok.inj h)
    exact ⟨⟨walk.scanned, rfl, le_rfl, hwithin.scanned_le⟩, nofun⟩
  | fault error =>
    intro walk after found hwithin h
    obtain ⟨next, -, h⟩ := bind_eq_ok.mp h
    cases h
  | entry raw opening inside rest ihInside ih =>
    intro walk after found hwithin h
    rw [Scan.children] at h
    obtain ⟨next, hnext, h⟩ := bind_eq_ok.mp h
    obtain ⟨hroom, rfl⟩ := scan_eq_ok.mp hnext
    obtain ⟨supported, hsupported, h⟩ := bind_eq_ok.mp h
    obtain ⟨⟨last, others⟩, hothers, h⟩ := bind_eq_ok.mp h
    have hnext' : Within limits { walk with scanned := walk.scanned + 1 } := { hwithin with scanned_le := hroom }
    obtain ⟨⟨scanned, rfl, hscanned, hle⟩, hsound⟩ := ih _ _ _ hnext' hothers
    dsimp only at hscanned
    cases supported with
    | none =>
      obtain ⟨rfl, rfl⟩ := Prod.mk.inj (Except.ok.inj h)
      exact ⟨⟨scanned, rfl, by omega, hle⟩, hsound⟩
    | some entry =>
      obtain ⟨rfl, rfl⟩ := Prod.mk.inj (Except.ok.inj h)
      refine ⟨⟨scanned, rfl, by rw [List.length_cons]; omega, hle⟩, List.forall_mem_cons.mpr ⟨?_, hsound⟩⟩
      exact ⟨(name_of_listed (listed_of_supportedEntry hsupported)).2, visit_sound ihInside⟩

theorem within_new : Within limits .new :=
  ⟨Nat.zero_le _, Nat.zero_le _, Nat.zero_le _, Nat.zero_le _, Nat.zero_le _⟩

/-- What is listed is within the limits, and each entry comes after the directories that it lies in. -/
structure Safe (tables : UnicodeTables) (limits : ArchiveLimits) (depth : ℕ) (listed : List Found) : Prop where
  length_le : listed.length ≤ limits.maxEntries
  bytes_le : min (totalBytes listed) u64Max ≤ limits.maxBytes
  nameBytes_le : min (totalNameBytes listed) u64Max ≤ limits.maxNameBytes
  nested : Nested tables [] depth listed

/-- What a walk found from its beginning. -/
theorem Went.safe (h : Went tables limits [] depth 0 .new after found) :
    after.items = found.map itemOf ∧ Safe tables limits depth found := by
  obtain ⟨hitems, hscanned, hbytes, hnames, hwithin, hnested⟩ := h
  simp only [ArchiveWalk.new, List.nil_append, Nat.zero_add, Nat.add_zero] at hitems hscanned hbytes hnames
  exact ⟨hitems, hscanned.trans hwithin.scanned_le, hbytes ▸ hwithin.bytes_le, hnames.trans hwithin.nameBytes_le,
    hnested⟩

/-- Whatever a folder walk meets, a list that it returns is safe. -/
theorem archive_items_safe {scan : Scan} {items : List ArchiveItem}
    (h : archiveItems tables limits scan depth = .ok items) :
    ∃ listed, items = listed.map itemOf ∧ Safe tables limits depth listed := by
  obtain ⟨walk, hwalk, h⟩ := bind_eq_ok.mp h
  obtain rfl := Except.ok.inj h
  obtain ⟨listed, hlisted⟩ := visit_sound (scan_sound scan) [] depth .new walk within_new nofun hwalk
  exact ⟨listed, hlisted.safe⟩

/-- A folder of a directory that vanishes and a file. -/
def vanishing : Scan :=
  .entry ⟨some "d", .ok (.directory ⟨0, none, 3, 2⟩ .empty)⟩ .vanished .done
    (.entry ⟨some "f", .ok (.leaf .file ⟨5, none, 7, 1⟩)⟩ (.failed .notFound) .done .done)

theorem archive_items_safe_vanishing :
    ∃ listed, [⟨"f", .file, 5, none⟩] = listed.map itemOf ∧ Safe BrowseState.asciiTables ⟨2, 5, 9⟩ 63 listed := by
  have hitems : archiveItems BrowseState.asciiTables ⟨2, 5, 9⟩ vanishing 63 = .ok [⟨"f", .file, 5, none⟩] := by
    rfl
  exact archive_items_safe hitems

/-! ### Selections -/

variable {selected : EntryName → Selected} {names : List EntryName}

/-- The paths of one name. -/
def topLevel (found : List Found) : List (List EntryName) :=
  (found.filter fun found => found.1.length = 1).map Prod.fst

theorem topLevel_append (found others : List Found) :
    topLevel (found ++ others) = topLevel found ++ topLevel others := by
  simp [topLevel]

/-- What lies in an entry is not at the top level. -/
theorem Nested.topLevel_cons {entry : DirectoryEntry} {inner : List Found}
    (h : Nested tables [entry.name] depth inner) : topLevel (([entry.name], entry) :: inner) = [[entry.name]] := by
  have hinner : inner.filter (fun found => found.1.length = 1) = [] := by
    refine List.filter_eq_nil_iff.mpr fun found hfound => ?_
    obtain ⟨first, last, rfl⟩ := List.append_of_mem hfound
    obtain ⟨rest, name, hpath, -⟩ := h first found last rfl
    simp [hpath]
  simp [topLevel, hinner]

/-- One selected name is listed first, and then what lies in it. -/
theorem select_went (hwithin : Within limits walk) (hdepth : depth < maxPathDepth)
    (haccepts : EntryName.accepts tables name.value = true)
    (h : walk.select tables limits depth selected name = .ok after) :
    ∃ found, Went tables limits [] depth 0 walk after found ∧ topLevel found = [[name]] := by
  obtain ⟨next, hnext, h⟩ := bind_eq_ok.mp h
  obtain ⟨hroom, rfl⟩ := scan_eq_ok.mp hnext
  obtain ⟨metadata, -, h⟩ := bind_eq_ok.mp h
  have hwithin' : Within limits { walk with scanned := walk.scanned + 1 } := { hwithin with scanned_le := hroom }
  have hempty : "" = textOf [] := by decide
  have hroot : ∀ name ∈ ([] : List EntryName), name.value ≠ "" := nofun
  have hchild : ∀ entry : DirectoryEntry, entry.name = name → ChildSound tables limits
      ⟨entry, (selected name).opening, fun before depth walk =>
        (selected name).inside.visit tables limits before depth walk⟩ := by
    rintro entry rfl
    exact ⟨haccepts, visit_sound (scan_sound _)⟩
  rw [hempty] at h
  obtain ⟨found, hfound, hfirst⟩ := add_went hwithin' hroot hdepth (hchild _ rfl) h
  obtain ⟨inner, rfl, hinner⟩ := hfirst rfl
  have hscanned := hfound.scanned_le
  dsimp only [List.length_cons] at hscanned
  exact ⟨_, ⟨hfound.items_eq, by dsimp only [List.length_cons]; omega, hfound.bytes_eq, hfound.nameBytes_le, hfound.within, hfound.nested⟩,
    hinner.topLevel_cons⟩

theorem foldlM_select_went (hwithin : Within limits walk) (hdepth : depth < maxPathDepth)
    (haccepts : ∀ name ∈ names, EntryName.accepts tables name.value = true)
    (h : names.foldlM (ArchiveWalk.select tables limits depth selected) walk = .ok after) :
    ∃ found, Went tables limits [] depth 0 walk after found ∧ topLevel found = names.map ([·]) := by
  induction names generalizing walk with
  | nil =>
    obtain rfl := Except.ok.inj h
    exact ⟨[], .refl hwithin, rfl⟩
  | cons name rest ih =>
    rw [List.foldlM_cons] at h
    obtain ⟨next, hnext, h⟩ := bind_eq_ok.mp h
    obtain ⟨hname, hrest⟩ := List.forall_mem_cons.mp haccepts
    obtain ⟨found, hfound, htop⟩ := select_went hwithin hdepth hname hnext
    obtain ⟨others, hothers, htop'⟩ := ih hfound.within hrest h
    exact ⟨found ++ others, hfound.trans hothers, by rw [topLevel_append, htop, htop']; rfl⟩

theorem pairwise_nameLe (names : List EntryName) : (names.insertionSort nameLe).Pairwise nameLe := by
  have htotal : Std.Total nameLe := ⟨fun _ _ => String.le_total _ _⟩
  have htrans : IsTrans EntryName nameLe := ⟨fun _ _ _ h h' => String.le_trans h h'⟩
  exact List.pairwise_insertionSort _ _

/-- Sorted names without equal neighbours are different. -/
theorem nodup_of_adjacentEqual (hsorted : names.Pairwise nameLe) (h : adjacentEqual names = false) :
    names.Nodup := by
  fun_induction adjacentEqual names with
  | case1 first second rest ih =>
    obtain ⟨hne, hrest⟩ := Bool.or_eq_false_iff.mp h
    obtain ⟨hfirst, hsorted⟩ := List.pairwise_cons.mp hsorted
    refine List.nodup_cons.mpr ⟨fun hmem => ?_, ih hsorted hrest⟩
    have hle : nameLe second first := by
      rcases List.mem_cons.mp hmem with rfl | hmem
      · exact String.le_refl _
      · exact (List.pairwise_cons.mp hsorted).1 first hmem
    have heq := String.le_antisymm (hfirst second List.mem_cons_self) hle
    exact beq_eq_false_iff_ne.mp hne (congrArg EntryName.mk heq)
  | case2 names hshort =>
    rcases names with _ | ⟨first, _ | ⟨second, rest⟩⟩
    · exact List.nodup_nil
    · exact List.nodup_singleton _
    · exact absurd rfl (hshort first second rest)

/-- Whatever the walk of a selection meets, a list that it returns is safe, and at its top level are
exactly the selected names, in their order and each once. -/
theorem archive_selection_safe {items : List ArchiveItem} (hdepth : depth < maxPathDepth)
    (haccepts : ∀ name ∈ names, EntryName.accepts tables name.value = true)
    (h : archiveSelection tables limits depth selected names = .ok items) :
    names ≠ [] ∧ names.Nodup ∧ ∃ listed, items = listed.map itemOf ∧ Safe tables limits depth listed ∧
      topLevel listed = (names.insertionSort nameLe).map ([·]) := by
  obtain ⟨hnames, h⟩ := ite_error_eq_ok.mp h
  obtain ⟨walk, hwalk, h⟩ := bind_eq_ok.mp h
  obtain rfl := Except.ok.inj h
  have hperm := List.perm_insertionSort nameLe names
  obtain ⟨hempty, hadjacent⟩ := Bool.or_eq_false_iff.mp (Bool.eq_false_iff.mpr hnames)
  obtain ⟨listed, hlisted, htop⟩ := foldlM_select_went within_new hdepth
    (fun name hname => haccepts name (hperm.mem_iff.mp hname)) hwalk
  refine ⟨?_, hperm.nodup_iff.mp (nodup_of_adjacentEqual (pairwise_nameLe names) hadjacent), listed, hlisted.safe.1,
    hlisted.safe.2, htop⟩
  rintro rfl
  cases hempty

theorem archive_selection_safe_vanishing : ∃ listed,
    [⟨"d", .directory, 0, none⟩, ⟨"d/f", .file, 5, none⟩, ⟨"f", .file, 0, none⟩] = listed.map itemOf ∧
      Safe BrowseState.asciiTables ⟨5, 5, 9⟩ 62 listed ∧ topLevel listed = [[⟨"d"⟩], [⟨"f"⟩]] := by
  have hitems : archiveSelection BrowseState.asciiTables ⟨5, 5, 9⟩ 62
      (fun name => if name.value = "d" then ⟨.ok ⟨.directory, 0, none, 3⟩, .opened, vanishing⟩
        else ⟨.ok ⟨.file, 0, none, 8⟩, .failed .notFound, .done⟩) [⟨"f"⟩, ⟨"d"⟩] =
      .ok [⟨"d", .directory, 0, none⟩, ⟨"d/f", .file, 5, none⟩, ⟨"f", .file, 0, none⟩] := by
    rfl
  obtain ⟨-, -, listed, hlisted, hsafe, htop⟩ :=
    archive_selection_safe (by decide) (by decide) hitems
  exact ⟨listed, hlisted, hsafe, htop⟩

end ArchiveTree

end Crabinet.Browse
