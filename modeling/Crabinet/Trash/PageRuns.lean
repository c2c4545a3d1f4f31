import Crabinet.Library.Selection
import Crabinet.Trash.ListPage
import Mathlib.Data.String.Basic

/-!
# Following the pages of a Trash listing

A page is compared with the listing as a whole: the published items in listing order. The
buffer of a scan is cut from time to time; what it keeps are always the first of the items
seen so far.
-/

namespace Crabinet.Trash

open Crabinet.Filesystem Crabinet.Library

instance : Std.Total itemOrder where
  total left right := by
    rcases lt_trichotomy left.deletedAt right.deletedAt with hlt | heq | hgt
    · exact .inr (.inl hlt)
    · rcases le_total left.entry.id.text right.entry.id.text with hle | hle
      · exact .inl (.inr ⟨heq.symm, hle⟩)
      · exact .inr (.inr ⟨heq, hle⟩)
    · exact .inl (.inl hgt)

instance : IsTrans ListedItem itemOrder where
  trans first second third := by
    rintro (hlt | ⟨heq, hle⟩) (hlt' | ⟨heq', hle'⟩)
    · exact .inl (hlt'.trans hlt)
    · exact .inl (heq' ▸ hlt)
    · exact .inl (heq ▸ hlt')
    · exact .inr ⟨heq'.trans heq, hle.trans hle'⟩

/-- Coming after an item's position is coming after the item in the listing order. -/
theorem isAfter_position {item other : ListedItem} :
    isAfter item other.position = true ↔ ¬itemOrder item other := by
  rw [isAfter, Bool.or_eq_true, Bool.and_eq_true, beq_iff_eq]
  constructor
  · rintro (hlt | ⟨heq, hlt⟩)
    · have hlt : item.deletedAt < other.deletedAt := of_decide_eq_true hlt
      rintro (hgt | ⟨heq, -⟩)
      · exact lt_asymm hlt hgt
      · exact hlt.ne' heq
    · have hlt : other.entry.id.text < item.entry.id.text := of_decide_eq_true hlt
      rintro (hgt | ⟨-, hle⟩)
      · exact hgt.ne' heq
      · exact hle.not_gt hlt
  · intro hnot
    rcases lt_trichotomy item.deletedAt other.deletedAt with hlt | heq | hgt
    · exact .inl (decide_eq_true hlt)
    · refine .inr ⟨heq, decide_eq_true (lt_of_not_ge fun hle => hnot (.inr ⟨heq.symm, hle⟩))⟩
    · exact absurd (.inl hgt) hnot

namespace TrashListing

/-- The published item that a name stands for. -/
def publishedItem (listing : TrashListing) : TrashName → Option ListedItem
  | .sidecar id => (listing.listableItem id).join
  | _ => none

/-- The published items in listing order. -/
def published (listing : TrashListing) : List ListedItem :=
  (listing.trash.names.filterMap listing.publishedItem).insertionSort itemOrder

/-- The published items after a position, in listing order. -/
def following (listing : TrashListing) (after : Option TrashPosition) : List ListedItem :=
  listing.published.filter fun item => after.all (isAfter item)

/-- Whether a name is the sidecar of an item that a listing skips. -/
def isSkipped (listing : TrashListing) : TrashName → Bool
  | .sidecar id => (listing.listableItem id).isNone
  | _ => false

/-- How many of the names a listing skips. -/
def skippedNames (listing : TrashListing) (names : List TrashName) : ℕ :=
  names.countP listing.isSkipped

/-- The pages of some requests, each with the order in which the directory is enumerated and its
limit: every request goes on after the last item of the page before, and whether more follow. -/
def follow (listing : TrashListing) (maxEntries : ℕ) (after : Option TrashPosition) :
    List (List TrashName × ℕ) → FsResult (List ListedItem × Bool)
  | [] => .ok ([], true)
  | (names, limit) :: rest => do
    let page ← listing.listTrashPage names maxEntries after limit
    match page.hasMore, page.items.getLast? with
    | true, some last => do
      let (items, more) ← listing.follow maxEntries (some last.position) rest
      return (page.items ++ items, more)
    | more, _ => return (page.items, more)

variable {listing : TrashListing}

/-- A listed item is the one of its own identifier. -/
theorem listableItem_id {id : TrashId} {item : ListedItem}
    (h : listing.listableItem id = some (some item)) : item.entry.id = id := by
  unfold listableItem at h
  split at h
  · cases h
  rename_i sidecar hsidecar
  split at h
  · cases h
  split at h
  · cases h
  rename_i entry hentry
  split at h
  · cases h
  split at h
  · cases h
  split at h
  · obtain rfl := Option.some.inj (Option.some.inj h)
    obtain ⟨path, -, hentry⟩ := bind_eq_ok.mp hentry
    have hid := (TrashDirectory.readSidecar_eq_ok.mp hsidecar).2.id_eq
    split at hentry
    · obtain rfl := Except.ok.inj hentry
      exact hid
    · cases hentry
  · cases h

/-- The item is the one that the listing has for its identifier. -/
def Listed (listing : TrashListing) (item : ListedItem) : Prop :=
  listing.listableItem item.entry.id = some (some item)

theorem listed_of_publishedItem {name : TrashName} {item : ListedItem}
    (h : listing.publishedItem name = some item) :
    listing.Listed item ∧ name = .sidecar item.entry.id := by
  cases name with
  | sidecar id =>
    have hitem : listing.listableItem id = some (some item) := Option.join_eq_some_iff.mp h
    obtain rfl := listableItem_id hitem
    exact ⟨hitem, rfl⟩
  | temporary id => cases h
  | payload id => cases h
  | stray name => cases h

/-- Listed items that sort alike are the same. -/
theorem distinguishes_of_listed {list : List ListedItem} (h : ∀ item ∈ list, listing.Listed item) :
    Distinguishes itemOrder list := by
  intro left hleft right hright hle hge
  have htext : left.entry.id.text = right.entry.id.text := by
    rcases hle with hlt | ⟨heq, hle⟩
    · rcases hge with hgt | ⟨heq, -⟩
      · exact absurd hgt (lt_asymm hlt)
      · exact absurd heq.symm hlt.ne
    · rcases hge with hgt | ⟨-, hge⟩
      · exact absurd heq hgt.ne'
      · exact le_antisymm hle hge
  have hid : left.entry.id = right.entry.id := TrashId.ext htext
  have hsame := h left hleft
  rw [Listed, hid, h right hright] at hsame
  exact (Option.some.inj (Option.some.inj hsame)).symm

/-! ### One scan -/

variable {maxEntries keep compactAt : ℕ} {after : Option TrashPosition}

/-- The items for the page that the names stand for. -/
def wanted (listing : TrashListing) (after : Option TrashPosition) (names : List TrashName) :
    List ListedItem :=
  (names.filterMap listing.publishedItem).filter fun item => after.all (isAfter item)

/-- The buffer holds the first of the items seen so far. -/
structure Keeps (keep : ℕ) (items seen : List ListedItem) : Prop where
  first_eq : first itemOrder keep items = first itemOrder keep seen
  subset : items ⊆ seen
  length_le : items.length ≤ seen.length

/-- Adding an item, with or without compaction, drops none of the first ones. -/
theorem Keeps.keepItem {items seen : List ListedItem} (h : Keeps keep items seen)
    {item : ListedItem} (hseen : Distinguishes itemOrder (item :: seen)) :
    Keeps keep (keepItem keep compactAt items item) (item :: seen) := by
  have hperm : (items ++ [item]).Perm (item :: items) := List.perm_append_singleton _ _
  have hitems : item :: items ⊆ item :: seen := List.cons_subset_cons item h.subset
  have hsort := insertionSort_eq_of_perm hperm.symm (hseen.subset hitems)
  have hfirst : first itemOrder keep (items ++ [item]) = first itemOrder keep (item :: seen) := by
    rw [first, ← hsort]
    exact first_cons_congr h.first_eq
  have hsubset : items ++ [item] ⊆ item :: seen := fun _ hmem => hitems (hperm.subset hmem)
  have hlength : (items ++ [item]).length ≤ (item :: seen).length := by
    simpa using h.length_le
  unfold TrashListing.keepItem
  split
  · refine ⟨(first_first keep _).trans hfirst, fun _ hmem => hsubset (first_subset keep _ hmem), ?_⟩
    exact (List.length_take_le' _ _).trans ((List.length_insertionSort _ _).le.trans hlength)
  · exact ⟨hfirst, hsubset, hlength⟩

theorem wanted_cons_of_none {name : TrashName} (h : listing.publishedItem name = none)
    (rest : List TrashName) : listing.wanted after (name :: rest) = listing.wanted after rest := by
  rw [wanted, List.filterMap_cons_none h, wanted]

theorem wanted_cons_of_some {name : TrashName} {item : ListedItem}
    (h : listing.publishedItem name = some item) (rest : List TrashName) :
    listing.wanted after (name :: rest) =
      if after.all (isAfter item) then item :: listing.wanted after rest
      else listing.wanted after rest := by
  rw [wanted, List.filterMap_cons_some h, List.filter_cons, wanted]

/-- The items for the page are listed ones. -/
theorem listed_of_mem_wanted {names : List TrashName} {item : ListedItem}
    (h : item ∈ listing.wanted after names) : listing.Listed item := by
  obtain ⟨name, -, hitem⟩ := List.mem_filterMap.mp (List.mem_of_mem_filter h)
  exact (listed_of_publishedItem hitem).1

/-- The scan keeps the first of the items for the page, and counts what it skips. -/
theorem collectItems_eq {names : List TrashName} {scanned skipped : ℕ}
    {items seen : List ListedItem} (hbudget : scanned + names.length ≤ maxEntries)
    (hkeeps : Keeps keep items seen) (hseen : ∀ item ∈ seen, listing.Listed item) :
    ∃ collected, listing.collectItems maxEntries keep compactAt after scanned skipped items names =
        .ok (collected, skipped + listing.skippedNames names) ∧
      Keeps keep collected ((listing.wanted after names).reverse ++ seen) := by
  induction names generalizing scanned skipped items seen with
  | nil => exact ⟨items, rfl, hkeeps⟩
  | cons name rest ih =>
    rw [List.length_cons] at hbudget
    have hnext : scanned + 1 + rest.length ≤ maxEntries := by omega
    unfold collectItems
    rw [if_neg (by omega), skippedNames, List.countP_cons, ← skippedNames]
    cases name with
    | sidecar id =>
      rcases hitem : listing.listableItem id with _ | _ | item
      · have hnone : listing.publishedItem (.sidecar id) = none := by rw [publishedItem, hitem]; rfl
        have hskipped : listing.isSkipped (.sidecar id) = true := by rw [isSkipped, hitem]; rfl
        rw [wanted_cons_of_none hnone, if_pos hskipped, Nat.add_comm (listing.skippedNames rest) 1,
          ← Nat.add_assoc]
        simp only [hitem]
        exact ih hnext hkeeps hseen
      · have hnone : listing.publishedItem (.sidecar id) = none := by rw [publishedItem, hitem]; rfl
        have hread : ¬listing.isSkipped (.sidecar id) = true := by
          rw [isSkipped, hitem]
          exact Bool.false_ne_true
        rw [wanted_cons_of_none hnone, if_neg hread]
        simp only [hitem]
        exact ih hnext hkeeps hseen
      · have hsome : listing.publishedItem (.sidecar id) = some item := by
          rw [publishedItem, hitem]
          rfl
        have hread : ¬listing.isSkipped (.sidecar id) = true := by
          rw [isSkipped, hitem]
          exact Bool.false_ne_true
        have hafter : (after.any fun position => !isAfter item position) =
            !after.all (isAfter item) := by
          cases after <;> rfl
        rw [wanted_cons_of_some hsome, if_neg hread]
        simp only [hitem, hafter]
        cases hwanted : after.all (isAfter item) with
        | false => exact ih hnext hkeeps hseen
        | true =>
          have hlisted : ∀ other ∈ item :: seen, listing.Listed other :=
            List.forall_mem_cons.mpr ⟨(listed_of_publishedItem hsome).1, hseen⟩
          rw [if_pos rfl, List.reverse_cons, List.append_assoc]
          exact ih hnext (hkeeps.keepItem (distinguishes_of_listed hlisted)) hlisted
    | temporary id => exact ih hnext hkeeps hseen
    | payload id => exact ih hnext hkeeps hseen
    | stray name => exact ih hnext hkeeps hseen

/-- A scan fails where the directory has more names than it may read. -/
theorem collectItems_tooLarge {names : List TrashName} {scanned skipped : ℕ}
    {items : List ListedItem} (hbudget : maxEntries < scanned + names.length)
    (hscanned : scanned ≤ maxEntries) :
    listing.collectItems maxEntries keep compactAt after scanned skipped items names =
      .error .tooLarge := by
  induction names generalizing scanned skipped items with
  | nil =>
    rw [List.length_nil] at hbudget
    omega
  | cons name rest ih =>
    rw [List.length_cons] at hbudget
    unfold collectItems
    by_cases hfull : scanned + 1 > maxEntries
    · rw [if_pos hfull]
    · have hall (skipped : ℕ) (items : List ListedItem) :
          listing.collectItems maxEntries keep compactAt after (scanned + 1) skipped items rest =
            .error .tooLarge := ih (by omega) (by omega)
      rw [if_neg hfull]
      simp only [hall]
      split
      · split
        · rfl
        · rfl
        · split <;> rfl
      · rfl

/-! ### Pages -/

/-- The published items, in any order. -/
theorem published_perm :
    listing.published.Perm (listing.trash.names.filterMap listing.publishedItem) :=
  List.perm_insertionSort _ _

theorem listed_of_mem_published {item : ListedItem} (h : item ∈ listing.published) :
    listing.Listed item := by
  obtain ⟨name, -, hitem⟩ := List.mem_filterMap.mp (published_perm.subset h)
  exact (listed_of_publishedItem hitem).1

/-- An item is published exactly when the listing has it for its identifier. -/
theorem mem_published {item : ListedItem} :
    item ∈ listing.published ↔ listing.Listed item := by
  refine ⟨listed_of_mem_published, fun h => ?_⟩
  have hname : listing.publishedItem (.sidecar item.entry.id) = some item := by
    rw [publishedItem, h]
    rfl
  refine published_perm.symm.subset (List.mem_filterMap.mpr ⟨_, ?_, hname⟩)
  rw [← TrashDirectory.has_eq_true, TrashDirectory.has]
  cases hsidecar : listing.trash.sidecars.get? item.entry.id with
  | some sidecar => rfl
  | none =>
    have hread : listing.trash.readSidecar item.entry.id = .error .notFound := by
      rw [TrashDirectory.readSidecar, hsidecar]
    rw [Listed, listableItem, hread] at h
    cases h

/-- No item is published twice. -/
theorem published_nodup : (listing.published.map fun item => item.entry.id).Nodup := by
  have hsidecars : listing.trash.names.filterMap listing.publishedItem =
      listing.trash.sidecars.keys.filterMap fun id => (listing.listableItem id).join := by
    simp only [TrashDirectory.names, List.filterMap_append, List.filterMap_map]
    have hnone {ids : List TrashId} {name : TrashId → TrashName}
        (h : ∀ id, listing.publishedItem (name id) = none) :
        ids.filterMap (listing.publishedItem ∘ name) = [] :=
      List.filterMap_eq_nil_iff.mpr fun id _ => h id
    have hstrays : listing.trash.strays.filterMap (listing.publishedItem ∘ TrashName.stray) = [] :=
      List.filterMap_eq_nil_iff.mpr fun _ _ => rfl
    rw [hnone fun _ => rfl, hnone fun _ => rfl, hstrays, List.nil_append, List.nil_append,
      List.append_nil]
    rfl
  refine (published_perm.map _).nodup_iff.mpr ?_
  rw [hsidecars, List.map_filterMap]
  refine List.Nodup.filterMap (fun id id' found h h' => ?_) listing.trash.sidecars.nodup
  have hown {id found : TrashId}
      (h : found ∈ ((listing.listableItem id).join.map fun item => item.entry.id)) : found = id := by
    obtain ⟨item, hitem, rfl⟩ := Option.map_eq_some_iff.mp h
    exact listableItem_id (Option.join_eq_some_iff.mp hitem)
  exact (hown h).symm.trans (hown h')

/-- However the names are enumerated, the sorted items for a page are those after its position. -/
theorem insertionSort_wanted {names : List TrashName} (hnames : names.Perm listing.trash.names) :
    (listing.wanted after names).insertionSort itemOrder = listing.following after := by
  have hperm : (listing.wanted after names).Perm (listing.following after) :=
    ((hnames.filterMap _).trans published_perm.symm).filter _
  have hdistinguishes : Distinguishes itemOrder (listing.wanted after names) :=
    distinguishes_of_listed fun _ => listed_of_mem_wanted
  have hsorted : (listing.following after).Pairwise itemOrder :=
    (List.pairwise_insertionSort _ _).filter _
  rw [insertionSort_eq_of_perm hperm hdistinguishes, hsorted.insertionSort_eq]

/-- A page holds the first items after its position, and says whether more follow. -/
theorem listTrashPage_eq {names : List TrashName} (hnames : names.Perm listing.trash.names)
    (hentries : maxEntries ≤ usizeMax) {limit : ℕ} (hlimit : limit ≤ usizeMax) :
    listing.listTrashPage names maxEntries after limit =
      if maxEntries < names.length then .error .tooLarge
      else .ok ⟨(listing.following after).take limit,
        decide (limit < (listing.following after).length), listing.skippedNames names⟩ := by
  simp only [listTrashPage]
  split
  case isTrue hlarge =>
    rw [collectItems_tooLarge (by omega) (Nat.zero_le _), error_bind]
  case isFalse hfits =>
    obtain ⟨collected, hcollected, hkeeps⟩ := @collectItems_eq listing maxEntries (keepFor limit)
      (max (min (keepFor limit * 2) usizeMax) 64) after names 0 0 [] [] (by omega)
      ⟨rfl, List.Subset.refl _, le_rfl⟩ nofun
    rw [List.append_nil] at hkeeps
    have hseen : (listing.wanted after names).reverse.insertionSort itemOrder =
        listing.following after := by
      rw [← insertionSort_wanted hnames]
      exact insertionSort_eq_of_perm (List.reverse_perm _)
        (distinguishes_of_listed fun _ hitem => listed_of_mem_wanted (List.mem_reverse.mp hitem))
    have hlength : (listing.following after).length ≤ names.length := by
      rw [← insertionSort_wanted hnames, List.length_insertionSort]
      exact (List.length_filter_le _ _).trans (List.length_filterMap_le _ _)
    have hfirst : first itemOrder limit collected = (listing.following after).take limit := by
      have hle : limit ≤ keepFor limit := by unfold keepFor; omega
      rw [← take_first hle, hkeeps.first_eq, take_first hle, first, hseen]
    have hmore : limit < collected.length ↔ limit < (listing.following after).length := by
      have hkept := congrArg List.length hkeeps.first_eq
      have hall := congrArg List.length hseen
      have hle := hkeeps.length_le
      rw [length_first, length_first] at hkept
      rw [List.length_insertionSort] at hall
      unfold keepFor at hkept
      omega
    rw [hcollected, ok_bind, Nat.zero_add]
    dsimp only
    rw [List.length_insertionSort]
    simp only [gt_iff_lt, hmore]
    rw [← first, hfirst]
    rfl

/-- The items after a position that is an item's own are those behind it in the listing. -/
theorem following_position {before rest : List ListedItem} {last : ListedItem}
    (h : listing.published = before ++ last :: rest) :
    listing.following (some last.position) = rest := by
  have hsorted : (before ++ last :: rest).Pairwise itemOrder :=
    h ▸ List.pairwise_insertionSort _ _
  have hlisted : ∀ item ∈ before ++ last :: rest, listing.Listed item :=
    fun item hmem => listed_of_mem_published (h.symm ▸ hmem)
  have hnodup : (before ++ last :: rest).Nodup := h ▸ published_nodup.of_map _
  obtain ⟨-, hlast, hbefore⟩ := List.pairwise_append.mp hsorted
  have hnone : ∀ item ∈ before ++ [last], ¬isAfter item last.position = true := by
    intro item hmem
    rw [isAfter_position, not_not]
    rcases List.mem_append.mp hmem with hmem | hmem
    · exact hbefore item hmem last (List.mem_cons_self ..)
    · obtain rfl := List.mem_singleton.mp hmem
      exact .inr ⟨rfl, le_rfl⟩
  have hall : ∀ item ∈ rest, isAfter item last.position = true := by
    intro item hmem
    rw [isAfter_position]
    intro hback
    have hforth : itemOrder last item := (List.pairwise_cons.mp hlast).1 item hmem
    have hsame : last = item := distinguishes_of_listed hlisted last (by simp) item (by simp [hmem])
      hforth hback
    have hne : last ≠ item :=
      fun heq => (List.nodup_cons.mp (List.nodup_append.mp hnodup).2.1).1 (heq ▸ hmem)
    exact hne hsame
  have hsplit : before ++ last :: rest = before ++ [last] ++ rest := by simp
  simp only [following, h, hsplit, Option.all_some]
  rw [List.filter_append, List.filter_eq_nil_iff.mpr hnone, List.nil_append]
  exact List.filter_eq_self.mpr hall

/-- Following the pages from a position lists what is left from there on. -/
theorem follow_eq (hentries : maxEntries ≤ usizeMax)
    (hbudget : listing.trash.names.length ≤ maxEntries) {before rest : List ListedItem}
    (hpublished : listing.published = before ++ rest) (hafter : listing.following after = rest)
    {requests : List (List TrashName × ℕ)}
    (hrequests : ∀ request ∈ requests, request.1.Perm listing.trash.names ∧
      0 < request.2 ∧ request.2 ≤ usizeMax)
    (hsome : requests ≠ []) (henough : rest.length ≤ requests.length) :
    listing.follow maxEntries after requests = .ok (rest, false) := by
  induction requests generalizing after before rest with
  | nil => exact absurd rfl hsome
  | cons request others ih =>
    obtain ⟨names, limit⟩ := request
    obtain ⟨hnames, hpos, hlimit⟩ := hrequests _ (List.mem_cons_self ..)
    have hfits : ¬maxEntries < names.length := by
      rw [hnames.length_eq]
      exact Nat.not_lt.mpr hbudget
    rw [follow, listTrashPage_eq hnames hentries hlimit, if_neg hfits, hafter, ok_bind]
    by_cases hmore : limit < rest.length
    · obtain ⟨front, last, hfront⟩ : ∃ front last, rest.take limit = front ++ [last] := by
        have hne : rest.take limit ≠ [] := by
          rw [Ne, List.take_eq_nil_iff]
          rintro (hzero | rfl)
          · omega
          · simp at hmore
        exact ⟨_, _, (List.dropLast_append_getLast hne).symm⟩
      have hrest : rest = front ++ last :: rest.drop limit := by
        rw [← List.singleton_append, ← List.append_assoc, ← hfront, List.take_append_drop]
      have hbehind : listing.published = (before ++ front) ++ last :: rest.drop limit := by
        rw [List.append_assoc, ← hrest, hpublished]
      have hsplit : listing.published = (before ++ front ++ [last]) ++ rest.drop limit := by
        rw [hbehind]
        simp
      rw [List.length_cons] at henough
      have hnext := ih hsplit (following_position hbehind)
        (fun request hmem => hrequests request (List.mem_cons_of_mem _ hmem))
        (by rintro rfl; rw [List.length_nil] at henough; omega)
        (by rw [List.length_drop]; omega)
      have hlast : (rest.take limit).getLast? = some last := by rw [hfront]; simp
      simp only [hmore, decide_true, hlast, hnext, ok_bind, List.take_append_drop]
      rfl
    · simp only [hmore, decide_false, List.take_of_length_le (Nat.not_lt.mp hmore)]
      rfl

/-- The buffer of a scan always holds the items of its page that were seen. -/
theorem mem_buffer {before rest : List TrashName}
    (hnames : (before ++ rest).Perm listing.trash.names)
    (hbudget : before.length ≤ maxEntries) {limit : ℕ} (hkeep : limit ≤ keep) :
    ∃ buffer skipped,
      listing.collectItems maxEntries keep compactAt after 0 0 [] before = .ok (buffer, skipped) ∧
      ∀ item ∈ (listing.following after).take limit, .sidecar item.entry.id ∈ before →
        item ∈ buffer := by
  obtain ⟨buffer, hbuffer, hkeeps⟩ := @collectItems_eq listing maxEntries keep compactAt after
    before 0 0 [] [] (by omega) ⟨rfl, List.Subset.refl _, le_rfl⟩ nofun
  rw [List.append_nil] at hkeeps
  refine ⟨buffer, _, hbuffer, fun item hitem hname => ?_⟩
  have hfollowing : item ∈ listing.following after := List.mem_of_mem_take hitem
  obtain ⟨hpublished, hafter⟩ := List.mem_filter.mp hfollowing
  have hseen : item ∈ listing.wanted after before := by
    refine List.mem_filter.mpr ⟨List.mem_filterMap.mpr ⟨_, hname, ?_⟩, hafter⟩
    rw [publishedItem, listed_of_mem_published hpublished]
    rfl
  have hnodup : (listing.wanted after (before ++ rest)).Nodup := by
    have hperm : (listing.wanted after (before ++ rest)).Perm (listing.following after) :=
      ((hnames.filterMap _).trans published_perm.symm).filter _
    exact hperm.nodup_iff.mpr ((published_nodup.of_map _).filter _)
  have hsublist : (listing.wanted after before).Sublist (listing.wanted after (before ++ rest)) :=
    ((List.sublist_append_left before rest).filterMap _).filter _
  have hlarge : item ∈ first itemOrder keep (listing.wanted after (before ++ rest)) := by
    rw [first, insertionSort_wanted hnames]
    exact List.take_subset_take_left _ hkeep hitem
  have hfirst := mem_first_of_subset (List.reverse_subset.mpr hsublist.subset)
    (List.nodup_reverse.mpr (hsublist.nodup hnodup)) hnodup
    (distinguishes_of_listed fun _ hmem => listed_of_mem_wanted (List.mem_reverse.mp hmem))
    hlarge (List.mem_reverse.mpr hseen)
  rw [← hkeeps.first_eq] at hfirst
  exact first_subset keep buffer hfirst

/-- Whatever the order of the directory, a page is exactly the first published items after its
position and says whether more follow; compaction drops none of them; and the pages that follow each
other are together the published items, each once. -/
theorem trash_pages_exact (listing : TrashListing) {maxEntries : ℕ} (hentries : maxEntries ≤ usizeMax) :
    (∀ (names : List TrashName) (after : Option TrashPosition) (limit : ℕ),
        names.Perm listing.trash.names → limit ≤ usizeMax →
        listing.listTrashPage names maxEntries after limit =
            (if maxEntries < names.length then .error .tooLarge
            else .ok ⟨(listing.following after).take limit,
              decide (limit < (listing.following after).length), listing.skippedNames names⟩) ∧
          ∀ before rest compactAt, names = before ++ rest → before.length ≤ maxEntries →
            ∃ buffer skipped, listing.collectItems maxEntries (keepFor limit) compactAt after 0 0 []
                before = .ok (buffer, skipped) ∧
              ∀ item ∈ (listing.following after).take limit, .sidecar item.entry.id ∈ before →
                item ∈ buffer) ∧
      (∀ requests : List (List TrashName × ℕ), requests ≠ [] →
        listing.published.length ≤ requests.length → listing.trash.names.length ≤ maxEntries →
        (∀ request ∈ requests, request.1.Perm listing.trash.names ∧
          0 < request.2 ∧ request.2 ≤ usizeMax) →
        listing.follow maxEntries none requests = .ok (listing.published, false)) ∧
      listing.published.Pairwise itemOrder ∧
      (listing.published.map fun item => item.entry.id).Nodup ∧
      ∀ item, item ∈ listing.published ↔
        listing.listableItem item.entry.id = some (some item) := by
  refine ⟨fun names after limit hnames hlimit => ⟨listTrashPage_eq hnames hentries hlimit, ?_⟩,
    fun requests hsome henough hbudget hrequests => ?_, List.pairwise_insertionSort _ _,
    published_nodup, fun item => mem_published⟩
  · rintro before rest compactAt rfl hbudget
    exact mem_buffer hnames hbudget (by unfold keepFor; omega)
  · refine follow_eq hentries hbudget (List.nil_append _).symm ?_ hrequests hsome henough
    exact List.filter_eq_self.mpr fun _ _ => rfl

/-! ### A Trash of two items -/

theorem validId_older : validId "0123456789abcdef0123456789abcdef" = true := by decide

theorem validId_newer : validId "1123456789abcdef0123456789abcdef" = true := by decide

def olderId : TrashId := ⟨"0123456789abcdef0123456789abcdef", validId_older⟩

def newerId : TrashId := ⟨"1123456789abcdef0123456789abcdef", validId_newer⟩

/-- Two files, one deleted after the other. -/
def twoDeleted : TrashListing where
  trash :=
    { temporaries := .empty
      payloads := (KeyedMap.empty.insert olderId (.leaf .file ⟨1, none, 1, 1⟩)).insert newerId
        (.leaf .file ⟨1, none, 2, 1⟩)
      sidecars := (KeyedMap.empty.insert olderId
          (some ⟨1, olderId, .ok ⟨[⟨"f"⟩]⟩, some .file, some 0, .live⟩)).insert newerId
        (some ⟨1, newerId, .ok ⟨[⟨"g"⟩]⟩, some .file, some 0, .live⟩)
      strays := [] }
  deletedAt := fun id => if id = olderId then "2024-01-01T00:00:00Z" else "2024-01-02T00:00:00Z"
  parses := fun _ => true

theorem trash_pages_exact_twoDeleted :
    twoDeleted.follow 10 none [(twoDeleted.trash.names, 1), (twoDeleted.trash.names.reverse, 1)] =
      .ok (twoDeleted.published, false) := by
  have hlength : twoDeleted.published.length ≤ 2 := by
    rw [published_perm.length_eq]
    decide
  refine (trash_pages_exact twoDeleted (by decide)).2.1 _ (by simp) hlength (by decide) ?_
  intro request hmem
  rcases List.mem_cons.mp hmem with rfl | hmem
  · exact ⟨.refl _, by decide, by decide⟩
  · obtain rfl := List.mem_singleton.mp hmem
    exact ⟨List.reverse_perm _, by decide, by decide⟩

end TrashListing

end Crabinet.Trash
