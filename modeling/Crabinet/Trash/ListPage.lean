import Crabinet.Trash.Storage
import Mathlib.Data.List.Sort

/-!
# Trash listings in pages

A page reads every sidecar, keeps the items after its position and returns the newest. What
a sidecar says of the deletion time is a text; which texts are times is up to a parser.
-/

namespace Crabinet.Trash

open Crabinet.Filesystem Crabinet.Library

/-- `usize::MAX`. -/
def usizeMax : ℕ := 2 ^ 64 - 1

/-- `TrashEntry`, with the deletion time. -/
structure ListedItem where
  entry : TrashEntry
  deletedAt : String

/-- `TrashPosition`. -/
structure TrashPosition where
  deletedAt : String
  id : String
deriving DecidableEq, Repr

/-- The position of an item. -/
def ListedItem.position (item : ListedItem) : TrashPosition := ⟨item.deletedAt, item.entry.id.text⟩

/-- `listing_order`: newest first, then by identifier. -/
def itemOrder (left right : ListedItem) : Prop :=
  right.deletedAt < left.deletedAt ∨
    (right.deletedAt = left.deletedAt ∧ left.entry.id.text ≤ right.entry.id.text)

instance : DecidableRel itemOrder := fun _ _ => inferInstanceAs (Decidable (_ ∨ _))

/-- `is_after`. -/
def isAfter (item : ListedItem) (position : TrashPosition) : Bool :=
  item.deletedAt < position.deletedAt ||
    (item.deletedAt == position.deletedAt && position.id < item.entry.id.text)

/-- What a listing reads: the Trash, the deletion times that its sidecars state, and the parser. -/
structure TrashListing where
  trash : TrashDirectory
  deletedAt : TrashId → String
  parses : String → Bool

/-- `TrashPage`. -/
structure TrashPage where
  items : List ListedItem
  hasMore : Bool
  skipped : ℕ

namespace TrashListing

/-- `listable_item`: none where the item is skipped, and nothing listed where it is not live. -/
def listableItem (listing : TrashListing) (id : TrashId) : Option (Option ListedItem) :=
  match listing.trash.readSidecar id with
  | .error _ => none
  | .ok sidecar =>
    if sidecar.state ≠ .live then some none
    else
      match sidecar.entry with
      | .error _ => none
      | .ok entry =>
        if !listing.parses (listing.deletedAt id) then none
        else
          match listing.trash.payloadMetadata id with
          | .error _ => none
          | .ok payload =>
            if payload.kind = entry.kind then some (some ⟨entry, listing.deletedAt id⟩) else none

/-- Add an item, and drop those that cannot be on the page once there are too many. -/
def keepItem (keep compactAt : ℕ) (items : List ListedItem) (item : ListedItem) : List ListedItem :=
  if (items ++ [item]).length ≥ compactAt then
    ((items ++ [item]).insertionSort itemOrder).take keep
  else items ++ [item]

/-- The loop of `list_trash_page`. -/
def collectItems (listing : TrashListing) (maxEntries keep compactAt : ℕ)
    (after : Option TrashPosition) (scanned skipped : ℕ) (items : List ListedItem) :
    List TrashName → FsResult (List ListedItem × ℕ)
  | [] => .ok (items, skipped)
  | name :: rest =>
    if scanned + 1 > maxEntries then .error .tooLarge
    else
      match name with
      | .sidecar id =>
        match listing.listableItem id with
        | none =>
          listing.collectItems maxEntries keep compactAt after (scanned + 1) (skipped + 1) items rest
        | some none =>
          listing.collectItems maxEntries keep compactAt after (scanned + 1) skipped items rest
        | some (some item) =>
          if after.any fun position => !isAfter item position then
            listing.collectItems maxEntries keep compactAt after (scanned + 1) skipped items rest
          else
            listing.collectItems maxEntries keep compactAt after (scanned + 1) skipped
              (keepItem keep compactAt items item) rest
      | _ => listing.collectItems maxEntries keep compactAt after (scanned + 1) skipped items rest

/-- How many items a page has to keep, `limit.saturating_add(1)`. -/
def keepFor (limit : ℕ) : ℕ := min (limit + 1) usizeMax

/-- `list_trash_page`, over the names in the order in which the directory lists them. -/
def listTrashPage (listing : TrashListing) (names : List TrashName) (maxEntries : ℕ)
    (after : Option TrashPosition) (limit : ℕ) : FsResult TrashPage := do
  let keep := keepFor limit
  let compactAt := max (min (keep * 2) usizeMax) 64
  let (items, skipped) ← listing.collectItems maxEntries keep compactAt after 0 0 [] names
  let items := items.insertionSort itemOrder
  return ⟨items.take limit, decide (items.length > limit), skipped⟩

/-! ### What a page holds -/

variable {listing : TrashListing} {maxEntries keep compactAt : ℕ} {after : Option TrashPosition}

theorem parses_of_listableItem {id : TrashId} {item : ListedItem}
    (h : listing.listableItem id = some (some item)) :
    listing.parses item.deletedAt = true ∧ item.deletedAt = listing.deletedAt id := by
  unfold listableItem at h
  split at h
  · cases h
  · split at h
    · cases h
    · split at h
      · cases h
      · split at h
        · cases h
        · rename_i hparses
          split at h
          · cases h
          · split at h
            · obtain rfl := Option.some.inj (Option.some.inj h)
              exact ⟨by simpa using hparses, rfl⟩
            · cases h

/-- An item that may be on a page: its time parses, and it comes after the position. -/
structure OnPage (listing : TrashListing) (after : Option TrashPosition) (item : ListedItem) : Prop where
  parses : listing.parses item.deletedAt = true
  after : ∀ position, after = some position → isAfter item position = true

theorem mem_of_mem_keepItem {items : List ListedItem} {item found : ListedItem}
    (h : found ∈ keepItem keep compactAt items item) : found ∈ items ∨ found = item := by
  have hmem : found ∈ items ++ [item] := by
    unfold keepItem at h
    split at h
    · exact (List.mem_insertionSort _).mp (List.mem_of_mem_take h)
    · exact h
  simpa using hmem

/-- The loop collects only items for the page. -/
theorem onPage_of_collectItems {names : List TrashName} {scanned skipped skipped' : ℕ}
    {items collected : List ListedItem} (hitems : ∀ item ∈ items, listing.OnPage after item)
    (h : listing.collectItems maxEntries keep compactAt after scanned skipped items names =
      .ok (collected, skipped')) :
    ∀ item ∈ collected, listing.OnPage after item := by
  induction names generalizing scanned skipped items with
  | nil =>
    obtain ⟨rfl, -⟩ := Prod.mk.inj (Except.ok.inj h)
    exact hitems
  | cons name rest ih =>
    obtain ⟨-, h⟩ := ite_error_eq_ok.mp h
    split at h
    · rename_i id
      split at h
      · exact ih hitems h
      · exact ih hitems h
      · rename_i item hitem
        split at h
        · exact ih hitems h
        · rename_i hafter
          refine ih (fun found hfound => ?_) h
          rcases mem_of_mem_keepItem hfound with hfound | rfl
          · exact hitems found hfound
          · refine ⟨(parses_of_listableItem hitem).1, fun position hposition => ?_⟩
            simpa [hposition] using hafter
    · exact ih hitems h

theorem onPage_of_listTrashPage {names : List TrashName} {limit : ℕ} {page : TrashPage}
    (h : listing.listTrashPage names maxEntries after limit = .ok page) :
    ∀ item ∈ page.items, listing.OnPage after item := by
  obtain ⟨⟨collected, skipped⟩, hcollected, h⟩ := bind_eq_ok.mp h
  obtain rfl := Except.ok.inj h
  intro item hitem
  exact onPage_of_collectItems (by simp) hcollected item
    ((List.mem_insertionSort _).mp (List.mem_of_mem_take hitem))

end TrashListing

end Crabinet.Trash
