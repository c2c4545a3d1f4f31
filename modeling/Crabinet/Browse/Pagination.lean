import Crabinet.Browse.Listing

/-!
# Complete pagination

The listing of a directory does not depend on the order in which it is enumerated, so a
cursor's offset means the same place on every request.
-/

namespace Crabinet.Browse

open Crabinet.Filesystem Crabinet.Library Crabinet.Tokens
open scoped List

/-! ### The listing of a directory -/

/-- The entry that a name of a directory stands for, if it is listed. -/
def listed (tables : UnicodeTables) (raw : RawEntry) : Option DirectoryEntry :=
  (supportedEntry tables raw).toOption.join

variable {tables : UnicodeTables} {raw : RawEntry} {enumerated other : List RawEntry}
  {entry : DirectoryEntry} {entries : List DirectoryEntry} {maxEntries : ℕ} {showHidden : Option Bool}

theorem listed_of_supportedEntry {result : Option DirectoryEntry}
    (h : supportedEntry tables raw = .ok result) : listed tables raw = result := by
  rw [listed, h]
  rfl

/-- A listed entry has its name from the directory, and the name is accepted. -/
theorem name_of_listed (h : listed tables raw = some entry) :
    raw.name = some entry.name.value ∧ EntryName.accepts tables entry.name.value = true := by
  unfold listed supportedEntry at h
  split at h
  · cases h
  · rename_i name hname
    split at h
    · cases h
    · split at h
      · cases h
      · rename_i haccepts
        have hname' : EntryName.accepts tables name = true := by simpa using haccepts
        split at h
        · cases h
        · cases h
        · split at h
          · cases h
          · obtain rfl := Option.some.inj h
            exact ⟨hname, hname'⟩

/-- A scan within the limit lists what each name stands for. -/
theorem scan_eq_ok {scanned : ℕ} (hscanned : scanned ≤ maxEntries) :
    scan tables maxEntries scanned enumerated = .ok entries ↔
      scanned + enumerated.length ≤ maxEntries ∧
        (∀ raw ∈ enumerated, ∃ result, supportedEntry tables raw = .ok result) ∧
        entries = enumerated.filterMap (listed tables) := by
  induction enumerated generalizing scanned entries with
  | nil => simp [scan, hscanned, eq_comm]
  | cons raw rest ih =>
    rw [scan, ite_error_eq_ok, List.forall_mem_cons, List.length_cons]
    constructor
    · rintro ⟨hroom, h⟩
      obtain ⟨result, hresult, h⟩ := bind_eq_ok.mp h
      obtain ⟨found, hfound, h⟩ := bind_eq_ok.mp h
      obtain rfl := Except.ok.inj h
      obtain ⟨hlength, hall, rfl⟩ := (ih (by omega)).mp hfound
      refine ⟨by omega, ⟨⟨result, hresult⟩, hall⟩, ?_⟩
      rw [List.filterMap_cons, listed_of_supportedEntry hresult]
      cases result <;> rfl
    · rintro ⟨hlength, ⟨⟨result, hresult⟩, hall⟩, rfl⟩
      refine ⟨by omega, ?_⟩
      have hfound : scan tables maxEntries (scanned + 1) rest =
          .ok (rest.filterMap (listed tables)) := (ih (by omega)).mpr ⟨by omega, hall, rfl⟩
      rw [hresult, ok_bind, hfound, ok_bind, List.filterMap_cons, listed_of_supportedEntry hresult]
      cases result <;> rfl

theorem scan_perm (hperm : enumerated ~ other)
    (h : scan tables maxEntries 0 enumerated = .ok entries) :
    ∃ entries', scan tables maxEntries 0 other = .ok entries' ∧ entries ~ entries' := by
  obtain ⟨hlength, hall, rfl⟩ := (scan_eq_ok (Nat.zero_le _)).mp h
  refine ⟨other.filterMap (listed tables), (scan_eq_ok (Nat.zero_le _)).mpr ⟨?_, ?_, rfl⟩,
    hperm.filterMap _⟩
  · rw [← hperm.length_eq]
    exact hlength
  · exact fun raw hmem => hall raw (hperm.mem_iff.mpr hmem)

/-- Listed entries have distinct names when the directory's names are distinct. -/
theorem nodup_names (hdistinct : (enumerated.filterMap RawEntry.name).Nodup) :
    ((enumerated.filterMap (listed tables)).map fun entry => entry.name.value).Nodup := by
  refine hdistinct.sublist ?_
  clear hdistinct
  induction enumerated with
  | nil => exact List.Sublist.refl _
  | cons raw rest ih =>
    rw [List.filterMap_cons, List.filterMap_cons]
    cases hlisted : listed tables raw with
    | none =>
      cases raw.name with
      | none => exact ih
      | some name => exact ih.cons _
    | some entry =>
      rw [(name_of_listed hlisted).1, List.map_cons]
      exact ih.cons_cons _

instance : Std.Total nameOrder := ⟨fun _ _ => String.le_total _ _⟩

instance : IsTrans DirectoryEntry nameOrder := ⟨fun _ _ _ h h' => String.le_trans h h'⟩

instance : Std.Total listingOrder where
  total left right := by
    unfold listingOrder
    cases left.kind with
    | directory =>
      cases right.kind with
      | directory => simpa using String.le_total left.name.value right.name.value
      | file => exact .inl (.inl (by decide))
    | file =>
      cases right.kind with
      | directory => exact .inr (.inl (by decide))
      | file => simpa using String.le_total left.name.value right.name.value

instance : IsTrans DirectoryEntry listingOrder where
  trans left middle right h h' := by
    rcases h with h | ⟨hkind, hname⟩
    · rcases h' with h' | ⟨hkind', hname'⟩
      · exact .inl (UInt8.lt_trans h h')
      · exact .inl (hkind' ▸ h)
    · rcases h' with h' | ⟨hkind', hname'⟩
      · exact .inl (hkind ▸ h')
      · exact .inr ⟨hkind.trans hkind', String.le_trans hname hname'⟩

/-- In both directions the order holds only between entries of one name. -/
theorem name_eq_of_listingOrder {left right : DirectoryEntry} (h : listingOrder left right)
    (h' : listingOrder right left) : left.name.value = right.name.value := by
  rcases h with h | ⟨hkind, hname⟩
  · rcases h' with h' | ⟨hkind', hname'⟩
    · exact absurd (UInt8.lt_trans h h') (UInt8.lt_irrefl _)
    · rw [hkind'] at h
      exact absurd h (UInt8.lt_irrefl _)
  · rcases h' with h' | ⟨hkind', hname'⟩
    · rw [hkind] at h'
      exact absurd h' (UInt8.lt_irrefl _)
    · exact String.le_antisymm hname hname'

/-- A listing is what the directory's names stand for, without the hidden ones, in order. -/
theorem listing_eq_ok (h : listing tables maxEntries showHidden enumerated = .ok entries) :
    enumerated.length ≤ maxEntries ∧
      entries ~ (enumerated.filterMap (listed tables)).filter (fun entry => !isHidden showHidden entry) ∧
      entries.Pairwise listingOrder := by
  obtain ⟨sorted, hsorted, h⟩ := bind_eq_ok.mp h
  obtain rfl := Except.ok.inj h
  obtain ⟨found, hfound, hsorted⟩ := bind_eq_ok.mp hsorted
  obtain rfl := Except.ok.inj hsorted
  obtain ⟨hlength, -, rfl⟩ := (scan_eq_ok (Nat.zero_le _)).mp hfound
  refine ⟨by omega, ?_, List.pairwise_insertionSort _ _⟩
  exact (List.perm_insertionSort _ _).trans ((List.perm_insertionSort _ _).filter _)

/-- A listing has each name once. -/
theorem nodup_names_of_listing (hdistinct : (enumerated.filterMap RawEntry.name).Nodup)
    (h : listing tables maxEntries showHidden enumerated = .ok entries) :
    (entries.map fun entry => entry.name.value).Nodup := by
  obtain ⟨-, hperm, -⟩ := listing_eq_ok h
  refine (hperm.map _).nodup_iff.mpr ?_
  exact (nodup_names hdistinct).sublist (List.filter_sublist.map _)

/-- The order of enumeration does not matter. -/
theorem listing_perm (hdistinct : (enumerated.filterMap RawEntry.name).Nodup)
    (hperm : enumerated ~ other) (h : listing tables maxEntries showHidden enumerated = .ok entries) :
    listing tables maxEntries showHidden other = .ok entries := by
  have hfirst := listing_eq_ok h
  have hnames := nodup_names_of_listing hdistinct h
  obtain ⟨sorted, hsorted, -⟩ := bind_eq_ok.mp h
  obtain ⟨found, hfound, -⟩ := bind_eq_ok.mp hsorted
  obtain ⟨found', hfound', hfoundPerm⟩ := scan_perm hperm hfound
  have hother : listing tables maxEntries showHidden other =
      .ok (((found'.insertionSort nameOrder).filter fun entry =>
        !isHidden showHidden entry).insertionSort listingOrder) := by
    rw [listing, listBounded, hfound', ok_bind]
    rfl
  have hsecond := listing_eq_ok hother
  rw [hother]
  refine congrArg _ (List.Perm.eq_of_pairwise ?_ hsecond.2.2 hfirst.2.2 ?_)
  · intro left right hleft hright h h'
    have hmem := (hsecond.2.1.trans (((hperm.filterMap _).symm).filter _)).trans hfirst.2.1.symm
    exact List.inj_on_of_nodup_map hnames (hmem.mem_iff.mp hleft) hright (name_eq_of_listingOrder h h')
  · exact (hsecond.2.1.trans (((hperm.filterMap _).symm).filter _)).trans hfirst.2.1.symm

/-- What the fingerprint covers of an entry. -/
def DirectoryEntry.key (entry : DirectoryEntry) : EntryKind × EntryName × UInt64 :=
  (entry.kind, entry.name, entry.fileId)

theorem length_lt_of_accepts {value : String} (h : EntryName.accepts tables value = true) :
    (utf8 value).length < 256 ^ 8 := by
  have hbytes : value.utf8ByteSize ≤ maxComponentBytes := by
    by_contra hlong
    simp [EntryName.accepts, Nat.not_le.mp hlong] at h
  unfold maxComponentBytes at hbytes
  rw [length_utf8]
  omega

/-- Entries with accepted names are told apart by the fingerprint's message, as far as it goes. -/
theorem keys_eq_of_listingFingerprint {entries' : List DirectoryEntry}
    (haccepts : ∀ entry ∈ entries, EntryName.accepts tables entry.name.value = true)
    (haccepts' : ∀ entry ∈ entries', EntryName.accepts tables entry.name.value = true)
    (h : (entries.flatMap fun entry => entryKindOrder entry.kind ::
        (framed (utf8 entry.name.value) ++ beBytes 8 entry.fileId.toNat)) =
      entries'.flatMap fun entry => entryKindOrder entry.kind ::
        (framed (utf8 entry.name.value) ++ beBytes 8 entry.fileId.toNat)) :
    entries.map DirectoryEntry.key = entries'.map DirectoryEntry.key := by
  induction entries generalizing entries' with
  | nil =>
    cases entries' with
    | nil => rfl
    | cons entry' rest' => simp at h
  | cons entry rest ih =>
    cases entries' with
    | nil => simp at h
    | cons entry' rest' =>
      obtain ⟨hentry, hrest⟩ := List.forall_mem_cons.mp haccepts
      obtain ⟨hentry', hrest'⟩ := List.forall_mem_cons.mp haccepts'
      rw [List.flatMap_cons, List.flatMap_cons, List.cons_append, List.cons_append] at h
      obtain ⟨hkind, h⟩ := List.cons.inj h
      rw [List.append_assoc, List.append_assoc,
        framed_append_inj (length_lt_of_accepts hentry) (length_lt_of_accepts hentry')] at h
      obtain ⟨hname, h⟩ := h
      obtain ⟨hfileId, h⟩ := List.append_inj h (by simp)
      have hkey : entry.key = entry'.key := by
        rw [DirectoryEntry.key, DirectoryEntry.key, entryKindOrder_inj.mp hkind,
          entryName_utf8_inj.mp hname, beBytes_uint64_inj.mp hfileId]
      rw [List.map_cons, List.map_cons, hkey, ih hrest hrest' h]

/-- The fingerprint's message determines the kinds, names and identities of the entries. -/
theorem listingFingerprint_inj {entries' : List DirectoryEntry}
    (haccepts : ∀ entry ∈ entries, EntryName.accepts tables entry.name.value = true)
    (haccepts' : ∀ entry ∈ entries', EntryName.accepts tables entry.name.value = true)
    (h : listingFingerprint entries = listingFingerprint entries') :
    entries.map DirectoryEntry.key = entries'.map DirectoryEntry.key :=
  keys_eq_of_listingFingerprint haccepts haccepts' (List.append_inj h (by simp)).2

theorem accepts_of_listing (h : listing tables maxEntries showHidden enumerated = .ok entries) :
    ∀ entry ∈ entries, EntryName.accepts tables entry.name.value = true := by
  intro entry hentry
  have hmem := (listing_eq_ok h).2.1.mem_iff.mp hentry
  obtain ⟨raw, -, hraw⟩ := List.mem_filterMap.mp (List.mem_filter.mp hmem).1
  exact (name_of_listed hraw).2

/-! ### One page -/

theorem mapFsError_eq_ok {α : Type} {x : FsResult α} {a : α} : mapFsError x = .ok a ↔ x = .ok a := by
  cases x with
  | ok b => simp [mapFsError]
  | error error => cases error <;> simp [mapFsError]

/-- A request in a walk through the pages: its limit, and the directory as it is enumerated then. -/
structure PageRequest where
  limit : Option ℕ
  enumerated : List RawEntry

namespace BrowseState

variable (state : BrowseState)

/-- The limit that applies to a request. -/
def limitOf (request : PageRequest) : ℕ := request.limit.getD state.limits.defaultPageSize

/-- Whether a request's limit is accepted. -/
def accepts (request : PageRequest) : Prop :=
  1 ≤ state.limitOf request ∧ state.limitOf request ≤ state.limits.maxPageSize

/-- The cursor of an offset; the start needs none. -/
def cursorAt (scope : CursorScope tables) (entries : List DirectoryEntry) (offset : ℕ) :
    Option (List Char) :=
  if offset = 0 then none
  else some (scope.encodeCursor state.mac (UInt64.ofNat offset) (state.fingerprint entries))

variable {state} {requester : Requester} {rawPath : Option (List Char)} {path : ValidPath tables}

theorem toNat_ofNat_of_le {offset : ℕ} (h : entries.length ≤ state.limits.maxDirectoryEntries)
    (hoffset : offset ≤ entries.length) : (UInt64.ofNat offset).toNat = offset := by
  have hfits := state.limits.fits
  exact UInt64.toNat_ofNat_of_lt' (Nat.lt_of_le_of_lt (Nat.le_trans hoffset h) hfits)

/-- The cursor of an offset leads back to it. -/
theorem start_cursorAt {scope : CursorScope tables} {offset : ℕ}
    (hlength : entries.length ≤ state.limits.maxDirectoryEntries) (hoffset : offset ≤ entries.length) :
    state.start scope entries (state.cursorAt scope entries offset) = .ok offset := by
  unfold cursorAt
  split
  · rename_i hzero
    rw [hzero]
    rfl
  · rw [start, CursorScope.decodeCursor_encodeCursor, ok_bind, toNat_ofNat_of_le hlength hoffset]
    rfl

theorem length_le_of_listing (h : listing tables maxEntries showHidden enumerated = .ok entries) :
    entries.length ≤ maxEntries := by
  obtain ⟨hlength, hperm, -⟩ := listing_eq_ok h
  rw [hperm.length_eq]
  exact Nat.le_trans (List.length_filter_le _ _)
    (Nat.le_trans (List.length_filterMap_le _ _) hlength)

/-- An accepted request at an offset returns the entries from there. -/
theorem listDirectory_cursorAt {request : PageRequest} {offset : ℕ}
    (hpath : parseQueryPath tables rawPath = .ok path) (haccepts : state.accepts request)
    (hlisting : listing tables state.limits.maxDirectoryEntries showHidden request.enumerated =
      .ok entries)
    (hoffset : offset ≤ entries.length) :
    state.listDirectory tables requester
        ⟨rawPath, request.limit, showHidden, state.cursorAt (requester.scope path) entries offset⟩
        (.ok request.enumerated) =
      .ok
        { entries := (entries.take (min (offset + state.limitOf request) entries.length)).drop offset
          nextCursor :=
            if min (offset + state.limitOf request) entries.length < entries.length then
              state.cursorAt (requester.scope path) entries (offset + state.limitOf request)
            else none } := by
  obtain ⟨hpositive, hmax⟩ := haccepts
  have hstart : state.start (requester.scope path) entries
      (state.cursorAt (requester.scope path) entries offset) = .ok offset :=
    start_cursorAt (length_le_of_listing hlisting) hoffset
  have hlimit : ¬(state.limitOf request = 0 ∨ state.limitOf request > state.limits.maxPageSize) := by
    omega
  unfold listDirectory
  dsimp only
  rw [hpath, ok_bind, ← limitOf, if_neg hlimit]
  simp only [mapFsError, ok_bind, hlisting, hstart]
  rw [page, if_neg (by omega)]
  dsimp only
  by_cases hmore : min (offset + state.limitOf request) entries.length < entries.length
  · have hstop : min (offset + state.limitOf request) entries.length =
        offset + state.limitOf request := by omega
    rw [if_pos hmore, if_pos hmore, hstop, cursorAt, if_neg (by omega)]
  · rw [if_neg hmore, if_neg hmore]

/-! ### All pages -/

/-- Follow the cursors from one on, until there is none or no request is left. -/
def follow (state : BrowseState) (tables : UnicodeTables) (requester : Requester)
    (rawPath : Option (List Char)) (showHidden : Option Bool) :
    Option (List Char) → List PageRequest →
      Except AppError (List DirectoryEntry × Option (List Char))
  | cursor, [] => .ok ([], cursor)
  | cursor, request :: rest => do
    let page ← state.listDirectory tables requester ⟨rawPath, request.limit, showHidden, cursor⟩
      (.ok request.enumerated)
    match page.nextCursor with
    | none => return (page.entries, none)
    | some next => do
      let (entries, last) ← follow state tables requester rawPath showHidden (some next) rest
      return (page.entries ++ entries, last)

/-- From an offset on, enough requests return the rest of the listing and end without a cursor. -/
theorem follow_cursorAt {requests : List PageRequest} {offset : ℕ}
    (hpath : parseQueryPath tables rawPath = .ok path)
    (haccepts : ∀ request ∈ requests, state.accepts request)
    (hlisting : ∀ request ∈ requests,
      listing tables state.limits.maxDirectoryEntries showHidden request.enumerated = .ok entries)
    (hoffset : offset ≤ entries.length) (hsome : requests ≠ [])
    (henough : entries.length - offset ≤ requests.length) :
    state.follow tables requester rawPath showHidden
        (state.cursorAt (requester.scope path) entries offset) requests =
      .ok (entries.drop offset, none) := by
  induction requests generalizing offset with
  | nil => exact absurd rfl hsome
  | cons request rest ih =>
    obtain ⟨hfirst, hrest⟩ := List.forall_mem_cons.mp haccepts
    obtain ⟨hlisting, hlistingRest⟩ := List.forall_mem_cons.mp hlisting
    have hpositive := hfirst.1
    rw [List.length_cons] at henough
    rw [follow, listDirectory_cursorAt hpath hfirst hlisting hoffset, ok_bind]
    dsimp only
    by_cases hmore : min (offset + state.limitOf request) entries.length < entries.length
    · have hstop : min (offset + state.limitOf request) entries.length =
          offset + state.limitOf request := by omega
      have hne : rest ≠ [] := by
        rintro rfl
        rw [List.length_nil] at henough
        omega
      have hnext : state.follow tables requester rawPath showHidden
          (state.cursorAt (requester.scope path) entries (offset + state.limitOf request)) rest =
            .ok (entries.drop (offset + state.limitOf request), none) :=
        ih hrest hlistingRest (by omega) hne (by omega)
      rw [if_pos hmore, hstop]
      unfold cursorAt at hnext ⊢
      rw [if_neg (by omega)] at hnext ⊢
      dsimp only
      rw [hnext, ok_bind]
      have hsplit : (entries.take (offset + state.limitOf request)).drop offset ++
          entries.drop (offset + state.limitOf request) = entries.drop offset := by
        rw [← List.drop_append_of_le_length (by rw [List.length_take]; omega), List.take_append_drop]
      dsimp only
      rw [hsplit]
      rfl
    · have hstop : min (offset + state.limitOf request) entries.length = entries.length := by omega
      rw [if_neg hmore, hstop, List.take_length]
      rfl

/-- A request with a cursor returns entries only where the cursor is accepted for its listing. -/
theorem decodeCursor_of_listDirectory {limit : Option ℕ} {cursor : List Char}
    {opened : FsResult (List RawEntry)} {page : DirectoryPage}
    (h : state.listDirectory tables requester ⟨rawPath, limit, showHidden, some cursor⟩ opened =
      .ok page) :
    ∃ path enumerated entries offset, parseQueryPath tables rawPath = .ok path ∧
      opened = .ok enumerated ∧
      listing tables state.limits.maxDirectoryEntries showHidden enumerated = .ok entries ∧
      (requester.scope path).decodeCursor state.mac (state.fingerprint entries) cursor = .ok offset := by
  obtain ⟨path, hpath, h⟩ := bind_eq_ok.mp h
  obtain ⟨-, h⟩ := ite_error_eq_ok.mp h
  obtain ⟨enumerated, henumerated, h⟩ := bind_eq_ok.mp h
  obtain ⟨entries, hentries, h⟩ := bind_eq_ok.mp h
  obtain ⟨start, hstart, -⟩ := bind_eq_ok.mp h
  obtain ⟨offset, hoffset, -⟩ := bind_eq_ok.mp hstart
  exact ⟨path, enumerated, entries, offset, hpath, mapFsError_eq_ok.mp henumerated,
    mapFsError_eq_ok.mp hentries, hoffset⟩

/-- What a cursor was made from. -/
structure CursorOrigin (tables : UnicodeTables) where
  requester : Requester
  path : ValidPath tables
  offset : UInt64
  entries : List DirectoryEntry

/-- The cursor that is made. -/
def CursorOrigin.cursor (state : BrowseState) (origin : CursorOrigin tables) : List Char :=
  (origin.requester.scope origin.path).encodeCursor state.mac origin.offset
    (state.fingerprint origin.entries)

/-- The message that the cursor's tag is over. -/
def CursorOrigin.message (state : BrowseState) (origin : CursorOrigin tables) : List UInt8 :=
  ((origin.requester.scope origin.path).call origin.offset (state.fingerprint origin.entries)).input

/-- Neither hash function maps the two origins' different messages to one value. -/
structure NoCollision (state : BrowseState) (origin other : CursorOrigin tables) : Prop where
  mac : state.mac (origin.message state) = state.mac (other.message state) →
    origin.message state = other.message state
  sha : state.fingerprint origin.entries = state.fingerprint other.entries →
    listingFingerprint origin.entries = listingFingerprint other.entries

/-- Two origins of one cursor agree in everything that a cursor is bound to. -/
theorem CursorOrigin.eq_of_cursor {origin other : CursorOrigin tables}
    (hcollision : state.NoCollision origin other)
    (haccepts : ∀ entry ∈ origin.entries, EntryName.accepts tables entry.name.value = true)
    (haccepts' : ∀ entry ∈ other.entries, EntryName.accepts tables entry.name.value = true)
    (h : origin.cursor state = other.cursor state) :
    origin.requester = other.requester ∧ origin.path = other.path ∧ origin.offset = other.offset ∧
      origin.entries.map DirectoryEntry.key = other.entries.map DirectoryEntry.key := by
  obtain ⟨hoffset, hfingerprint, htag⟩ := CursorScope.encodeCursor_inj h
  have hcall := MacCall.input_injective (hcollision.mac htag)
  unfold CursorScope.call Requester.scope at hcall
  injection hcall with hsubject hshare hpath haccess
  refine ⟨?_, hpath, hoffset, listingFingerprint_inj haccepts haccepts' (hcollision.sha hfingerprint)⟩
  obtain ⟨⟨subject, share, access⟩, path, offset, entries⟩ := origin
  obtain ⟨⟨subject', share', access'⟩, path', offset', entries'⟩ := other
  dsimp only at hsubject hshare haccess
  rw [hsubject, hshare, haccess]

variable {directory : List RawEntry}

/-- While a directory stays the same, following the cursors ends after at most as many pages as there
are visible entries, and the pages together are the visible entries, each once, by kind and name. A
request with a cursor returns entries only where the cursor was made for the same requester, path and
listing. -/
theorem pagination_complete (hpath : parseQueryPath tables rawPath = .ok path)
    (hdistinct : (directory.filterMap RawEntry.name).Nodup)
    (hlisting : listing tables state.limits.maxDirectoryEntries showHidden directory = .ok entries) :
    (∀ requests : List PageRequest, requests ≠ [] → entries.length ≤ requests.length →
        (∀ request ∈ requests, state.accepts request ∧ request.enumerated ~ directory) →
          state.follow tables requester rawPath showHidden none requests = .ok (entries, none)) ∧
      entries.Pairwise listingOrder ∧ entries.Nodup ∧
      (∀ entry, entry ∈ entries ↔
        (∃ raw ∈ directory, listed tables raw = some entry) ∧ isHidden showHidden entry = false) ∧
      ∀ (asking : Requester) (query : DirectoryQuery) (cursor : List Char)
        (opened : FsResult (List RawEntry)) (page : DirectoryPage), query.cursor = some cursor →
        state.listDirectory tables asking query opened = .ok page →
          ∃ (current : CursorOrigin tables) (enumerated : List RawEntry),
            cursor = current.cursor state ∧ current.requester = asking ∧
            parseQueryPath tables query.path = .ok current.path ∧ opened = .ok enumerated ∧
            listing tables state.limits.maxDirectoryEntries query.showHidden enumerated =
              .ok current.entries ∧
            ∀ origin : CursorOrigin tables, cursor = origin.cursor state →
              (∃ enumerated' showHidden', listing tables state.limits.maxDirectoryEntries showHidden'
                enumerated' = .ok origin.entries) →
              state.NoCollision origin current →
              origin.requester = asking ∧ origin.path = current.path ∧ origin.offset = current.offset ∧
                origin.entries.map DirectoryEntry.key = current.entries.map DirectoryEntry.key := by
  obtain ⟨-, hperm, hsorted⟩ := listing_eq_ok hlisting
  refine ⟨fun requests hsome henough hrequests => ?_, hsorted,
    (nodup_names_of_listing hdistinct hlisting).of_map _, fun entry => ?_, ?_⟩
  · have hlistings : ∀ request ∈ requests,
        listing tables state.limits.maxDirectoryEntries showHidden request.enumerated = .ok entries :=
      fun request hmem => listing_perm hdistinct (hrequests request hmem).2.symm hlisting
    have hfollow : state.follow tables requester rawPath showHidden
        (state.cursorAt (requester.scope path) entries 0) requests = .ok (entries.drop 0, none) :=
      follow_cursorAt hpath (fun request hmem => (hrequests request hmem).1) hlistings
        (Nat.zero_le _) hsome (by omega)
    exact hfollow
  · rw [hperm.mem_iff, List.mem_filter, List.mem_filterMap]
    simp
  · intro asking query cursor opened page hcursor hpage
    obtain ⟨queryPath, limit, hidden, queryCursor⟩ := query
    obtain rfl : queryCursor = some cursor := hcursor
    obtain ⟨path, enumerated, current, offset, hpath, hopened, hcurrent, hdecode⟩ :=
      decodeCursor_of_listDirectory hpage
    refine ⟨⟨asking, path, offset, current⟩, enumerated,
      CursorScope.eq_encodeCursor_of_decodeCursor hdecode, rfl, hpath, hopened, hcurrent, ?_⟩
    rintro origin horigin ⟨enumerated', showHidden', hissued⟩ hcollision
    have hsame : origin.cursor state = CursorOrigin.cursor state ⟨asking, path, offset, current⟩ :=
      horigin.symm.trans (CursorScope.eq_encodeCursor_of_decodeCursor hdecode)
    exact CursorOrigin.eq_of_cursor hcollision (accepts_of_listing hissued)
      (accepts_of_listing hcurrent) hsame

/-! ### A directory of two entries -/

/-- What the name grammar uses of Unicode, for names in ASCII. -/
def asciiTables : UnicodeTables :=
  { isNfc := fun _ => true, toUppercase := fun value => String.ofList (value.toList.map Char.toUpper) }

/-- A file and a directory. -/
def twoEntries : List RawEntry :=
  [⟨some "b", .ok (.leaf .file ⟨5, none, 7, 1⟩)⟩, ⟨some "a", .ok (.directory ⟨0, none, 3, 2⟩ .empty)⟩]

/-- Their listing. -/
def twoListed : List DirectoryEntry := [⟨⟨"a"⟩, .directory, 0, none, 3⟩, ⟨⟨"b"⟩, .file, 5, none, 7⟩]

/-- The SHA-256 digest of the fingerprint's message. -/
def twoDigest : Vector UInt8 32 :=
  #v[180, 106, 249, 25, 13, 114, 209, 185, 55, 162, 195, 90, 150, 182, 75, 121, 113, 151, 27, 35, 211,
    218, 182, 12, 5, 208, 230, 178, 222, 73, 145, 100]

/-- The HMAC-SHA-256 tag of the second page's cursor, for a key of ones. -/
def twoTag : Vector UInt8 32 :=
  #v[176, 69, 144, 221, 57, 254, 1, 143, 86, 245, 171, 176, 119, 52, 88, 154, 219, 118, 172, 36, 113,
    238, 154, 228, 205, 134, 240, 100, 136, 189, 68, 82]

def twoUser : Requester := ⟨⟨"user", by decide⟩, ⟨"share", by decide⟩, .readOnly⟩

/-- Pages of one or two entries; the hash functions have their values on the messages used. -/
def twoState : BrowseState :=
  { mac := fun message =>
      if message = framed (utf8 "user") ++ (framed (utf8 "share") ++ (framed [] ++
        (0 :: (beBytes 8 1 ++ twoDigest.toList)))) then twoTag
      else Vector.replicate 32 0
    sha := fun message =>
      if message = listingFingerprint twoListed then twoDigest else Vector.replicate 32 0
    limits := ⟨1, 2, 10, by decide⟩ }

theorem pagination_complete_twoEntries :
    twoState.follow asciiTables twoUser none none none
      [⟨none, twoEntries⟩, ⟨some 2, twoEntries.reverse⟩] = .ok (twoListed, none) := by
  have hlisting : listing asciiTables 10 none twoEntries = .ok twoListed := rfl
  refine (pagination_complete rfl (by decide) hlisting).1 _ (by simp) (by decide) ?_
  intro request hmem
  rcases List.mem_cons.mp hmem with rfl | hmem
  · exact ⟨⟨by decide, by decide⟩, .refl _⟩
  · obtain rfl := List.mem_singleton.mp hmem
    exact ⟨⟨by decide, by decide⟩, List.reverse_perm _⟩

end BrowseState

end Crabinet.Browse
