import Crabinet.Library.Hex
import Crabinet.Library.KeyedMap
import Mathlib.Data.List.Pairwise
import Mathlib.Data.List.TakeWhile

/-!
# The index of the thumbnail cache

The index has the length and the media kind of the file of every key, and the order in which
the entries were made. Eviction takes the oldest entries, as few as bring the total and the
number of entries under their limits.
-/

namespace Crabinet.Thumbnail

open Library

/-- `MAX_ENTRIES`. -/
def maxEntries : ℕ := 65536

/-- `CacheKey`. -/
structure CacheKey where
  bytes : List UInt8
  length_eq : bytes.length = 32
deriving DecidableEq

/-- `MediaKind`. -/
inductive MediaKind where
  | jpeg | png
deriving DecidableEq, Repr

/-- `Entry`. -/
structure CacheEntry where
  len : ℕ
  sequence : ℕ
  kind : MediaKind
deriving DecidableEq, Repr

/-- `Index`. The order is the map from sequences to keys, ascending. -/
structure CacheIndex where
  entries : KeyedMap CacheKey CacheEntry
  order : List (ℕ × CacheKey)
  total : ℕ
  nextSequence : ℕ

namespace CacheIndex

/-- `Index::default`. -/
def empty : CacheIndex := ⟨.empty, [], 0, 0⟩

/-- `Index::remove`. -/
def remove (index : CacheIndex) (key : CacheKey) : CacheIndex × Option CacheEntry :=
  match index.entries.get? key with
  | none => (index, none)
  | some entry =>
    ({ index with
        entries := index.entries.erase key
        order := index.order.filter fun place => place.1 ≠ entry.sequence
        total := index.total - entry.len }, some entry)

/-- Insertion into an ascending map. -/
def insertOrdered (sequence : ℕ) (key : CacheKey) (order : List (ℕ × CacheKey)) : List (ℕ × CacheKey) :=
  order.takeWhile (fun place => place.1 < sequence) ++
    (sequence, key) :: order.dropWhile (fun place => place.1 ≤ sequence)

/-- `Index::insert`. -/
def insert (index : CacheIndex) (key : CacheKey) (len : ℕ) (kind : MediaKind) : CacheIndex :=
  let removed := (index.remove key).1
  let sequence := removed.nextSequence
  { entries := removed.entries.insert key ⟨len, sequence, kind⟩
    order := insertOrdered sequence key removed.order
    total := removed.total + len
    nextSequence := sequence + 1 }

/-- The loop of `Index::evict`, over the order of the index. -/
def evictFrom (maxBytes : ℕ) : List (ℕ × CacheKey) → CacheIndex → CacheIndex × List (CacheKey × MediaKind)
  | [], index => (index, [])
  | (_, key) :: rest, index =>
    if index.total > maxBytes ∨ index.entries.size > maxEntries then
      let popped := { index with order := rest }
      match popped.entries.get? key with
      | some entry =>
        let (last, evicted) := evictFrom maxBytes rest
          { popped with entries := popped.entries.erase key, total := popped.total - entry.len }
        (last, (key, entry.kind) :: evicted)
      | none => evictFrom maxBytes rest popped
    else (index, [])

/-- `Index::evict`. -/
def evict (index : CacheIndex) (maxBytes : ℕ) : CacheIndex × List (CacheKey × MediaKind) :=
  evictFrom maxBytes index.order index

/-- The order has the entries by their sequences, and the total is that of their lengths. -/
structure WellFormed (index : CacheIndex) : Prop where
  ascending : index.order.Pairwise fun first second => first.1 < second.1
  mem_iff : ∀ sequence key, (sequence, key) ∈ index.order ↔
    ∃ entry, index.entries.get? key = some entry ∧ entry.sequence = sequence
  fresh : ∀ place ∈ index.order, place.1 < index.nextSequence
  total_eq : index.total = index.entries.total fun _ entry => entry.len

theorem wellFormed_empty : empty.WellFormed where
  ascending := List.Pairwise.nil
  mem_iff sequence key := by simp [empty]
  fresh := by simp [empty]
  total_eq := rfl

variable {index : CacheIndex} {key other : CacheKey} {entry : CacheEntry}

theorem remove_of_none (h : index.entries.get? key = none) : index.remove key = (index, none) := by
  rw [remove, h]

theorem remove_of_some (h : index.entries.get? key = some entry) : index.remove key =
    ({ index with
        entries := index.entries.erase key
        order := index.order.filter fun place => place.1 ≠ entry.sequence
        total := index.total - entry.len }, some entry) := by
  rw [remove, h]

theorem remove_snd : (index.remove key).2 = index.entries.get? key := by
  rw [remove]
  cases index.entries.get? key <;> rfl

/-- Removing a key leaves no entry for it, and the others. -/
theorem get?_remove : (index.remove key).1.entries.get? other =
    if other = key then none else index.entries.get? other := by
  cases hentry : index.entries.get? key with
  | none =>
    rw [remove_of_none hentry]
    split
    · rename_i hkey
      rw [hkey, hentry]
    · rfl
  | some entry =>
    rw [remove_of_some hentry]
    split
    · rename_i hkey
      rw [hkey]
      exact KeyedMap.get?_erase_self _ _
    · rename_i hkey
      exact KeyedMap.get?_erase_ne _ hkey

/-- Inserting sets the entry of its key and leaves the others. -/
theorem get?_insert {len : ℕ} {kind : MediaKind} : (index.insert key len kind).entries.get? other =
    if other = key then some ⟨len, (index.remove key).1.nextSequence, kind⟩ else index.entries.get? other := by
  rw [insert]
  dsimp only
  split
  · rename_i hkey
    rw [hkey, KeyedMap.get?_insert_self]
  · rename_i hkey
    rw [KeyedMap.get?_insert_ne _ hkey, get?_remove, if_neg hkey]

/-- A sequence has one key. -/
theorem WellFormed.key_unique (h : index.WellFormed) {sequence : ℕ} (hkey : (sequence, key) ∈ index.order)
    (hother : (sequence, other) ∈ index.order) : key = other := by
  have hnodup : (index.order.map Prod.fst).Nodup :=
    List.pairwise_map.mpr (h.ascending.imp Nat.ne_of_lt)
  exact (Prod.mk.inj (List.inj_on_of_nodup_map hnodup hkey hother rfl)).2

/-- The oldest key has an entry. -/
theorem WellFormed.get?_of_mem (h : index.WellFormed) {sequence : ℕ} (hkey : (sequence, key) ∈ index.order) :
    ∃ entry, index.entries.get? key = some entry ∧ entry.sequence = sequence := (h.mem_iff _ _).mp hkey

/-- Removing a key keeps the index in order. -/
theorem WellFormed.remove (h : index.WellFormed) (key : CacheKey) : (index.remove key).1.WellFormed := by
  cases hentry : index.entries.get? key with
  | none => rwa [remove_of_none hentry]
  | some entry =>
    have hplace : (entry.sequence, key) ∈ index.order := (h.mem_iff _ _).mpr ⟨entry, hentry, rfl⟩
    rw [remove_of_some hentry]
    refine ⟨h.ascending.filter _, fun sequence other => ?_, fun place hmem => ?_, ?_⟩
    · simp only [List.mem_filter, ne_eq, decide_eq_true_eq]
      by_cases hkey : other = key
      · subst hkey
        rw [KeyedMap.get?_erase_self]
        refine iff_of_false ?_ (by simp)
        rintro ⟨hmem, hne⟩
        obtain ⟨found, hfound, hsequence⟩ := h.get?_of_mem hmem
        rw [hentry] at hfound
        exact hne (Option.some.inj hfound ▸ hsequence.symm)
      · rw [KeyedMap.get?_erase_ne _ hkey, h.mem_iff]
        refine and_iff_left_of_imp ?_
        rintro hfound rfl
        exact hkey (h.key_unique ((h.mem_iff _ _).mpr hfound) hplace)
    · exact h.fresh place (List.mem_filter.mp hmem).1
    · dsimp only
      rw [h.total_eq, KeyedMap.total_of_get? hentry, Nat.add_sub_cancel_left]

/-- A sequence beyond all others goes to the end. -/
theorem insertOrdered_of_lt {sequence : ℕ} {order : List (ℕ × CacheKey)}
    (h : ∀ place ∈ order, place.1 < sequence) :
    insertOrdered sequence key order = order ++ [(sequence, key)] := by
  have htake : order.takeWhile (fun place => place.1 < sequence) = order :=
    List.takeWhile_eq_self_iff.mpr fun place hmem => decide_eq_true (h place hmem)
  have hdrop : order.dropWhile (fun place => place.1 ≤ sequence) = [] :=
    List.dropWhile_eq_nil_iff.mpr fun place hmem => decide_eq_true (h place hmem).le
  rw [insertOrdered, htake, hdrop]

/-- Inserting a key keeps the index in order. -/
theorem WellFormed.insert (h : index.WellFormed) (key : CacheKey) (len : ℕ) (kind : MediaKind) :
    (index.insert key len kind).WellFormed := by
  have hremoved := h.remove key
  have hnone : (index.remove key).1.entries.get? key = none := by rw [get?_remove, if_pos rfl]
  rw [CacheIndex.insert]
  refine ⟨?_, fun sequence other => ?_, fun place hmem => ?_, ?_⟩
  · dsimp only
    rw [insertOrdered_of_lt hremoved.fresh, List.pairwise_append]
    refine ⟨hremoved.ascending, List.pairwise_singleton _ _, fun first hfirst second hsecond => ?_⟩
    obtain rfl := List.mem_singleton.mp hsecond
    exact hremoved.fresh first hfirst
  · dsimp only
    rw [insertOrdered_of_lt hremoved.fresh, List.mem_append, List.mem_singleton, Prod.mk.injEq]
    by_cases hkey : other = key
    · subst hkey
      rw [KeyedMap.get?_insert_self, hremoved.mem_iff, hnone]
      simp [eq_comm]
    · rw [KeyedMap.get?_insert_ne _ hkey, hremoved.mem_iff]
      simp [hkey]
  · dsimp only at hmem ⊢
    rw [insertOrdered_of_lt hremoved.fresh] at hmem
    rcases List.mem_append.mp hmem with hmem | hmem
    · exact (hremoved.fresh place hmem).trans (Nat.lt_succ_self _)
    · obtain rfl := List.mem_singleton.mp hmem
      exact Nat.lt_succ_self _
  · dsimp only
    rw [KeyedMap.total_insert_of_none hnone, hremoved.total_eq, Nat.add_comm]

/-! ### Eviction -/

/-- The entries without the oldest ones. -/
def without (index : CacheIndex) (count : ℕ) : KeyedMap CacheKey CacheEntry :=
  index.entries.retain fun key _ => key ∉ (index.order.take count).map Prod.snd

/-- Some limit does not hold. -/
def Beyond (maxBytes : ℕ) (entries : KeyedMap CacheKey CacheEntry) : Prop :=
  maxBytes < entries.total (fun _ entry => entry.len) ∨ maxEntries < entries.size

/-- What eviction comes to: the oldest entries are gone, in their order, both limits hold, and with
any fewer gone one of them would not. -/
structure Evicts (index : CacheIndex) (maxBytes : ℕ)
    (result : CacheIndex × List (CacheKey × MediaKind)) : Prop where
  oldest : result.2.map Prod.fst = (index.order.take result.2.length).map Prod.snd
  kinds : ∀ gone ∈ result.2, ∃ entry, index.entries.get? gone.1 = some entry ∧ entry.kind = gone.2
  entries : result.1.entries = index.without result.2.length
  within : ¬Beyond maxBytes result.1.entries
  needed : ∀ count < result.2.length, Beyond maxBytes (index.without count)

/-- A well-formed index without order is empty. -/
theorem WellFormed.entries_of_nil (h : index.WellFormed) (hnil : index.order = []) :
    index.entries.entries = [] := by
  rw [List.eq_nil_iff_forall_not_mem]
  rintro ⟨key, entry⟩ hmem
  have hplace := (h.mem_iff entry.sequence key).mpr ⟨entry, KeyedMap.get?_eq_some.mpr hmem, rfl⟩
  rw [hnil] at hplace
  cases hplace

theorem without_zero : index.without 0 = index.entries :=
  KeyedMap.retain_eq_self fun _ _ => by simp

variable {sequence : ℕ} {rest : List (ℕ × CacheKey)}

/-- To pop the oldest key is to remove it. -/
theorem WellFormed.remove_oldest (h : index.WellFormed) (horder : index.order = (sequence, key) :: rest)
    (hentry : index.entries.get? key = some entry) : (index.remove key).1 =
      { index with
          order := rest
          entries := index.entries.erase key
          total := index.total - entry.len } := by
  have hplace : (sequence, key) ∈ index.order := horder ▸ List.mem_cons_self
  obtain ⟨found, hfound, hsequence⟩ := h.get?_of_mem hplace
  obtain rfl : found = entry := Option.some.inj (hfound.symm.trans hentry)
  have hascending := h.ascending
  rw [horder, List.pairwise_cons] at hascending
  have hrest : (index.order.filter fun place => place.1 ≠ found.sequence) = rest := by
    rw [horder, hsequence, List.filter_cons_of_neg (by simp), List.filter_eq_self]
    intro place hmem
    simpa using (hascending.1 place hmem).ne'
  rw [remove_of_some hentry, hrest]

/-- Without the oldest key, one less is to be left out. -/
theorem without_succ (horder : index.order = (sequence, key) :: rest) {removed : CacheIndex}
    (hentries : removed.entries = index.entries.erase key) (hrest : removed.order = rest) (count : ℕ) :
    removed.without count = index.without (count + 1) := by
  simp only [without, hentries, hrest, horder, KeyedMap.erase, KeyedMap.retain, List.filter_filter,
    List.take_succ_cons, List.map_cons, List.mem_cons, not_or, Bool.decide_and]
  congr 1
  exact List.filter_congr fun _ _ => Bool.and_comm _ _

/-- The limits of a well-formed index. -/
theorem WellFormed.beyond_iff (h : index.WellFormed) (maxBytes : ℕ) :
    Beyond maxBytes index.entries ↔ index.total > maxBytes ∨ index.entries.size > maxEntries := by
  rw [Beyond, ← h.total_eq]

/-- Eviction from a well-formed index. -/
theorem WellFormed.evict (h : index.WellFormed) (maxBytes : ℕ) :
    index.Evicts maxBytes (index.evict maxBytes) ∧ (index.evict maxBytes).1.WellFormed := by
  rw [CacheIndex.evict]
  induction horder : index.order generalizing index with
  | nil =>
    have hempty := h.entries_of_nil horder
    refine ⟨⟨rfl, fun _ hgone => (List.not_mem_nil hgone).elim, without_zero.symm, ?_,
        fun _ hcount => (Nat.not_lt_zero _ hcount).elim⟩, h⟩
    rw [evictFrom, Beyond, KeyedMap.total, KeyedMap.size, hempty]
    simp
  | cons place rest ih =>
    obtain ⟨sequence, key⟩ := place
    rw [evictFrom]
    by_cases hbeyond : index.total > maxBytes ∨ index.entries.size > maxEntries
    · obtain ⟨entry, hentry, -⟩ := h.get?_of_mem (horder ▸ List.mem_cons_self)
      have hremoved := h.remove_oldest horder hentry
      have hwell := h.remove key
      rw [if_pos hbeyond]
      dsimp only
      rw [hentry]
      dsimp only
      rw [hremoved] at hwell
      obtain ⟨hevicts, hlast⟩ := ih hwell rfl
      have hwithout (count : ℕ) := @without_succ index key sequence rest horder
        { index with
            order := rest
            entries := index.entries.erase key
            total := index.total - entry.len } rfl rfl count
      refine ⟨⟨?_, ?_, ?_, hevicts.within, ?_⟩, hlast⟩
      · rw [horder]
        simpa using hevicts.oldest
      · rintro gone (_ | ⟨_, hgone⟩)
        · exact ⟨entry, hentry, rfl⟩
        · obtain ⟨found, hfound, hkind⟩ := hevicts.kinds gone hgone
          exact ⟨found, KeyedMap.get?_of_erase hfound, hkind⟩
      · rw [hevicts.entries, hwithout]
        rfl
      · rintro (_ | count) hcount
        · rw [without_zero, h.beyond_iff]
          exact hbeyond
        · rw [← hwithout]
          exact hevicts.needed count (Nat.lt_of_succ_lt_succ hcount)
    · rw [if_neg hbeyond]
      refine ⟨⟨rfl, fun _ hgone => (List.not_mem_nil hgone).elim, without_zero.symm, ?_,
        fun _ hcount => (Nat.not_lt_zero _ hcount).elim⟩, h⟩
      exact (h.beyond_iff maxBytes).not.mpr hbeyond

end CacheIndex

end Crabinet.Thumbnail
