import Crabinet.Filesystem.VirtualPath
import Crabinet.Library.KeyedMap
import Mathlib.Data.List.MinMax

/-!
# The folder size cache

The cache as the source keeps it: a map from share and path to a size and the instant it
was stored, and a generation counter that every invalidation advances. The map's iteration
order breaks ties between equally old entries; the steps of the next module let it change
at any time. The payload is a parameter.
-/

namespace Crabinet.Browse

open Crabinet.Filesystem Crabinet.Library

/-- The key of a cached size. -/
structure FolderKey where
  share : ShareId
  path : VirtualPath
deriving DecidableEq

/-- `Cached`: a payload and the instant it was stored. -/
structure Cached (α : Type) where
  size : α
  stored : ℕ
deriving DecidableEq

/-- `FolderSizeCache` with its `Inner` state. -/
structure FolderSizeCache (α : Type) where
  entries : KeyedMap FolderKey (Cached α)
  generation : ℕ
  ttl : ℕ
  capacity : ℕ

/-- A change at `path` of `share` touches the cached size of `key`: the key's folder contains
the path or lies beneath it. -/
def Touches (share : ShareId) (path : VirtualPath) (key : FolderKey) : Prop :=
  key.share = share ∧ (path.startsWith key.path = true ∨ key.path.startsWith path = true)

instance (share : ShareId) (path : VirtualPath) (key : FolderKey) :
    Decidable (Touches share path key) := by
  unfold Touches
  infer_instance

namespace FolderSizeCache

variable {α : Type}

/-- `new`. -/
def new (ttl capacity : ℕ) : FolderSizeCache α :=
  { entries := .empty, generation := 0, ttl, capacity := max capacity 1 }

/-- Whether a value is within its lifetime; instants subtract without going below zero. -/
def isFresh (cache : FolderSizeCache α) (now : ℕ) (cached : Cached α) : Bool :=
  now - cached.stored < cache.ttl

/-- `get_at`. -/
def getAt (cache : FolderSizeCache α) (key : FolderKey) (now : ℕ) :
    Option α × FolderSizeCache α :=
  match cache.entries.get? key with
  | none => (none, cache)
  | some cached =>
    if cache.isFresh now cached then (some cached.size, cache)
    else (none, { cache with entries := cache.entries.erase key })

/-- The eviction of `insert_at`: expired values, and then the oldest if that is not enough. -/
def makeRoom (cache : FolderSizeCache α) (key : FolderKey) (now : ℕ) :
    KeyedMap FolderKey (Cached α) :=
  if (cache.entries.get? key).isNone ∧ cache.capacity ≤ cache.entries.size then
    let kept := cache.entries.retain fun _ cached => cache.isFresh now cached
    if cache.capacity ≤ kept.size then
      match kept.entries.argmin fun entry => entry.2.stored with
      | some oldest => kept.erase oldest.1
      | none => kept
    else kept
  else cache.entries

/-- `insert_at`. -/
def insertAt (cache : FolderSizeCache α) (key : FolderKey) (size : α) (started now : ℕ) :
    FolderSizeCache α :=
  if cache.generation ≠ started then cache
  else { cache with entries := (cache.makeRoom key now).insert key ⟨size, now⟩ }

/-- `invalidate`. -/
def invalidate (cache : FolderSizeCache α) (share : ShareId) (path : VirtualPath) :
    FolderSizeCache α :=
  { cache with
    generation := (cache.generation + 1) % 2 ^ 64
    entries := cache.entries.retain fun key _ => ¬Touches share path key }

/-- `invalidate_share`. -/
def invalidateShare (cache : FolderSizeCache α) (share : ShareId) : FolderSizeCache α :=
  cache.invalidate share .root

/-- What `audited` does to the cache after a mutation. -/
def audited (cache : FolderSizeCache α) (rawShareId : String) (succeeded : Bool) :
    FolderSizeCache α :=
  if succeeded then
    match ShareId.new rawShareId with
    | .ok share => cache.invalidateShare share
    | .error _ => cache
  else cache

/-- The path one watch event invalidates: the changed entry, or the watched directory when the
event has no usable name. -/
def changedPath (path : VirtualPath) : Option EntryName → VirtualPath
  | some name => path.join name
  | none => path

/-- `WatchedSizes::invalidate`. -/
def watched (cache : FolderSizeCache α) (share : ShareId) (path : VirtualPath)
    (changed : List (Option EntryName)) : FolderSizeCache α :=
  changed.foldl (fun cache name => cache.invalidate share (changedPath path name)) cache

/-- The map holds no more entries than its capacity. -/
structure WithinCapacity (cache : FolderSizeCache α) : Prop where
  size_le : cache.entries.size ≤ cache.capacity
  capacity_pos : 0 < cache.capacity

variable {cache : FolderSizeCache α} {key : FolderKey}

theorem getAt_entries_get? {other : FolderKey} {now : ℕ} {cached : Cached α}
    (h : (cache.getAt key now).2.entries.get? other = some cached) :
    cache.entries.get? other = some cached := by
  unfold getAt at h
  split at h
  · exact h
  · split at h
    · exact h
    · exact KeyedMap.get?_of_erase h

theorem getAt_size_le (now : ℕ) : (cache.getAt key now).2.entries.size ≤ cache.entries.size := by
  unfold getAt
  split
  · exact le_rfl
  · split
    · exact le_rfl
    · exact cache.entries.size_erase_le key

/-- A value served is the stored one, within its lifetime. -/
theorem getAt_eq_some {now : ℕ} {size : α} (h : (cache.getAt key now).1 = some size) :
    ∃ cached, cache.entries.get? key = some cached ∧ cached.size = size ∧
      now - cached.stored < cache.ttl := by
  unfold getAt at h
  split at h
  · cases h
  · rename_i cached hcached
    split at h
    · rename_i hfresh
      exact ⟨cached, hcached, Option.some.inj h, by simpa [isFresh] using hfresh⟩
    · cases h

/-- Making room drops entries and never invents one. -/
theorem makeRoom_get? {other : FolderKey} {now : ℕ} {cached : Cached α}
    (h : (cache.makeRoom key now).get? other = some cached) :
    cache.entries.get? other = some cached := by
  unfold makeRoom at h
  dsimp only at h
  split at h
  · split at h
    · split at h
      · exact (KeyedMap.get?_of_retain (KeyedMap.get?_of_erase h)).1
      · exact (KeyedMap.get?_of_retain h).1
    · exact (KeyedMap.get?_of_retain h).1
  · exact h

/-- After making room there is room for the key. -/
theorem makeRoom_size (hcap : cache.WithinCapacity) (now : ℕ) :
    ((cache.makeRoom key now).erase key).size + 1 ≤ cache.capacity := by
  obtain ⟨hsize, hpos⟩ := hcap
  unfold makeRoom
  dsimp only
  set kept := cache.entries.retain fun _ cached => cache.isFresh now cached
  have hkept : kept.size ≤ cache.entries.size := cache.entries.size_retain_le _
  split
  · split
    · rename_i hfull
      split
      · rename_i oldest holdest
        have hmem : oldest.1 ∈ kept.keys := List.mem_map_of_mem (List.argmin_mem holdest)
        have hremoved := KeyedMap.size_erase_of_mem hmem
        have hle := (kept.erase oldest.1).size_erase_le key
        omega
      · rename_i hnone
        have hempty : kept.size = 0 := by
          rw [KeyedMap.size, List.argmin_eq_none.mp hnone, List.length_nil]
        omega
    · have hle := kept.size_erase_le key
      omega
  · rename_i hroom
    by_cases hkey : key ∈ cache.entries.keys
    · have hremoved := KeyedMap.size_erase_of_mem hkey
      omega
    · rw [← KeyedMap.get?_eq_none, ← Option.isNone_iff_eq_none] at hkey
      have hle := cache.entries.size_erase_le key
      have hlt : cache.entries.size < cache.capacity := by
        by_contra hge
        exact hroom ⟨hkey, Nat.le_of_not_lt hge⟩
      omega

/-- Inserting keeps the number of entries within the capacity. -/
theorem WithinCapacity.insertAt (hcap : cache.WithinCapacity) (size : α) (started now : ℕ) :
    (cache.insertAt key size started now).WithinCapacity := by
  unfold FolderSizeCache.insertAt
  split
  · exact hcap
  · exact ⟨makeRoom_size hcap now, hcap.capacity_pos⟩

/-- An invalidation forgets exactly the entries it touches. -/
theorem invalidate_get? (cache : FolderSizeCache α) (share : ShareId) (path : VirtualPath)
    (key : FolderKey) :
    (cache.invalidate share path).entries.get? key =
      if Touches share path key then none else cache.entries.get? key := by
  rw [invalidate, KeyedMap.get?_retain]
  by_cases h : Touches share path key <;> cases cache.entries.get? key <;> simp [h]

end FolderSizeCache

end Crabinet.Browse
