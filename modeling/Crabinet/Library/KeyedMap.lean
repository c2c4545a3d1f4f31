import Mathlib.Algebra.BigOperators.Ring.List
import Mathlib.Algebra.Order.BigOperators.Group.List
import Mathlib.Algebra.Order.Ring.Nat
import Mathlib.Data.List.Lookmap
import Mathlib.Data.List.Nodup

/-!
# Finite maps with their iteration order

A finite map is a list of pairs with distinct keys. The list is the order in which an
iteration visits the map; every lookup is independent of it. Updates keep the keys
distinct, so no later proof has to.
-/

namespace Crabinet.Library

/-- A finite map from `κ` to `ν`. -/
structure KeyedMap (κ ν : Type) where
  entries : List (κ × ν)
  nodup : (entries.map Prod.fst).Nodup

namespace KeyedMap

variable {κ ν : Type}

/-- The map without entries. -/
def empty : KeyedMap κ ν := ⟨[], List.nodup_nil⟩

/-- The number of entries. -/
def size (map : KeyedMap κ ν) : ℕ := map.entries.length

/-- The keys, in iteration order. -/
def keys (map : KeyedMap κ ν) : List κ := map.entries.map Prod.fst

/-- The sum of a weight over the entries. -/
def total (map : KeyedMap κ ν) (weight : κ → ν → ℕ) : ℕ :=
  (map.entries.map fun entry => weight entry.1 entry.2).sum

/-- Keep the entries that satisfy `keep`. -/
def retain (map : KeyedMap κ ν) (keep : κ → ν → Bool) : KeyedMap κ ν :=
  ⟨map.entries.filter fun entry => keep entry.1 entry.2,
    map.nodup.sublist (List.filter_sublist.map Prod.fst)⟩

variable [DecidableEq κ]

/-- The value of a key. -/
def get? (map : KeyedMap κ ν) (key : κ) : Option ν := map.entries.lookup key

/-- Remove a key. -/
def erase (map : KeyedMap κ ν) (key : κ) : KeyedMap κ ν := map.retain fun other _ => other ≠ key

/-- Set the value of a key. -/
def insert (map : KeyedMap κ ν) (key : κ) (value : ν) : KeyedMap κ ν :=
  ⟨(key, value) :: (map.erase key).entries, by
    rw [List.map_cons, List.nodup_cons]
    refine ⟨?_, (map.erase key).nodup⟩
    simp [erase, retain]⟩

/-- A key has a value exactly when the pair is an entry. -/
theorem get?_eq_some {map : KeyedMap κ ν} {key : κ} {value : ν} :
    map.get? key = some value ↔ (key, value) ∈ map.entries := by
  obtain ⟨entries, hnodup⟩ := map
  induction entries with
  | nil => simp [get?]
  | cons entry rest ih =>
    obtain ⟨other, stored⟩ := entry
    rw [List.map_cons, List.nodup_cons] at hnodup
    have hrest : List.lookup key rest = some value ↔ (key, value) ∈ rest := ih hnodup.2
    by_cases hkey : key = other
    · subst hkey
      have hnot : (key, value) ∉ rest := 
        fun hmem => hnodup.1 (List.mem_map.mpr ⟨_, hmem, rfl⟩)
      simp [get?, hnot, eq_comm]
    · have hbeq : (key == other) = false := by simpa using hkey
      simpa [get?, List.lookup_cons, hbeq, hkey] using hrest

theorem get?_eq_none {map : KeyedMap κ ν} {key : κ} :
    map.get? key = none ↔ key ∉ map.keys := by
  simp only [get?, keys, List.lookup_eq_none_iff, List.mem_map, not_exists, not_and]
  constructor
  · intro h entry hentry heq
    simpa [heq] using h entry hentry
  · intro h entry hentry
    simpa using fun heq => h entry hentry heq.symm

theorem get?_isSome {map : KeyedMap κ ν} {key : κ} :
    (map.get? key).isSome = true ↔ key ∈ map.keys := by
  rw [Option.isSome_iff_ne_none, ne_eq, get?_eq_none, not_not]

/-- The iteration order does not matter to a lookup. -/
theorem get?_perm {first second : KeyedMap κ ν} (h : first.entries.Perm second.entries) (key : κ) :
    first.get? key = second.get? key := by
  ext value
  simp only [get?_eq_some]
  exact h.mem_iff

@[simp] theorem get?_empty (key : κ) : (empty : KeyedMap κ ν).get? key = none := rfl

/-- A retained key keeps its value when that value is kept. -/
theorem get?_retain (map : KeyedMap κ ν) (keep : κ → ν → Bool) (key : κ) :
    (map.retain keep).get? key = (map.get? key).filter (keep key) := by
  ext value
  simp only [get?_eq_some, Option.filter_eq_some_iff]
  simp [retain]

omit [DecidableEq κ] in
/-- Retaining every entry changes nothing. -/
theorem retain_eq_self {map : KeyedMap κ ν} {keep : κ → ν → Bool}
    (h : ∀ entry ∈ map.entries, keep entry.1 entry.2 = true) : map.retain keep = map := by
  obtain ⟨entries, hnodup⟩ := map
  simp only [retain, mk.injEq]
  exact List.filter_eq_self.mpr h

/-- Retaining invents no entry. -/
theorem get?_of_retain {map : KeyedMap κ ν} {keep : κ → ν → Bool} {key : κ} {value : ν}
    (h : (map.retain keep).get? key = some value) :
    map.get? key = some value ∧ keep key value = true := by
  rw [get?_retain, Option.filter_eq_some_iff] at h
  exact h

@[simp] theorem get?_erase_self (map : KeyedMap κ ν) (key : κ) : (map.erase key).get? key = none := by
  simp [erase, get?_retain]

theorem get?_erase_ne (map : KeyedMap κ ν) {key other : κ} (h : other ≠ key) :
    (map.erase key).get? other = map.get? other := by
  rw [erase, get?_retain]
  cases map.get? other <;> simp [h]

/-- Erasing invents no entry. -/
theorem get?_of_erase {map : KeyedMap κ ν} {key other : κ} {value : ν}
    (h : (map.erase key).get? other = some value) : map.get? other = some value :=
  (get?_of_retain h).1

@[simp] theorem get?_insert_self (map : KeyedMap κ ν) (key : κ) (value : ν) :
    (map.insert key value).get? key = some value := by
  simp [insert, get?_eq_some]

theorem get?_insert_ne (map : KeyedMap κ ν) {key other : κ} (h : other ≠ key) (value : ν) :
    (map.insert key value).get? other = map.get? other := by
  rw [← get?_erase_ne map h]
  ext found
  simp [insert, get?_eq_some, h]

omit [DecidableEq κ] in
theorem size_retain_le (map : KeyedMap κ ν) (keep : κ → ν → Bool) :
    (map.retain keep).size ≤ map.size :=
  List.length_filter_le _ _

/-- Removing a present key leaves one entry less. -/
theorem size_erase_of_mem {map : KeyedMap κ ν} {key : κ} (h : key ∈ map.keys) :
    (map.erase key).size + 1 = map.size := by
  obtain ⟨entries, hnodup⟩ := map
  induction entries with
  | nil => simp [keys] at h
  | cons entry rest ih =>
    rw [List.map_cons, List.nodup_cons] at hnodup
    by_cases hkey : entry.1 = key
    · have hrest : rest.filter (fun other => decide (other.1 ≠ key)) = rest := by
        rw [List.filter_eq_self]
        intro other hother
        have hne : other.1 ≠ key := fun heq => hnodup.1 (hkey ▸ heq ▸ List.mem_map_of_mem hother)
        simpa using hne
      simp only [erase, retain, size, List.filter_cons, hkey, hrest, List.length_cons]
      simp
    · have hmem : key ∈ rest.map Prod.fst := by
        rcases List.mem_cons.mp h with heq | hmem
        · exact absurd heq.symm hkey
        · exact hmem
      have hrest : (rest.filter fun other => decide (other.1 ≠ key)).length + 1 = rest.length :=
        ih hnodup.2 hmem
      simp only [erase, retain, size, List.filter_cons, List.length_cons]
      simpa [hkey] using hrest

theorem erase_of_not_mem {map : KeyedMap κ ν} {key : κ} (h : key ∉ map.keys) :
    map.erase key = map := by
  obtain ⟨entries, hnodup⟩ := map
  simp only [erase, retain, mk.injEq, List.filter_eq_self]
  intro entry hentry
  have hne : entry.1 ≠ key := fun heq => h (heq ▸ List.mem_map_of_mem hentry)
  simpa using hne

/-- The entry of a key is one of the entries; the others are those without the key. -/
theorem entries_perm_of_get? {map : KeyedMap κ ν} {key : κ} {value : ν}
    (h : map.get? key = some value) :
    ((key, value) :: (map.erase key).entries).Perm map.entries := by
  obtain ⟨entries, hnodup⟩ := map
  rw [get?_eq_some] at h
  induction entries with
  | nil => cases h
  | cons entry rest ih =>
    obtain ⟨hkey, hrest⟩ := List.nodup_cons.mp hnodup
    rcases List.mem_cons.mp h with rfl | hmem
    · have herase := @erase_of_not_mem _ _ _ ⟨rest, hrest⟩ _ hkey
      have hfilter : rest.filter (fun other => decide (other.1 ≠ key)) = rest :=
        congrArg entries herase
      simp only [erase, retain, List.filter_cons, ne_eq, not_true_eq_false, decide_false,
        Bool.false_eq_true, if_false]
      rw [hfilter]
    · have hne : entry.1 ≠ key := fun heq => hkey (heq ▸ List.mem_map_of_mem hmem)
      have hperm := ih hrest hmem
      simp only [erase, retain, List.filter_cons, ne_eq, hne, not_false_eq_true, decide_true,
        if_true]
      exact (List.Perm.swap _ _ _).trans (hperm.cons entry)

@[simp] theorem size_insert (map : KeyedMap κ ν) (key : κ) (value : ν) :
    (map.insert key value).size = (map.erase key).size + 1 := rfl

/-- Setting a present key keeps the number of entries. -/
theorem size_insert_of_some {map : KeyedMap κ ν} {key : κ} {old : ν} (h : map.get? key = some old)
    (value : ν) : (map.insert key value).size = map.size := by
  rw [size_insert, size_erase_of_mem (get?_isSome.mp (by rw [h, Option.isSome_some]))]

/-- Setting an absent key adds an entry. -/
theorem size_insert_of_none {map : KeyedMap κ ν} {key : κ} (h : map.get? key = none) (value : ν) :
    (map.insert key value).size = map.size + 1 := by
  rw [size_insert, erase_of_not_mem (get?_eq_none.mp h)]

theorem size_erase_le (map : KeyedMap κ ν) (key : κ) : (map.erase key).size ≤ map.size :=
  map.size_retain_le _

/-- A total is the weight of one entry and the total of the others. -/
theorem total_of_get? {map : KeyedMap κ ν} {key : κ} {value : ν} (h : map.get? key = some value)
    (weight : κ → ν → ℕ) : map.total weight = weight key value + (map.erase key).total weight := by
  have hperm := (entries_perm_of_get? h).map fun entry => weight entry.1 entry.2
  rw [total, ← hperm.sum_eq, List.map_cons, List.sum_cons, total]

theorem total_insert (map : KeyedMap κ ν) (key : κ) (value : ν) (weight : κ → ν → ℕ) :
    (map.insert key value).total weight = weight key value + (map.erase key).total weight := by
  simp [total, insert]

/-- Setting an absent key adds its weight. -/
theorem total_insert_of_none {map : KeyedMap κ ν} {key : κ} (h : map.get? key = none) (value : ν)
    (weight : κ → ν → ℕ) :
    (map.insert key value).total weight = weight key value + map.total weight := by
  rw [total_insert, erase_of_not_mem (get?_eq_none.mp h)]

/-- An entry weighs no more than all. -/
theorem le_total {map : KeyedMap κ ν} {key : κ} {value : ν} (h : map.get? key = some value)
    (weight : κ → ν → ℕ) : weight key value ≤ map.total weight := by
  rw [total_of_get? h]
  exact Nat.le_add_right _ _

/-- Two entries weigh no more than all. -/
theorem add_le_total {map : KeyedMap κ ν} {key other : κ} {value found : ν}
    (h : map.get? key = some value) (hother : map.get? other = some found) (hne : other ≠ key)
    (weight : κ → ν → ℕ) : weight key value + weight other found ≤ map.total weight := by
  rw [total_of_get? h]
  rw [← get?_erase_ne map hne] at hother
  exact Nat.add_le_add_left (le_total hother weight) _

/-- Where only one key may weigh anything, the total is at most its weight. -/
theorem total_le_of_forall_ne {map : KeyedMap κ ν} {key : κ} {value : ν}
    (h : map.get? key = some value) (weight : κ → ν → ℕ)
    (hne : ∀ other found, other ≠ key → map.get? other = some found → weight other found = 0) :
    map.total weight ≤ weight key value := by
  rw [total_of_get? h]
  have hzero : (map.erase key).total weight = 0 := by
    refine List.sum_eq_zero fun term hterm => ?_
    obtain ⟨entry, hentry, rfl⟩ := List.mem_map.mp hterm
    have hget : (map.erase key).get? entry.1 = some entry.2 := get?_eq_some.mpr hentry
    refine hne _ _ (fun heq => ?_) (get?_of_erase hget)
    rw [heq, get?_erase_self] at hget
    cases hget
  rw [hzero, Nat.add_zero]

omit [DecidableEq κ] in
/-- A bound on every weight is one on the total. -/
theorem total_le_mul {map : KeyedMap κ ν} {weight other : κ → ν → ℕ} {factor : ℕ}
    (h : ∀ key value, weight key value ≤ other key value * factor) :
    map.total weight ≤ map.total other * factor := by
  have hsum := List.sum_map_mul_right map.entries (fun entry => other entry.1 entry.2) factor
  rw [total, total, ← hsum]
  exact List.sum_le_sum fun entry _ => h entry.1 entry.2

end KeyedMap

end Crabinet.Library
