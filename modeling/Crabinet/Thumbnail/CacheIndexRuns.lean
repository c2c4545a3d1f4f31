import Crabinet.Thumbnail.CacheIndex
import Mathlib.Data.List.Induction

/-!
# Runs of the index of the thumbnail cache

Opening the cache inserts what the directory has and evicts; storing inserts and evicts; reading
leaves the index alone, or drops a key whose file is gone; removing drops a key. In any order of
these the two maps and the two counters of the index agree.
-/

namespace Crabinet.Thumbnail

open Library

/-- What the cache does with its index. -/
inductive IndexStep where
  | insert (key : CacheKey) (len : ℕ) (kind : MediaKind)
  | get (key : CacheKey) (readable : Bool)
  | remove (key : CacheKey)
  | evict (maxBytes : ℕ)

namespace CacheIndex

/-- `ThumbnailCache::get` on the index: the file of a known key is read, and the key is dropped
where that fails. -/
def get (index : CacheIndex) (key : CacheKey) (readable : Bool) : CacheIndex :=
  match index.entries.get? key with
  | none => index
  | some _ => if readable then index else (index.remove key).1

/-- One step on the index. -/
def apply (index : CacheIndex) : IndexStep → CacheIndex
  | .insert key len kind => index.insert key len kind
  | .get key readable => index.get key readable
  | .remove key => (index.remove key).1
  | .evict maxBytes => (index.evict maxBytes).1

/-- Steps from the empty index. -/
def run (steps : List IndexStep) : CacheIndex := steps.foldl apply empty

end CacheIndex

/-- The lengths that steps insert. -/
def insertedLengths (steps : List IndexStep) : List ℕ :=
  steps.filterMap fun
    | .insert _ len _ => some len
    | _ => none

@[simp]
theorem insertedLengths_append (steps later : List IndexStep) :
    insertedLengths (steps ++ later) = insertedLengths steps ++ insertedLengths later :=
  List.filterMap_append

namespace CacheIndex

variable {index : CacheIndex}

/-- The index is about its insertions: it is well formed, each of them had the next sequence, and
what is there is of lengths they had. -/
structure Accounts (index : CacheIndex) (steps : List IndexStep) : Prop where
  wellFormed : index.WellFormed
  counted : index.nextSequence = (insertedLengths steps).length
  total_le : index.total ≤ (insertedLengths steps).sum

theorem remove_total_le (key : CacheKey) : (index.remove key).1.total ≤ index.total := by
  rw [remove]
  cases index.entries.get? key with
  | none => exact le_rfl
  | some entry => exact Nat.sub_le _ _

theorem remove_nextSequence (key : CacheKey) : (index.remove key).1.nextSequence = index.nextSequence := by
  rw [remove]
  cases index.entries.get? key <;> rfl

theorem evictFrom_total_le (maxBytes : ℕ) (order : List (ℕ × CacheKey)) (index : CacheIndex) :
    (evictFrom maxBytes order index).1.total ≤ index.total := by
  fun_induction evictFrom maxBytes order index with
  | case1 | case4 => exact le_rfl
  | case2 index _ key rest _ popped entry _ last evicted heq ih =>
    rw [heq] at ih
    exact ih.trans (Nat.sub_le _ _)
  | case3 index _ key rest _ popped _ ih => exact ih

theorem evictFrom_nextSequence (maxBytes : ℕ) (order : List (ℕ × CacheKey)) (index : CacheIndex) :
    (evictFrom maxBytes order index).1.nextSequence = index.nextSequence := by
  fun_induction evictFrom maxBytes order index with
  | case1 | case4 => rfl
  | case2 index _ key rest _ popped entry _ last evicted heq ih =>
    rw [heq] at ih
    exact ih
  | case3 index _ key rest _ popped _ ih => exact ih

variable {steps : List IndexStep} {key : CacheKey}

theorem Accounts.insert (h : index.Accounts steps) (key : CacheKey) (len : ℕ) (kind : MediaKind) :
    (index.insert key len kind).Accounts (steps ++ [.insert key len kind]) where
  wellFormed := h.wellFormed.insert key len kind
  counted := by
    have hnext : (index.insert key len kind).nextSequence = index.nextSequence + 1 :=
      congrArg (· + 1) (remove_nextSequence key)
    rw [hnext, h.counted, insertedLengths_append, List.length_append]
    rfl
  total_le := by
    have htotal : (index.insert key len kind).total ≤ index.total + len :=
      Nat.add_le_add_right (remove_total_le key) len
    have hlengths : insertedLengths [IndexStep.insert key len kind] = [len] := rfl
    rw [insertedLengths_append, hlengths, List.sum_append_nat, List.sum_singleton]
    exact htotal.trans (Nat.add_le_add_right h.total_le len)

/-- A step that inserts nothing keeps the account. -/
theorem Accounts.of_le (h : index.Accounts steps) {last : CacheIndex} {step : IndexStep}
    (hstep : insertedLengths [step] = []) (hwell : last.WellFormed)
    (hnext : last.nextSequence = index.nextSequence) (htotal : last.total ≤ index.total) :
    last.Accounts (steps ++ [step]) where
  wellFormed := hwell
  counted := by rw [insertedLengths_append, hstep, List.append_nil, hnext, h.counted]
  total_le := by
    rw [insertedLengths_append, hstep, List.append_nil]
    exact htotal.trans h.total_le

/-- One step keeps the account. -/
theorem Accounts.apply (h : index.Accounts steps) (step : IndexStep) :
    (index.apply step).Accounts (steps ++ [step]) := by
  cases step with
  | insert key len kind => exact h.insert key len kind
  | get key readable =>
    rw [CacheIndex.apply, CacheIndex.get]
    have hkept : index.Accounts (steps ++ [.get key readable]) := h.of_le rfl h.wellFormed rfl le_rfl
    cases index.entries.get? key with
    | none => exact hkept
    | some entry =>
      cases readable with
      | true => exact hkept
      | false => exact h.of_le rfl (h.wellFormed.remove key) (remove_nextSequence key) (remove_total_le key)
  | remove key => exact h.of_le rfl (h.wellFormed.remove key) (remove_nextSequence key) (remove_total_le key)
  | evict maxBytes =>
    exact h.of_le rfl (h.wellFormed.evict maxBytes).2 (evictFrom_nextSequence _ _ _)
      (evictFrom_total_le _ _ _)

/-- A run keeps the account. -/
theorem accounts_run (steps : List IndexStep) : (run steps).Accounts steps := by
  induction steps using List.reverseRecOn with
  | nil => exact ⟨wellFormed_empty, rfl, le_rfl⟩
  | append_singleton steps step ih =>
    rw [run, List.foldl_append]
    exact ih.apply step

/-- The order lists the keys of a well-formed index, each once. -/
theorem WellFormed.order_perm (h : index.WellFormed) :
    index.order.Perm (index.entries.entries.map fun place => (place.2.sequence, place.1)) := by
  have horder : index.order.Nodup :=
    h.ascending.imp fun hlt heq => absurd (congrArg Prod.fst heq) hlt.ne
  have hentries : (index.entries.entries.map fun place => (place.2.sequence, place.1)).Nodup := by
    refine List.Nodup.of_map Prod.snd ?_
    rw [List.map_map]
    exact index.entries.nodup
  rw [List.perm_ext_iff_of_nodup horder hentries]
  rintro ⟨sequence, key⟩
  rw [h.mem_iff, List.mem_map]
  constructor
  · rintro ⟨entry, hentry, rfl⟩
    exact ⟨(key, entry), KeyedMap.get?_eq_some.mp hentry, rfl⟩
  · rintro ⟨⟨found, entry⟩, hmem, heq⟩
    obtain ⟨rfl, rfl⟩ := Prod.mk.inj heq
    exact ⟨entry, KeyedMap.get?_eq_some.mpr hmem, rfl⟩

/-- Two maps and two counters that agree: the order is the entries by their sequences, no sequence
is there twice and the next one is beyond them, and the total is the sum of the lengths. -/
structure Agrees (index : CacheIndex) : Prop where
  one_to_one : index.order.Perm (index.entries.entries.map fun place => (place.2.sequence, place.1))
  increasing : (index.order.map Prod.fst).Pairwise (· < ·)
  distinct : (index.order.map Prod.snd).Nodup
  beyond : ∀ place ∈ index.order, place.1 < index.nextSequence
  total_eq : index.total = (index.entries.entries.map fun place => place.2.len).sum

theorem WellFormed.agrees (h : index.WellFormed) : index.Agrees where
  one_to_one := h.order_perm
  increasing := List.pairwise_map.mpr h.ascending
  distinct := by
    rw [(h.order_perm.map Prod.snd).nodup_iff, List.map_map]
    exact index.entries.nodup
  beyond := h.fresh
  total_eq := h.total_eq

/-- Over any sequence of insertions, replacements, reads, removals and evictions the maps and
counters of the index agree, a sequence is the number of the insertions before its own, the total
is at most what was inserted, and an eviction brings both limits to hold. -/
theorem index_agrees (steps : List IndexStep) :
    (run steps).Agrees ∧
      (run steps).nextSequence = (insertedLengths steps).length ∧
      (run steps).total ≤ (insertedLengths steps).sum ∧
      ∀ maxBytes, (run (steps ++ [.evict maxBytes])).total ≤ maxBytes ∧
        (run (steps ++ [.evict maxBytes])).entries.size ≤ maxEntries := by
  have haccounts := accounts_run steps
  refine ⟨haccounts.wellFormed.agrees, haccounts.counted, haccounts.total_le, fun maxBytes => ?_⟩
  have hrun : run (steps ++ [.evict maxBytes]) = ((run steps).evict maxBytes).1 := List.foldl_append
  have hwithin := (haccounts.wellFormed.evict maxBytes).1.within
  rw [(haccounts.wellFormed.evict maxBytes).2.beyond_iff, not_or, not_lt, not_lt] at hwithin
  rw [hrun]
  exact hwithin

end CacheIndex

end Crabinet.Thumbnail
