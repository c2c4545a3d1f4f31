import Crabinet.Trash.Purge

/-!
# What a purge costs

A purge under a budget removes what an unlimited one would, or exactly its budget. Where it
is refused midway it has removed entries as well, but these are in no count.
-/

namespace Crabinet.Trash

open Crabinet.Filesystem Crabinet.Library

namespace TrashDirectory

/-- The number of entries in all payloads. -/
def payloadCount (trash : TrashDirectory) : ℕ :=
  (trash.payloads.entries.map fun payload => payload.2.count).sum

theorem payloadCount_erase {trash : TrashDirectory} {id : TrashId} {entry : Entry}
    (h : trash.payloads.get? id = some entry) :
    { trash with payloads := trash.payloads.erase id }.payloadCount + entry.count =
      trash.payloadCount := by
  have hsum := ((KeyedMap.entries_perm_of_get? h).map fun payload => payload.2.count).sum_nat
  rw [List.map_cons, List.sum_cons] at hsum
  rw [payloadCount, payloadCount, ← hsum, Nat.add_comm]

/-- A payload that is replaced counts as its new entries. -/
theorem payloadCount_insert {trash : TrashDirectory} {id : TrashId} {entry : Entry}
    (h : trash.payloads.get? id = some entry) (kept : Entry) :
    { trash with payloads := trash.payloads.insert id kept }.payloadCount + entry.count =
      trash.payloadCount + kept.count := by
  rw [← payloadCount_erase h]
  simp only [payloadCount, KeyedMap.insert, List.map_cons, List.sum_cons]
  omega

/-- The entries that go before an unlimited removal of a payload is refused. -/
def payloadLoss (faults : Faults) : Option Entry → ℕ
  | none => 0
  | some (.leaf type stat) =>
    match (Entry.leaf type stat).metadata with
    | .error _ => 0
    | .ok _ => if faults.payload then 0 else 1
  | some (.directory _ inside) =>
    if faults.open_ then 0
    else
      match inside.removeTree faults.removal (inside.count + 1) 0 payloadDepth with
      | (_, count, .ok _) => if faults.payload then count else count + 1
      | (_, count, .error _) => count

/-- The entries that go before an unlimited purge is refused. -/
def loss (faults : Faults) (trash : TrashDirectory) (id : TrashId) : ℕ :=
  if faults.read then 0
  else
    match trash.readSidecar id with
    | .error _ => 0
    | .ok sidecar =>
      if sidecar.state = .pending ∨ (sidecar.state ≠ .purging ∧ faults.mark = true) then 0
      else if faults.inspect then 0
      else payloadLoss faults (trash.payloads.get? id)

/-- The entries that a purge removes, by what it attempts and loses without a limit. -/
def removal (demand : ℕ × Bool) (loss limit : ℕ) : ℕ :=
  if demand.1 ≤ limit then if demand.2 then demand.1 else loss else limit

/-- A purge leaves a payload count that is smaller by what it removed; where its budget is too small
for what it attempts, it succeeds with its budget used up and the sidecar still there. -/
structure Charged (demand : ℕ × Bool) (loss limit : ℕ) (id : TrashId) (before : TrashDirectory)
    (result : TrashDirectory × FsResult ℕ) : Prop where
  count : result.1.payloadCount + removal demand loss limit = before.payloadCount
  short : limit < demand.1 →
    result.2 = .ok limit ∧ (before.sidecars.get? id ≠ none → result.1.sidecars.get? id ≠ none)

theorem Charged.refused (limit : ℕ) (id : TrashId) (trash : TrashDirectory) (error : FsErrorCode) :
    Charged (0, false) 0 limit id trash (trash, .error error) :=
  ⟨by simp [removal], fun hlimit => absurd hlimit (Nat.not_lt_zero _)⟩

/-- The removal of the sidecar removes no payload entry. -/
theorem payloadCount_removeSidecar (faults : Faults) (trash : TrashDirectory) (id : TrashId) (count : ℕ) :
    (trash.removeSidecar faults id count).1.payloadCount = trash.payloadCount := by
  unfold removeSidecar
  split <;> rfl

theorem removePayload_charged (faults : Faults) (trash : TrashDirectory) (id : TrashId) {limit : ℕ}
    (hlimit : 0 < limit) :
    Charged (payloadDemand faults (trash.payloads.get? id)) (payloadLoss faults (trash.payloads.get? id))
      limit id trash (trash.removePayload faults id limit) := by
  unfold removePayload
  cases hpayload : trash.payloads.get? id with
  | none =>
    refine ⟨?_, fun hshort => absurd hshort (Nat.not_lt_zero _)⟩
    simp [payloadCount_removeSidecar, removal, payloadDemand, payloadLoss]
  | some entry =>
    have herase := payloadCount_erase hpayload
    have hinsert := payloadCount_insert hpayload
    cases entry with
    | leaf type stat =>
      unfold payloadDemand payloadLoss
      dsimp only
      cases hmetadata : (Entry.leaf type stat).metadata with
      | error error => exact Charged.refused _ _ _ _
      | ok metadata =>
        dsimp only
        rw [if_neg hlimit.ne']
        have hone : 1 ≤ limit := hlimit
        refine ⟨?_, fun hshort => absurd hshort (Nat.not_lt.mpr hlimit)⟩
        cases faults.payload with
        | true => simp [removal, hone]
        | false =>
          rw [Entry.count] at herase
          simp only [Bool.false_eq_true, if_false, payloadCount_removeSidecar, removal, hone, if_true,
            ite_self]
          exact herase
    | directory stat inside =>
      unfold payloadDemand payloadLoss
      dsimp only
      cases hopen : faults.open_ with
      | true => exact Charged.refused _ _ _ _
      | false =>
        simp only [Bool.false_eq_true, if_false]
        cases htree : inside.removeTree faults.removal (inside.count + 1) 0 payloadDepth with
        | mk left rest =>
          obtain ⟨count, result⟩ := rest
          have hlarge : 0 + inside.count < inside.count + 1 := by omega
          obtain ⟨-, hcount, hempty, -⟩ := Contents.removeTree_count htree
          by_cases hcovers : count + 1 ≤ limit
          · -- The budget covers what is attempted, so that it makes no difference.
            have hsame := Contents.removeTree_of_fits htree hlarge (fun _ => Nat.le_of_lt hcovers)
              fun _ _ => hcovers
            rw [hsame]
            have hkept := hinsert (.directory stat left)
            simp only [Entry.count] at herase hkept
            rcases Contents.removeTree_unbounded htree hlarge with rfl | ⟨error, rfl⟩
            · obtain rfl := hempty rfl
              rw [Contents.count] at hcount hkept
              refine ⟨?_, fun hshort => absurd hshort (Nat.not_lt.mpr hcovers)⟩
              have hstop : ¬count ≥ limit := by omega
              simp only [Bool.not_true, Bool.false_or, decide_eq_true_eq, hstop, if_false, removal, hcovers,
                if_true]
              cases faults.payload with
              | true =>
                simp only [if_true, Bool.not_true, Bool.false_and, Bool.false_eq_true, if_false]
                omega
              | false =>
                simp only [Bool.false_eq_true, if_false, payloadCount_removeSidecar, ite_self]
                omega
            · refine ⟨?_, fun hshort => absurd hshort (Nat.not_lt.mpr hcovers)⟩
              simp only [removal, hcovers, if_true, Bool.false_eq_true, if_false]
              omega
          · -- The removal of the tree stops at the budget.
            have hshort : limit ≤ count := by omega
            obtain ⟨kept, done, hstops⟩ :=
              Contents.removeTree_short htree hlarge (Nat.zero_le _) hshort
            obtain ⟨-, hremoved, -⟩ := Contents.removeTree_count hstops
            have hkept := hinsert (.directory stat kept)
            simp only [Entry.count] at hkept
            rw [hstops]
            simp only [ge_iff_le, le_refl, decide_true, Bool.or_true, if_true]
            rcases Contents.removeTree_unbounded htree hlarge with rfl | ⟨error, rfl⟩
            · refine ⟨?_, fun _ => ⟨rfl, fun h => h⟩⟩
              simp only [removal, hcovers, if_false]
              omega
            · refine ⟨?_, fun _ => ⟨rfl, fun h => h⟩⟩
              simp only [removal, hcovers, if_false]
              omega

/-- A purge with some budget is charged for what it attempts, by the state before it. -/
theorem purge_charged (faults : Faults) (trash : TrashDirectory) (id : TrashId) {limit : ℕ}
    (hlimit : 0 < limit) :
    Charged (trash.demand faults id) (trash.loss faults id) limit id trash
      (trash.purge faults id limit) := by
  unfold demand loss purge
  cases hfault : faults.read with
  | true => exact Charged.refused _ _ _ _
  | false =>
    simp only [Bool.false_eq_true, if_false]
    cases hread : trash.readSidecar id with
    | error error => exact Charged.refused _ _ _ _
    | ok sidecar =>
      dsimp only
      by_cases hpending : sidecar.state = .pending
      · rw [if_pos (Or.inl hpending), if_pos (Or.inl hpending), if_pos hpending]
        exact Charged.refused _ _ _ _
      · by_cases hmark : sidecar.state ≠ .purging ∧ faults.mark = true
        · rw [if_pos (Or.inr hmark), if_pos (Or.inr hmark), if_neg hpending, if_pos hmark]
          exact Charged.refused _ _ _ _
        · rw [if_neg (not_or.mpr ⟨hpending, hmark⟩), if_neg (not_or.mpr ⟨hpending, hmark⟩),
            if_neg hpending, if_neg hmark]
          have hid := (readSidecar_eq_ok.mp hread).2.id_eq
          cases hinspect : faults.inspect with
          | true =>
            simp only [if_true]
            split
            · exact Charged.refused _ _ _ _
            · exact ⟨(Charged.refused limit id trash .unavailable).count, fun h => absurd h (Nat.not_lt_zero _)⟩
          | false =>
            simp only [Bool.false_eq_true, if_false]
            split
            · exact removePayload_charged faults trash id hlimit
            · have hmarked := removePayload_charged faults
                (trash.writeSidecar { sidecar with state := .purging }) id hlimit
              refine ⟨hmarked.count, fun hshort => ⟨(hmarked.short hshort).1, fun _ =>
                (hmarked.short hshort).2 ?_⟩⟩
              subst hid
              simp [writeSidecar]

/-- What a purge loses depends on its own item only. -/
theorem loss_congr {first second : TrashDirectory} {id : TrashId}
    (hsidecar : second.sidecars.get? id = first.sidecars.get? id)
    (hpayload : second.payloads.get? id = first.payloads.get? id) (faults : Faults) :
    second.loss faults id = first.loss faults id := by
  have hread : second.readSidecar id = first.readSidecar id := by
    rw [readSidecar, readSidecar, hsidecar]
  rw [loss, loss, hread, hpayload]

/-! ### What a purge leaves -/

/-- A stored path that is refused is refused as invalid. -/
def Stored (trash : TrashDirectory) : Prop :=
  ∀ id sidecar, trash.sidecars.get? id = some (some sidecar) →
    ∀ error, sidecar.originalPath = .error error → error = .invalidPath

/-- An item is not one that is still being moved in. -/
def Settled (trash : TrashDirectory) (id : TrashId) : Prop :=
  ∀ sidecar, trash.sidecars.get? id = some (some sidecar) → sidecar.state ≠ .pending

/-- Nothing new appears, a sidecar goes only when its payload is gone, and pending items stay. -/
structure Erodes (before after : TrashDirectory) : Prop where
  sidecar : ∀ id, before.sidecars.get? id = none → after.sidecars.get? id = none
  payload : ∀ id, before.payloads.get? id = none → after.payloads.get? id = none
  emptied : ∀ id, before.sidecars.get? id ≠ none → after.sidecars.get? id = none →
    after.payloads.get? id = none
  pending : ∀ id, ¬before.Settled id → after.sidecars.get? id = before.sidecars.get? id ∧
    after.payloads.get? id = before.payloads.get? id
  count : after.payloadCount ≤ before.payloadCount
  stored : before.Stored → after.Stored

namespace Erodes

variable {before after trash : TrashDirectory} {id : TrashId}

theorem refl (trash : TrashDirectory) : Erodes trash trash where
  sidecar _ h := h
  payload _ h := h
  emptied _ hsome hnone := absurd hnone hsome
  pending _ _ := ⟨rfl, rfl⟩
  count := le_rfl
  stored h := h

theorem trans {last : TrashDirectory} (h : Erodes before after) (h' : Erodes after last) :
    Erodes before last where
  sidecar id hnone := h'.sidecar id (h.sidecar id hnone)
  payload id hnone := h'.payload id (h.payload id hnone)
  emptied id hsome hnone := by
    by_cases hafter : after.sidecars.get? id = none
    · exact h'.payload id (h.emptied id hsome hafter)
    · exact h'.emptied id hafter hnone
  pending id hpending := by
    obtain ⟨hsidecar, hpayload⟩ := h.pending id hpending
    have hafter : ¬after.Settled id := by
      rw [Settled, hsidecar]
      exact hpending
    obtain ⟨hsidecar', hpayload'⟩ := h'.pending id hafter
    exact ⟨hsidecar'.trans hsidecar, hpayload'.trans hpayload⟩
  count := h'.count.trans h.count
  stored hstored := h'.stored (h.stored hstored)

/-- A sidecar of an item that is not pending may be rewritten with its own path. -/
theorem writeSidecar {old new : Sidecar} (hold : trash.sidecars.get? new.id = some (some old))
    (hstate : old.state ≠ .pending) (hpath : new.originalPath = old.originalPath) :
    Erodes trash (trash.writeSidecar new) := by
  have hself : (trash.writeSidecar new).sidecars.get? new.id = some (some new) :=
    KeyedMap.get?_insert_self _ _ _
  have hother (id : TrashId) (hne : id ≠ new.id) :
      (trash.writeSidecar new).sidecars.get? id = trash.sidecars.get? id :=
    KeyedMap.get?_insert_ne _ hne _
  have hsettled : trash.Settled new.id := by
    intro sidecar hsidecar
    obtain rfl := Option.some.inj (Option.some.inj (hold.symm.trans hsidecar))
    exact hstate
  refine ⟨fun id hnone => ?_, fun _ h => h, fun id hsome hnone => ?_, fun id hpending => ⟨?_, rfl⟩, le_rfl,
    fun hstored id sidecar hsidecar => ?_⟩
  · rw [hother id (fun heq => by rw [heq, hold] at hnone; cases hnone)]
    exact hnone
  · rw [hother id (fun heq => by rw [heq, hself] at hnone; cases hnone)] at hnone
    exact absurd hnone hsome
  · exact hother id fun heq => hpending (heq ▸ hsettled)
  · by_cases heq : id = new.id
    · rw [heq, hself] at hsidecar
      obtain rfl := Option.some.inj (Option.some.inj hsidecar)
      rw [hpath]
      exact hstored _ old hold
    · rw [hother id heq] at hsidecar
      exact hstored id sidecar hsidecar

theorem erasePayload (hsettled : trash.Settled id) :
    Erodes trash { trash with payloads := trash.payloads.erase id } := by
  refine ⟨fun _ h => h, fun other hnone => ?_, fun other hsome hnone => absurd hnone hsome,
    fun other hpending => ⟨rfl, ?_⟩, ?_, fun h => h⟩
  · by_cases heq : other = id
    · rw [heq]
      exact KeyedMap.get?_erase_self _ _
    · exact (KeyedMap.get?_erase_ne _ heq).trans hnone
  · exact KeyedMap.get?_erase_ne _ fun heq => hpending (heq ▸ hsettled)
  · cases hpayload : trash.payloads.get? id with
    | none => rw [KeyedMap.erase_of_not_mem (KeyedMap.get?_eq_none.mp hpayload)]
    | some entry =>
      rw [← payloadCount_erase hpayload]
      exact Nat.le_add_right _ _

/-- A payload may lose some of its entries. -/
theorem insertPayload {old kept : Entry} (hold : trash.payloads.get? id = some old)
    (hcount : kept.count ≤ old.count) (hsettled : trash.Settled id) :
    Erodes trash { trash with payloads := trash.payloads.insert id kept } := by
  refine ⟨fun _ h => h, fun other hnone => ?_, fun other hsome hnone => absurd hnone hsome,
    fun other hpending => ⟨rfl, ?_⟩, ?_, fun h => h⟩
  · have hne : other ≠ id := fun heq => by rw [heq, hold] at hnone; cases hnone
    exact (KeyedMap.get?_insert_ne _ hne _).trans hnone
  · have hne : other ≠ id := fun heq => hpending (heq ▸ hsettled)
    exact KeyedMap.get?_insert_ne _ hne _
  · have hinsert := payloadCount_insert hold kept
    omega

/-- A sidecar may go when its payload is gone. -/
theorem eraseSidecar (hpayload : trash.payloads.get? id = none) (hsettled : trash.Settled id) :
    Erodes trash { trash with sidecars := trash.sidecars.erase id } := by
  refine ⟨fun other hnone => ?_, fun _ h => h, fun other hsome hnone => ?_,
    fun other hpending => ⟨?_, rfl⟩, le_rfl, fun hstored other sidecar hsidecar => ?_⟩
  · by_cases heq : other = id
    · rw [heq]
      exact KeyedMap.get?_erase_self _ _
    · exact (KeyedMap.get?_erase_ne _ heq).trans hnone
  · by_cases heq : other = id
    · rw [heq]
      exact hpayload
    · exact absurd ((KeyedMap.get?_erase_ne _ heq).symm.trans hnone) hsome
  · exact KeyedMap.get?_erase_ne _ fun heq => hpending (heq ▸ hsettled)
  · exact hstored other sidecar (KeyedMap.get?_of_erase hsidecar)

end Erodes

theorem removeSidecar_erodes (faults : Faults) {trash : TrashDirectory} {id : TrashId}
    (hpayload : trash.payloads.get? id = none) (hsettled : trash.Settled id) (count : ℕ) :
    Erodes trash (trash.removeSidecar faults id count).1 := by
  unfold removeSidecar
  split
  · exact .refl trash
  · exact .eraseSidecar hpayload hsettled

theorem removePayload_erodes (faults : Faults) {trash : TrashDirectory} {id : TrashId}
    (hsettled : trash.Settled id) (limit : ℕ) :
    Erodes trash (trash.removePayload faults id limit).1 := by
  have herase (count : ℕ) : Erodes trash
      ({ trash with payloads := trash.payloads.erase id }.removeSidecar faults id count).1 := by
    refine (Erodes.erasePayload hsettled).trans (removeSidecar_erodes faults ?_ ?_ count)
    · exact KeyedMap.get?_erase_self _ _
    · exact hsettled
  unfold removePayload
  split
  · rename_i hpayload
    exact removeSidecar_erodes faults hpayload hsettled 0
  · split
    · exact .refl trash
    · split
      · exact .refl trash
      · split
        · exact .refl trash
        · exact herase 1
  · rename_i stat inside hpayload
    split
    · exact .refl trash
    · split
      rename_i left count result htree
      have hremoved := Contents.removeTree_count htree
      have hkept : Erodes trash
          { trash with payloads := trash.payloads.insert id (.directory stat left) } :=
        Erodes.insertPayload hpayload (by simp only [Entry.count]; omega) hsettled
      dsimp only
      split
      · exact hkept
      · split
        · exact hkept
        · split
          · exact hkept
          · exact herase _

/-- A purge takes nothing but an item that is not pending, and its sidecar last. -/
theorem purge_erodes (faults : Faults) (trash : TrashDirectory) (id : TrashId) (limit : ℕ) :
    Erodes trash (trash.purge faults id limit).1 := by
  unfold purge
  split
  · exact .refl trash
  · split
    · exact .refl trash
    · rename_i sidecar hread
      obtain ⟨hfound, hreadable⟩ := readSidecar_eq_ok.mp hread
      split
      · exact .refl trash
      · rename_i hpending
        split
        · exact .refl trash
        · have hmarked (marked : TrashDirectory)
              (h : marked = if sidecar.state = .purging then trash
                else trash.writeSidecar { sidecar with state := .purging }) :
              Erodes trash marked ∧ marked.Settled id := by
            subst h
            split
            · refine ⟨.refl trash, fun other hother => ?_⟩
              obtain rfl := Option.some.inj (Option.some.inj (hfound.symm.trans hother))
              exact hpending
            · obtain rfl := hreadable.id_eq
              refine ⟨.writeSidecar hfound hpending rfl, fun other hother => ?_⟩
              rw [TrashDirectory.writeSidecar, KeyedMap.get?_insert_self] at hother
              obtain rfl := Option.some.inj (Option.some.inj hother)
              nofun
          dsimp only
          split
          · exact (hmarked _ rfl).1
          · exact (hmarked _ rfl).1.trans (removePayload_erodes faults (hmarked _ rfl).2 limit)

end TrashDirectory

end Crabinet.Trash
