import Crabinet.Trash.Storage

/-!
# Purging an item

A purge marks the sidecar, removes at most a budget of payload entries, and removes the
sidecar when the payload is gone. The file system may refuse any of its steps; what was
done before stays done, so an error also shows where an interruption can leave an item.
-/

namespace Crabinet.Trash

open Crabinet.Filesystem Crabinet.Library

/-- The steps of one purge that the file system refuses. -/
structure Faults where
  read : Bool
  mark : Bool
  inspect : Bool
  open_ : Bool
  /-- The removal of a payload's entry, at a count. -/
  removal : ℕ → Bool
  /-- The removal of the payload itself. -/
  payload : Bool
  sidecar : Bool

/-- No step is refused. -/
def Faults.none : Faults := ⟨false, false, false, false, fun _ => false, false, false⟩

namespace TrashDirectory

/-- The last step of a purge. -/
def removeSidecar (faults : Faults) (trash : TrashDirectory) (id : TrashId) (count : ℕ) :
    TrashDirectory × FsResult ℕ :=
  if faults.sidecar then (trash, .error .unavailable)
  else ({ trash with sidecars := trash.sidecars.erase id }, .ok count)

/-- Remove the payload within the budget, and the sidecar after it. -/
def removePayload (faults : Faults) (trash : TrashDirectory) (id : TrashId) (limit : ℕ) :
    TrashDirectory × FsResult ℕ :=
  match trash.payloads.get? id with
  | none => trash.removeSidecar faults id 0
  | some (.leaf type stat) =>
    match (Entry.leaf type stat).metadata with
    | .error error => (trash, .error error)
    | .ok _ =>
      if limit = 0 then (trash, .error .tooLarge)
      else if faults.payload then (trash, .error .unavailable)
      else { trash with payloads := trash.payloads.erase id }.removeSidecar faults id 1
  | some (.directory stat inside) =>
    if faults.open_ then (trash, .error .unavailable)
    else
      match inside.removeTree faults.removal limit 0 payloadDepth with
      | (left, count, result) =>
        let kept := { trash with payloads := trash.payloads.insert id (.directory stat left) }
        match result with
        | .error error => (kept, .error error)
        | .ok done =>
          if !done || count ≥ limit then (kept, .ok count)
          else if faults.payload then (kept, .error .unavailable)
          else
            { trash with payloads := trash.payloads.erase id }.removeSidecar faults id (count + 1)

/-- `purge`: the directory afterwards, and the number of payload entries removed. -/
def purge (faults : Faults) (trash : TrashDirectory) (id : TrashId) (limit : ℕ) :
    TrashDirectory × FsResult ℕ :=
  if faults.read then (trash, .error .unavailable)
  else
    match trash.readSidecar id with
    | .error error => (trash, .error error)
    | .ok sidecar =>
      if sidecar.state = .pending then (trash, .error .conflict)
      else if sidecar.state ≠ .purging ∧ faults.mark = true then (trash, .error .unavailable)
      else
        let trash :=
          if sidecar.state = .purging then trash
          else trash.writeSidecar { sidecar with state := .purging }
        if faults.inspect then (trash, .error .unavailable)
        else trash.removePayload faults id limit

/-- What the removal of a payload attempts when the budget is unlimited: the number of removals,
and whether every step succeeds. -/
def payloadDemand (faults : Faults) : Option Entry → ℕ × Bool
  | none => (0, !faults.sidecar)
  | some (.leaf type stat) =>
    match (Entry.leaf type stat).metadata with
    | .error _ => (0, false)
    | .ok _ => (1, !faults.payload && !faults.sidecar)
  | some (.directory _ inside) =>
    if faults.open_ then (0, false)
    else
      match inside.removeTree faults.removal (inside.count + 1) 0 payloadDepth with
      | (_, count, .ok _) => (count + 1, !faults.payload && !faults.sidecar)
      | (_, count, .error _) => (count + 1, false)

/-- What a purge attempts when the budget is unlimited. -/
def demand (faults : Faults) (trash : TrashDirectory) (id : TrashId) : ℕ × Bool :=
  if faults.read then (0, false)
  else
    match trash.readSidecar id with
    | .error _ => (0, false)
    | .ok sidecar =>
      if sidecar.state = .pending ∨ (sidecar.state ≠ .purging ∧ faults.mark = true) then (0, false)
      else if faults.inspect then (0, false)
      else payloadDemand faults (trash.payloads.get? id)

/-- A result is the one a demand announces: the sidecar is gone after all its removals, or a step
failed. -/
structure Meets (demand : ℕ × Bool) (id : TrashId) (result : TrashDirectory × FsResult ℕ) : Prop where
  done : demand.2 = true → result.2 = .ok demand.1 ∧ result.1.sidecars.get? id = none
  failed : demand.2 = false → ∃ error, result.2 = .error error

theorem Meets.error (id : TrashId) (count : ℕ) (trash : TrashDirectory) (error : FsErrorCode) :
    Meets (count, false) id (trash, .error error) :=
  ⟨nofun, fun _ => ⟨error, rfl⟩⟩

theorem removeSidecar_meets (faults : Faults) (trash : TrashDirectory) (id : TrashId) (count : ℕ) :
    Meets (count, !faults.sidecar) id (trash.removeSidecar faults id count) := by
  unfold removeSidecar
  cases faults.sidecar with
  | true => exact Meets.error _ _ _ _
  | false => exact ⟨fun _ => ⟨rfl, KeyedMap.get?_erase_self _ _⟩, nofun⟩

/-- A budget that covers what a removal attempts does not stop it. -/
theorem removePayload_meets {faults : Faults} (trash : TrashDirectory) {id : TrashId} {limit : ℕ}
    (h : (payloadDemand faults (trash.payloads.get? id)).1 ≤ limit) :
    Meets (payloadDemand faults (trash.payloads.get? id)) id (trash.removePayload faults id limit) := by
  unfold removePayload
  cases hpayload : trash.payloads.get? id with
  | none => exact trash.removeSidecar_meets faults id 0
  | some entry =>
    rw [hpayload] at h
    cases entry with
    | leaf type stat =>
      unfold payloadDemand at h ⊢
      dsimp only at h ⊢
      cases hmetadata : (Entry.leaf type stat).metadata with
      | error error => exact Meets.error _ _ _ _
      | ok metadata =>
        rw [hmetadata] at h
        dsimp only at h ⊢
        rw [if_neg (by omega : ¬limit = 0)]
        cases faults.payload with
        | true => exact Meets.error _ _ _ _
        | false => exact removeSidecar_meets faults _ id 1
    | directory stat inside =>
      unfold payloadDemand at h ⊢
      dsimp only at h ⊢
      cases hopen : faults.open_ with
      | true => exact Meets.error _ _ _ _
      | false =>
        rw [hopen] at h
        simp only [Bool.false_eq_true, if_false] at h ⊢
        cases htree : inside.removeTree faults.removal (inside.count + 1) 0 payloadDepth with
        | mk left rest =>
          obtain ⟨count, result⟩ := rest
          rw [htree] at h
          rcases Contents.removeTree_unbounded htree (by omega) with rfl | ⟨error, rfl⟩
          · have hsame := Contents.removeTree_of_fits htree (by omega) (fun _ => Nat.le_of_lt h) nofun
            rw [hsame]
            have hcount : count < limit := h
            simp only [Bool.not_true, Bool.false_or, ge_iff_le, decide_eq_true_eq, not_le.mpr hcount,
              if_false]
            cases faults.payload with
            | true => exact Meets.error _ _ _ _
            | false => exact removeSidecar_meets faults _ id (count + 1)
          · have hsame := Contents.removeTree_of_fits htree (by omega) nofun (fun _ _ => h)
            rw [hsame]
            exact Meets.error _ _ _ _

/-- A budget that covers what a purge attempts does not stop it. -/
theorem purge_meets (faults : Faults) (trash : TrashDirectory) (id : TrashId) {limit : ℕ}
    (h : (trash.demand faults id).1 ≤ limit) :
    Meets (trash.demand faults id) id (trash.purge faults id limit) := by
  unfold demand at h ⊢
  unfold purge
  cases hfault : faults.read with
  | true => exact Meets.error _ _ _ _
  | false =>
    rw [hfault] at h
    simp only [Bool.false_eq_true, if_false] at h ⊢
    cases hread : trash.readSidecar id with
    | error error => exact Meets.error _ _ _ _
    | ok sidecar =>
      rw [hread] at h
      dsimp only at h ⊢
      by_cases hpending : sidecar.state = .pending
      · rw [if_pos (.inl hpending), if_pos hpending]
        exact Meets.error _ _ _ _
      · by_cases hmark : sidecar.state ≠ .purging ∧ faults.mark = true
        · rw [if_pos (.inr hmark), if_neg hpending, if_pos hmark]
          exact Meets.error _ _ _ _
        · rw [if_neg (not_or.mpr ⟨hpending, hmark⟩)] at h ⊢
          rw [if_neg hpending, if_neg hmark]
          cases hinspect : faults.inspect with
          | true => exact Meets.error _ _ _ _
          | false =>
            rw [hinspect] at h
            simp only [Bool.false_eq_true, if_false] at h ⊢
            split
            · exact removePayload_meets trash h
            · exact removePayload_meets (trash.writeSidecar _) h

/-- What stays as it is where only some items are purged. -/
structure Frame (touched : TrashId → Prop) (before after : TrashDirectory) : Prop where
  temporaries : after.temporaries = before.temporaries
  strays : after.strays = before.strays
  payload : ∀ id, ¬touched id → after.payloads.get? id = before.payloads.get? id
  sidecar : ∀ id, ¬touched id → after.sidecars.get? id = before.sidecars.get? id
  gone : ∀ id, before.sidecars.get? id = none → after.sidecars.get? id = none

namespace Frame

variable {touched : TrashId → Prop} {before after : TrashDirectory}

theorem refl (touched : TrashId → Prop) (trash : TrashDirectory) : Frame touched trash trash :=
  ⟨rfl, rfl, fun _ _ => rfl, fun _ _ => rfl, fun _ h => h⟩

theorem trans {last : TrashDirectory} (h : Frame touched before after)
    (h' : Frame touched after last) : Frame touched before last where
  temporaries := h'.temporaries.trans h.temporaries
  strays := h'.strays.trans h.strays
  payload id hid := (h'.payload id hid).trans (h.payload id hid)
  sidecar id hid := (h'.sidecar id hid).trans (h.sidecar id hid)
  gone id hnone := h'.gone id (h.gone id hnone)

theorem mono {wider : TrashId → Prop} (h : Frame touched before after)
    (hwider : ∀ id, touched id → wider id) : Frame wider before after where
  temporaries := h.temporaries
  strays := h.strays
  payload id hid := h.payload id fun htouched => hid (hwider id htouched)
  sidecar id hid := h.sidecar id fun htouched => hid (hwider id htouched)
  gone := h.gone

theorem erasePayload (id : TrashId) (trash : TrashDirectory) :
    Frame (· = id) trash { trash with payloads := trash.payloads.erase id } :=
  ⟨rfl, rfl, fun _ hne => KeyedMap.get?_erase_ne _ hne, fun _ _ => rfl, fun _ h => h⟩

theorem insertPayload (id : TrashId) (trash : TrashDirectory) (entry : Entry) :
    Frame (· = id) trash { trash with payloads := trash.payloads.insert id entry } :=
  ⟨rfl, rfl, fun _ hne => KeyedMap.get?_insert_ne _ hne entry, fun _ _ => rfl, fun _ h => h⟩

theorem eraseSidecar (id : TrashId) (trash : TrashDirectory) :
    Frame (· = id) trash { trash with sidecars := trash.sidecars.erase id } := by
  refine ⟨rfl, rfl, fun _ _ => rfl, fun _ hne => KeyedMap.get?_erase_ne _ hne, fun other hnone => ?_⟩
  by_cases hother : other = id
  · rw [hother]
    exact KeyedMap.get?_erase_self _ _
  · rw [← hnone]
    exact KeyedMap.get?_erase_ne _ hother

/-- Rewriting a sidecar that is there. -/
theorem writeSidecar {trash : TrashDirectory} (sidecar : Sidecar)
    (h : trash.sidecars.get? sidecar.id ≠ none) :
    Frame (· = sidecar.id) trash (trash.writeSidecar sidecar) := by
  refine ⟨rfl, rfl, fun _ _ => rfl, fun _ hne => KeyedMap.get?_insert_ne _ hne _, fun other hnone => ?_⟩
  have hother : other ≠ sidecar.id := fun heq => h (heq ▸ hnone)
  rw [← hnone]
  exact KeyedMap.get?_insert_ne _ hother _

end Frame

theorem removeSidecar_frame (faults : Faults) (trash : TrashDirectory) (id : TrashId) (count : ℕ) :
    Frame (· = id) trash (trash.removeSidecar faults id count).1 := by
  unfold removeSidecar
  split
  · exact Frame.refl _ trash
  · exact Frame.eraseSidecar id trash

theorem removePayload_frame (faults : Faults) (trash : TrashDirectory) (id : TrashId) (limit : ℕ) :
    Frame (· = id) trash (trash.removePayload faults id limit).1 := by
  have herase (count : ℕ) : Frame (· = id) trash
      ({ trash with payloads := trash.payloads.erase id }.removeSidecar faults id count).1 :=
    (Frame.erasePayload id trash).trans (removeSidecar_frame faults _ id count)
  unfold removePayload
  split
  · exact trash.removeSidecar_frame faults id 0
  · split
    · exact Frame.refl _ trash
    · split
      · exact Frame.refl _ trash
      · split
        · exact Frame.refl _ trash
        · exact herase 1
  · split
    · exact Frame.refl _ trash
    · split
      dsimp only
      split
      · exact Frame.insertPayload id trash _
      · split
        · exact Frame.insertPayload id trash _
        · split
          · exact Frame.insertPayload id trash _
          · exact herase _

/-- A purge touches its own item only. -/
theorem purge_frame (faults : Faults) (trash : TrashDirectory) (id : TrashId) (limit : ℕ) :
    Frame (· = id) trash (trash.purge faults id limit).1 := by
  unfold purge
  split
  · exact Frame.refl _ trash
  · split
    · exact Frame.refl _ trash
    · rename_i sidecar hread
      obtain ⟨hfound, hreadable⟩ := readSidecar_eq_ok.mp hread
      have hmarked (marked : TrashDirectory)
          (h : marked = if sidecar.state = .purging then trash
            else trash.writeSidecar { sidecar with state := .purging }) :
          Frame (· = id) trash marked := by
        subst h
        split
        · exact Frame.refl _ trash
        · obtain rfl := hreadable.id_eq
          exact Frame.writeSidecar { sidecar with state := .purging } (by simp [hfound])
      split
      · exact Frame.refl _ trash
      · split
        · exact Frame.refl _ trash
        · dsimp only
          split
          · exact hmarked _ rfl
          · exact (hmarked _ rfl).trans (removePayload_frame faults _ id limit)

theorem removeSidecar_ok {faults : Faults} {trash after : TrashDirectory} {id : TrashId}
    {number count : ℕ} (h : trash.removeSidecar faults id number = (after, .ok count)) :
    after.sidecars.get? id = none := by
  unfold removeSidecar at h
  split at h
  · cases h
  · obtain ⟨rfl, -⟩ := Prod.mk.inj h
    exact KeyedMap.get?_erase_self _ _

/-- A purge that succeeds is done, or has used up its budget. -/
theorem removePayload_ok {faults : Faults} {trash after : TrashDirectory} {id : TrashId}
    {limit count : ℕ} (h : trash.removePayload faults id limit = (after, .ok count)) :
    after.sidecars.get? id = none ∨ limit ≤ count := by
  unfold removePayload at h
  split at h
  · exact .inl (removeSidecar_ok h)
  · split at h
    · cases h
    · split at h
      · cases h
      · split at h
        · cases h
        · exact .inl (removeSidecar_ok h)
  · rename_i stat inside _
    split at h
    · cases h
    · split at h
      rename_i left number result htree
      dsimp only at h
      split at h
      · cases h
      · rename_i done
        split at h
        · rename_i hstop
          obtain ⟨-, hcount⟩ := Prod.mk.inj h
          obtain rfl := Except.ok.inj hcount
          cases done with
          | true => exact .inr (by simpa using hstop)
          | false => exact .inr ((Contents.removeTree_count htree).2.2.2 rfl)
        · split at h
          · cases h
          · exact .inl (removeSidecar_ok h)

theorem purge_ok {faults : Faults} {trash after : TrashDirectory} {id : TrashId} {limit count : ℕ}
    (h : trash.purge faults id limit = (after, .ok count)) :
    after.sidecars.get? id = none ∨ limit ≤ count := by
  unfold purge at h
  split at h
  · cases h
  · split at h
    · cases h
    · split at h
      · cases h
      · split at h
        · cases h
        · dsimp only at h
          split at h
          · cases h
          · exact removePayload_ok h

/-- What a purge attempts depends on its own item only. -/
theorem demand_congr {first second : TrashDirectory} {id : TrashId}
    (hsidecar : second.sidecars.get? id = first.sidecars.get? id)
    (hpayload : second.payloads.get? id = first.payloads.get? id) (faults : Faults) :
    second.demand faults id = first.demand faults id := by
  have hread : second.readSidecar id = first.readSidecar id := by
    rw [readSidecar, readSidecar, hsidecar]
  rw [demand, demand, hread, hpayload]

end TrashDirectory

end Crabinet.Trash
