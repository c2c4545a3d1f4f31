import Crabinet.Library.Transition
import Crabinet.Share.Mutations
import Crabinet.Trash.PurgeCosts
import Mathlib.Data.List.Perm.Subperm

/-!
# Emptying Trash

A sweep empties Trash in batches. Each batch reads the directory from its start, picks items
that the sweep has not passed over, and removes at most a number of payload entries. The
directory lists its names in any order, and the file system may refuse any step.
-/

namespace Crabinet.Share

open Crabinet.Filesystem Crabinet.Library Crabinet.Trash

/-- `MAX_EMPTY_SCAN_ENTRIES`. -/
def maxEmptyScanEntries : ℕ := 1000000

/-- `TrashSweep`. -/
structure TrashSweep where
  passedOver : List TrashId

/-- `TrashEmptyBatch`, with the items themselves where the source counts them. -/
structure TrashEmptyBatch where
  purged : List TrashId
  failed : List TrashId
  finished : Bool

/-- What the file system does during one batch. -/
structure EmptyCall where
  /-- The names that the directory lists. -/
  order : List TrashName
  /-- The directory cannot be opened, which is place 0, or not be read at a later place. -/
  unreadable : ℕ → Bool
  /-- The first read of an item's sidecar is refused. -/
  sidecar : TrashId → Bool
  purge : TrashId → Faults

/-- A batch in progress. -/
structure EmptyProgress where
  trash : TrashDirectory
  passedOver : List TrashId
  removed : ℕ
  purged : List TrashId
  failed : List TrashId

namespace EmptyCall

/-- The loop that picks the items of a batch, and whether it read the whole directory. -/
def pick (call : EmptyCall) (sweep : TrashSweep) (maxEntries : ℕ) :
    List TrashName → ℕ → List TrashId → FsResult (List TrashId × Bool)
  | [], _, candidates => .ok (candidates, true)
  | name :: rest, scanned, candidates =>
    if candidates.length ≥ maxEntries then .ok (candidates, false)
    else if scanned + 1 > maxEmptyScanEntries then .error .tooLarge
    else if call.unreadable (scanned + 1) then .error .unavailable
    else
      match name with
      | .sidecar id =>
        if id ∈ sweep.passedOver then call.pick sweep maxEntries rest (scanned + 1) candidates
        else call.pick sweep maxEntries rest (scanned + 1) (candidates ++ [id])
      | _ => call.pick sweep maxEntries rest (scanned + 1) candidates

/-- The treatment of an item that cannot be read or removed. -/
def fail (progress : EmptyProgress) (id : TrashId) : EmptyProgress :=
  { progress with failed := id :: progress.failed, passedOver := id :: progress.passedOver }

/-- The treatment of an item, and whether the batch goes on after it. -/
def emptyItem (call : EmptyCall) (maxEntries : ℕ) (progress : EmptyProgress) (id : TrashId) :
    EmptyProgress × Bool :=
  if call.sidecar id then (fail progress id, true)
  else
    match progress.trash.readSidecar id with
    | .error .notFound => (progress, true)
    | .error _ => (fail progress id, true)
    | .ok sidecar =>
      if sidecar.state = .pending then
        ({ progress with passedOver := id :: progress.passedOver }, true)
      else
        match progress.trash.purge (call.purge id) id (maxEntries - progress.removed) with
        | (trash, .error _) => (fail { progress with trash } id, true)
        | (trash, .ok count) =>
          let progress := { progress with trash, removed := progress.removed + count }
          if trash.has (.sidecar id) then (progress, false)
          else ({ progress with purged := id :: progress.purged }, true)

/-- The loop over the items of a batch, and whether it handled all of them. -/
def emptyItems (call : EmptyCall) (maxEntries : ℕ) :
    List TrashId → EmptyProgress → EmptyProgress × Bool
  | [], progress => (progress, true)
  | id :: rest, progress =>
    if progress.removed ≥ maxEntries then (progress, false)
    else
      match call.emptyItem maxEntries progress id with
      | (progress, true) => call.emptyItems maxEntries rest progress
      | (progress, false) => (progress, false)

end EmptyCall

/-- `empty_trash_batch`. -/
def AuthorizedShare.emptyTrashBatch (share : AuthorizedShare) (sweep : TrashSweep) (maxEntries : ℕ)
    (call : EmptyCall) : AuthorizedShare × TrashSweep × FsResult TrashEmptyBatch :=
  let maxEntries := max maxEntries 1
  match share.requireWrite with
  | .error error => (share, sweep, .error error)
  | .ok _ =>
    if call.unreadable 0 then (share, sweep, .error .unavailable)
    else
      match call.pick sweep maxEntries call.order 0 [] with
      | .error error => (share, sweep, .error error)
      | .ok (candidates, reachedEnd) =>
        match call.emptyItems maxEntries candidates ⟨share.trash, sweep.passedOver, 0, [], []⟩ with
        | (progress, handledAll) =>
          ({ share with trash := progress.trash }, ⟨progress.passedOver⟩,
            .ok ⟨progress.purged, progress.failed, reachedEnd && handledAll⟩)

/-- Emptying in progress: the share, the sweep, and the items that its batches counted. -/
structure Emptying where
  share : AuthorizedShare
  sweep : TrashSweep
  purged : List TrashId
  failed : List TrashId
  finished : Bool

/-- What happens to Trash while it is emptied. -/
inductive EmptyingAction where
  | batch (call : EmptyCall)
  /-- Other requests change Trash between two batches. -/
  | others (trash : TrashDirectory)

namespace Emptying

/-- The batches go on until one has finished. -/
def step (maxEntries : ℕ) (state : Emptying) : EmptyingAction → Option Emptying
  | .batch call =>
    if state.finished then none
    else
      match state.share.emptyTrashBatch state.sweep maxEntries call with
      | (_, _, .error _) => none
      | (share, sweep, .ok batch) =>
        some
          { share, sweep, purged := batch.purged ++ state.purged, failed := batch.failed ++ state.failed
            finished := batch.finished }
  | .others trash => some { state with share := { state.share with trash } }

/-- The directory lists its names, and other requests add nothing. -/
def Allowed (state : Emptying) : EmptyingAction → Prop
  | .batch call => call.order.Perm state.share.trash.names
  | .others trash =>
    (∀ id, state.share.trash.sidecars.get? id = none → trash.sidecars.get? id = none) ∧
      trash.payloadCount ≤ state.share.trash.payloadCount ∧ trash.Stored

end Emptying

/-! ### One item -/

namespace EmptyCall

variable {call : EmptyCall} {maxEntries : ℕ} {progress : EmptyProgress} {id : TrashId}

/-- What the removal of an item attempts when the budget is unlimited. -/
def demand (call : EmptyCall) (trash : TrashDirectory) (id : TrashId) : ℕ × Bool :=
  if call.sidecar id then (0, false) else trash.demand (call.purge id) id

/-- The entries that go before it is refused. -/
def loss (call : EmptyCall) (trash : TrashDirectory) (id : TrashId) : ℕ :=
  if call.sidecar id then 0 else trash.loss (call.purge id) id

/-- How an item with a sidecar was handled: it was passed over, or purged, or it used up the budget. -/
inductive Handled (call : EmptyCall) (maxEntries : ℕ) (progress : EmptyProgress) (id : TrashId) :
    EmptyProgress × Bool → Prop
  | passedOver (trash : TrashDirectory) (failed : List TrashId) :
      (failed = progress.failed ∨ failed = id :: progress.failed) →
      (call.demand progress.trash id).1 ≤ maxEntries - progress.removed →
      (call.demand progress.trash id).2 = false →
      trash.payloadCount + call.loss progress.trash id = progress.trash.payloadCount →
      call.Handled maxEntries progress id
        (⟨trash, id :: progress.passedOver, progress.removed, progress.purged, failed⟩, true)
  | purged (trash : TrashDirectory) :
      (call.demand progress.trash id).1 ≤ maxEntries - progress.removed →
      (call.demand progress.trash id).2 = true →
      trash.payloadCount + (call.demand progress.trash id).1 = progress.trash.payloadCount →
      trash.sidecars.get? id = none →
      call.Handled maxEntries progress id
        (⟨trash, progress.passedOver, progress.removed + (call.demand progress.trash id).1,
          id :: progress.purged, progress.failed⟩, true)
  | short (trash : TrashDirectory) :
      maxEntries - progress.removed < (call.demand progress.trash id).1 →
      trash.payloadCount + (maxEntries - progress.removed) = progress.trash.payloadCount →
      call.Handled maxEntries progress id
        (⟨trash, progress.passedOver, progress.removed + (maxEntries - progress.removed),
          progress.purged, progress.failed⟩, false)

/-- Only a missing sidecar is reported as missing. -/
theorem readSidecar_ne_notFound {trash : TrashDirectory} (hstored : trash.Stored)
    (hpresent : trash.sidecars.get? id ≠ none) : trash.readSidecar id ≠ .error .notFound := by
  unfold TrashDirectory.readSidecar
  split
  · exact fun _ => hpresent ‹_›
  · nofun
  · rename_i sidecar hfound
    split
    · nofun
    · split
      · nofun
      · refine bind_ne_error (bind_ne_error (fun hpath => ?_) fun path => ?_) fun entry => ?_
        · cases hstored id sidecar hfound _ hpath
        · split <;> nofun
        · split <;> nofun

/-- What the removal of a pending item attempts: nothing. -/
theorem demand_of_pending {trash : TrashDirectory} {sidecar : Sidecar} (faults : Faults)
    (hread : trash.readSidecar id = .ok sidecar) (hpending : sidecar.state = .pending) :
    trash.demand faults id = (0, false) ∧ trash.loss faults id = 0 := by
  unfold TrashDirectory.demand TrashDirectory.loss
  rw [hread]
  simp [hpending]

theorem demand_of_error {trash : TrashDirectory} {error : FsErrorCode} (faults : Faults)
    (hread : trash.readSidecar id = .error error) :
    trash.demand faults id = (0, false) ∧ trash.loss faults id = 0 := by
  unfold TrashDirectory.demand TrashDirectory.loss
  rw [hread]
  simp

theorem emptyItem_handled (call : EmptyCall) (hstored : progress.trash.Stored)
    (hpresent : progress.trash.sidecars.get? id ≠ none) (hbudget : progress.removed < maxEntries) :
    call.Handled maxEntries progress id (call.emptyItem maxEntries progress id) := by
  have hlimit : 0 < maxEntries - progress.removed := Nat.sub_pos_of_lt hbudget
  unfold emptyItem
  split
  · rename_i hunread
    exact .passedOver _ _ (.inr rfl) (by simp [demand, hunread]) (by simp [demand, hunread])
      (by simp [loss, hunread])
  · rename_i hreadable
    have hdemand : call.demand progress.trash id = progress.trash.demand (call.purge id) id :=
      if_neg hreadable
    have hloss : call.loss progress.trash id = progress.trash.loss (call.purge id) id := if_neg hreadable
    split
    · rename_i hread
      exact absurd hread (readSidecar_ne_notFound hstored hpresent)
    · rename_i error _ hread
      obtain ⟨hnone, hnothing⟩ := demand_of_error (call.purge id) hread
      exact .passedOver _ _ (.inr rfl) (by simp [hdemand, hnone]) (by simp [hdemand, hnone])
        (by simp [hloss, hnothing])
    · rename_i sidecar hread
      split
      · rename_i hpending
        obtain ⟨hnone, hnothing⟩ := demand_of_pending (call.purge id) hread hpending
        exact .passedOver _ _ (.inl rfl) (by simp [hdemand, hnone]) (by simp [hdemand, hnone])
          (by simp [hloss, hnothing])
      · have hcharged := progress.trash.purge_charged (call.purge id) id hlimit
        rw [← hdemand, ← hloss] at hcharged
        by_cases hcovers : (call.demand progress.trash id).1 ≤ maxEntries - progress.removed
        · have hmeets := TrashDirectory.purge_meets (call.purge id) progress.trash id (hdemand ▸ hcovers)
          rw [← hdemand] at hmeets
          have hcount := hcharged.count
          rw [TrashDirectory.removal, if_pos hcovers] at hcount
          cases hok : (call.demand progress.trash id).2 with
          | true =>
            obtain ⟨hresult, hgone⟩ := hmeets.done hok
            rw [hok, if_pos rfl] at hcount
            generalize progress.trash.purge (call.purge id) id (maxEntries - progress.removed) = outcome at *
            obtain ⟨trash, result⟩ := outcome
            dsimp only at hresult hgone hcount
            subst hresult
            have hhas : trash.has (.sidecar id) = false := by simp [TrashDirectory.has, hgone]
            dsimp only
            rw [hhas]
            exact .purged trash hcovers hok hcount hgone
          | false =>
            obtain ⟨error, hresult⟩ := hmeets.failed hok
            rw [hok] at hcount
            generalize progress.trash.purge (call.purge id) id (maxEntries - progress.removed) = outcome at *
            obtain ⟨trash, result⟩ := outcome
            dsimp only at hresult hcount
            subst hresult
            exact .passedOver trash _ (.inr rfl) hcovers hok hcount
        · obtain ⟨hresult, hkept⟩ := hcharged.short (Nat.lt_of_not_le hcovers)
          replace hkept := hkept hpresent
          have hcount := hcharged.count
          rw [TrashDirectory.removal, if_neg hcovers] at hcount
          generalize progress.trash.purge (call.purge id) id (maxEntries - progress.removed) = outcome at *
          obtain ⟨trash, result⟩ := outcome
          dsimp only at hresult hkept hcount
          subst hresult
          have hhas : trash.has (.sidecar id) = true := by
            simpa [TrashDirectory.has, Option.isSome_iff_ne_none] using hkept
          dsimp only
          rw [hhas]
          exact .short trash (Nat.lt_of_not_le hcovers) hcount

/-- An item changes Trash through its purge only. -/
theorem emptyItem_trash (call : EmptyCall) (maxEntries : ℕ) (progress : EmptyProgress) (id : TrashId) :
    (call.emptyItem maxEntries progress id).1.trash = progress.trash ∨
      (call.emptyItem maxEntries progress id).1.trash =
        (progress.trash.purge (call.purge id) id (maxEntries - progress.removed)).1 := by
  unfold emptyItem
  split
  · exact .inl rfl
  · split
    · exact .inl rfl
    · exact .inl rfl
    · split
      · exact .inl rfl
      · refine .inr ?_
        split
        · rename_i hpurge
          rw [hpurge]
          rfl
        · rename_i hpurge
          rw [hpurge]
          dsimp only
          split <;> rfl

theorem emptyItem_erodes (call : EmptyCall) (maxEntries : ℕ) (progress : EmptyProgress) (id : TrashId) :
    progress.trash.Erodes (call.emptyItem maxEntries progress id).1.trash := by
  rcases call.emptyItem_trash maxEntries progress id with hsame | hpurge
  · rw [hsame]
    exact .refl _
  · rw [hpurge]
    exact progress.trash.purge_erodes _ id _

theorem emptyItem_frame (call : EmptyCall) (maxEntries : ℕ) (progress : EmptyProgress) (id : TrashId) :
    TrashDirectory.Frame (· = id) progress.trash (call.emptyItem maxEntries progress id).1.trash := by
  rcases call.emptyItem_trash maxEntries progress id with hsame | hpurge
  · rw [hsame]
    exact .refl _ _
  · rw [hpurge]
    exact progress.trash.purge_frame _ id _

/-! ### One batch -/

/-- The items of a batch that are still to be handled. -/
structure Ready (progress : EmptyProgress) (ids : List TrashId) : Prop where
  nodup : ids.Nodup
  present : ∀ id ∈ ids, progress.trash.sidecars.get? id ≠ none
  fresh : ∀ id ∈ ids, id ∉ progress.passedOver
  stored : progress.trash.Stored

theorem Handled.passedOver_cons {result : EmptyProgress × Bool}
    (h : call.Handled maxEntries progress id result) :
    result.1.passedOver = progress.passedOver ∨ result.1.passedOver = id :: progress.passedOver := by
  cases h with
  | passedOver => exact .inr rfl
  | purged => exact .inl rfl
  | short => exact .inl rfl

theorem Ready.next (call : EmptyCall) {ids : List TrashId} (h : Ready progress (id :: ids))
    (hbudget : progress.removed < maxEntries) :
    Ready (call.emptyItem maxEntries progress id).1 ids := by
  obtain ⟨hid, hnodup⟩ := List.nodup_cons.mp h.nodup
  have hhandled := emptyItem_handled call h.stored (h.present id List.mem_cons_self) hbudget
  have hne (other : TrashId) (hother : other ∈ ids) : other ≠ id := fun heq => hid (heq ▸ hother)
  refine ⟨hnodup, fun other hother => ?_, fun other hother => ?_,
    (call.emptyItem_erodes maxEntries progress id).stored h.stored⟩
  · rw [(call.emptyItem_frame maxEntries progress id).sidecar other (hne other hother)]
    exact h.present other (List.mem_cons_of_mem _ hother)
  · have hfresh := h.fresh other (List.mem_cons_of_mem _ hother)
    rcases hhandled.passedOver_cons with hsame | hcons
    · rw [hsame]
      exact hfresh
    · rw [hcons, List.mem_cons, not_or]
      exact ⟨hne other hother, hfresh⟩

/-- What each treated item preserves, the loop over a batch preserves. -/
theorem emptyItems_induction {motive : EmptyProgress → List TrashId → EmptyProgress × Bool → Prop}
    (nil : ∀ progress, motive progress [] (progress, true))
    (full : ∀ progress id rest, maxEntries ≤ progress.removed → motive progress (id :: rest) (progress, false))
    (goes : ∀ progress next id rest result, Ready progress (id :: rest) →
      progress.removed < maxEntries → call.Handled maxEntries progress id (next, true) →
      TrashDirectory.Frame (· = id) progress.trash next.trash → motive next rest result →
      motive progress (id :: rest) result)
    (stops : ∀ progress next id rest, Ready progress (id :: rest) → progress.removed < maxEntries →
      call.Handled maxEntries progress id (next, false) →
      TrashDirectory.Frame (· = id) progress.trash next.trash → motive progress (id :: rest) (next, false))
    {progress : EmptyProgress} {ids : List TrashId} (h : Ready progress ids) :
    motive progress ids (call.emptyItems maxEntries ids progress) := by
  induction ids generalizing progress with
  | nil => exact nil progress
  | cons id rest ih =>
    unfold emptyItems
    split
    · rename_i hfull
      exact full progress id rest hfull
    · rename_i hbudget
      have hbudget := Nat.lt_of_not_le hbudget
      have hhandled := emptyItem_handled call h.stored (h.present id List.mem_cons_self) hbudget
      have hframe := call.emptyItem_frame maxEntries progress id
      have hnext := Ready.next call h hbudget
      generalize call.emptyItem maxEntries progress id = outcome at *
      obtain ⟨next, go⟩ := outcome
      cases go with
      | true => exact goes progress next id rest _ h hbudget hhandled hframe (ih hnext)
      | false => exact stops progress next id rest h hbudget hhandled hframe

theorem emptyItems_erodes (call : EmptyCall) (maxEntries : ℕ) (ids : List TrashId)
    (progress : EmptyProgress) :
    progress.trash.Erodes (call.emptyItems maxEntries ids progress).1.trash := by
  induction ids generalizing progress with
  | nil => exact .refl _
  | cons id rest ih =>
    have hitem := call.emptyItem_erodes maxEntries progress id
    unfold emptyItems
    split
    · exact .refl _
    · split
      · rename_i next hnext
        rw [hnext] at hitem
        exact hitem.trans (ih next)
      · rename_i next hnext
        rw [hnext] at hitem
        exact hitem

theorem emptyItems_passedOver {ids : List TrashId} (h : Ready progress ids) :
    progress.passedOver ⊆ (call.emptyItems maxEntries ids progress).1.passedOver := by
  refine emptyItems_induction
    (motive := fun progress _ result => progress.passedOver ⊆ result.1.passedOver)
    (fun _ => List.Subset.refl _) (fun _ _ _ _ => List.Subset.refl _) ?_ ?_ h
  · intro progress next id rest result _ _ hhandled _ ih
    rcases hhandled.passedOver_cons with hsame | hcons
    · rwa [hsame] at ih
    · rw [hcons] at ih
      exact List.Subset.trans (List.subset_cons_self _ _) ih
  · intro progress next id rest _ _ hhandled _
    rcases hhandled.passedOver_cons with hsame | hcons
    · rw [hsame]
      exact List.Subset.refl _
    · rw [hcons]
      exact List.subset_cons_self _ _

/-- A batch that handled all of its items passed them over or removed them. -/
theorem emptyItems_handled {ids : List TrashId} (h : Ready progress ids)
    (hall : (call.emptyItems maxEntries ids progress).2 = true) {id : TrashId} (hid : id ∈ ids) :
    id ∈ (call.emptyItems maxEntries ids progress).1.passedOver ∨
      (call.emptyItems maxEntries ids progress).1.trash.sidecars.get? id = none := by
  induction ids generalizing progress with
  | nil => cases hid
  | cons other rest ih =>
    unfold emptyItems at hall ⊢
    split at hall
    · cases hall
    · rename_i hbudget
      have hbudget := Nat.lt_of_not_le hbudget
      have hhandled := emptyItem_handled call h.stored (h.present other List.mem_cons_self) hbudget
      have hnext := Ready.next call h hbudget
      rw [if_neg (Nat.not_le.mpr hbudget)]
      generalize call.emptyItem maxEntries progress other = outcome at *
      obtain ⟨next, go⟩ := outcome
      cases go with
      | false => cases hall
      | true =>
        rcases List.mem_cons.mp hid with rfl | hid
        · cases hhandled with
          | passedOver =>
            exact .inl (emptyItems_passedOver hnext List.mem_cons_self)
          | purged trash _ _ _ hgone =>
            exact .inr ((call.emptyItems_erodes maxEntries rest _).sidecar _ hgone)
        · exact ih hnext hall hid

/-- The condition on the items of a batch: counting what each removal attempts, or what goes before it
is refused, no more payload entries go than the batch may remove. Only the removals that succeed
are charged to the budget. -/
def fits (call : EmptyCall) (trash : TrashDirectory) (maxEntries : ℕ) : ℕ → ℕ → List TrashId → Bool
  | charged, lost, [] => charged + lost ≤ maxEntries
  | charged, lost, id :: rest =>
    if charged ≥ maxEntries then charged + lost ≤ maxEntries
    else if (call.demand trash id).1 ≤ maxEntries - charged then
      if (call.demand trash id).2 then
        call.fits trash maxEntries (charged + (call.demand trash id).1) lost rest
      else call.fits trash maxEntries charged (lost + call.loss trash id) rest
    else lost = 0

theorem fits_congr {first second : TrashDirectory} {ids : List TrashId}
    (hsidecar : ∀ id ∈ ids, second.sidecars.get? id = first.sidecars.get? id)
    (hpayload : ∀ id ∈ ids, second.payloads.get? id = first.payloads.get? id) (charged lost : ℕ) :
    call.fits second maxEntries charged lost ids = call.fits first maxEntries charged lost ids := by
  induction ids generalizing charged lost with
  | nil => rfl
  | cons id rest ih =>
    have hdemand : call.demand second id = call.demand first id := by
      rw [demand, demand, TrashDirectory.demand_congr (hsidecar id List.mem_cons_self)
        (hpayload id List.mem_cons_self)]
    have hloss : call.loss second id = call.loss first id := by
      rw [loss, loss, TrashDirectory.loss_congr (hsidecar id List.mem_cons_self)
        (hpayload id List.mem_cons_self)]
    have hrest := ih (fun other hother => hsidecar other (List.mem_cons_of_mem _ hother))
      (fun other hother => hpayload other (List.mem_cons_of_mem _ hother))
    rw [fits, fits, hdemand, hloss, hrest, hrest]

/-- The rest of a batch fits in the directory that its first item leaves if it did before. -/
theorem Ready.fits_rest {next : EmptyProgress} {rest : List TrashId} (h : Ready progress (id :: rest))
    (hframe : TrashDirectory.Frame (· = id) progress.trash next.trash) (charged lost : ℕ) :
    call.fits next.trash maxEntries charged lost rest =
      call.fits progress.trash maxEntries charged lost rest := by
  have hne (other : TrashId) (hother : other ∈ rest) : other ≠ id :=
    fun heq => (List.nodup_cons.mp h.nodup).1 (heq ▸ hother)
  exact fits_congr (fun other hother => hframe.sidecar other (hne other hother))
    (fun other hother => hframe.payload other (hne other hother)) charged lost

/-- A batch removes no more payload entries than it may exactly when its items fit. -/
theorem emptyItems_fits {ids : List TrashId} (h : Ready progress ids) (lost : ℕ) :
    call.fits progress.trash maxEntries progress.removed lost ids = true ↔
      progress.removed + lost + progress.trash.payloadCount ≤
        maxEntries + (call.emptyItems maxEntries ids progress).1.trash.payloadCount := by
  refine emptyItems_induction (motive := fun progress ids result => ∀ lost,
    call.fits progress.trash maxEntries progress.removed lost ids = true ↔
      progress.removed + lost + progress.trash.payloadCount ≤ maxEntries + result.1.trash.payloadCount)
    ?_ ?_ ?_ ?_ h lost
  · intro progress lost
    rw [fits, decide_eq_true_eq]
    exact (Nat.add_le_add_iff_right).symm
  · intro progress id rest hfull lost
    rw [fits, if_pos hfull, decide_eq_true_eq]
    exact (Nat.add_le_add_iff_right).symm
  · intro progress next id rest result hready hbudget hhandled hframe ih lost
    rw [fits, if_neg (Nat.not_le.mpr hbudget)]
    cases hhandled with
    | passedOver trash failed _ hcovers hrefused hcount =>
      have hrest := ih (lost + call.loss progress.trash id)
      rw [hready.fits_rest hframe] at hrest
      dsimp only at hrest
      rw [if_pos hcovers, hrefused, if_neg Bool.false_ne_true, hrest]
      omega
    | purged trash hcovers hok hcount _ =>
      have hrest := ih lost
      rw [hready.fits_rest hframe] at hrest
      dsimp only at hrest
      rw [if_pos hcovers, hok, if_pos rfl, hrest]
      omega
  · intro progress next id rest hready hbudget hhandled _ lost
    rw [fits, if_neg (Nat.not_le.mpr hbudget)]
    cases hhandled with
    | short trash hshort hcount =>
      rw [if_neg (Nat.not_le.mpr hshort), decide_eq_true_eq]
      dsimp only
      omega

/-- The items counted so far are different ones; those purged are gone, those failed passed over. -/
structure Accounts (trash : TrashDirectory) (passedOver purged failed : List TrashId) : Prop where
  nodup : (purged ++ failed).Nodup
  gone : ∀ id ∈ purged, trash.sidecars.get? id = none
  kept : failed ⊆ passedOver

theorem Handled.accounts {purged failed : List TrashId} {result : EmptyProgress × Bool}
    (h : call.Handled maxEntries progress id result)
    (hpresent : progress.trash.sidecars.get? id ≠ none) (hfresh : id ∉ progress.passedOver)
    (hframe : TrashDirectory.Frame (· = id) progress.trash result.1.trash)
    (haccounts : Accounts progress.trash progress.passedOver (progress.purged ++ purged)
      (progress.failed ++ failed)) :
    Accounts result.1.trash result.1.passedOver (result.1.purged ++ purged)
      (result.1.failed ++ failed) := by
  have hgone (other : TrashId) (hother : other ∈ progress.purged ++ purged) :
      result.1.trash.sidecars.get? other = none := hframe.gone other (haccounts.gone other hother)
  have hunpurged : id ∉ progress.purged ++ purged := fun hid => hpresent (haccounts.gone id hid)
  have hunfailed : id ∉ progress.failed ++ failed := fun hid => hfresh (haccounts.kept hid)
  cases h with
  | passedOver trash _ hfailed =>
    rcases hfailed with rfl | rfl
    · exact ⟨haccounts.nodup, hgone, List.Subset.trans haccounts.kept (List.subset_cons_self _ _)⟩
    · refine ⟨?_, hgone, List.cons_subset_cons _ haccounts.kept⟩
      rw [List.cons_append, List.nodup_middle, List.nodup_cons, List.mem_append, not_or]
      exact ⟨⟨hunpurged, hunfailed⟩, haccounts.nodup⟩
  | purged trash _ _ _ hnone =>
    refine ⟨?_, fun other hother => ?_, haccounts.kept⟩
    · rw [List.cons_append, List.cons_append, List.nodup_cons, List.mem_append, not_or]
      exact ⟨⟨hunpurged, hunfailed⟩, haccounts.nodup⟩
    · rcases List.mem_cons.mp hother with rfl | hother
      · exact hnone
      · exact hgone other hother
  | short trash => exact ⟨haccounts.nodup, hgone, haccounts.kept⟩

theorem emptyItems_accounts {ids : List TrashId} (h : Ready progress ids) {purged failed : List TrashId}
    (haccounts : Accounts progress.trash progress.passedOver (progress.purged ++ purged)
      (progress.failed ++ failed)) :
    Accounts (call.emptyItems maxEntries ids progress).1.trash
      (call.emptyItems maxEntries ids progress).1.passedOver
      ((call.emptyItems maxEntries ids progress).1.purged ++ purged)
      ((call.emptyItems maxEntries ids progress).1.failed ++ failed) := by
  refine emptyItems_induction (motive := fun progress _ result =>
    Accounts progress.trash progress.passedOver (progress.purged ++ purged) (progress.failed ++ failed) →
      Accounts result.1.trash result.1.passedOver (result.1.purged ++ purged) (result.1.failed ++ failed))
    (fun _ haccounts => haccounts) (fun _ _ _ _ haccounts => haccounts) ?_ ?_ h haccounts
  · intro progress next id rest result hready _ hhandled hframe ih haccounts
    exact ih (hhandled.accounts (hready.present id List.mem_cons_self)
      (hready.fresh id List.mem_cons_self) hframe haccounts)
  · intro progress next id rest hready _ hhandled hframe haccounts
    exact hhandled.accounts (hready.present id List.mem_cons_self)
      (hready.fresh id List.mem_cons_self) hframe haccounts

/-- What is left for a sweep: the items that it has not passed over, and the payload entries. -/
def work (trash : TrashDirectory) (passedOver : List TrashId) : ℕ :=
  (trash.sidecars.keys.filter (· ∉ passedOver)).length + trash.payloadCount

theorem mem_left {trash : TrashDirectory} {passedOver : List TrashId} :
    id ∈ trash.sidecars.keys.filter (· ∉ passedOver) ↔
      trash.sidecars.get? id ≠ none ∧ id ∉ passedOver := by
  rw [List.mem_filter, decide_eq_true_eq, Ne, KeyedMap.get?_eq_none, not_not]

theorem left_subset {before after : TrashDirectory} {passedOver passedOver' : List TrashId}
    (hgone : ∀ id, before.sidecars.get? id = none → after.sidecars.get? id = none)
    (hpassed : passedOver ⊆ passedOver') :
    after.sidecars.keys.filter (· ∉ passedOver') ⊆ before.sidecars.keys.filter (· ∉ passedOver) := by
  intro id hid
  obtain ⟨hpresent, hfresh⟩ := mem_left.mp hid
  exact mem_left.mpr ⟨fun hnone => hpresent (hgone id hnone), fun hmem => hfresh (hpassed hmem)⟩

theorem work_le {before after : TrashDirectory} {passedOver passedOver' : List TrashId}
    (hgone : ∀ id, before.sidecars.get? id = none → after.sidecars.get? id = none)
    (hpassed : passedOver ⊆ passedOver') (hcount : after.payloadCount ≤ before.payloadCount) :
    work after passedOver' ≤ work before passedOver :=
  Nat.add_le_add (List.Nodup.subperm (after.sidecars.nodup.filter _) (left_subset hgone hpassed)).length_le hcount

/-- An item that is removed or passed over is no longer left. -/
theorem work_lt {before after : TrashDirectory} {passedOver passedOver' : List TrashId}
    (hgone : ∀ id, before.sidecars.get? id = none → after.sidecars.get? id = none)
    (hpassed : passedOver ⊆ passedOver') (hcount : after.payloadCount ≤ before.payloadCount)
    (hpresent : before.sidecars.get? id ≠ none) (hfresh : id ∉ passedOver)
    (hdone : id ∈ passedOver' ∨ after.sidecars.get? id = none) :
    work after passedOver' < work before passedOver := by
  have hnot : id ∉ after.sidecars.keys.filter (· ∉ passedOver') := by
    rw [mem_left]
    rintro ⟨hafter, hfresh'⟩
    rcases hdone with hmem | hnone
    · exact hfresh' hmem
    · exact hafter hnone
  have hsubset := List.cons_subset.mpr ⟨mem_left.mpr ⟨hpresent, hfresh⟩, left_subset hgone hpassed⟩
  have hnodup := List.nodup_cons.mpr ⟨hnot, after.sidecars.nodup.filter (· ∉ passedOver')⟩
  have hlength := (List.Nodup.subperm hnodup hsubset).length_le
  rw [List.length_cons] at hlength
  unfold work
  omega

theorem Handled.work_lt {result : EmptyProgress × Bool} (h : call.Handled maxEntries progress id result)
    (hpresent : progress.trash.sidecars.get? id ≠ none) (hfresh : id ∉ progress.passedOver)
    (hbudget : progress.removed < maxEntries)
    (hframe : TrashDirectory.Frame (· = id) progress.trash result.1.trash) :
    work result.1.trash result.1.passedOver < work progress.trash progress.passedOver := by
  cases h with
  | passedOver trash failed _ _ _ hcount =>
    exact EmptyCall.work_lt hframe.gone (List.subset_cons_self _ _) (by dsimp only; omega) hpresent hfresh
      (.inl List.mem_cons_self)
  | purged trash _ _ hcount hgone =>
    exact EmptyCall.work_lt hframe.gone (List.Subset.refl _) (by dsimp only; omega) hpresent hfresh
      (.inr hgone)
  | short trash _ hcount =>
    have hleft : (trash.sidecars.keys.filter (· ∉ progress.passedOver)).length ≤
        (progress.trash.sidecars.keys.filter (· ∉ progress.passedOver)).length :=
      (List.Nodup.subperm (trash.sidecars.nodup.filter _)
        (left_subset hframe.gone (List.Subset.refl _))).length_le
    unfold work
    dsimp only
    omega

/-- A batch with items and some budget leaves less to do. -/
theorem emptyItems_work {ids : List TrashId} (h : Ready progress ids) :
    work (call.emptyItems maxEntries ids progress).1.trash
        (call.emptyItems maxEntries ids progress).1.passedOver ≤
      work progress.trash progress.passedOver ∧
    (ids ≠ [] → progress.removed < maxEntries →
      work (call.emptyItems maxEntries ids progress).1.trash
          (call.emptyItems maxEntries ids progress).1.passedOver <
        work progress.trash progress.passedOver) := by
  refine emptyItems_induction (motive := fun progress ids result =>
    work result.1.trash result.1.passedOver ≤ work progress.trash progress.passedOver ∧
      (ids ≠ [] → progress.removed < maxEntries →
        work result.1.trash result.1.passedOver < work progress.trash progress.passedOver))
    ?_ ?_ ?_ ?_ h
  · exact fun progress => ⟨le_rfl, fun hne => absurd rfl hne⟩
  · exact fun progress id rest hfull => ⟨le_rfl, fun _ hbudget => absurd hfull (Nat.not_le.mpr hbudget)⟩
  · intro progress next id rest result hready hbudget hhandled hframe ih
    have hitem := hhandled.work_lt (hready.present id List.mem_cons_self)
      (hready.fresh id List.mem_cons_self) hbudget hframe
    have hless := Nat.lt_of_le_of_lt ih.1 hitem
    exact ⟨hless.le, fun _ _ => hless⟩
  · intro progress next id rest hready hbudget hhandled hframe
    have hitem := hhandled.work_lt (hready.present id List.mem_cons_self)
      (hready.fresh id List.mem_cons_self) hbudget hframe
    exact ⟨hitem.le, fun _ _ => hitem⟩

/-- The item whose sidecar a name is. -/
def sidecarItem : TrashName → Option TrashId
  | .sidecar id => some id
  | _ => none

theorem names_sidecars (trash : TrashDirectory) : trash.names.filterMap sidecarItem = trash.sidecars.keys := by
  have hnone (f : TrashId → TrashName) (hf : ∀ id, sidecarItem (f id) = none) (ids : List TrashId) :
      (ids.map f).filterMap sidecarItem = [] := by
    rw [List.filterMap_map, List.filterMap_eq_nil_iff]
    exact fun id _ => hf id
  have hsome (ids : List TrashId) : (ids.map TrashName.sidecar).filterMap sidecarItem = ids := by
    rw [List.filterMap_map]
    exact List.filterMap_some
  have hstray (names : List StrayName) : (names.map TrashName.stray).filterMap sidecarItem = [] := by
    rw [List.filterMap_map, List.filterMap_eq_nil_iff]
    exact fun _ _ => rfl
  rw [TrashDirectory.names, List.filterMap_append, List.filterMap_append, List.filterMap_append,
    hnone _ fun _ => rfl, hnone _ fun _ => rfl, hsome, hstray, List.nil_append, List.nil_append,
    List.append_nil]

/-- A batch picks listed items that were not passed over: all of them where it read the whole
directory, and otherwise as many as it may remove entries. -/
theorem pick_eq_ok {sweep : TrashSweep} {names : List TrashName} {scanned : ℕ}
    {candidates picked : List TrashId} {reachedEnd : Bool}
    (h : call.pick sweep maxEntries names scanned candidates = .ok (picked, reachedEnd)) :
    ∃ read, picked = candidates ++ read ∧ read.Sublist (names.filterMap sidecarItem) ∧
      (∀ id ∈ read, id ∉ sweep.passedOver) ∧
      (reachedEnd = true → ∀ id ∈ names.filterMap sidecarItem, id ∈ sweep.passedOver ∨ id ∈ read) ∧
      (reachedEnd = false → maxEntries ≤ picked.length) := by
  induction names generalizing scanned candidates with
  | nil =>
    obtain ⟨rfl, rfl⟩ := Prod.mk.inj (Except.ok.inj h)
    exact ⟨[], (List.append_nil _).symm, List.Sublist.refl _, nofun, fun _ => nofun, nofun⟩
  | cons name rest ih =>
    unfold pick at h
    split at h
    · rename_i hfull
      obtain ⟨rfl, rfl⟩ := Prod.mk.inj (Except.ok.inj h)
      exact ⟨[], (List.append_nil _).symm, List.nil_sublist _, nofun, nofun, fun _ => hfull⟩
    · replace h := (ite_error_eq_ok.mp (ite_error_eq_ok.mp h).2).2
      split at h
      · rename_i id
        have hcons : (TrashName.sidecar id :: rest).filterMap sidecarItem =
            id :: rest.filterMap sidecarItem := rfl
        rw [hcons]
        split at h
        · rename_i hpassed
          obtain ⟨read, hpicked, hsublist, hfresh, hcovers, hfull⟩ := ih h
          refine ⟨read, hpicked, hsublist.cons id, hfresh, fun hend other hother => ?_, hfull⟩
          rcases List.mem_cons.mp hother with rfl | hother
          · exact .inl hpassed
          · exact hcovers hend other hother
        · rename_i hpassed
          obtain ⟨read, hpicked, hsublist, hfresh, hcovers, hfull⟩ := ih h
          refine ⟨id :: read, by rw [hpicked, ← List.append_cons], hsublist.cons_cons id, ?_, ?_, hfull⟩
          · intro other hother
            rcases List.mem_cons.mp hother with rfl | hother
            · exact hpassed
            · exact hfresh other hother
          · intro hend other hother
            rcases List.mem_cons.mp hother with rfl | hother
            · exact .inr List.mem_cons_self
            · exact (hcovers hend other hother).imp_right (List.mem_cons_of_mem _)
      · rename_i hname
        have hskip : (name :: rest).filterMap sidecarItem = rest.filterMap sidecarItem := by
          cases name with
          | sidecar id => exact absurd rfl (hname id)
          | temporary id => rfl
          | payload id => rfl
          | stray text => rfl
        rw [hskip]
        exact ih h

/-- Only an unreadable directory, or one with too many names, keeps a batch from picking its items. -/
theorem pick_eq_error {sweep : TrashSweep} {names : List TrashName} {scanned : ℕ}
    {candidates : List TrashId} {error : FsErrorCode}
    (h : call.pick sweep maxEntries names scanned candidates = .error error) :
    (∃ place, call.unreadable place = true) ∨ maxEmptyScanEntries < scanned + names.length := by
  induction names generalizing scanned candidates with
  | nil => cases h
  | cons name rest ih =>
    rw [List.length_cons]
    unfold pick at h
    split at h
    · cases h
    · split at h
      · exact .inr (by omega)
      · split at h
        · rename_i hunread
          exact .inl ⟨_, hunread⟩
        · have hrest : ∀ candidates, call.pick sweep maxEntries rest (scanned + 1) candidates =
              .error error → (∃ place, call.unreadable place = true) ∨
                maxEmptyScanEntries < scanned + (rest.length + 1) := by
            intro candidates hpick
            rcases ih hpick with hunread | hmany
            · exact .inl hunread
            · exact .inr (by omega)
          split at h
          · split at h
            · exact hrest _ h
            · exact hrest _ h
          · exact hrest _ h

end EmptyCall

namespace Emptying

variable {maxEntries : ℕ} {state next : Emptying} {call : EmptyCall}

/-- What an accepted batch picks, and what it makes of it. -/
theorem emptyTrashBatch_eq_ok {share after : AuthorizedShare} {sweep sweep' : TrashSweep}
    {batch : TrashEmptyBatch}
    (h : share.emptyTrashBatch sweep maxEntries call = (after, sweep', .ok batch)) :
    share.readWrite = true ∧ call.unreadable 0 = false ∧
    ∃ candidates reachedEnd, call.pick sweep (max maxEntries 1) call.order 0 [] = .ok (candidates, reachedEnd) ∧
      ∃ progress handledAll,
        call.emptyItems (max maxEntries 1) candidates ⟨share.trash, sweep.passedOver, 0, [], []⟩ =
          (progress, handledAll) ∧
        after = { share with trash := progress.trash } ∧ sweep' = ⟨progress.passedOver⟩ ∧
        batch = ⟨progress.purged, progress.failed, reachedEnd && handledAll⟩ := by
  unfold AuthorizedShare.emptyTrashBatch at h
  dsimp only at h
  split at h
  · cases h
  · rename_i hwrite
    unfold AuthorizedShare.requireWrite at hwrite
    split at hwrite
    · rename_i hwritable
      split at h
      · cases h
      · rename_i hreadable
        refine ⟨hwritable, Bool.eq_false_iff.mpr hreadable, ?_⟩
        split at h
        · cases h
        · rename_i candidates reachedEnd hpick
          generalize hrun : call.emptyItems (max maxEntries 1) candidates
            ⟨share.trash, sweep.passedOver, 0, [], []⟩ = outcome at h
          obtain ⟨progress, handledAll⟩ := outcome
          obtain ⟨rfl, hrest⟩ := Prod.mk.inj h
          obtain ⟨rfl, hbatch⟩ := Prod.mk.inj hrest
          exact ⟨candidates, reachedEnd, hpick, progress, handledAll, hrun, rfl, rfl,
            (Except.ok.inj hbatch).symm⟩
    · cases hwrite

/-- A refused batch changes nothing. -/
theorem emptyTrashBatch_eq_error {share after : AuthorizedShare} {sweep sweep' : TrashSweep}
    {error : FsErrorCode}
    (h : share.emptyTrashBatch sweep maxEntries call = (after, sweep', .error error)) :
    after = share ∧ (share.readWrite = false ∨ call.unreadable 0 = true ∨
      ∃ error, call.pick sweep (max maxEntries 1) call.order 0 [] = .error error) := by
  unfold AuthorizedShare.emptyTrashBatch at h
  dsimp only at h
  split at h
  · rename_i hwrite
    refine ⟨(Prod.mk.inj h).1.symm, .inl ?_⟩
    unfold AuthorizedShare.requireWrite at hwrite
    split at hwrite
    · cases hwrite
    · rename_i hread
      simpa using hread
  · split at h
    · rename_i hunread
      exact ⟨(Prod.mk.inj h).1.symm, .inr (.inl hunread)⟩
    · split at h
      · rename_i error hpick
        exact ⟨(Prod.mk.inj h).1.symm, .inr (.inr ⟨error, hpick⟩)⟩
      · obtain ⟨-, hrest⟩ := Prod.mk.inj h
        cases (Prod.mk.inj hrest).2

/-- The items picked are there, are different ones, and have not been passed over. -/
theorem ready_of_pick {trash : TrashDirectory} {sweep : TrashSweep} {candidates : List TrashId}
    {reachedEnd : Bool} (hstored : trash.Stored) (horder : call.order.Perm trash.names)
    (hpick : call.pick sweep maxEntries call.order 0 [] = .ok (candidates, reachedEnd)) :
    EmptyCall.Ready ⟨trash, sweep.passedOver, 0, [], []⟩ candidates := by
  have hkeys : (call.order.filterMap EmptyCall.sidecarItem).Perm trash.sidecars.keys :=
    EmptyCall.names_sidecars trash ▸ horder.filterMap EmptyCall.sidecarItem
  obtain ⟨read, hread, hsublist, hfresh, -, -⟩ := EmptyCall.pick_eq_ok hpick
  rw [List.nil_append] at hread
  subst hread
  refine ⟨hsublist.nodup (hkeys.nodup_iff.mpr trash.sidecars.nodup), fun id hid => ?_, hfresh, hstored⟩
  rw [Ne, KeyedMap.get?_eq_none, not_not]
  exact hkeys.mem_iff.mp (hsublist.subset hid)

/-- What every batch is to keep to: it removes no more payload entries than it may, changes no pending
item, removes a sidecar only when the payload is gone, and is refused only for a reason. -/
structure Keeps (maxEntries : ℕ) (state : Emptying) (call : EmptyCall) : Prop where
  bounded : state.share.trash.payloadCount ≤
    (state.share.emptyTrashBatch state.sweep maxEntries call).1.trash.payloadCount + max maxEntries 1
  pending : ∀ id, ¬state.share.trash.Settled id →
    (state.share.emptyTrashBatch state.sweep maxEntries call).1.trash.sidecars.get? id =
        state.share.trash.sidecars.get? id ∧
      (state.share.emptyTrashBatch state.sweep maxEntries call).1.trash.payloads.get? id =
        state.share.trash.payloads.get? id
  emptied : ∀ id, state.share.trash.sidecars.get? id ≠ none →
    (state.share.emptyTrashBatch state.sweep maxEntries call).1.trash.sidecars.get? id = none →
      (state.share.emptyTrashBatch state.sweep maxEntries call).1.trash.payloads.get? id = none
  refused : ∀ error, (state.share.emptyTrashBatch state.sweep maxEntries call).2.2 = .error error →
    state.share.readWrite = false ∨ (∃ place, call.unreadable place = true) ∨
      maxEmptyScanEntries < call.order.length

/-- The condition on a batch: if it picks items, they fit. -/
def fits (maxEntries : ℕ) (state : Emptying) (call : EmptyCall) : Bool :=
  !state.share.readWrite || call.unreadable 0 ||
    match call.pick state.sweep (max maxEntries 1) call.order 0 [] with
    | .error _ => true
    | .ok (candidates, _) => call.fits state.share.trash (max maxEntries 1) 0 0 candidates

theorem keeps_iff_fits (hstored : state.share.trash.Stored)
    (horder : call.order.Perm state.share.trash.names) :
    state.Keeps maxEntries call ↔ state.fits maxEntries call = true := by
  rcases hresult : state.share.emptyTrashBatch state.sweep maxEntries call with ⟨after, sweep, result⟩
  cases result with
  | error error =>
    obtain ⟨rfl, hcause⟩ := emptyTrashBatch_eq_error hresult
    refine iff_of_true ⟨?_, ?_, ?_, fun _ _ => ?_⟩ ?_
    · rw [hresult]
      exact Nat.le_add_right _ _
    · rw [hresult]
      exact fun _ _ => ⟨rfl, rfl⟩
    · rw [hresult]
      exact fun _ hpresent hnone => absurd hnone hpresent
    · rcases hcause with hread | hunread | ⟨_, hpick⟩
      · exact .inl hread
      · exact .inr (.inl ⟨0, hunread⟩)
      · exact .inr (by simpa using EmptyCall.pick_eq_error hpick)
    · unfold fits
      rcases hcause with hread | hunread | ⟨_, hpick⟩
      · rw [hread]
        rfl
      · rw [hunread, Bool.or_true, Bool.true_or]
      · rw [hpick, Bool.or_true]
  | ok batch =>
    obtain ⟨hwrite, hread, candidates, reachedEnd, hpick, progress, handledAll, hrun, rfl, -, -⟩ :=
      emptyTrashBatch_eq_ok hresult
    have hready := ready_of_pick hstored horder hpick
    have herodes := call.emptyItems_erodes (max maxEntries 1) candidates
      ⟨state.share.trash, state.sweep.passedOver, 0, [], []⟩
    have hfits := @EmptyCall.emptyItems_fits call (max maxEntries 1) _ _ hready 0
    rw [hrun] at herodes hfits
    have hsame : state.fits maxEntries call =
        call.fits state.share.trash (max maxEntries 1) 0 0 candidates := by
      rw [fits, hwrite, hread, hpick]
      rfl
    rw [hsame, hfits]
    dsimp only
    constructor
    · intro hkeeps
      have hbounded := hkeeps.bounded
      rw [hresult] at hbounded
      dsimp only at hbounded
      omega
    · intro hbounded
      refine ⟨?_, ?_, ?_, ?_⟩
      · rw [hresult]
        dsimp only
        omega
      · rw [hresult]
        exact herodes.pending
      · rw [hresult]
        exact herodes.emptied
      · rw [hresult]
        nofun

/-! ### Whole sweeps -/

/-- A sweep has not begun. -/
structure Fresh (state : Emptying) : Prop where
  stored : state.share.trash.Stored
  passedOver : state.sweep.passedOver = []
  purged : state.purged = []
  failed : state.failed = []
  unfinished : state.finished = false

/-- What holds of a sweep at any time. -/
structure Sound (state : Emptying) : Prop where
  stored : state.share.trash.Stored
  accounts : EmptyCall.Accounts state.share.trash state.sweep.passedOver state.purged state.failed
  finished : state.finished = true →
    ∀ id, state.share.trash.sidecars.get? id ≠ none → id ∈ state.sweep.passedOver

theorem Fresh.sound (h : state.Fresh) : state.Sound := by
  refine ⟨h.stored, ⟨?_, ?_, ?_⟩, fun hfinished => ?_⟩
  · rw [h.purged, h.failed]
    exact List.nodup_nil
  · rw [h.purged]
    nofun
  · rw [h.failed]
    exact List.nil_subset _
  · cases h.unfinished.symm.trans hfinished

/-- What is left for the batches of a sweep; the last of them may find nothing to do. -/
def left (state : Emptying) : ℕ :=
  if state.finished then 0 else EmptyCall.work state.share.trash state.sweep.passedOver + 1

/-- The number of batches. -/
def batches : List EmptyingAction → ℕ
  | [] => 0
  | .batch _ :: rest => batches rest + 1
  | .others _ :: rest => batches rest

theorem Sound.batch (h : state.Sound) (horder : call.order.Perm state.share.trash.names)
    (hnext : state.step maxEntries (.batch call) = some next) : next.Sound ∧ next.left < state.left := by
  simp only [step] at hnext
  split at hnext
  · cases hnext
  · rename_i hunfinished
    split at hnext
    · cases hnext
    · rename_i after sweep batch hresult
      obtain rfl := Option.some.inj hnext
      obtain ⟨-, -, candidates, reachedEnd, hpick, progress, handledAll, hrun, rfl, rfl, rfl⟩ :=
        emptyTrashBatch_eq_ok hresult
      have hready := ready_of_pick h.stored horder hpick
      have herodes := call.emptyItems_erodes (max maxEntries 1) candidates
        ⟨state.share.trash, state.sweep.passedOver, 0, [], []⟩
      have haccounts := @EmptyCall.emptyItems_accounts call (max maxEntries 1) _ _ hready state.purged
        state.failed h.accounts
      have hpassed := @EmptyCall.emptyItems_passedOver call (max maxEntries 1) _ _ hready
      have hwork := @EmptyCall.emptyItems_work call (max maxEntries 1) _ _ hready
      have hhandled := @EmptyCall.emptyItems_handled call (max maxEntries 1) _ _ hready
      rw [hrun] at herodes haccounts hpassed hwork hhandled
      obtain ⟨read, hread, -, -, hcovers, hfull⟩ := EmptyCall.pick_eq_ok hpick
      rw [List.nil_append] at hread
      subst hread
      refine ⟨⟨herodes.stored h.stored, haccounts, fun hfinished id hpresent => ?_⟩, ?_⟩
      · obtain ⟨hend, hall⟩ := Bool.and_eq_true_iff.mp hfinished
        have hbefore : state.share.trash.sidecars.get? id ≠ none :=
          fun hnone => hpresent (herodes.sidecar id hnone)
        have hlisted : id ∈ call.order.filterMap EmptyCall.sidecarItem := by
          rw [(horder.filterMap EmptyCall.sidecarItem).mem_iff, EmptyCall.names_sidecars]
          exact not_not.mp fun hid => hbefore (KeyedMap.get?_eq_none.mpr hid)
        rcases hcovers hend id hlisted with hpassedOver | hpicked
        · exact hpassed hpassedOver
        · exact (hhandled hall hpicked).resolve_right hpresent
      · unfold left
        rw [if_neg hunfinished]
        dsimp only
        split
        · exact Nat.succ_pos _
        · rename_i hgoes
          refine Nat.succ_lt_succ (hwork.2 ?_ (Nat.lt_of_lt_of_le Nat.one_pos (Nat.le_max_right _ _)))
          rintro rfl
          -- With nothing picked the whole directory was read, and the batch has finished.
          obtain ⟨rfl, rfl⟩ := Prod.mk.inj hrun
          cases reachedEnd with
          | true => exact hgoes rfl
          | false => exact absurd (hfull rfl) (by simp)

theorem Sound.others (h : state.Sound) {trash : TrashDirectory} (hallowed : state.Allowed (.others trash))
    (hnext : state.step maxEntries (.others trash) = some next) : next.Sound ∧ next.left ≤ state.left := by
  obtain ⟨hgone, hcount, hstored⟩ := hallowed
  obtain rfl := Option.some.inj hnext
  refine ⟨⟨hstored, ⟨h.accounts.nodup, fun id hid => hgone id (h.accounts.gone id hid), h.accounts.kept⟩,
    fun hfinished id hpresent => h.finished hfinished id fun hnone => hpresent (hgone id hnone)⟩, ?_⟩
  have hwork := EmptyCall.work_le hgone (List.Subset.refl state.sweep.passedOver) hcount
  unfold left
  dsimp only
  split
  · exact le_rfl
  · exact Nat.succ_le_succ hwork

/-- Each batch leaves less to do, so that a sweep has no more of them than there was to do. -/
theorem Sound.run {actions : List EmptyingAction} {last : Emptying} (h : state.Sound)
    (hallowed : Along (step maxEntries) Allowed state actions)
    (hrun : run (step maxEntries) state actions = some last) :
    last.Sound ∧ batches actions + last.left ≤ state.left := by
  induction actions generalizing state with
  | nil =>
    obtain rfl := Option.some.inj hrun
    exact ⟨h, by rw [batches, Nat.zero_add]⟩
  | cons action rest ih =>
    obtain ⟨next, hnext, hrest⟩ := run_cons_eq_some.mp hrun
    cases action with
    | batch call =>
      obtain ⟨hsound, hleft⟩ := h.batch hallowed.1 hnext
      obtain ⟨hlast, hbatches⟩ := ih hsound (hallowed.2 next hnext) hrest
      refine ⟨hlast, ?_⟩
      rw [batches]
      omega
    | others trash =>
      obtain ⟨hsound, hleft⟩ := h.others hallowed.1 hnext
      obtain ⟨hlast, hbatches⟩ := ih hsound (hallowed.2 next hnext) hrest
      exact ⟨hlast, hbatches.trans hleft⟩

/-- Each batch keeps to what it is to keep to. -/
def Kept (maxEntries : ℕ) (state : Emptying) : EmptyingAction → Prop
  | .batch call => state.Keeps maxEntries call
  | .others _ => True

/-- The items of each batch fit. -/
def Fits (maxEntries : ℕ) (state : Emptying) : EmptyingAction → Prop
  | .batch call => state.fits maxEntries call = true
  | .others _ => True

theorem Sound.kept_iff {actions : List EmptyingAction} (h : state.Sound)
    (hallowed : Along (step maxEntries) Allowed state actions) :
    Along (step maxEntries) (Kept maxEntries) state actions ↔
      Along (step maxEntries) (Fits maxEntries) state actions := by
  induction actions generalizing state with
  | nil => exact Iff.rfl
  | cons action rest ih =>
    cases action with
    | batch call =>
      refine and_congr (keeps_iff_fits h.stored hallowed.1) (forall₂_congr fun next hnext => ?_)
      exact ih (h.batch hallowed.1 hnext).1 (hallowed.2 next hnext)
    | others trash =>
      refine and_congr Iff.rfl (forall₂_congr fun next hnext => ?_)
      exact ih (h.others hallowed.1 hnext).1 (hallowed.2 next hnext)

/-- Emptying Trash ends and accounts for every item. A sweep has at most one batch more than there
were items and payload entries; it counts no item twice; when it has finished, what is left was
passed over; pending items stay, sidecars go last, and a batch is refused only where Trash cannot
be read or has too many names. Each batch also removes no more entries than it may exactly when
its items fit. -/
theorem emptying_accounts_iff {start : Emptying} (hstart : start.Fresh) {actions : List EmptyingAction}
    (hallowed : Along (step maxEntries) Allowed start actions) :
    (Along (step maxEntries) (Kept maxEntries) start actions ∧
      ∀ last, run (step maxEntries) start actions = some last →
        (last.purged ++ last.failed).Nodup ∧
        (last.finished = true →
          ∀ id, last.share.trash.sidecars.get? id ≠ none → id ∈ last.sweep.passedOver) ∧
        batches actions ≤ start.share.trash.sidecars.keys.length + start.share.trash.payloadCount + 1) ↔
      Along (step maxEntries) (Fits maxEntries) start actions := by
  have hsound := hstart.sound
  rw [and_iff_left_of_imp fun _ => ?_]
  · exact hsound.kept_iff hallowed
  · intro last hrun
    obtain ⟨hlast, hbatches⟩ := hsound.run hallowed hrun
    refine ⟨hlast.accounts.nodup, hlast.finished, ?_⟩
    have hwork : EmptyCall.work start.share.trash start.sweep.passedOver ≤
        start.share.trash.sidecars.keys.length + start.share.trash.payloadCount :=
      Nat.add_le_add_right (List.length_filter_le _ _) _
    have hleft : start.left = EmptyCall.work start.share.trash start.sweep.passedOver + 1 := by
      rw [left, hstart.unfinished]
      rfl
    omega

/-! ### Two folders of two files -/

def stuckId : TrashId := ⟨"00000000000000000000000000000003", by decide⟩

def looseId : TrashId := ⟨"00000000000000000000000000000004", by decide⟩

/-- A live item. -/
def liveFolder (id : TrashId) : Sidecar :=
  ⟨sidecarSchemaVersion, id, .ok ⟨[⟨"old"⟩]⟩, some .directory, some 0, .live⟩

/-- A folder with two files in it. -/
def pairOfFiles (fileId : ℕ) : Entry :=
  .directory ⟨0, none, fileId, 1⟩ (.leaf ⟨"a"⟩ .file ⟨1, none, fileId + 1, 1⟩
    (.leaf ⟨"b"⟩ .file ⟨1, none, fileId + 2, 1⟩ .empty))

/-- A share with two such folders in Trash. -/
def twoFolders : Emptying where
  share :=
    { root := .empty
      trash :=
        { temporaries := .empty
          payloads := (KeyedMap.empty.insert looseId (pairOfFiles 10)).insert stuckId (pairOfFiles 20)
          sidecars := (KeyedMap.empty.insert looseId (some (liveFolder looseId))).insert stuckId
            (some (liveFolder stuckId))
          strays := [] }
      readWrite := true }
  sweep := ⟨[]⟩
  purged := []
  failed := []
  finished := false

/-- A batch in which the removal of the second file of one folder is refused, if at all. -/
def folderCall (order : List TrashName) (refused : Bool) : EmptyCall where
  order
  unreadable _ := false
  sidecar _ := false
  purge id := { Faults.none with removal := fun count => refused && id == stuckId && count == 1 }

theorem twoFolders_fresh : twoFolders.Fresh := by
  refine ⟨fun id sidecar hsidecar error herror => ?_, rfl, rfl, rfl, rfl⟩
  rcases List.mem_cons.mp (KeyedMap.get?_eq_some.mp hsidecar) with heq | hmem
  · obtain rfl := Option.some.inj (Prod.mk.inj heq).2
    cases herror
  · obtain rfl := Option.some.inj (Prod.mk.inj (List.mem_singleton.mp hmem)).2
    cases herror

/-- One file goes before the first folder is refused, which is not counted, and two more go with the
second folder. -/
theorem batch_exceeds_limit :
    twoFolders.Fresh ∧
      Along (step 2) Allowed twoFolders [.batch (folderCall twoFolders.share.trash.names true)] ∧
      ¬Along (step 2) (Kept 2) twoFolders [.batch (folderCall twoFolders.share.trash.names true)] := by
  refine ⟨twoFolders_fresh, ⟨List.Perm.refl _, fun _ _ => trivial⟩, fun hkept => ?_⟩
  exact absurd hkept.1.bounded (by decide)

/-- Where nothing is refused, the batch stops in the second folder. -/
theorem batch_within_limit :
    Along (step 2) (Kept 2) twoFolders [.batch (folderCall twoFolders.share.trash.names false)] := by
  have hallowed : Along (step 2) Allowed twoFolders
      [.batch (folderCall twoFolders.share.trash.names false)] :=
    ⟨List.Perm.refl _, fun _ _ => trivial⟩
  have hfits : twoFolders.fits 2 (folderCall twoFolders.share.trash.names false) = true := by decide
  exact ((emptying_accounts_iff twoFolders_fresh hallowed).mpr ⟨hfits, fun _ _ => trivial⟩).1

end Emptying

end Crabinet.Share
