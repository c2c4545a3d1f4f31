import Crabinet.Library.Transition
import Crabinet.Trash.Purge

/-!
# Collecting expired items

The collector reads bounded batches of names from a saved position in the directory, and
purges the due items of each batch. Names keep their places in the directory; a removed
name leaves its place empty.
-/

namespace Crabinet.Trash

open Crabinet.Filesystem Crabinet.Library

/-- Whether an item is to be removed: it is expired, or its removal has begun. -/
def Sidecar.due (sidecar : Sidecar) (now : ℤ) : Bool :=
  sidecar.state == .purging || (sidecar.state == .live && sidecar.expiresAt.any (· ≤ now))

/-- Whether a name is UTF-8. -/
def StrayName.decodable : StrayName → Bool
  | text _ => true
  | undecodable _ => false

namespace TrashDirectory

/-- Whether a sidecar can be read and its item is to be removed. -/
def due (trash : TrashDirectory) (now : ℤ) (id : TrashId) : Bool :=
  match trash.readSidecar id with
  | .error _ => false
  | .ok sidecar => sidecar.due now

theorem due_congr {first second : TrashDirectory} {id : TrashId}
    (h : second.sidecars.get? id = first.sidecars.get? id) (now : ℤ) :
    second.due now id = first.due now id := by
  rw [due, due, readSidecar, readSidecar, h]

/-- A due item has a sidecar. -/
theorem has_of_due {trash : TrashDirectory} {now : ℤ} {id : TrashId} (h : trash.due now id = true) :
    trash.has (.sidecar id) = true := by
  unfold due at h
  split at h
  · cases h
  · rename_i sidecar hread
    simp [has, (readSidecar_eq_ok.mp hread).1]

/-- `gc_batch`: the position after the batch, which is 0 at the end of the directory, and its
names. -/
def gcBatch (trash : TrashDirectory) (limit : ℕ) :
    List TrashName → ℕ → List TrashName → ℕ × FsResult (List TrashName)
  | [], position, batch => (if batch.length < limit then 0 else position, .ok batch)
  | name :: rest, position, batch =>
    if batch.length < limit then
      if trash.has name then
        match name with
        | .stray (.undecodable _) => (position, .error .unavailable)
        | name => trash.gcBatch limit rest (position + 1) (batch ++ [name])
      else trash.gcBatch limit rest (position + 1) batch
    else (position, .ok batch)

end TrashDirectory

/-- A sweep over the directory: the places of its names, `max_entries`, and the time. -/
structure Sweep where
  slots : List TrashName
  nodup : slots.Nodup
  limit : ℕ
  positive : 1 ≤ limit
  now : ℤ

/-- What the file system refuses during one call. -/
structure GcCall where
  /-- The saved position. -/
  seek : Bool
  /-- The first read of an item's sidecar. -/
  sidecar : TrashId → Bool
  purge : TrashId → Faults

/-- `TrashGcBatch`. -/
structure TrashGcBatch where
  purged : ℕ
  finished : Bool
deriving DecidableEq, Repr

/-- The directory, the saved position, and the items that could not be read or removed. -/
structure Collector where
  trash : TrashDirectory
  cookie : ℕ
  failed : List TrashId

/-- A batch in progress. -/
structure Progress where
  trash : TrashDirectory
  removed : ℕ
  purged : ℕ
  failed : List TrashId

namespace Sweep

/-- The treatment of an item of a batch. -/
def collectItem (sweep : Sweep) (call : GcCall) (progress : Progress) (id : TrashId) : Progress :=
  if call.sidecar id then { progress with failed := id :: progress.failed }
  else
    match progress.trash.readSidecar id with
    | .error .notFound => progress
    | .error _ => { progress with failed := id :: progress.failed }
    | .ok sidecar =>
      if sidecar.due sweep.now then
        match progress.trash.purge (call.purge id) id (sweep.limit - progress.removed) with
        | (trash, .error _) => { progress with trash, failed := id :: progress.failed }
        | (trash, .ok count) =>
          { progress with
            trash
            removed := progress.removed + count
            purged := if trash.has (.sidecar id) then progress.purged else progress.purged + 1 }
      else progress

/-- The treatment of a name of a batch. -/
def collectName (sweep : Sweep) (call : GcCall) (progress : Progress) : TrashName → Progress
  | .sidecar id => sweep.collectItem call progress id
  | _ => progress

/-- The loop over the names of a batch. -/
def collect (sweep : Sweep) (call : GcCall) : List TrashName → Progress → Progress
  | [], progress => progress
  | name :: rest, progress =>
    if progress.removed ≥ sweep.limit then progress
    else sweep.collect call rest (sweep.collectName call progress name)

/-- The position at which a call starts to read. -/
def start (call : GcCall) (collector : Collector) : ℕ := if call.seek then 0 else collector.cookie

/-- `gc_expired_trash`. -/
def gcExpiredTrash (sweep : Sweep) (call : GcCall) (collector : Collector) :
    Collector × FsResult TrashGcBatch :=
  match collector.trash.gcBatch sweep.limit (sweep.slots.drop (start call collector))
      (start call collector) [] with
  | (cookie, .error error) => ({ collector with cookie }, .error error)
  | (cookie, .ok names) =>
    let progress := sweep.collect call names ⟨collector.trash, 0, 0, collector.failed⟩
    (⟨progress.trash, cookie, progress.failed⟩, .ok ⟨progress.purged, cookie == 0⟩)

/-- One call of a sweep, which goes on as long as the calls succeed. -/
def step (sweep : Sweep) (collector : Collector) (call : GcCall) : Option Collector :=
  match sweep.gcExpiredTrash call collector with
  | (next, .ok _) => some next
  | (_, .error _) => none

/-- What a call attempts for an item when the budget is unlimited. -/
def demand (call : GcCall) (trash : TrashDirectory) (id : TrashId) : ℕ × Bool :=
  if call.sidecar id then (0, false) else trash.demand (call.purge id) id

/-- Before each due item of a batch there is some budget left, and as much as it needs. Only what
was removed successfully has used budget. -/
def fits (sweep : Sweep) (call : GcCall) (trash : TrashDirectory) : ℕ → List TrashName → Bool
  | _, [] => true
  | removed, .sidecar id :: rest =>
    if trash.due sweep.now id then
      removed < sweep.limit && removed + (demand call trash id).1 ≤ sweep.limit &&
        sweep.fits call trash
          (if (demand call trash id).2 then removed + (demand call trash id).1 else removed) rest
    else sweep.fits call trash removed rest
  | removed, _ :: rest => sweep.fits call trash removed rest

/-- The condition on a call: the directory holds UTF-8 names only, and the batch fits its budget. -/
def meets (sweep : Sweep) (collector : Collector) (call : GcCall) : Bool :=
  collector.trash.strays.all StrayName.decodable &&
    match collector.trash.gcBatch sweep.limit (sweep.slots.drop (start call collector))
        (start call collector) [] with
    | (_, .error _) => true
    | (_, .ok names) => sweep.fits call collector.trash 0 names

/-! ### One batch -/

/-- The names of a batch are read in order; a present name is read, or is after the position. -/
theorem gcBatch_spec {trash : TrashDirectory} {limit : ℕ} (slots : List TrashName)
    (hdecodable : trash.strays.all StrayName.decodable = true) (hlimit : 1 ≤ limit)
    (position : ℕ) (batch : List TrashName) (hbatch : batch.length ≤ position) :
    ∃ cookie read,
      trash.gcBatch limit (slots.drop position) position batch = (cookie, .ok (batch ++ read)) ∧
        read.Sublist (slots.drop position) ∧
        (∀ name ∈ slots.drop position, trash.has name = true →
          name ∈ read ∨ (cookie ≠ 0 ∧ name ∈ slots.drop cookie)) ∧
        (cookie = 0 ∨ (position + read.length ≤ cookie ∧ limit ≤ batch.length + read.length)) := by
  induction hrest : slots.drop position generalizing position batch with
  | nil =>
    refine ⟨_, [], by rw [TrashDirectory.gcBatch, List.append_nil], List.nil_sublist _, nofun, ?_⟩
    split
    · exact .inl rfl
    · rename_i hfull
      exact .inr ⟨le_rfl, by simpa using hfull⟩
  | cons name rest ih =>
    have hnext : slots.drop (position + 1) = rest := by
      rw [← List.tail_drop, hrest, List.tail_cons]
    unfold TrashDirectory.gcBatch
    split
    · by_cases hhas : trash.has name = true
      · have hname : ∀ bytes, name ≠ .stray (.undecodable bytes) := by
          rintro bytes rfl
          have hmem : StrayName.undecodable bytes ∈ trash.strays := by
            simpa [TrashDirectory.has] using hhas
          simpa [StrayName.decodable] using List.all_eq_true.mp hdecodable _ hmem
        obtain ⟨cookie, read, hread, hsublist, hcovers, hcookie⟩ :=
          ih (position + 1) (batch ++ [name]) (by simpa using hbatch) hnext
        refine ⟨cookie, name :: read, ?_, hsublist.cons_cons name, fun other hother hpresent => ?_, ?_⟩
        · rw [if_pos hhas, ← List.append_cons] at *
          rw [← hread]
          split
          · exact absurd rfl (hname _)
          · rfl
        · rcases List.mem_cons.mp hother with rfl | hother
          · exact .inl List.mem_cons_self
          · rcases hcovers other hother hpresent with hmem | hmem
            · exact .inl (List.mem_cons_of_mem _ hmem)
            · exact .inr hmem
        · simp only [List.length_append, List.length_cons, List.length_nil] at hcookie ⊢
          omega
      · obtain ⟨cookie, read, hread, hsublist, hcovers, hcookie⟩ :=
          ih (position + 1) batch (by omega) hnext
        refine ⟨cookie, read, by rw [if_neg hhas, hread], hsublist.cons name, ?_, by omega⟩
        intro other hother hpresent
        rcases List.mem_cons.mp hother with rfl | hother
        · exact absurd hpresent hhas
        · exact hcovers other hother hpresent
    · rename_i hfull
      refine ⟨position, [], by rw [List.append_nil], List.nil_sublist _, fun other hother _ => ?_, ?_⟩
      · exact .inr ⟨by omega, hrest ▸ hother⟩
      · exact .inr ⟨le_rfl, by simpa using hfull⟩

theorem collectItem_frame (sweep : Sweep) (call : GcCall) (progress : Progress) (id : TrashId) :
    TrashDirectory.Frame (· = id) progress.trash (sweep.collectItem call progress id).trash := by
  have hpurge := progress.trash.purge_frame (call.purge id) id (sweep.limit - progress.removed)
  unfold collectItem
  split
  · exact .refl _ _
  · split
    · exact .refl _ _
    · exact .refl _ _
    · split
      · split
        · rename_i trash _ heq
          rw [heq] at hpurge
          exact hpurge
        · rename_i trash _ heq
          rw [heq] at hpurge
          exact hpurge
      · exact .refl _ _

theorem collectItem_failed (sweep : Sweep) (call : GcCall) (progress : Progress) (id : TrashId) :
    progress.failed ⊆ (sweep.collectItem call progress id).failed := by
  unfold collectItem
  split
  · exact List.subset_cons_self _ _
  · split
    · exact List.Subset.refl _
    · exact List.subset_cons_self _ _
    · split
      · split
        · exact List.subset_cons_self _ _
        · exact List.Subset.refl _
      · exact List.Subset.refl _

/-- An item that is not due uses no budget. -/
theorem collectItem_not_due {sweep : Sweep} {call : GcCall} {progress : Progress} {id : TrashId}
    (hdue : progress.trash.due sweep.now id = false) :
    (sweep.collectItem call progress id).removed = progress.removed := by
  unfold collectItem
  split
  · rfl
  · split
    · rfl
    · rfl
    · rename_i sidecar hread
      rw [TrashDirectory.due, hread] at hdue
      simp only [hdue, Bool.false_eq_true, if_false]

/-- A due item with enough budget is gone, or could not be read or removed. -/
theorem collectItem_due {sweep : Sweep} {call : GcCall} {progress : Progress} {id : TrashId}
    (hdue : progress.trash.due sweep.now id = true)
    (hbudget : progress.removed + (demand call progress.trash id).1 ≤ sweep.limit) :
    (sweep.collectItem call progress id).removed =
        (if (demand call progress.trash id).2 then
          progress.removed + (demand call progress.trash id).1 else progress.removed) ∧
      (id ∈ (sweep.collectItem call progress id).failed ∨
        (sweep.collectItem call progress id).trash.sidecars.get? id = none) := by
  unfold demand at hbudget ⊢
  unfold collectItem
  split
  · exact ⟨rfl, .inl List.mem_cons_self⟩
  · rename_i hreadable
    rw [if_neg hreadable] at hbudget
    have hfits : (progress.trash.demand (call.purge id) id).1 ≤ sweep.limit - progress.removed := by
      omega
    have hmeets := TrashDirectory.purge_meets (call.purge id) progress.trash id hfits
    unfold TrashDirectory.due at hdue
    split at hdue
    · cases hdue
    · rename_i sidecar hread
      rw [hread]
      dsimp only
      rw [if_pos hdue]
      cases hok : (progress.trash.demand (call.purge id) id).2 with
      | true =>
        obtain ⟨hresult, hgone⟩ := hmeets.done hok
        split
        · rename_i heq
          rw [heq] at hresult
          cases hresult
        · rename_i heq
          rw [heq] at hresult hgone
          exact ⟨by rw [if_pos rfl, Except.ok.inj hresult], .inr hgone⟩
      | false =>
        obtain ⟨error, hresult⟩ := hmeets.failed hok
        split
        · exact ⟨rfl, .inl List.mem_cons_self⟩
        · rename_i heq
          rw [heq] at hresult
          cases hresult

/-- What a batch leaves as it is. -/
structure Preserved (names : List TrashName) (before after : Progress) : Prop where
  frame : TrashDirectory.Frame (fun id => .sidecar id ∈ names) before.trash after.trash
  failed : before.failed ⊆ after.failed

theorem collectName_preserved (sweep : Sweep) (call : GcCall) (progress : Progress)
    (name : TrashName) : Preserved [name] progress (sweep.collectName call progress name) := by
  cases name with
  | sidecar id =>
    exact ⟨(sweep.collectItem_frame call progress id).mono (by simp),
      sweep.collectItem_failed call progress id⟩
  | temporary id => exact ⟨.refl _ _, List.Subset.refl _⟩
  | payload id => exact ⟨.refl _ _, List.Subset.refl _⟩
  | stray name => exact ⟨.refl _ _, List.Subset.refl _⟩

theorem collect_preserved (sweep : Sweep) (call : GcCall) (names : List TrashName)
    (progress : Progress) : Preserved names progress (sweep.collect call names progress) := by
  induction names generalizing progress with
  | nil => exact ⟨.refl _ _, List.Subset.refl _⟩
  | cons name rest ih =>
    unfold collect
    split
    · exact ⟨.refl _ _, List.Subset.refl _⟩
    · have hname := sweep.collectName_preserved call progress name
      have hrest := ih (sweep.collectName call progress name)
      constructor
      · exact (hname.frame.mono (by simp +contextual)).trans
          (hrest.frame.mono fun _ hmem => List.mem_cons_of_mem _ hmem)
      · exact List.Subset.trans hname.failed hrest.failed

/-- Without budget left a batch that fits has no due item left. -/
theorem not_due_of_fits {sweep : Sweep} {call : GcCall} {trash : TrashDirectory} {removed : ℕ}
    {names : List TrashName} (hfits : sweep.fits call trash removed names = true)
    (hremoved : sweep.limit ≤ removed) {id : TrashId} (hid : .sidecar id ∈ names) :
    trash.due sweep.now id = false := by
  induction names with
  | nil => cases hid
  | cons name rest ih =>
    cases name with
    | sidecar other =>
      unfold fits at hfits
      split at hfits
      · simp only [Bool.and_eq_true, decide_eq_true_eq] at hfits
        omega
      · rename_i hdue
        rcases List.mem_cons.mp hid with heq | hid
        · rw [TrashName.sidecar.inj heq]
          simpa using hdue
        · exact ih hfits hid
    | temporary other => exact ih hfits (by simpa using hid)
    | payload other => exact ih hfits (by simpa using hid)
    | stray other => exact ih hfits (by simpa using hid)

/-- Two directories agree on the items of some names. -/
structure Agree (names : List TrashName) (first second : TrashDirectory) : Prop where
  sidecar : ∀ id, .sidecar id ∈ names → second.sidecars.get? id = first.sidecars.get? id
  payload : ∀ id, .sidecar id ∈ names → second.payloads.get? id = first.payloads.get? id

theorem demand_congr {first second : TrashDirectory} {id : TrashId}
    (hsidecar : second.sidecars.get? id = first.sidecars.get? id)
    (hpayload : second.payloads.get? id = first.payloads.get? id) (call : GcCall) :
    demand call second id = demand call first id := by
  rw [demand, demand, TrashDirectory.demand_congr hsidecar hpayload]

/-- The first name of a batch that fits leaves a batch that fits, and its item is gone if it was
due, or could not be read or removed. -/
theorem collectName_of_fits {sweep : Sweep} {call : GcCall} {trash : TrashDirectory}
    {name : TrashName} {rest : List TrashName} {progress : Progress}
    (hagree : Agree (name :: rest) trash progress.trash)
    (hfits : sweep.fits call trash progress.removed (name :: rest) = true) :
    sweep.fits call trash (sweep.collectName call progress name).removed rest = true ∧
      ∀ id, name = .sidecar id → trash.due sweep.now id = true →
        id ∈ (sweep.collectName call progress name).failed ∨
          (sweep.collectName call progress name).trash.sidecars.get? id = none := by
  cases name with
  | temporary other => exact ⟨hfits, nofun⟩
  | payload other => exact ⟨hfits, nofun⟩
  | stray other => exact ⟨hfits, nofun⟩
  | sidecar other =>
    have hsame := hagree.sidecar other List.mem_cons_self
    have hdue := TrashDirectory.due_congr hsame sweep.now
    have hdemand := demand_congr hsame (hagree.payload other List.mem_cons_self) call
    unfold fits at hfits
    split at hfits
    · rename_i hother
      simp only [Bool.and_eq_true, decide_eq_true_eq] at hfits
      obtain ⟨⟨-, hbudget⟩, hrest⟩ := hfits
      rw [← hdemand] at hbudget hrest
      obtain ⟨hremoved, hresult⟩ := collectItem_due (hdue.trans hother) hbudget
      refine ⟨by rw [collectName, hremoved]; exact hrest, fun id hid _ => ?_⟩
      obtain rfl := TrashName.sidecar.inj hid
      exact hresult
    · rename_i hother
      have hnot : trash.due sweep.now other = false := by simpa using hother
      refine ⟨by rw [collectName, collectItem_not_due (hdue.trans hnot)]; exact hfits, ?_⟩
      rintro id hid hdue
      obtain rfl := TrashName.sidecar.inj hid
      rw [hnot] at hdue
      cases hdue

/-- Each due item of a batch that fits is gone afterwards, or could not be read or removed. -/
theorem collect_due {sweep : Sweep} {call : GcCall} {trash : TrashDirectory} {names : List TrashName}
    (progress : Progress) (hnodup : names.Nodup) (hagree : Agree names trash progress.trash)
    (hfits : sweep.fits call trash progress.removed names = true) {id : TrashId}
    (hid : .sidecar id ∈ names) (hdue : trash.due sweep.now id = true) :
    id ∈ (sweep.collect call names progress).failed ∨
      (sweep.collect call names progress).trash.sidecars.get? id = none := by
  induction names generalizing progress with
  | nil => cases hid
  | cons name rest ih =>
    obtain ⟨hname, hnodup⟩ := List.nodup_cons.mp hnodup
    unfold collect
    split
    · rename_i hremoved
      rw [not_due_of_fits hfits hremoved hid] at hdue
      cases hdue
    · have hkept := sweep.collectName_preserved call progress name
      have hrest := sweep.collect_preserved call rest (sweep.collectName call progress name)
      obtain ⟨hfitsRest, hresult⟩ := collectName_of_fits hagree hfits
      have hother (other : TrashId) (hmem : .sidecar other ∈ rest) : .sidecar other ∉ [name] :=
        fun heq => hname (List.mem_singleton.mp heq ▸ hmem)
      have hagreeRest : Agree rest trash (sweep.collectName call progress name).trash := by
        constructor
        · intro other hmem
          rw [hkept.frame.sidecar other (hother other hmem)]
          exact hagree.sidecar other (List.mem_cons_of_mem _ hmem)
        · intro other hmem
          rw [hkept.frame.payload other (hother other hmem)]
          exact hagree.payload other (List.mem_cons_of_mem _ hmem)
      rcases List.mem_cons.mp hid with heq | hmem
      · rcases hresult id heq.symm hdue with hfailed | hgone
        · exact .inl (hrest.failed hfailed)
        · exact .inr (hrest.frame.gone id hgone)
      · exact ih _ hnodup hagreeRest hfitsRest hmem

/-! ### Whole sweeps -/

/-- A call under the condition succeeds. Each item that was due when it started is gone afterwards,
could not be read or removed, or is as before and after the position. -/
theorem gcExpiredTrash_spec {sweep : Sweep} {call : GcCall} {collector : Collector}
    (hmeets : sweep.meets collector call = true) :
    ∃ next purged, sweep.gcExpiredTrash call collector = (next, .ok ⟨purged, next.cookie == 0⟩) ∧
      next.trash.strays = collector.trash.strays ∧
      collector.failed ⊆ next.failed ∧
      (∀ id, collector.trash.sidecars.get? id = none → next.trash.sidecars.get? id = none) ∧
      (next.cookie = 0 ∨ start call collector < next.cookie) ∧
      ∀ id, .sidecar id ∈ sweep.slots.drop (start call collector) →
        collector.trash.due sweep.now id = true →
          id ∈ next.failed ∨ next.trash.sidecars.get? id = none ∨
            (next.cookie ≠ 0 ∧ .sidecar id ∈ sweep.slots.drop next.cookie ∧
              next.trash.due sweep.now id = true) := by
  unfold meets at hmeets
  rw [Bool.and_eq_true] at hmeets
  obtain ⟨hdecodable, hfits⟩ := hmeets
  obtain ⟨cookie, names, hbatch, hsublist, hcovers, hcookie⟩ :=
    gcBatch_spec sweep.slots hdecodable sweep.positive (start call collector) [] (Nat.zero_le _)
  rw [List.nil_append] at hbatch
  rw [hbatch] at hfits
  have hnodup : names.Nodup := (hsublist.trans (List.drop_sublist _ _)).nodup sweep.nodup
  have hkept := sweep.collect_preserved call names ⟨collector.trash, 0, 0, collector.failed⟩
  refine ⟨_, _, by rw [gcExpiredTrash, hbatch], hkept.frame.strays, hkept.failed, hkept.frame.gone,
    ?_, fun id hid hdue => ?_⟩
  · rcases hcookie with hzero | ⟨hle, hlimit⟩
    · exact .inl hzero
    · have hpositive := sweep.positive
      simp only [List.length_nil, Nat.zero_add] at hlimit
      have hafter : start call collector < cookie := by omega
      exact .inr hafter
  · by_cases hread : .sidecar id ∈ names
    · have hagree : Agree names collector.trash collector.trash := ⟨fun _ _ => rfl, fun _ _ => rfl⟩
      rcases collect_due ⟨collector.trash, 0, 0, collector.failed⟩ hnodup hagree hfits
        hread hdue with hfailed | hgone
      · exact .inl hfailed
      · exact .inr (.inl hgone)
    · rcases hcovers _ hid (TrashDirectory.has_of_due hdue) with hmem | ⟨hne, hmem⟩
      · exact absurd hmem hread
      · refine .inr (.inr ⟨hne, hmem, ?_⟩)
        rw [← hdue]
        exact TrashDirectory.due_congr (hkept.frame.sidecar id hread) sweep.now

/-- An item that was due is gone, could not be read or removed, or is still to be read. -/
structure Pending (sweep : Sweep) (initial : TrashDirectory) (collector : Collector) : Prop where
  handled : ∀ id, initial.due sweep.now id = true →
    id ∈ collector.failed ∨ collector.trash.sidecars.get? id = none ∨
      (.sidecar id ∈ sweep.slots.drop collector.cookie ∧ collector.trash.due sweep.now id = true)

variable {sweep : Sweep} {initial : TrashDirectory}

/-- A call keeps what is pending, and a call that reaches the end leaves nothing pending. -/
theorem Pending.call {call : GcCall} {collector next : Collector} {batch : TrashGcBatch}
    (h : Pending sweep initial collector) (hmeets : sweep.meets collector call = true)
    (hcall : sweep.gcExpiredTrash call collector = (next, .ok batch)) :
    Pending sweep initial next ∧ (next.cookie = 0 → ∀ id, initial.due sweep.now id = true →
      id ∈ next.failed ∨ next.trash.sidecars.get? id = none) := by
  obtain ⟨after, purged, heq, -, hfailed, hgone, -, hdue⟩ := gcExpiredTrash_spec hmeets
  have hafter : next = after := congrArg Prod.fst (hcall.symm.trans heq)
  subst hafter
  have hnext (id : TrashId) (hid : initial.due sweep.now id = true) :
      id ∈ next.failed ∨ next.trash.sidecars.get? id = none ∨
        (next.cookie ≠ 0 ∧ .sidecar id ∈ sweep.slots.drop next.cookie ∧
          next.trash.due sweep.now id = true) := by
    rcases h.handled id hid with hmem | hnone | ⟨hslot, hstill⟩
    · exact .inl (hfailed hmem)
    · exact .inr (.inl (hgone id hnone))
    · refine hdue id ?_ hstill
      unfold start
      split
      · exact List.drop_subset _ _ hslot
      · exact hslot
  constructor
  · refine ⟨fun id hid => ?_⟩
    rcases hnext id hid with hmem | hnone | ⟨-, hslot⟩
    · exact .inl hmem
    · exact .inr (.inl hnone)
    · exact .inr (.inr hslot)
  · intro hzero id hid
    rcases hnext id hid with hmem | hnone | ⟨hne, -⟩
    · exact .inl hmem
    · exact .inr hnone
    · exact absurd hzero hne

theorem step_eq_some {call : GcCall} {collector next : Collector}
    (h : sweep.step collector call = some next) :
    ∃ batch, sweep.gcExpiredTrash call collector = (next, .ok batch) := by
  unfold step at h
  split at h
  · rename_i after batch heq
    exact ⟨batch, Option.some.inj h ▸ heq⟩
  · cases h

/-- Along a sweep whose calls meet the condition, no call fails, and each moves the position on or
reaches the end. When the end is reached, every item that was due is gone, unless it could not be
read or removed. -/
theorem collection_complete {calls : List GcCall} (hslots : ∀ name ∈ initial.names, name ∈ sweep.slots)
    (hmeets : Along sweep.step (fun collector call => sweep.meets collector call = true)
      ⟨initial, 0, []⟩ calls) :
    Along sweep.step (fun collector call =>
        ∃ next batch, sweep.gcExpiredTrash call collector = (next, .ok batch) ∧
          (batch.finished = true ∨ start call collector < next.cookie)) ⟨initial, 0, []⟩ calls ∧
      ∀ last, run sweep.step ⟨initial, 0, []⟩ calls = some last → calls ≠ [] → last.cookie = 0 →
        ∀ id, initial.due sweep.now id = true → id ∉ last.failed →
          last.trash.sidecars.get? id = none := by
  have hinitial : Pending sweep initial ⟨initial, 0, []⟩ := by
    refine ⟨fun id hdue => .inr (.inr ⟨?_, hdue⟩)⟩
    rw [List.drop_zero]
    exact hslots _ (TrashDirectory.has_eq_true.mp (TrashDirectory.has_of_due hdue))
  have hstep (collector : Collector) (call : GcCall) (next : Collector)
      (hnext : sweep.step collector call = some next) (hmeets : sweep.meets collector call = true)
      (hpending : Pending sweep initial collector) : Pending sweep initial next := by
    obtain ⟨batch, hcall⟩ := step_eq_some hnext
    exact (hpending.call hmeets hcall).1
  constructor
  · refine hmeets.mono fun collector call hcall => ?_
    obtain ⟨next, purged, hresult, -, -, -, hcookie, -⟩ := gcExpiredTrash_spec hcall
    refine ⟨next, _, hresult, ?_⟩
    rcases hcookie with hzero | hlt
    · exact .inl (by simp [hzero])
    · exact .inr hlt
  · intro last hrun hcalls hzero id hdue hid
    rcases List.eq_nil_or_concat' calls with rfl | ⟨first, call, rfl⟩
    · exact absurd rfl hcalls
    · obtain ⟨collector, hfirst, hcall⟩ := run_append.mp hrun
      obtain ⟨next, hnext, hlast⟩ := run_cons_eq_some.mp hcall
      obtain rfl := Option.some.inj hlast
      obtain ⟨hbefore, hafter⟩ := hmeets.append
      have hpending := run_invariant_along hstep hfirst hbefore hinitial
      obtain ⟨batch, hbatch⟩ := step_eq_some hnext
      exact ((hpending.call (hafter collector hfirst).1 hbatch).2 hzero id hdue).resolve_left hid

/-! ### Two items and one batch -/

/-- A call in which the file system refuses nothing. -/
def quietCall : GcCall := ⟨false, fun _ => false, fun _ => .none⟩

/-- An expired item of the share's root. -/
def expiredSidecar (id : TrashId) (kind : EntryKind) : Sidecar :=
  ⟨sidecarSchemaVersion, id, .ok ⟨[⟨"old"⟩]⟩, some kind, some 0, .live⟩

def firstId : TrashId := ⟨"00000000000000000000000000000001", by decide⟩

def secondId : TrashId := ⟨"00000000000000000000000000000002", by decide⟩

/-- A directory with one file in it, and a file; both are expired. -/
def twoExpired : TrashDirectory where
  temporaries := .empty
  payloads := (KeyedMap.empty.insert secondId (.leaf .file ⟨1, none, 3, 1⟩)).insert firstId
    (.directory ⟨0, none, 1, 1⟩ (.leaf ⟨"f"⟩ .file ⟨1, none, 2, 1⟩ .empty))
  sidecars := (KeyedMap.empty.insert secondId (some (expiredSidecar secondId .file))).insert firstId
    (some (expiredSidecar firstId .directory))
  strays := []

/-- A sweep over the two items, with the given number of entries a batch. -/
def twoItemSweep (limit : ℕ) (positive : 1 ≤ limit) : Sweep where
  slots := [.sidecar firstId, .sidecar secondId, .payload firstId, .payload secondId]
  nodup := by decide
  limit := limit
  positive := positive
  now := 10

/-- The directory uses up the budget of its batch, and the file in the same batch is passed over; a
name that is not UTF-8 fails every call. -/
theorem collection_incomplete :
    (∃ last, run (twoItemSweep 2 (by decide)).step ⟨twoExpired, 0, []⟩ [quietCall, quietCall] = some last ∧
        last.cookie = 0 ∧ twoExpired.due 10 secondId = true ∧ secondId ∉ last.failed ∧
        last.trash.sidecars.get? secondId ≠ none) ∧
      ∀ limit positive bytes, ∃ next,
        (Sweep.mk [.stray (.undecodable bytes)] (by simp) limit positive 10).gcExpiredTrash quietCall
          ⟨⟨.empty, .empty, .empty, [.undecodable bytes]⟩, 0, []⟩ = (next, .error .unavailable) := by
  constructor
  · have hrun : (run (twoItemSweep 2 (by decide)).step ⟨twoExpired, 0, []⟩ [quietCall, quietCall]).any
        (fun last => last.cookie == 0 && last.failed.isEmpty &&
          (last.trash.sidecars.get? secondId).isSome) = true := by decide
    obtain ⟨last, hlast, hfacts⟩ := (Option.any_eq_true _ _).mp hrun
    simp only [Bool.and_eq_true, beq_iff_eq, List.isEmpty_iff] at hfacts
    obtain ⟨⟨hcookie, hfailed⟩, hsidecar⟩ := hfacts
    refine ⟨last, hlast, hcookie, by decide, by simp [hfailed], ?_⟩
    exact Option.isSome_iff_ne_none.mp hsidecar
  · intro limit positive bytes
    refine ⟨⟨⟨.empty, .empty, .empty, [.undecodable bytes]⟩, 0, []⟩, ?_⟩
    have hlimit : 0 < limit := positive
    simp [gcExpiredTrash, start, quietCall, TrashDirectory.gcBatch, TrashDirectory.has, hlimit]

theorem collection_complete_sample :
    ∃ last, run (twoItemSweep 3 (by decide)).step ⟨twoExpired, 0, []⟩ [quietCall, quietCall] = some last ∧
      last.trash.sidecars.get? secondId = none := by
  have hrun : (run (twoItemSweep 3 (by decide)).step ⟨twoExpired, 0, []⟩ [quietCall, quietCall]).any
      (fun last => last.cookie == 0 && last.failed.isEmpty) = true := by decide
  obtain ⟨last, hlast, hfacts⟩ := (Option.any_eq_true _ _).mp hrun
  simp only [Bool.and_eq_true, beq_iff_eq, List.isEmpty_iff] at hfacts
  have hslots : ∀ name ∈ twoExpired.names, name ∈ (twoItemSweep 3 (by decide)).slots := by decide
  refine ⟨last, hlast, (collection_complete hslots (by decide)).2 last hlast (by simp) hfacts.1 secondId
    (by decide) (by simp [hfacts.2])⟩

end Sweep

end Crabinet.Trash
