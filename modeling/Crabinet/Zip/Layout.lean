import Crabinet.Zip.Plan

/-!
# What the writers emit

Every writer is described once, by an equivalence that says when it succeeds and what it
then returns. Positions are followed as unbounded numbers: the plan keeps each one
saturated at the largest `u64`, and a run that finishes never reached that bound.
-/

namespace Crabinet.Zip

open Crabinet.Library

/-- An unbounded position as the plan keeps it. -/
def saturate (position : ℕ) : ℕ := min position u64Max

theorem saturate_of_le {position : ℕ} (h : position ≤ u64Max) : saturate position = position :=
  min_eq_left h

theorem saturatingAdd_saturate (position length : ℕ) :
    saturatingAdd (saturate position) length = saturate (position + length) := by
  simp only [saturatingAdd, saturate]
  omega

theorem checkedAdd_eq_some {a b c : ℕ} : checkedAdd a b = some c ↔ a + b ≤ u64Max ∧ a + b = c := by
  unfold checkedAdd
  split <;> simp_all

/-- Two checked additions in a row succeed exactly when the whole sum fits. -/
theorem checkedAdd_bind {a b c d : ℕ} :
    (checkedAdd a b).bind (checkedAdd · c) = some d ↔ a + b + c ≤ u64Max ∧ a + b + c = d := by
  simp only [Option.bind_eq_some_iff, checkedAdd_eq_some]
  constructor
  · rintro ⟨_, ⟨-, rfl⟩, hfits, rfl⟩
    exact ⟨hfits, rfl⟩
  · rintro ⟨hfits, rfl⟩
    exact ⟨a + b, ⟨by omega, rfl⟩, hfits, rfl⟩

theorem checkedTotal_eq_some {total : ℕ} {lengths : List ℕ} {result : ℕ} :
    checkedTotal total lengths = some result ↔
      (lengths ≠ [] → total + lengths.sum ≤ u64Max) ∧ total + lengths.sum = result := by
  induction lengths generalizing total with
  | nil => simp [checkedTotal]
  | cons length rest ih =>
    simp only [checkedTotal, bind, Option.bind_eq_some_iff, checkedAdd_eq_some, ih, List.sum_cons]
    constructor
    · rintro ⟨_, ⟨hfirst, rfl⟩, hrest, rfl⟩
      refine ⟨fun _ => ?_, by omega⟩
      by_cases hnil : rest = []
      · simp only [hnil, List.sum_nil] at *
        omega
      · have := hrest hnil
        omega
    · rintro ⟨hfits, rfl⟩
      have hall := hfits (by simp)
      exact ⟨total + length, ⟨by omega, rfl⟩, fun _ => by omega, by omega⟩

/-- The data bytes of one turn; a directory has none. -/
def contentBytes : Option EntryData → List UInt8
  | none => []
  | some content => content.data

namespace ZipEntry

/-- An entry as one turn at `position` leaves it. -/
def record (entry : ZipEntry) (position : ℕ) : Option EntryData → ZipEntry
  | none => entry.settle false (saturate position)
  | some content =>
    (entry.settle content.deflate (saturate position)).complete content.crc content.data.length

/-- The bytes of one turn, for the recorded entry. -/
def recordBytes (entry : ZipEntry) (content : Option EntryData) : List UInt8 :=
  entry.localHeader ++ (contentBytes content ++ entry.dataDescriptor)

/-- How many bytes one turn emits, for the recorded entry. -/
def recordLen (entry : ZipEntry) (content : Option EntryData) : ℕ :=
  entry.localLen + (contentBytes content).length + entry.descriptorLen

/-- When one turn at `position` succeeds. -/
def Takes (entry : ZipEntry) (position : ℕ) : Option EntryData → Prop
  | none => True
  | some content =>
    (entry.record position (some content)).refuses (entry.size.getD 0) content.data.length = false ∧
      position + (entry.record position (some content)).recordLen (some content) ≤ u64Max

@[simp] theorem settle_size (entry : ZipEntry) (deflate : Bool) (position : ℕ) :
    (entry.settle deflate position).size = entry.size := rfl

@[simp] theorem complete_localLen (entry : ZipEntry) (crc : BitVec 32) (compressed : ℕ) :
    (entry.complete crc compressed).localLen = entry.localLen := rfl

@[simp] theorem complete_localHeader (entry : ZipEntry) (crc : BitVec 32) (compressed : ℕ) :
    (entry.complete crc compressed).localHeader = entry.localHeader := rfl

@[simp] theorem complete_descriptorLen (entry : ZipEntry) (crc : BitVec 32) (compressed : ℕ) :
    (entry.complete crc compressed).descriptorLen = entry.descriptorLen := rfl

@[simp] theorem complete_refuses (entry : ZipEntry) (crc : BitVec 32) (compressed : ℕ) :
    (entry.complete crc compressed).refuses = entry.refuses := rfl

@[simp] theorem recordBytes_length (entry : ZipEntry) (content : Option EntryData) :
    (entry.recordBytes content).length = entry.recordLen content := by
  simp only [recordBytes, List.length_append, localHeader_length, dataDescriptor_length, recordLen]
  omega

@[simp] theorem record_name (entry : ZipEntry) (position : ℕ) (content : Option EntryData) :
    (entry.record position content).name = entry.name := by
  cases content <;> rfl

@[simp] theorem record_size (entry : ZipEntry) (position : ℕ) (content : Option EntryData) :
    (entry.record position content).size = entry.size := by
  cases content <;> rfl

@[simp] theorem record_offset (entry : ZipEntry) (position : ℕ) (content : Option EntryData) :
    (entry.record position content).offset = saturate position := by
  cases content <;> rfl

/-- Central headers are never empty. -/
theorem centralLen_pos (entry : ZipEntry) : 0 < entry.centralLen := by
  unfold centralLen centralHeaderLen
  omega

/-- A file's descriptor is never empty. -/
theorem descriptorLen_pos (entry : ZipEntry) (h : entry.size.isSome) : 0 < entry.descriptorLen := by
  obtain ⟨size, hsize⟩ := Option.isSome_iff_exists.mp h
  simp only [descriptorLen, hsize, zip64DataDescriptorLen, dataDescriptorLen]
  split <;> omega

end ZipEntry

namespace ZipPlan

/-- The plan with other entries and another position; the planned totals stay. -/
def moved (plan : ZipPlan) (entries : List ZipEntry) (position : ℕ) : ZipPlan :=
  { plan with entries, position }

@[simp] theorem moved_entries (plan : ZipPlan) (entries : List ZipEntry) (position : ℕ) :
    (plan.moved entries position).entries = entries := rfl

@[simp] theorem moved_position (plan : ZipPlan) (entries : List ZipEntry) (position : ℕ) :
    (plan.moved entries position).position = position := rfl

@[simp] theorem moved_moved (plan : ZipPlan) (entries entries' : List ZipEntry)
    (position position' : ℕ) :
    (plan.moved entries position).moved entries' position' = plan.moved entries' position' := rfl

/-- `write_local_header` settles the entry in place and moves the position past its header. -/
theorem writeLocalHeader_eq {plan : ZipPlan} {before after : List ZipEntry} {entry : ZipEntry}
    {position : ℕ} (deflate : Bool) (hentries : plan.entries = before ++ entry :: after)
    (hposition : plan.position = saturate position) :
    plan.writeLocalHeader before.length deflate =
      .ok (plan.moved (before ++ entry.settle deflate (saturate position) :: after)
        (saturate (position + (entry.settle deflate (saturate position)).localLen)),
        (entry.settle deflate (saturate position)).localHeader) := by
  have hget : plan.entries[before.length]? = some entry := by simp [hentries]
  rw [writeLocalHeader, hget]
  simp only [moved, hentries, hposition, saturatingAdd_saturate,
    List.set_append_right _ _ (le_refl _), Nat.sub_self, List.set_cons_zero]

/-- `write_data_descriptor` succeeds exactly when the entry accepts the length and the position
after it fits. -/
theorem writeDataDescriptor_ok_iff {plan : ZipPlan} {before after : List ZipEntry}
    {entry : ZipEntry} {position size compressed : ℕ} {crc : BitVec 32}
    {result : ZipPlan × List UInt8} (hentries : plan.entries = before ++ entry :: after)
    (hposition : plan.position = saturate position) (hsize : entry.size = some size) :
    plan.writeDataDescriptor before.length crc compressed = .ok result ↔
      entry.refuses size compressed = false ∧
      position + compressed + entry.descriptorLen ≤ u64Max ∧
      result = (plan.moved (before ++ entry.complete crc compressed :: after)
        (position + compressed + entry.descriptorLen),
        (entry.complete crc compressed).dataDescriptor) := by
  have hget : plan.entries[before.length]? = some entry := by simp [hentries]
  have hpos : 0 < entry.descriptorLen := entry.descriptorLen_pos (by simp [hsize])
  have hset : plan.entries.set before.length (entry.complete crc compressed) =
      before ++ entry.complete crc compressed :: after := by
    simp [hentries]
  have hsum (total : ℕ) : (checkedAdd plan.position compressed).bind
      (checkedAdd · entry.descriptorLen) = some total ↔
      position + compressed + entry.descriptorLen ≤ u64Max ∧
        position + compressed + entry.descriptorLen = total := by
    rw [checkedAdd_bind, hposition]
    unfold saturate
    omega
  rw [writeDataDescriptor, hget]
  simp only [hsize, ite_error_eq_ok, Bool.not_eq_true, ZipEntry.complete_descriptorLen]
  refine and_congr_right fun _ => ?_
  rcases hcase : (checkedAdd plan.position compressed).bind (checkedAdd · entry.descriptorLen)
    with _ | total
  · have hover : ¬position + compressed + entry.descriptorLen ≤ u64Max := by
      intro hfits
      have := (hsum _).mpr ⟨hfits, rfl⟩
      rw [hcase] at this
      cases this
    simp [hover]
  · obtain ⟨hfits, rfl⟩ := (hsum total).mp hcase
    simp only [moved, hset, Except.ok.injEq, hfits, true_and]
    exact eq_comm

/-- One turn succeeds exactly when the entry takes its content, and then records the entry in
place and emits its bytes. -/
theorem writeEntry_ok_iff {plan : ZipPlan} {before after : List ZipEntry} {entry : ZipEntry}
    {position : ℕ} {content : Option EntryData} {result : ZipPlan × List UInt8}
    (hentries : plan.entries = before ++ entry :: after)
    (hposition : plan.position = saturate position) (hmatch : entry.size.isSome = content.isSome) :
    plan.writeEntry before.length content = .ok result ↔
      entry.Takes position content ∧
      result = (plan.moved (before ++ entry.record position content :: after)
        (saturate (position + (entry.record position content).recordLen content)),
        (entry.record position content).recordBytes content) := by
  cases content with
  | none =>
    have hsize : entry.size = none := by simpa using hmatch
    have hdescriptor : (entry.record position none).dataDescriptor = [] := by
      simp only [ZipEntry.dataDescriptor, ZipEntry.record_size, hsize]
    have hlen : (entry.record position none).descriptorLen = 0 := by
      simp only [ZipEntry.descriptorLen, ZipEntry.record_size, hsize]
    rw [writeEntry, writeLocalHeader_eq false hentries hposition]
    simp only [ZipEntry.Takes, true_and, ZipEntry.recordBytes, hdescriptor, contentBytes,
      List.append_nil, ZipEntry.recordLen, hlen, List.length_nil, Nat.add_zero, Except.ok.injEq]
    exact eq_comm
  | some content =>
    obtain ⟨size, hsize⟩ := Option.isSome_iff_exists.mp (hmatch.trans rfl)
    set settled := entry.settle content.deflate (saturate position) with hsettled
    have hrecord : entry.record position (some content) =
        settled.complete content.crc content.data.length := rfl
    have hlen : (settled.complete content.crc content.data.length).recordLen (some content) =
        settled.localLen + content.data.length + settled.descriptorLen := rfl
    have hsize' : settled.size = some size := hsize
    have hdescriptor (result : ZipPlan × List UInt8) := @writeDataDescriptor_ok_iff _ _ _ _ _ _
      content.data.length content.crc result
      (plan.moved_entries (before ++ settled :: after) (saturate (position + settled.localLen)))
      (plan.moved_position (before ++ settled :: after) (saturate (position + settled.localLen)))
      hsize'
    rw [writeEntry, writeLocalHeader_eq content.deflate hentries hposition, ok_bind]
    simp only [bind_eq_ok, ← hsettled, hdescriptor, ZipEntry.Takes, hrecord, hsize,
      Option.getD_some, ZipEntry.complete_refuses, hlen, moved_moved]
    have hassoc : position + settled.localLen + content.data.length + settled.descriptorLen =
        position + (settled.localLen + content.data.length + settled.descriptorLen) := by
      omega
    rw [hassoc]
    constructor
    · rintro ⟨_, ⟨haccept, hfits, rfl⟩, hresult⟩
      refine ⟨⟨haccept, hfits⟩, ?_⟩
      rw [saturate_of_le hfits]
      exact (Except.ok.inj hresult).symm
    · rintro ⟨⟨haccept, hfits⟩, rfl⟩
      refine ⟨_, ⟨haccept, hfits, rfl⟩, ?_⟩
      rw [saturate_of_le hfits]
      rfl

end ZipPlan

/-- An entry and what its turn writes. -/
abbrev Turn : Type := ZipEntry × Option EntryData

/-- A directory has no content and a file has some. -/
def Turn.Matched (turn : Turn) : Prop := turn.1.size.isSome = turn.2.isSome

/-- The bytes of a recorded turn. -/
def Turn.bytes (turn : Turn) : List UInt8 := turn.1.recordBytes turn.2

/-- The length of a recorded turn. -/
def Turn.len (turn : Turn) : ℕ := turn.1.recordLen turn.2

@[simp] theorem Turn.bytes_length (turn : Turn) : turn.bytes.length = turn.len :=
  turn.1.recordBytes_length turn.2

/-- The turns from `position` on, each with its entry as recorded. -/
def recordTurns : ℕ → List Turn → List Turn
  | _, [] => []
  | position, (entry, content) :: rest =>
    let recorded : Turn := (entry.record position content, content)
    recorded :: recordTurns (position + recorded.len) rest

/-- Every turn from `position` on is taken. -/
def TakesAll : ℕ → List Turn → Prop
  | _, [] => True
  | position, (entry, content) :: rest =>
    entry.Takes position content ∧
      TakesAll (position + Turn.len (entry.record position content, content)) rest

/-- The length of all turns from `position` on. -/
def turnsLen (position : ℕ) (turns : List Turn) : ℕ :=
  ((recordTurns position turns).map Turn.len).sum

/-- The bytes of all turns from `position` on. -/
def turnsBytes (position : ℕ) (turns : List Turn) : List UInt8 :=
  (recordTurns position turns).flatMap Turn.bytes

@[simp] theorem turnsBytes_length (position : ℕ) (turns : List Turn) :
    (turnsBytes position turns).length = turnsLen position turns := by
  simp only [turnsBytes, turnsLen, List.length_flatMap]
  congr 2
  funext turn
  exact turn.bytes_length

@[simp] theorem recordTurns_length (position : ℕ) (turns : List Turn) :
    (recordTurns position turns).length = turns.length := by
  induction turns generalizing position with
  | nil => rfl
  | cons turn rest ih => simp [recordTurns, ih]

/-- The central directory of some entries. -/
def directoryBytes (entries : List ZipEntry) : List UInt8 := entries.flatMap ZipEntry.centralHeader

/-- The length of the central directory. -/
def directoryLen (entries : List ZipEntry) : ℕ := (entries.map ZipEntry.centralLen).sum

@[simp] theorem directoryBytes_length (entries : List ZipEntry) :
    (directoryBytes entries).length = directoryLen entries := by
  simp [directoryBytes, directoryLen, List.length_flatMap]

namespace ZipPlan

/-- A run over the remaining entries succeeds exactly when every turn is taken. -/
theorem writeEntries_ok_iff {plan : ZipPlan} {before : List ZipEntry} {turns : List Turn}
    {position : ℕ} {result : ZipPlan × List UInt8}
    (hentries : plan.entries = before ++ turns.map Prod.fst)
    (hposition : plan.position = saturate position) (hmatch : ∀ turn ∈ turns, turn.Matched) :
    plan.writeEntries before.length (turns.map Prod.snd) = .ok result ↔
      TakesAll position turns ∧
      result = (plan.moved (before ++ (recordTurns position turns).map Prod.fst)
        (saturate (position + turnsLen position turns)), turnsBytes position turns) := by
  induction turns generalizing plan before position result with
  | nil =>
    have hmoved : plan.moved (before ++ []) (saturate (position + turnsLen position [])) = plan := by
      rw [moved, List.append_nil, show position + turnsLen position [] = position from rfl,
        ← hposition, ← List.append_nil before, ← List.map_nil, ← hentries]
    simp only [List.map_nil, writeEntries, TakesAll, true_and, recordTurns, hmoved, turnsBytes,
      List.flatMap_nil, Except.ok.injEq]
    exact eq_comm
  | cons turn rest ih =>
    obtain ⟨entry, content⟩ := turn
    have hthis : entry.size.isSome = content.isSome := hmatch (entry, content) (by simp)
    have hrest : ∀ turn ∈ rest, turn.Matched := fun turn hturn => hmatch turn (by simp [hturn])
    set recorded := entry.record position content with hrecorded
    set position' := position + recorded.recordLen content with hposition'
    set plan' := plan.moved (before ++ recorded :: rest.map Prod.fst) (saturate position')
      with hplan'
    have hentries' : plan'.entries = (before ++ [recorded]) ++ rest.map Prod.fst := by
      simp [hplan']
    have hih (result : ZipPlan × List UInt8) :
        plan'.writeEntries (before.length + 1) (rest.map Prod.snd) = .ok result ↔
          TakesAll position' rest ∧
          result = (plan'.moved ((before ++ [recorded]) ++ (recordTurns position' rest).map Prod.fst)
            (saturate (position' + turnsLen position' rest)), turnsBytes position' rest) := by
      have h := @ih plan' (before ++ [recorded]) position' result hentries' rfl hrest
      rwa [List.length_append, List.length_singleton] at h
    have hlen : position + turnsLen position ((entry, content) :: rest) =
        position' + turnsLen position' rest := by
      exact (Nat.add_assoc _ _ _).symm
    have hbytes : turnsBytes position ((entry, content) :: rest) =
        recorded.recordBytes content ++ turnsBytes position' rest := rfl
    have hrecords : before ++ (recordTurns position ((entry, content) :: rest)).map Prod.fst =
        (before ++ [recorded]) ++ (recordTurns position' rest).map Prod.fst := by
      rw [List.append_assoc]
      rfl
    rw [hlen, hbytes, hrecords]
    simp only [List.map_cons, writeEntries, bind_eq_ok,
      writeEntry_ok_iff (List.map_cons ▸ hentries) hposition hthis]
    constructor
    · rintro ⟨_, ⟨htakes, rfl⟩, ⟨plan'', more⟩, hmore, hresult⟩
      obtain ⟨hall, heq⟩ := (hih _).mp hmore
      obtain ⟨rfl, rfl⟩ := Prod.mk.inj heq
      exact ⟨⟨htakes, hall⟩, (Except.ok.inj hresult).symm⟩
    · rintro ⟨⟨htakes, hall⟩, rfl⟩
      exact ⟨_, ⟨htakes, rfl⟩, _, (hih _).mpr ⟨hall, rfl⟩, rfl⟩

/-- The plan after `finish_entries` at `position`. -/
def finished (plan : ZipPlan) (position : ℕ) : ZipPlan :=
  let plan := { plan with centralOffset := position, centralLen := directoryLen plan.entries }
  { plan with len := position + plan.centralLen + plan.endLen }

@[simp] theorem finished_entries (plan : ZipPlan) (position : ℕ) :
    (plan.finished position).entries = plan.entries := rfl

@[simp] theorem finished_centralOffset (plan : ZipPlan) (position : ℕ) :
    (plan.finished position).centralOffset = position := rfl

@[simp] theorem finished_centralLen (plan : ZipPlan) (position : ℕ) :
    (plan.finished position).centralLen = directoryLen plan.entries := rfl

/-- The final length is where the directory starts, the directory and the end records. -/
theorem finished_len (plan : ZipPlan) (position : ℕ) :
    (plan.finished position).len =
      position + directoryLen plan.entries + (plan.finished position).endLen := rfl

/-- The finished layout is the planned one. -/
def AsPlanned (plan : ZipPlan) (position : ℕ) : Prop :=
  position = plan.centralOffset ∧ directoryLen plan.entries = plan.centralLen ∧
    (plan.finished position).len = plan.len

theorem endLen_pos (plan : ZipPlan) : 0 < plan.endLen := by
  unfold endLen Zip.endLen
  split <;> omega

/-- `finish_entries` succeeds exactly when the whole length fits, and is the planned one when no
entry could be deflated. -/
theorem finishEntries_ok_iff {plan : ZipPlan} {position : ℕ} {result : ZipPlan}
    (hposition : plan.position = saturate position) :
    plan.finishEntries = .ok result ↔
      (plan.finished position).len ≤ u64Max ∧
      (plan.isVariable = false → plan.AsPlanned position) ∧ result = plan.finished position := by
  have htotal : checkedTotal 0 (plan.entries.map ZipEntry.centralLen) = none →
      ¬(plan.finished position).len ≤ u64Max := by
    intro hnone hfits
    have hsome : checkedTotal 0 (plan.entries.map ZipEntry.centralLen) =
        some (directoryLen plan.entries) := by
      rw [checkedTotal_eq_some, Nat.zero_add]
      rw [finished_len] at hfits
      exact ⟨fun _ => by unfold directoryLen at hfits; omega, rfl⟩
    rw [hnone] at hsome
    cases hsome
  rw [finishEntries]
  rcases hcentral : checkedTotal 0 (plan.entries.map ZipEntry.centralLen) with _ | centralLen
  · simp [htotal hcentral]
  · obtain rfl : directoryLen plan.entries = centralLen := by
      rw [directoryLen, ← Nat.zero_add (List.sum _)]
      exact (checkedTotal_eq_some.mp hcentral).2
    dsimp only
    set located : ZipPlan :=
      { plan with centralOffset := plan.position, centralLen := directoryLen plan.entries }
    have hpos := located.endLen_pos
    rcases hlen : (checkedAdd plan.position (directoryLen plan.entries)).bind
        (checkedAdd · located.endLen) with _ | len
    · have hover : ¬(plan.finished position).len ≤ u64Max := by
        intro hfits
        have hexact : plan.position = position :=
          hposition.trans (saturate_of_le (by rw [finished_len] at hfits; omega))
        rw [← hexact] at hfits
        have hsome : (checkedAdd plan.position (directoryLen plan.entries)).bind
            (checkedAdd · located.endLen) = some _ := checkedAdd_bind.mpr ⟨hfits, rfl⟩
        rw [hlen] at hsome
        cases hsome
      simp [hover]
    · obtain ⟨hfits, rfl⟩ := checkedAdd_bind.mp hlen
      have hexact : plan.position = position := by
        rw [hposition] at hfits ⊢
        exact saturate_of_le (by unfold saturate at hfits; omega)
      simp only [← hexact]
      have hfinished : plan.finished plan.position =
          { located with len := plan.position + directoryLen plan.entries + located.endLen } := rfl
      have hplanned : plan.AsPlanned plan.position ↔
          (plan.position, directoryLen plan.entries) = (plan.centralOffset, plan.centralLen) ∧
            plan.position + directoryLen plan.entries + located.endLen = plan.len := by
        rw [AsPlanned, Prod.mk.injEq, and_assoc]
        rfl
      simp only [ite_error_eq_ok, hplanned, hfinished, hfits, true_and, Except.ok.injEq]
      refine and_congr ?_ eq_comm
      cases plan.isVariable <;> simp

/-- The plan after every turn from the start of the archive. -/
def written (plan : ZipPlan) (turns : List Turn) : ZipPlan :=
  plan.moved ((recordTurns 0 turns).map Prod.fst) (saturate (turnsLen 0 turns))

/-- The plan after a whole archive. -/
def done (plan : ZipPlan) (turns : List Turn) : ZipPlan :=
  (plan.written turns).finished (turnsLen 0 turns)

/-- A whole archive is written exactly when every turn is taken and the length fits; its bytes
are the turns, the central directory and the end records. -/
theorem writeArchive_ok_iff {plan : ZipPlan} {turns : List Turn} {result : ZipPlan × List UInt8}
    (hentries : plan.entries = turns.map Prod.fst) (hposition : plan.position = 0)
    (hmatch : ∀ turn ∈ turns, turn.Matched) :
    plan.writeArchive (turns.map Prod.snd) = .ok result ↔
      TakesAll 0 turns ∧ (plan.done turns).len ≤ u64Max ∧
      (plan.isVariable = false → (plan.written turns).AsPlanned (turnsLen 0 turns)) ∧
      result = (plan.done turns, turnsBytes 0 turns ++
        (directoryBytes (plan.done turns).entries ++ (plan.done turns).writeEnd)) := by
  have hentries' : plan.entries = [] ++ turns.map Prod.fst := hentries
  have hposition' : plan.position = saturate 0 := hposition
  have hcentral (plan : ZipPlan) :
      plan.writeCentralHeaders 0 plan.entries.length = .ok (directoryBytes plan.entries) :=
    plan.writeCentralHeaders_eq [] plan.entries rfl
  have hrun (result : ZipPlan × List UInt8) :
      plan.writeEntries 0 (turns.map Prod.snd) = .ok result ↔
        TakesAll 0 turns ∧ result = (plan.written turns, turnsBytes 0 turns) := by
    have h := @writeEntries_ok_iff plan [] turns 0 result hentries' hposition' hmatch
    rwa [Nat.zero_add] at h
  have hfinish (result : ZipPlan) : (plan.written turns).finishEntries = .ok result ↔
      (plan.done turns).len ≤ u64Max ∧
      (plan.isVariable = false → (plan.written turns).AsPlanned (turnsLen 0 turns)) ∧
      result = plan.done turns := finishEntries_ok_iff rfl
  simp only [writeArchive, bind_eq_ok]
  constructor
  · rintro ⟨_, hbody, _, hclosed, _, hheaders, hresult⟩
    obtain ⟨htakes, rfl⟩ := (hrun _).mp hbody
    obtain ⟨hfits, hplanned, rfl⟩ := (hfinish _).mp hclosed
    obtain rfl := Except.ok.inj ((hcentral _).symm.trans hheaders)
    exact ⟨htakes, hfits, hplanned, (Except.ok.inj hresult).symm⟩
  · rintro ⟨htakes, hfits, hplanned, rfl⟩
    exact ⟨_, (hrun _).mpr ⟨htakes, rfl⟩, _, (hfinish _).mpr ⟨hfits, hplanned, rfl⟩, _,
      hcentral _, rfl⟩

/-- A written archive has its final length. -/
theorem archive_length (plan : ZipPlan) (turns : List Turn) :
    (turnsBytes 0 turns ++
      (directoryBytes (plan.done turns).entries ++ (plan.done turns).writeEnd)).length =
      (plan.done turns).len := by
  rw [List.length_append, List.length_append, turnsBytes_length, directoryBytes_length,
    writeEnd_length, done, finished_len, Nat.add_assoc]
  rfl

end ZipPlan

end Crabinet.Zip
