import Crabinet.Library.KeyedMap
import Crabinet.Library.Transition
import Mathlib.Data.List.Count

/-!
# Admission gates

A gate has a permit for each slot of the process and a count for each subject that holds
one. An acquisition takes the permit before it looks at the count, and gives it back where
the count is at its cap; a dropped lease lowers the count before it gives its permit back.
Other acquisitions and drops may run between these steps.
-/

namespace Crabinet.Access

open Crabinet.Library

/-- `SubjectGate::new`: the caps. Every gate of the program admits at least one request of a
subject. -/
structure SubjectGate where
  process : ℕ
  perSubject : ℕ
  positive : 1 ≤ perSubject

/-- The state of a gate, and how far the operations on it are. -/
structure GateState (κ : Type) where
  /-- The permits left in the semaphore. -/
  available : ℕ
  subjects : KeyedMap κ ℕ
  /-- The subjects of acquisitions that hold a permit and have not looked at the count. -/
  acquiring : List κ
  /-- The subjects of the live leases. -/
  leases : List κ
  /-- The permits about to be given back, of refused acquisitions and of dropped leases. -/
  releasing : ℕ

namespace GateState

variable {κ : Type}

/-- The operations that hold a permit without a live lease. -/
def inProgress (state : GateState κ) : ℕ := state.acquiring.length + state.releasing

end GateState

/-- A step of some operation. -/
inductive GateStep (κ : Type) where
  /-- `try_acquire_owned`. -/
  | takePermit (subject : κ)
  /-- The rest of `try_acquire`, under the lock. -/
  | enter (subject : κ)
  /-- `SubjectLease::drop`, under the lock. -/
  | drop (subject : κ)
  /-- A permit is dropped. -/
  | release

namespace SubjectGate

variable {κ : Type} [DecidableEq κ]

/-- A new gate. -/
def initial (gate : SubjectGate) : GateState κ := ⟨gate.process, .empty, [], [], 0⟩

/-- The count of a subject, lowered by one and removed at zero. -/
def leave (subjects : KeyedMap κ ℕ) (subject : κ) : KeyedMap κ ℕ :=
  match subjects.get? subject with
  | none => subjects
  | some active =>
    if active - 1 = 0 then subjects.erase subject else subjects.insert subject (active - 1)

/-- One step; none where no operation is at that point. -/
def step (gate : SubjectGate) (state : GateState κ) : GateStep κ → Option (GateState κ)
  | .takePermit subject =>
    -- Without a permit the acquisition ends here, refused.
    if state.available = 0 then some state
    else
      some { state with
        available := state.available - 1
        acquiring := subject :: state.acquiring }
  | .enter subject =>
    if subject ∈ state.acquiring then
      -- `entry(..).or_default()` stores a zero for a new subject.
      let active := (state.subjects.get? subject).getD 0
      if active ≥ gate.perSubject then
        some { state with
          subjects := state.subjects.insert subject active
          acquiring := state.acquiring.erase subject
          releasing := state.releasing + 1 }
      else
        some { state with
          subjects := state.subjects.insert subject (active + 1)
          acquiring := state.acquiring.erase subject
          leases := subject :: state.leases }
    else none
  | .drop subject =>
    if subject ∈ state.leases then
      some { state with
        subjects := leave state.subjects subject
        leases := state.leases.erase subject
        releasing := state.releasing + 1 }
    else none
  | .release =>
    if state.releasing = 0 then none
    else some { state with available := state.available + 1, releasing := state.releasing - 1 }

/-- The count that a number of live leases has. -/
def stored (leases : ℕ) : Option ℕ := if leases = 0 then none else some leases

/-- The counts are those of the live leases, and each permit is accounted for. -/
structure Accounted (gate : SubjectGate) (state : GateState κ) : Prop where
  count : ∀ subject, state.subjects.get? subject = stored (state.leases.count subject)
  cap : ∀ subject, state.leases.count subject ≤ gate.perSubject
  permits : state.available + (state.leases.length + state.inProgress) = gate.process

variable {gate : SubjectGate} {state next : GateState κ}

theorem accounted_initial (gate : SubjectGate) : gate.Accounted (gate.initial : GateState κ) :=
  ⟨fun _ => rfl, fun _ => Nat.zero_le _, rfl⟩

theorem getD_stored (leases : ℕ) : (stored leases).getD 0 = leases := by
  unfold stored
  split
  · rename_i hzero
    rw [hzero]
    rfl
  · rfl

/-- An acquisition refused by the count changes neither. -/
theorem enter_refused (h : gate.Accounted state) {subject : κ}
    (hstep : gate.step state (.enter subject) = some next)
    (hfull : gate.perSubject ≤ state.leases.count subject) :
    next.leases = state.leases ∧ next.available = state.available ∧
      next.inProgress = state.inProgress ∧
      ∀ other, next.subjects.get? other = state.subjects.get? other := by
  unfold step at hstep
  dsimp only at hstep
  rw [h.count, getD_stored] at hstep
  split at hstep
  · rename_i hmem
    obtain rfl := Option.some.inj hstep
    have hlength := List.length_erase_of_mem hmem
    have hpositive := List.length_pos_of_mem hmem
    refine ⟨rfl, rfl, ?_, fun other => ?_⟩
    · simp only [GateState.inProgress]
      omega
    · by_cases hother : other = subject
      · subst hother
        have hne : state.leases.count other ≠ 0 := by
          have := gate.positive
          omega
        rw [KeyedMap.get?_insert_self, h.count, stored, if_neg hne]
      · exact KeyedMap.get?_insert_ne _ hother _
  · cases hstep

theorem Accounted.enter (h : gate.Accounted state) {subject : κ}
    (hstep : gate.step state (.enter subject) = some next) : gate.Accounted next := by
  by_cases hfull : gate.perSubject ≤ state.leases.count subject
  · obtain ⟨hleases, havailable, hprogress, hsubjects⟩ := enter_refused h hstep hfull
    refine ⟨fun other => ?_, fun other => ?_, ?_⟩
    · rw [hsubjects, hleases, h.count]
    · rw [hleases]
      exact h.cap other
    · rw [havailable, hleases, hprogress]
      exact h.permits
  · unfold step at hstep
    dsimp only at hstep
    rw [h.count, getD_stored, if_neg hfull] at hstep
    split at hstep
    · rename_i hmem
      obtain rfl := Option.some.inj hstep
      have hlength := List.length_erase_of_mem hmem
      have hpositive := List.length_pos_of_mem hmem
      have hpermits := h.permits
      refine ⟨fun other => ?_, fun other => ?_, ?_⟩
      · by_cases hother : other = subject
        · subst hother
          rw [KeyedMap.get?_insert_self, List.count_cons_self, stored, if_neg (Nat.succ_ne_zero _)]
        · rw [KeyedMap.get?_insert_ne _ hother, List.count_cons_of_ne (Ne.symm hother)]
          exact h.count other
      · by_cases hother : other = subject
        · subst hother
          rw [List.count_cons_self]
          omega
        · rw [List.count_cons_of_ne (Ne.symm hother)]
          exact h.cap other
      · simp only [GateState.inProgress, List.length_cons] at hpermits ⊢
        omega
    · cases hstep

theorem Accounted.drop (h : gate.Accounted state) {subject : κ}
    (hstep : gate.step state (.drop subject) = some next) : gate.Accounted next := by
  unfold step at hstep
  dsimp only at hstep
  split at hstep
  · rename_i hmem
    obtain rfl := Option.some.inj hstep
    have hlength := List.length_erase_of_mem hmem
    have hpositive := List.length_pos_of_mem hmem
    have hcount : 0 < state.leases.count subject := List.count_pos_iff.mpr hmem
    have hpermits := h.permits
    have hleave : leave state.subjects subject =
        if state.leases.count subject - 1 = 0 then state.subjects.erase subject
        else state.subjects.insert subject (state.leases.count subject - 1) := by
      rw [leave, h.count, stored, if_neg (by omega)]
    refine ⟨fun other => ?_, fun other => ?_, ?_⟩
    · dsimp only
      rw [hleave]
      by_cases hother : other = subject
      · subst hother
        rw [List.count_erase_self, stored]
        split
        · exact KeyedMap.get?_erase_self _ _
        · exact KeyedMap.get?_insert_self _ _ _
      · rw [List.count_erase_of_ne hother]
        split
        · rw [KeyedMap.get?_erase_ne _ hother, h.count]
        · rw [KeyedMap.get?_insert_ne _ hother, h.count]
    · exact Nat.le_trans (List.erase_sublist.count_le other) (h.cap other)
    · simp only [GateState.inProgress] at hpermits ⊢
      omega
  · cases hstep

/-- Every step keeps the accounts. -/
theorem Accounted.step (h : gate.Accounted state) {action : GateStep κ}
    (hstep : gate.step state action = some next) : gate.Accounted next := by
  have hpermits := h.permits
  cases action with
  | enter subject => exact h.enter hstep
  | drop subject => exact h.drop hstep
  | takePermit subject =>
    unfold SubjectGate.step at hstep
    dsimp only at hstep
    split at hstep
    · exact Option.some.inj hstep ▸ h
    · obtain rfl := Option.some.inj hstep
      refine ⟨h.count, h.cap, ?_⟩
      simp only [GateState.inProgress, List.length_cons] at hpermits ⊢
      omega
  | release =>
    unfold SubjectGate.step at hstep
    dsimp only at hstep
    split at hstep
    · cases hstep
    · obtain rfl := Option.some.inj hstep
      refine ⟨h.count, h.cap, ?_⟩
      simp only [GateState.inProgress] at hpermits ⊢
      omega

/-- A number of acquisitions by one subject, one after the other. -/
def acquisitions (subject : κ) : ℕ → List (GateStep κ)
  | 0 => []
  | number + 1 => .takePermit subject :: .enter subject :: acquisitions subject number

/-- Where no operation is in progress, a subject can acquire up to both caps. -/
theorem run_acquisitions (h : gate.Accounted state) (hquiet : state.inProgress = 0) {subject : κ}
    {number : ℕ} (hsubject : state.leases.count subject + number ≤ gate.perSubject)
    (hprocess : state.leases.length + number ≤ gate.process) :
    ∃ last, run gate.step state (acquisitions subject number) = some last ∧
      last.leases = List.replicate number subject ++ state.leases := by
  induction number generalizing state with
  | zero => exact ⟨state, rfl, rfl⟩
  | succ number ih =>
    have hpermits := h.permits
    have hfree : state.available ≠ 0 := by omega
    have hroom : ¬gate.perSubject ≤ state.leases.count subject := by omega
    let middle : GateState κ :=
      { state with available := state.available - 1, acquiring := subject :: state.acquiring }
    have hmiddle : gate.step state (.takePermit subject) = some middle := by
      simp [SubjectGate.step, hfree, middle]
    let after : GateState κ :=
      { state with
        available := state.available - 1
        subjects := state.subjects.insert subject (state.leases.count subject + 1)
        leases := subject :: state.leases }
    have hafter : gate.step middle (.enter subject) = some after := by
      simp [SubjectGate.step, middle, after, h.count, getD_stored, hroom]
    have haccounted := (h.step hmiddle).step hafter
    obtain ⟨last, hlast, hleases⟩ := ih haccounted hquiet
      (by simp only [after, List.count_cons_self]; omega)
      (by simp only [after, List.length_cons]; omega)
    refine ⟨last, ?_, ?_⟩
    · rw [acquisitions]
      exact run_cons_eq_some.mpr ⟨middle, hmiddle, run_cons_eq_some.mpr ⟨after, hafter, hlast⟩⟩
    · rw [hleases, List.replicate_succ', List.append_assoc]
      rfl

/-- At every point of every interleaving the counts are those of the live leases, within both caps,
and each permit taken belongs to a lease or to an operation in progress; a refusal changes neither
count; and once everything is released a subject can acquire up to both caps again. -/
theorem gate_accounts {actions : List (GateStep κ)}
    (hrun : run gate.step gate.initial actions = some state) :
    (∀ subject, state.subjects.get? subject = stored (state.leases.count subject) ∧
        state.leases.count subject ≤ gate.perSubject) ∧
      state.leases.length ≤ gate.process ∧
      state.available + (state.leases.length + state.inProgress) = gate.process ∧
      (∀ subject, state.available = 0 → gate.step state (.takePermit subject) = some state) ∧
      (∀ subject next, gate.step state (.enter subject) = some next →
        gate.perSubject ≤ state.leases.count subject →
          next.leases = state.leases ∧ next.available = state.available ∧
            next.inProgress = state.inProgress ∧
            ∀ other, next.subjects.get? other = state.subjects.get? other) ∧
      (state.leases = [] → state.inProgress = 0 → ∀ subject number, number ≤ gate.perSubject →
        number ≤ gate.process → ∃ last, run gate.step state (acquisitions subject number) = some last ∧
          last.leases = List.replicate number subject) := by
  have h : gate.Accounted state :=
    run_invariant (fun _ _ _ hstep hinv => hinv.step hstep) hrun (accounted_initial gate)
  have hpermits := h.permits
  refine ⟨fun subject => ⟨h.count subject, h.cap subject⟩, by omega, hpermits, fun subject hnone => ?_,
    fun subject next hstep hfull => enter_refused h hstep hfull, ?_⟩
  · simp [SubjectGate.step, hnone]
  · intro hleases hquiet subject number hsubject hprocess
    have hroom : state.leases.count subject + number ≤ gate.perSubject := by simpa [hleases] using hsubject
    have hslots : state.leases.length + number ≤ gate.process := by simpa [hleases] using hprocess
    obtain ⟨last, hlast, hlastLeases⟩ := run_acquisitions h hquiet hroom hslots
    exact ⟨last, hlast, by rw [hlastLeases, hleases, List.append_nil]⟩

/-- Two slots, one for each subject. -/
def twoSlots : SubjectGate := ⟨2, 1, Nat.le_refl 1⟩

/-- Two subjects acquire a lease each; another acquisition in between is refused. -/
def twoSubjects : List (GateStep ℕ) :=
  [.takePermit 1, .enter 1, .takePermit 1, .enter 1, .release, .takePermit 2, .enter 2, .drop 1]

theorem gate_accounts_twoSlots :
    ∃ last, run twoSlots.step twoSlots.initial twoSubjects = some last ∧
      last.available + (last.leases.length + last.inProgress) = 2 := by
  have hrun : (run twoSlots.step twoSlots.initial twoSubjects).isSome = true := by decide
  obtain ⟨last, hlast⟩ := Option.isSome_iff_exists.mp hrun
  exact ⟨last, hlast, (gate_accounts hlast).2.2.1⟩

end SubjectGate

end Crabinet.Access
