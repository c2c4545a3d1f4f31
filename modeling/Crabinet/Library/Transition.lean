import Mathlib.Data.Option.Basic
import Mathlib.Tactic.Common

/-!
# Runs of a partial step function

An action that cannot be taken in a state is refused, and a run is refused with its
first refused action. What one step preserves, a whole run preserves.
-/

namespace Crabinet.Library

variable {σ α : Type} (step : σ → α → Option σ)

/-- Take the actions in order. -/
def run : σ → List α → Option σ
  | state, [] => some state
  | state, action :: rest => (step state action).bind fun next => run next rest

/-- Every step of the run is taken from a state that meets the condition. -/
def Along (meets : σ → α → Prop) : σ → List α → Prop
  | _, [] => True
  | state, action :: rest =>
    meets state action ∧ ∀ next, step state action = some next → Along meets next rest

/-- A decidable condition is decided by taking the steps. -/
instance Along.decidable (meets : σ → α → Prop) [∀ state action, Decidable (meets state action)] :
    (state : σ) → (actions : List α) → Decidable (Along step meets state actions)
  | _, [] => isTrue trivial
  | state, action :: rest =>
    match hnext : step state action with
    | none => decidable_of_iff (meets state action)
        ⟨fun h => ⟨h, fun next hsome => by rw [hnext] at hsome; cases hsome⟩, fun h => h.1⟩
    | some next =>
      have : Decidable (Along step meets next rest) := Along.decidable meets next rest
      decidable_of_iff (meets state action ∧ Along step meets next rest)
        ⟨fun h => ⟨h.1, fun other hsome => Option.some.inj (hnext.symm.trans hsome) ▸ h.2⟩,
          fun h => ⟨h.1, h.2 next hnext⟩⟩

variable {step}

theorem run_cons_eq_some {state last : σ} {action : α} {rest : List α} :
    run step state (action :: rest) = some last ↔
      ∃ next, step state action = some next ∧ run step next rest = some last :=
  Option.bind_eq_some_iff

/-- An invariant of single steps is one of whole runs. -/
theorem run_invariant {Inv : σ → Prop}
    (hstep : ∀ state action next, step state action = some next → Inv state → Inv next)
    {state last : σ} {actions : List α} (hrun : run step state actions = some last)
    (hinv : Inv state) : Inv last := by
  induction actions generalizing state with
  | nil => exact Option.some.inj hrun ▸ hinv
  | cons action rest ih =>
    obtain ⟨next, hnext, hrest⟩ := run_cons_eq_some.mp hrun
    exact ih hrest (hstep state action next hnext hinv)

/-- An invariant of the steps that meet a condition is one of the runs along which it is met. -/
theorem run_invariant_along {meets : σ → α → Prop} {Inv : σ → Prop}
    (hstep : ∀ state action next, step state action = some next → meets state action → Inv state →
      Inv next)
    {state last : σ} {actions : List α} (hrun : run step state actions = some last)
    (hmeets : Along step meets state actions) (hinv : Inv state) : Inv last := by
  induction actions generalizing state with
  | nil => exact Option.some.inj hrun ▸ hinv
  | cons action rest ih =>
    obtain ⟨next, hnext, hrest⟩ := run_cons_eq_some.mp hrun
    exact ih hrest (hmeets.2 next hnext) (hstep state action next hnext hmeets.1 hinv)

/-- A ghost variable that follows the actions of a run. -/
theorem run_ghost {τ : Type} {Inv : τ → σ → Prop} (follow : τ → α → τ)
    (hstep : ∀ ghost state action next, step state action = some next → Inv ghost state →
      Inv (follow ghost action) next)
    {ghost : τ} {state last : σ} {actions : List α} (hrun : run step state actions = some last)
    (hinv : Inv ghost state) : Inv (actions.foldl follow ghost) last := by
  induction actions generalizing ghost state with
  | nil => exact Option.some.inj hrun ▸ hinv
  | cons action rest ih =>
    obtain ⟨next, hnext, hrest⟩ := run_cons_eq_some.mp hrun
    exact ih hrest (hstep ghost state action next hnext hinv)

/-- A condition on the actions alone. -/
theorem along_of_forall {meets : α → Prop} {state : σ} {actions : List α}
    (h : ∀ action ∈ actions, meets action) :
    Along step (fun _ action => meets action) state actions := by
  induction actions generalizing state with
  | nil => trivial
  | cons action rest ih =>
    exact ⟨h action List.mem_cons_self, fun next _ =>
      ih fun other hother => h other (List.mem_cons_of_mem _ hother)⟩

/-- An invariant of the steps that meet a condition holds all along a run that meets it. -/
theorem Along.invariant {meets : σ → α → Prop} {Inv : σ → Prop}
    (hstep : ∀ state action next, step state action = some next → meets state action → Inv state →
      Inv next)
    {state : σ} {actions : List α} (hmeets : Along step meets state actions) (hinv : Inv state) :
    Along step (fun state _ => Inv state) state actions := by
  induction actions generalizing state with
  | nil => trivial
  | cons action rest ih =>
    exact ⟨hinv, fun next hnext => ih (hmeets.2 next hnext) (hstep state action next hnext hmeets.1 hinv)⟩

theorem Along.mono {first second : σ → α → Prop} {state : σ} {actions : List α}
    (h : Along step first state actions)
    (himp : ∀ state action, first state action → second state action) :
    Along step second state actions := by
  induction actions generalizing state with
  | nil => trivial
  | cons action rest ih => exact ⟨himp _ _ h.1, fun next hnext => ih (h.2 next hnext)⟩

/-- Two conditions met along a run are met together. -/
theorem Along.and {first second : σ → α → Prop} {state : σ} {actions : List α}
    (hfirst : Along step first state actions) (hsecond : Along step second state actions) :
    Along step (fun state action => first state action ∧ second state action) state actions := by
  induction actions generalizing state with
  | nil => trivial
  | cons action rest ih =>
    exact ⟨⟨hfirst.1, hsecond.1⟩, fun next hnext => ih (hfirst.2 next hnext) (hsecond.2 next hnext)⟩

/-- A condition met along a run is met along its parts. -/
theorem Along.append {meets : σ → α → Prop} {state : σ} {first second : List α}
    (h : Along step meets state (first ++ second)) :
    Along step meets state first ∧
      ∀ middle, run step state first = some middle → Along step meets middle second := by
  induction first generalizing state with
  | nil => exact ⟨trivial, fun middle hmiddle => Option.some.inj hmiddle ▸ h⟩
  | cons action rest ih =>
    refine ⟨⟨h.1, fun next hnext => (ih (h.2 next hnext)).1⟩, fun middle hmiddle => ?_⟩
    obtain ⟨next, hnext, hrest⟩ := run_cons_eq_some.mp hmiddle
    exact (ih (h.2 next hnext)).2 middle hrest

/-- A condition met along both parts is met along the whole. -/
theorem along_append {meets : σ → α → Prop} {state : σ} {first second : List α}
    (hfirst : Along step meets state first)
    (hsecond : ∀ middle, run step state first = some middle → Along step meets middle second) :
    Along step meets state (first ++ second) := by
  induction first generalizing state with
  | nil => exact hsecond state rfl
  | cons action rest ih =>
    exact ⟨hfirst.1, fun next hnext => ih (hfirst.2 next hnext) fun middle hmiddle =>
      hsecond middle (run_cons_eq_some.mpr ⟨next, hnext, hmiddle⟩)⟩

/-- A run over two lists of actions passes through the state between them. -/
theorem run_append {state last : σ} {first second : List α} :
    run step state (first ++ second) = some last ↔
      ∃ middle, run step state first = some middle ∧ run step middle second = some last := by
  induction first generalizing state with
  | nil => simp [run]
  | cons action rest ih =>
    simp only [List.cons_append, run_cons_eq_some, ih]
    constructor
    · rintro ⟨next, hnext, middle, hmiddle, hlast⟩
      exact ⟨middle, ⟨next, hnext, hmiddle⟩, hlast⟩
    · rintro ⟨middle, ⟨next, hnext, hmiddle⟩, hlast⟩
      exact ⟨next, hnext, middle, hmiddle, hlast⟩

/-- What holds after a run and not before it comes with one of its steps. -/
theorem exists_step_of_run {Q : σ → Prop} {state last : σ} {actions : List α}
    (hrun : run step state actions = some last) (hstate : ¬Q state) (hlast : Q last) :
    ∃ before action after middle next, actions = before ++ action :: after ∧
      run step state before = some middle ∧ step middle action = some next ∧ ¬Q middle ∧ Q next := by
  induction actions generalizing state with
  | nil => exact absurd (Option.some.inj hrun ▸ hlast) hstate
  | cons action rest ih =>
    obtain ⟨next, hnext, hrest⟩ := run_cons_eq_some.mp hrun
    by_cases hQ : Q next
    · exact ⟨[], action, rest, state, next, rfl, rfl, hnext, hstate, hQ⟩
    · obtain ⟨before, other, after, middle, found, rfl, hbefore, hfound⟩ := ih hrest hQ
      exact ⟨action :: before, other, after, middle, found, rfl,
        run_cons_eq_some.mpr ⟨next, hnext, hbefore⟩, hfound⟩

end Crabinet.Library
