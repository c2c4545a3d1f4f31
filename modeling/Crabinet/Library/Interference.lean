import Mathlib.Logic.Relation
import Mathlib.Tactic.Common

/-!
# Programs under interference

A program performs operations on a state that another party changes between them, and an
operation may answer in several ways. `Safe` is the obligation of such a program: each of
its operations keeps a guarantee, whatever the other party does within its rely, and its
result meets a postcondition. A run may stop after any operation, so what the guarantee
and the rely preserve holds after a crash as well.
-/

namespace Crabinet.Library

open Relation

/-- A result, or an operation and what follows each of its answers. -/
inductive Program (Op : Type) (Answer : Op → Type) (α : Type) where
  | done (result : α)
  | call (op : Op) (next : Answer op → Program Op Answer α)

namespace Program

variable {Op : Type} {Answer : Op → Type} {α β σ : Type}

/-- One program after another. -/
def bind : Program Op Answer α → (α → Program Op Answer β) → Program Op Answer β
  | done result, rest => rest result
  | call op next, rest => call op fun answer => (next answer).bind rest

instance : Monad (Program Op Answer) where
  pure := done
  bind := bind

/-- A single operation. -/
def perform (op : Op) : Program Op Answer (Answer op) := call op done

@[simp] theorem done_bind (result : α) (rest : α → Program Op Answer β) :
    (done result >>= rest) = rest result := rfl

@[simp] theorem call_bind (op : Op) (next : Answer op → Program Op Answer α)
    (rest : α → Program Op Answer β) :
    (call op next >>= rest) = call op fun answer => next answer >>= rest := rfl

variable (effect : σ → (op : Op) → Answer op → σ → Prop) (rely : σ → σ → Prop)

/-- What a program and the other party may do, up to any point. -/
inductive Runs : Program Op Answer α → σ → Program Op Answer α → σ → Prop where
  | stop {program state} : Runs program state program state
  | interfere {program state middle rest last} (step : rely state middle)
      (later : Runs program middle rest last) : Runs program state rest last
  | operate {op next state answer middle rest last} (step : effect state op answer middle)
      (later : Runs (next answer) middle rest last) : Runs (call op next) state rest last

/-- Whatever the other party does, each operation keeps the guarantee and the result meets
the postcondition. -/
def Safe (guarantee : σ → σ → Prop) (post : α → σ → Prop) : Program Op Answer α → σ → Prop
  | done result, state => ∀ later, ReflTransGen rely state later → post result later
  | call op next, state => ∀ later, ReflTransGen rely state later →
      ∀ answer last, effect later op answer last →
        guarantee later last ∧ Safe guarantee post (next answer) last

/-- The other party does not break the assertion. -/
def Stable (assertion : σ → Prop) : Prop :=
  ∀ state later, rely state later → assertion state → assertion later

variable {effect rely} {guarantee : σ → σ → Prop}

theorem Stable.closed {assertion : σ → Prop} (h : Stable rely assertion) {state later : σ}
    (hrely : ReflTransGen rely state later) (hstate : assertion state) : assertion later := by
  induction hrely with
  | refl => exact hstate
  | tail _ hstep ih => exact h _ _ hstep ih

/-- Without another party every assertion is stable. -/
theorem stable_of_alone {assertion : σ → Prop} (h : ∀ state later, ¬rely state later) :
    Stable rely assertion := fun state later hrely => absurd hrely (h state later)

/-- A safe program stays safe when the other party acts. -/
theorem Safe.closed {post : α → σ → Prop} {program : Program Op Answer α} {state later : σ}
    (h : Safe effect rely guarantee post program state) (hrely : ReflTransGen rely state later) :
    Safe effect rely guarantee post program later := by
  cases program with
  | done result => exact fun last hlast => h last (hrely.trans hlast)
  | call op next => exact fun last hlast => h last (hrely.trans hlast)

theorem Safe.done {post : α → σ → Prop} {result : α} {state : σ}
    (hstable : Stable rely (post result)) (hpost : post result state) :
    Safe effect rely guarantee post (done result) state :=
  fun _ hrely => hstable.closed hrely hpost

/-- The rule of a single operation: a stable precondition, and what each answer leaves. -/
theorem Safe.perform {op : Op} {pre : σ → Prop} {post : Answer op → σ → Prop} {state : σ}
    (hpre : Stable rely pre) (hpost : ∀ answer, Stable rely (post answer)) (hstate : pre state)
    (hstep : ∀ before answer after, pre before → effect before op answer after →
      guarantee before after ∧ post answer after) :
    Safe effect rely guarantee post (Program.perform op) state := by
  intro before hbefore answer after heffect
  obtain ⟨hguarantee, hafter⟩ := hstep before answer after (hpre.closed hbefore hstate) heffect
  exact ⟨hguarantee, Safe.done (hpost answer) hafter⟩

/-- An operation that keeps the guarantee from every state. -/
theorem Safe.perform_of_keeps {op : Op} {state : σ}
    (h : ∀ before answer after, effect before op answer after → guarantee before after) :
    Safe effect rely guarantee (fun _ _ => True) (Program.perform op) state :=
  fun before _ answer after hstep =>
    ⟨h before answer after hstep, fun _ _ => trivial⟩

/-- The rule of sequences; what the first program leaves, it leaves for good. -/
theorem Safe.bind {mid : α → σ → Prop} {post : β → σ → Prop} {program : Program Op Answer α}
    {rest : α → Program Op Answer β} {state : σ}
    (hprogram : Safe effect rely guarantee mid program state)
    (hrest : ∀ result middle, (∀ later, ReflTransGen rely middle later → mid result later) →
      Safe effect rely guarantee post (rest result) middle) :
    Safe effect rely guarantee post (program >>= rest) state := by
  induction program generalizing state with
  | done result => exact hrest result state hprogram
  | call op next ih =>
    intro later hlater answer last heffect
    obtain ⟨hguarantee, hnext⟩ := hprogram later hlater answer last heffect
    exact ⟨hguarantee, ih answer hnext⟩

theorem Safe.weaken {strong weak : α → σ → Prop} {program : Program Op Answer α} {state : σ}
    (h : Safe effect rely guarantee strong program state)
    (himp : ∀ result last, strong result last → weak result last) :
    Safe effect rely guarantee weak program state := by
  induction program generalizing state with
  | done result => exact fun later hlater => himp result later (h later hlater)
  | call op next ih =>
    intro later hlater answer last heffect
    obtain ⟨hguarantee, hnext⟩ := h later hlater answer last heffect
    exact ⟨hguarantee, ih answer hnext⟩

/-- What is left of a safe program is safe. -/
theorem Runs.safe {post : α → σ → Prop} {program rest : Program Op Answer α} {state last : σ}
    (hruns : Runs effect rely program state rest last)
    (h : Safe effect rely guarantee post program state) :
    Safe effect rely guarantee post rest last := by
  induction hruns with
  | stop => exact h
  | interfere hstep _ ih => exact ih (h.closed (.single hstep))
  | operate hstep _ ih => exact ih (h _ .refl _ _ hstep).2

/-- A run of a safe program is made of the steps of its rely and its guarantee. -/
theorem Runs.steps {post : α → σ → Prop} {program rest : Program Op Answer α} {state last : σ}
    (hruns : Runs effect rely program state rest last)
    (h : Safe effect rely guarantee post program state) :
    ReflTransGen (fun before after => rely before after ∨ guarantee before after) state last := by
  induction hruns with
  | stop => exact .refl
  | interfere hstep _ ih => exact .head (.inl hstep) (ih (h.closed (.single hstep)))
  | operate hstep _ ih =>
    obtain ⟨hguarantee, hnext⟩ := h _ .refl _ _ hstep
    exact .head (.inr hguarantee) (ih hnext)

/-- A finished run of a safe program meets the postcondition. -/
theorem Runs.post {post : α → σ → Prop} {program : Program Op Answer α} {result : α}
    {state last : σ} (hruns : Runs effect rely program state (.done result) last)
    (h : Safe effect rely guarantee post program state) : post result last :=
  hruns.safe h last .refl

/-- What the rely and the guarantee preserve holds wherever a run stops. -/
theorem Runs.invariant {post : α → σ → Prop} {inv : σ → Prop} {program rest : Program Op Answer α}
    {state last : σ} (hruns : Runs effect rely program state rest last)
    (h : Safe effect rely guarantee post program state) (hrely : Stable rely inv)
    (hguarantee : ∀ before after, guarantee before after → inv before → inv after)
    (hinv : inv state) : inv last := by
  have hsteps := hruns.steps h
  clear hruns
  induction hsteps with
  | refl => exact hinv
  | tail _ hstep ih =>
    rcases hstep with hstep | hstep
    · exact hrely _ _ hstep ih
    · exact hguarantee _ _ hstep ih

/-- Runs follow one another. -/
theorem Runs.trans {first second third : Program Op Answer α} {state middle last : σ}
    (h : Runs effect rely first state second middle)
    (h' : Runs effect rely second middle third last) : Runs effect rely first state third last := by
  induction h with
  | stop => exact h'
  | interfere hstep _ ih => exact .interfere hstep (ih h')
  | operate hstep _ ih => exact .operate hstep (ih h')

/-- The first operations of a program, each carried out by one handler. -/
def exec (handler : σ → (op : Op) → Answer op × σ) : ℕ → Program Op Answer α → σ →
    Program Op Answer α × σ
  | 0, program, state => (program, state)
  | _ + 1, done result, state => (done result, state)
  | fuel + 1, call op next, state =>
    exec handler fuel (next (handler state op).1) (handler state op).2

/-- What a handler carries out is a run, if its steps are effects. -/
theorem runs_exec {handler : σ → (op : Op) → Answer op × σ}
    (h : ∀ state op, effect state op (handler state op).1 (handler state op).2) (fuel : ℕ)
    (program : Program Op Answer α) (state : σ) :
    Runs effect rely program state (exec handler fuel program state).1
      (exec handler fuel program state).2 := by
  induction fuel generalizing program state with
  | zero => exact .stop
  | succ fuel ih =>
    cases program with
    | done result => exact .stop
    | call op next => exact .operate (h state op) (ih _ _)

/-- A whole program, each of its operations carried out by one handler. -/
def eval (handler : σ → (op : Op) → Answer op × σ) : Program Op Answer α → σ → α × σ
  | done result, state => (result, state)
  | call op next, state => eval handler (next (handler state op).1) (handler state op).2

theorem runs_eval {handler : σ → (op : Op) → Answer op × σ}
    (h : ∀ state op, effect state op (handler state op).1 (handler state op).2)
    (program : Program Op Answer α) (state : σ) :
    Runs effect rely program state (done (eval handler program state).1)
      (eval handler program state).2 := by
  induction program generalizing state with
  | done result => exact .stop
  | call op next ih => exact .operate (h state op) (ih _ _)

/-! ### Programs that may fail -/

variable {ε : Type}

/-- Perform an operation that may fail. -/
def attemptOp {Value : Op → Type} (op : Op) :
    ExceptT ε (Program Op fun op => Except ε (Value op)) (Value op) := ExceptT.mk (perform op)

/-- The obligation of a program that ends with a result or an error. -/
def SafeOr (effect : σ → (op : Op) → Answer op → σ → Prop) (rely guarantee : σ → σ → Prop)
    (post : α → σ → Prop) (fail : ε → σ → Prop) (steps : ExceptT ε (Program Op Answer) α)
    (state : σ) : Prop :=
  Safe effect rely guarantee (fun result last => match result with
    | .ok value => post value last
    | .error error => fail error last) steps.run state

theorem SafeOr.bind {mid : α → σ → Prop} {post : β → σ → Prop} {fail : ε → σ → Prop}
    {steps : ExceptT ε (Program Op Answer) α} {rest : α → ExceptT ε (Program Op Answer) β}
    {state : σ} (hsteps : SafeOr effect rely guarantee mid fail steps state)
    (hrest : ∀ value middle, mid value middle →
      SafeOr effect rely guarantee post fail (rest value) middle) :
    SafeOr effect rely guarantee post fail (steps >>= rest) state := by
  refine Safe.bind hsteps fun result middle hresult => ?_
  cases result with
  | ok value => exact hrest value middle (hresult middle .refl)
  | error error => exact fun later hlater => hresult later hlater

theorem SafeOr.pure {post : α → σ → Prop} {fail : ε → σ → Prop} {value : α} {state : σ}
    (hstable : Stable rely (post value)) (hpost : post value state) :
    SafeOr effect rely guarantee post fail (pure value) state :=
  fun _ hlater => hstable.closed hlater hpost

theorem SafeOr.throw {post : α → σ → Prop} {fail : ε → σ → Prop} {error : ε} {state : σ}
    (hstable : Stable rely (fail error)) (hfail : fail error state) :
    SafeOr effect rely guarantee post fail (throw error) state :=
  fun _ hlater => hstable.closed hlater hfail

/-- The rule of a single operation that may fail, without another party. -/
theorem SafeOr.attemptOp {Value : Op → Type}
    {effect : σ → (op : Op) → Except ε (Value op) → σ → Prop} {guarantee : σ → σ → Prop} {op : Op}
    {post : Value op → σ → Prop} {fail : ε → σ → Prop} {state : σ}
    (h : ∀ answer after, effect state op answer after → guarantee state after ∧
      match answer with
      | .ok value => post value after
      | .error error => fail error after) :
    SafeOr effect (fun _ _ => False) guarantee post fail (attemptOp op) state := by
  intro before hbefore answer after heffect
  have halone {first second : σ} (h : ReflTransGen (fun _ _ => False) first second) : first = second := by
    induction h with
    | refl => rfl
    | tail _ hstep => exact hstep.elim
  obtain rfl := halone hbefore
  obtain ⟨hguarantee, hpost⟩ := h answer after heffect
  refine ⟨hguarantee, fun later hlater => ?_⟩
  obtain rfl := halone hlater
  cases answer with
  | ok value => exact hpost
  | error error => exact hpost

/-- A program that cannot fail, within one that may. -/
theorem SafeOr.lift {post : α → σ → Prop} {fail : ε → σ → Prop} {program : Program Op Answer α}
    {state : σ} (h : Safe effect rely guarantee post program state) :
    SafeOr effect rely guarantee post fail (ExceptT.lift program) state :=
  Safe.bind h fun _ _ hresult later hlater => hresult later hlater

end Program

end Crabinet.Library
