import Mathlib.Tactic.Common

/-!
# Fallible computations

Inversion for a sequence of fallible steps: it succeeded exactly when its first step did
and the rest succeeded on that step's result.
-/

namespace Crabinet.Library

variable {ε ε' α β : Type}

/-- A sequence succeeds exactly when its first step and then its continuation do. -/
theorem bind_eq_ok {x : Except ε α} {f : α → Except ε β} {b : β} :
    (x >>= f) = .ok b ↔ ∃ a, x = .ok a ∧ f a = .ok b := by
  cases x with
  | error e => simp [bind, Except.bind]
  | ok a => simp [bind, Except.bind]

/-- A successful first step hands its result on. -/
@[simp] theorem ok_bind (a : α) (f : α → Except ε β) : ((Except.ok a : Except ε α) >>= f) = f a := rfl

/-- A failed first step fails the whole sequence. -/
@[simp] theorem error_bind (e : ε) (f : α → Except ε β) :
    ((Except.error e : Except ε α) >>= f) = .error e := rfl

/-- A guarded computation succeeds exactly when its guard held and its body succeeded. -/
theorem ite_error_eq_ok {c : Prop} [Decidable c] {e : ε} {x : Except ε α} {a : α} :
    (if c then .error e else x) = .ok a ↔ ¬c ∧ x = .ok a := by
  by_cases h : c <;> simp [h]

theorem toOption_eq_some {x : Except ε α} {a : α} : x.toOption = some a ↔ x = .ok a := by
  cases x <;> simp [Except.toOption]

/-- A renamed error changes no success. -/
@[simp] theorem mapError_ok (f : ε → ε') (a : α) : (Except.ok a : Except ε α).mapError f = .ok a := rfl

theorem mapError_eq_ok {f : ε → ε'} {x : Except ε α} {a : α} : x.mapError f = .ok a ↔ x = .ok a := by
  cases x <;> simp [Except.mapError]

/-- A step for each element succeeds exactly when every one of the steps does. -/
theorem exists_mapM_eq_ok {f : α → Except ε β} {items : List α} :
    (∃ results, items.mapM f = .ok results) ↔ ∀ a ∈ items, ∃ b, f a = .ok b := by
  induction items with
  | nil => exact iff_of_true ⟨[], rfl⟩ nofun
  | cons item rest ih =>
    rw [List.forall_mem_cons, ← ih, List.mapM_cons]
    constructor
    · rintro ⟨results, h⟩
      obtain ⟨b, hb, h⟩ := bind_eq_ok.mp h
      obtain ⟨others, hothers, -⟩ := bind_eq_ok.mp h
      exact ⟨⟨b, hb⟩, others, hothers⟩
    · rintro ⟨⟨b, hb⟩, others, hothers⟩
      exact ⟨b :: others, bind_eq_ok.mpr ⟨b, hb, bind_eq_ok.mpr ⟨others, hothers, rfl⟩⟩⟩

/-- A loop of checks passes exactly when each of them does. -/
theorem forM_eq_ok {f : α → Except ε Unit} {items : List α} :
    items.forM f = .ok () ↔ ∀ a ∈ items, f a = .ok () := by
  induction items with
  | nil => exact iff_of_true rfl nofun
  | cons item rest ih =>
    rw [List.forall_mem_cons, ← ih]
    change (f item >>= fun _ => rest.forM f) = .ok () ↔ _
    rw [bind_eq_ok]
    exact ⟨fun ⟨_, hitem, hrest⟩ => ⟨hitem, hrest⟩, fun ⟨hitem, hrest⟩ => ⟨(), hitem, hrest⟩⟩

/-- A sequence fails with an error only where one of its parts does. -/
theorem bind_ne_error {x : Except ε α} {f : α → Except ε β} {e : ε} (hx : x ≠ .error e)
    (hf : ∀ a, f a ≠ .error e) : (x >>= f) ≠ .error e := by
  cases x with
  | error other =>
    rw [error_bind]
    exact fun h => hx (by rw [Except.error.inj h])
  | ok a => exact hf a

/-- The computation fails only as allowed, and its result meets a postcondition. -/
def Ensures (fails : ε → Prop) (post : α → Prop) : Except ε α → Prop
  | .error e => fails e
  | .ok a => post a

variable {fails : ε → Prop} {post : α → Prop}

theorem Ensures.bind {next : β → Prop} {x : Except ε α} {f : α → Except ε β}
    (hx : Ensures fails post x) (hf : ∀ a, post a → Ensures fails next (f a)) :
    Ensures fails next (x >>= f) := by
  cases x with
  | error e => exact hx
  | ok a => exact hf a hx

theorem Ensures.mono {weaker : α → Prop} {x : Except ε α} (hx : Ensures fails post x)
    (hpost : ∀ a, post a → weaker a) : Ensures fails weaker x := by
  cases x with
  | error e => exact hx
  | ok a => exact hpost a hx

end Crabinet.Library
