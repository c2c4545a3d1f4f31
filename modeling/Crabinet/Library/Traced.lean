import Crabinet.Library.ByteLayout
import Crabinet.Library.Outcome
import Mathlib.Algebra.BigOperators.Group.List.Basic

/-!
# Computations that read a byte image

A computation leaves the ranges it has read and the way it ended. An index outside its slice
and an integer that leaves its machine type end it with a panic, which is not among the errors
it returns. A bounded computation reads nothing outside the image, no more than its budget, and
does not panic.
-/

namespace Crabinet.Library

/-- What ends a computation early: an error that it returns, or a panic. -/
inductive Fault (ε : Type) where
  | panic
  | error (error : ε)
deriving DecidableEq, Repr

/-- The ranges read so far, each a position and a number of bytes, and how the computation
ended. -/
structure Traced (ε α : Type) where
  reads : List (ℕ × ℕ)
  outcome : Except (Fault ε) α

namespace Traced

variable {ε ε' α β : Type}

/-- One computation after another, which does not start if the first did not succeed. -/
protected def bind (x : Traced ε α) (next : α → Traced ε β) : Traced ε β :=
  match x.outcome with
  | .error fault => ⟨x.reads, .error fault⟩
  | .ok a => ⟨x.reads ++ (next a).reads, (next a).outcome⟩

instance : Monad (Traced ε) where
  pure a := ⟨[], .ok a⟩
  bind := Traced.bind

/-- Return an error. -/
def fail (error : ε) : Traced ε α := ⟨[], .error (.error error)⟩

def panicked : Traced ε α := ⟨[], .error .panic⟩

/-- Read so many bytes at a position. The error is that of an image which ends before them. -/
def read (image : List UInt8) (position count : ℕ) (error : ε) : Traced ε (List UInt8) :=
  ⟨[(position, count)],
    match slice image position (position + count) with
    | some bytes => .ok bytes
    | none => .error (.error error)⟩

/-- The little-endian field of `n` bytes at an index of a slice. -/
def field (n : ℕ) (bytes : List UInt8) (start : ℕ) : Traced ε ℕ :=
  match leAt n bytes start with
  | some value => pure value
  | none => panicked

/-- The bytes of a slice from an index on. -/
def dropFrom (bytes : List UInt8) (start : ℕ) : Traced ε (List UInt8) :=
  if start ≤ bytes.length then pure (bytes.drop start) else panicked

/-- `a + b` in 64 bits. -/
def add64 (a b : ℕ) : Traced ε ℕ := if a + b < 2 ^ 64 then pure (a + b) else panicked

/-- `a - b` in an unsigned type. -/
def sub64 (a b : ℕ) : Traced ε ℕ := if b ≤ a then pure (a - b) else panicked

/-- The value of checked operations, which panic without one. -/
def require (value : Option α) : Traced ε α := value.elim panicked pure

/-- Go on without the result of a computation that returns an error. -/
def attempt (x : Traced ε α) : Traced ε' (Option α) :=
  ⟨x.reads,
    match x.outcome with
    | .ok a => .ok (some a)
    | .error (.error _) => .ok none
    | .error .panic => .error .panic⟩

/-- How many bytes a computation read. -/
def bytes (x : Traced ε α) : ℕ := (x.reads.map Prod.snd).sum

@[simp] theorem pure_bind (a : α) (next : α → Traced ε β) : (pure a >>= next) = next a := rfl

theorem field_eq {n start : ℕ} {bytes : List UInt8} (h : start + n ≤ bytes.length) :
    (field n bytes start : Traced ε ℕ) = pure ((leAt n bytes start).getD 0) := by
  have hslice : slice bytes start (start + n) = some ((bytes.drop start).take n) := by
    rw [slice, if_pos ⟨by omega, h⟩, Nat.add_sub_cancel_left]
  rw [field, leAt, hslice]
  rfl

theorem dropFrom_eq {start : ℕ} {bytes : List UInt8} (h : start ≤ bytes.length) :
    (dropFrom bytes start : Traced ε (List UInt8)) = pure (bytes.drop start) := if_pos h

theorem add64_eq {a b : ℕ} (h : a + b < 2 ^ 64) : (add64 a b : Traced ε ℕ) = pure (a + b) :=
  if_pos h

theorem sub64_eq {a b : ℕ} (h : b ≤ a) : (sub64 a b : Traced ε ℕ) = pure (a - b) := if_pos h

/-- The computation reads only the first `size` bytes of its image, no more than its budget, and
ends in a wanted result or an error that is allowed. -/
structure Bounded (size budget : ℕ) (fails : ε → Prop) (post : α → Prop) (x : Traced ε α) :
    Prop where
  inside : ∀ range ∈ x.reads, range.1 + range.2 ≤ size
  bytes_le : x.bytes ≤ budget
  ensures : Ensures (fun fault => ∃ error, fault = .error error ∧ fails error) post x.outcome

section Bounded

variable {size budget : ℕ} {fails : ε → Prop} {post mid : α → Prop} {x : Traced ε α}

theorem bounded_pure {a : α} (h : post a) : Bounded size budget fails post (pure a) :=
  ⟨nofun, Nat.zero_le _, h⟩

theorem bounded_fail {error : ε} (h : fails error) :
    Bounded size budget fails post (fail error : Traced ε α) :=
  ⟨nofun, Nat.zero_le _, error, rfl, h⟩

theorem bounded_read {image : List UInt8} {position count : ℕ} {error : ε}
    {post : List UInt8 → Prop} (hinside : position + count ≤ size) (hbudget : count ≤ budget)
    (hfails : slice image position (position + count) = none → fails error)
    (hpost : ∀ bytes, slice image position (position + count) = some bytes → post bytes) :
    Bounded size budget fails post (read image position count error) := by
  refine ⟨?_, ?_, ?_⟩
  · intro range hrange
    obtain rfl := List.mem_singleton.mp hrange
    exact hinside
  · simpa [bytes, read] using hbudget
  · cases hslice : slice image position (position + count) with
    | none =>
      simp only [read, hslice]
      exact ⟨error, rfl, hfails hslice⟩
    | some bytes =>
      simp only [read, hslice]
      exact hpost bytes hslice

theorem Bounded.bind {post : β → Prop} {next : α → Traced ε β} (first second : ℕ)
    (hx : Bounded size first fails mid x)
    (hnext : ∀ a, mid a → Bounded size second fails post (next a)) :
    Bounded size (first + second) fails post (x >>= next) := by
  have hensures := hx.ensures
  change Bounded size (first + second) fails post (Traced.bind x next)
  unfold Traced.bind
  cases hend : x.outcome with
  | error fault =>
    rw [hend] at hensures
    exact ⟨hx.inside, hx.bytes_le.trans (Nat.le_add_right _ _), hensures⟩
  | ok a =>
    rw [hend] at hensures
    have hrest := hnext a hensures
    refine ⟨?_, ?_, hrest.ensures⟩
    · intro range hrange
      exact (List.mem_append.mp hrange).elim (hx.inside range) (hrest.inside range)
    · have hfirst := hx.bytes_le
      have hsecond := hrest.bytes_le
      simp only [bytes, List.map_append, List.sum_append] at hfirst hsecond ⊢
      omega

theorem Bounded.mono {wider : ℕ} {other : ε → Prop} {weaker : α → Prop}
    (hx : Bounded size budget fails post x) (hbudget : budget ≤ wider)
    (hfails : ∀ error, fails error → other error) (hpost : ∀ a, post a → weaker a) :
    Bounded size wider other weaker x := by
  refine ⟨hx.inside, hx.bytes_le.trans hbudget, ?_⟩
  have hensures := hx.ensures
  cases hend : x.outcome with
  | error fault =>
    rw [hend] at hensures
    obtain ⟨error, hfault, herror⟩ := hensures
    exact ⟨error, hfault, hfails error herror⟩
  | ok a =>
    rw [hend] at hensures
    exact hpost a hensures

/-- An attempt ends with what succeeds of the computation and does not fail. -/
theorem Bounded.attempt {other : ε' → Prop} (hx : Bounded size budget fails post x) :
    Bounded size budget other (fun found => found = x.outcome.toOption) x.attempt := by
  refine ⟨hx.inside, hx.bytes_le, ?_⟩
  have hensures := hx.ensures
  unfold Traced.attempt
  cases hend : x.outcome with
  | error fault =>
    rw [hend] at hensures
    obtain ⟨error, rfl, -⟩ := hensures
    rfl
  | ok a => rfl

/-- A loop over some items keeps what each of its steps keeps. -/
theorem bounded_foldlM {γ : Type} {each : ℕ} (inv : List γ → α → Prop)
    {step : α → γ → Traced ε α} {items : List γ}
    (hstep : ∀ done item rest a, done ++ item :: rest = items → inv done a →
      Bounded size each fails (inv (done ++ [item])) (step a item))
    (done rest : List γ) (hitems : done ++ rest = items) {a : α} (ha : inv done a) :
    Bounded size (rest.length * each) fails (inv items) (rest.foldlM step a) := by
  induction rest generalizing done a with
  | nil =>
    rw [List.append_nil] at hitems
    exact bounded_pure (hitems ▸ ha)
  | cons item rest ih =>
    rw [List.foldlM_cons, List.length_cons, Nat.succ_mul, Nat.add_comm]
    refine Bounded.bind each _ (hstep done item rest a hitems ha) fun b hb => ?_
    exact ih (done ++ [item]) (by simpa using hitems) hb

theorem Bounded.post_of_ok (hx : Bounded size budget fails post x) {a : α}
    (h : x.outcome = .ok a) : post a := by
  have hensures := hx.ensures
  rwa [h] at hensures

/-- What is known of the result may include that it is the result. -/
theorem Bounded.and_outcome (hx : Bounded size budget fails post x) :
    Bounded size budget fails (fun a => post a ∧ x.outcome = .ok a) x := by
  refine ⟨hx.inside, hx.bytes_le, ?_⟩
  have hensures := hx.ensures
  cases hend : x.outcome with
  | error fault =>
    rw [hend] at hensures
    exact hensures
  | ok a =>
    rw [hend] at hensures
    exact ⟨hensures, rfl⟩

/-- A bounded computation does not panic. -/
theorem Bounded.ne_panic (hx : Bounded size budget fails post x) :
    x.outcome ≠ .error .panic := by
  intro hpanic
  have hensures := hx.ensures
  rw [hpanic] at hensures
  obtain ⟨error, hfault, -⟩ := hensures
  cases hfault

end Bounded

/-- The computation ends exactly as `y` does and is bounded. -/
def Meets (size budget : ℕ) (x : Traced ε α) (y : Except ε α) : Prop :=
  Bounded size budget (fun error => y = .error error) (fun a => y = .ok a) x

section Meets

variable {size budget : ℕ} {x : Traced ε α} {y : Except ε α}

theorem meets_pure (a : α) : Meets size budget (pure a : Traced ε α) (.ok a) := bounded_pure rfl

theorem meets_fail (error : ε) : Meets size budget (fail error : Traced ε α) (.error error) :=
  bounded_fail rfl

theorem Meets.bind {next : α → Traced ε β} {rest : α → Except ε β} (first second : ℕ)
    (hx : Meets size first x y)
    (hnext : ∀ a, y = .ok a → Meets size second (next a) (rest a)) :
    Meets size (first + second) (x >>= next) (y >>= rest) := by
  cases y with
  | error error =>
    refine Bounded.bind first second (hx.mono le_rfl ?_ nofun) fun _ => False.elim
    exact fun _ herror => congrArg Except.error (Except.error.inj herror)
  | ok a =>
    refine Bounded.bind first second (hx.mono le_rfl nofun fun b hb => hb) ?_
    rintro b ⟨⟩
    exact hnext a rfl

theorem Meets.mono {wider : ℕ} (hx : Meets size budget x y) (hbudget : budget ≤ wider) :
    Meets size wider x y :=
  Bounded.mono hx hbudget (fun _ h => h) fun _ h => h

theorem meets_ite {c : Prop} [Decidable c] {x' : Traced ε α} {y' : Except ε α}
    (hpos : c → Meets size budget x y) (hneg : ¬c → Meets size budget x' y') :
    Meets size budget (if c then x else x') (if c then y else y') := by
  by_cases hc : c
  · rw [if_pos hc, if_pos hc]
    exact hpos hc
  · rw [if_neg hc, if_neg hc]
    exact hneg hc

/-- What it returns is what the other computation returns, its errors included. -/
theorem Meets.outcome_eq_ok (hx : Meets size budget x y) {a : α} :
    x.outcome = .ok a ↔ y = .ok a := by
  have hensures := hx.ensures
  cases hend : x.outcome with
  | error fault =>
    rw [hend] at hensures
    obtain ⟨error, -, rfl⟩ := hensures
    simp
  | ok b =>
    rw [hend] at hensures
    obtain rfl : y = .ok b := hensures
    simp

end Meets

end Traced

end Crabinet.Library
