import Crabinet.Library.Traced

/-!
# Walks over the parts of a slice

A parser of a byte slice returns a value, nothing, or panics. A walk also leaves the parts of its
slice that it has taken. It is orderly when they lie in the slice one behind the other, none over
another, and it does not panic.
-/

namespace Crabinet.Library

variable {α β ε : Type}

/-- The result of a parser: a value, nothing, or a panic. -/
abbrev Parsed (α : Type) := Except (Fault Unit) α

namespace Parsed

/-- The parser returns nothing. -/
def absent : Parsed α := .error (.error ())

def panicked : Parsed α := .error .panic

/-- The value of an option, if it has one. -/
def present : Option α → Parsed α
  | some a => .ok a
  | none => absent

/-- `checked_add` of the machine word. -/
def checkedAdd (a b : ℕ) : Parsed ℕ := if a + b < 2 ^ 64 then .ok (a + b) else absent

/-- A sum of machine words that is not checked. -/
def add (a b : ℕ) : Parsed ℕ := if a + b < 2 ^ 64 then .ok (a + b) else panicked

/-- One shifted to the left in 64 bits. -/
def shiftOne (count : ℕ) : Parsed ℕ := if count < 64 then .ok (2 ^ count) else panicked

/-- Go on without the value. -/
def attempt : Parsed α → Parsed (Option α)
  | .ok a => .ok (some a)
  | .error (.error ()) => .ok none
  | .error .panic => panicked

/-- The parser does not panic, and what it returns meets a postcondition. -/
def Safe (P : α → Prop) (x : Parsed α) : Prop := Ensures (fun fault => fault ≠ .panic) P x

section Safe

variable {P weaker : α → Prop} {next : β → Prop} {x : Parsed α} {f : α → Parsed β} {a b : ℕ}

theorem safe_ok {value : α} (h : P value) : Safe P (.ok value) := h

theorem safe_absent : Safe P absent := nofun

theorem safe_present {option : Option α} (h : ∀ value, option = some value → P value) :
    Safe P (present option) := by
  cases option with
  | none => exact safe_absent
  | some value => exact h value rfl

theorem safe_present_trivial (option : Option α) : Safe (fun _ => True) (present option) :=
  safe_present fun _ _ => trivial

theorem safe_checkedAdd {P : ℕ → Prop} (h : a + b < 2 ^ 64 → P (a + b)) :
    Safe P (checkedAdd a b) := by
  unfold checkedAdd
  split_ifs with hlt
  · exact h hlt
  · exact safe_absent

theorem add_eq (h : a + b < 2 ^ 64) : add a b = .ok (a + b) := if_pos h

theorem Safe.bind (hx : Safe P x) (hf : ∀ a, P a → Safe next (f a)) : Safe next (x >>= f) :=
  Ensures.bind hx hf

theorem Safe.mono (hx : Safe P x) (h : ∀ a, P a → weaker a) : Safe weaker x :=
  Ensures.mono hx h

theorem Safe.attempt (hx : Safe P x) : Safe (fun found => ∀ a ∈ found, P a) x.attempt := by
  match x with
  | .ok value =>
    rintro a ⟨⟩
    exact hx
  | .error (.error ()) => exact fun a ha => nomatch ha
  | .error .panic => exact absurd rfl hx

theorem Safe.ne_panic (hx : Safe P x) : x ≠ .error .panic := by
  rintro rfl
  exact hx rfl

theorem Safe.post_of_ok (hx : Safe P x) {value : α} (h : x = .ok value) : P value := by
  rw [h] at hx
  exact hx

/-- What is known of the result may include that it is the result. -/
theorem Safe.and_eq (hx : Safe P x) : Safe (fun a => P a ∧ x = .ok a) x := by
  cases x with
  | ok value => exact ⟨hx, rfl⟩
  | error fault => exact hx

end Safe

end Parsed

theorem length_of_slice {image segment : List UInt8} {start stop : ℕ}
    (h : slice image start stop = some segment) :
    start ≤ stop ∧ stop ≤ image.length ∧ segment.length = stop - start := by
  unfold slice at h
  split_ifs at h with hle
  obtain rfl := Option.some.inj h
  rw [List.length_take, List.length_drop]
  omega

namespace Traced

/-- A parser as a walk that takes nothing of the slice at hand. -/
def of (x : Except (Fault ε) α) : Traced ε α := ⟨[], x⟩

/-- The part of a slice between two indices, which is taken if it lies in the slice. -/
def get (bytes : List UInt8) (start stop : ℕ) : Traced ε (Option (List UInt8)) :=
  match slice bytes start stop with
  | some part => ⟨[(start, stop - start)], .ok (some part)⟩
  | none => ⟨[], .ok none⟩

/-- The parts that were taken lie between two indices, one behind the other, and there is no
panic. -/
structure Orderly (start stop : ℕ) (P : α → Prop) (x : Traced ε α) : Prop where
  inside : ∀ part ∈ x.reads, start ≤ part.1 ∧ part.1 + part.2 ≤ stop
  disjoint : x.reads.Pairwise fun first second => first.1 + first.2 ≤ second.1
  ensures : Ensures (fun fault => fault ≠ .panic) P x.outcome

section Orderly

variable {start middle stop : ℕ} {P : β → Prop} {M : α → Prop} {x : Traced ε α}
  {next : α → Traced ε β} {bytes : List UInt8}

theorem orderly_of {x : Except (Fault ε) β} (h : Ensures (fun fault => fault ≠ .panic) P x) :
    Orderly start stop P (of x) :=
  ⟨nofun, List.Pairwise.nil, h⟩

/-- A fault of a parser that does not panic. -/
theorem orderly_of_fault {γ : Type} {known : γ → Prop} {x : Except (Fault ε) γ} {fault : Fault ε}
    (hx : Ensures (fun fault => fault ≠ .panic) known x) (h : x = .error fault) :
    Orderly start stop P (of (.error fault) : Traced ε β) := by
  rw [h] at hx
  exact orderly_of (x := .error fault) hx

theorem orderly_pure {value : β} (h : P value) :
    Orderly start stop P (pure value : Traced ε β) :=
  orderly_of h

theorem Orderly.bind (hx : Orderly start middle M x) (hstart : start ≤ middle)
    (hstop : middle ≤ stop) (hnext : ∀ a, M a → Orderly middle stop P (next a)) :
    Orderly start stop P (x >>= next) := by
  have hensures := hx.ensures
  change Orderly start stop P (Traced.bind x next)
  unfold Traced.bind
  cases hend : x.outcome with
  | error fault =>
    rw [hend] at hensures
    exact ⟨fun part hpart => ⟨(hx.inside part hpart).1, (hx.inside part hpart).2.trans hstop⟩,
      hx.disjoint, hensures⟩
  | ok a =>
    rw [hend] at hensures
    have hrest := hnext a hensures
    refine ⟨?_, ?_, hrest.ensures⟩
    · intro part hpart
      rcases List.mem_append.mp hpart with hpart | hpart
      · exact ⟨(hx.inside part hpart).1, (hx.inside part hpart).2.trans hstop⟩
      · exact ⟨hstart.trans (hrest.inside part hpart).1, (hrest.inside part hpart).2⟩
    · refine List.pairwise_append.mpr ⟨hx.disjoint, hrest.disjoint, ?_⟩
      intro first hfirst second hsecond
      exact (hx.inside first hfirst).2.trans (hrest.inside second hsecond).1

/-- After a parser, which takes nothing. -/
theorem Orderly.bind_of {x : Except (Fault ε) α} (hx : Ensures (fun fault => fault ≠ .panic) M x)
    (hnext : ∀ a, M a → Orderly start stop P (next a)) :
    Orderly start stop P (of x >>= next) := by
  cases x with
  | error fault => exact orderly_of (x := .error fault) hx
  | ok a => exact hnext a hx

/-- A part that is taken lies before what is taken after it. -/
theorem Orderly.bind_get {first last : ℕ} {next : Option (List UInt8) → Traced ε β}
    (hstart : start ≤ first)
    (htaken : ∀ part, slice bytes first last = some part →
      last ≤ stop ∧ Orderly last stop P (next (some part)))
    (hcut : slice bytes first last = none → Orderly start stop P (next none)) :
    Orderly start stop P (get bytes first last >>= next) := by
  unfold get
  cases hslice : slice bytes first last with
  | none => exact hcut hslice
  | some part =>
    obtain ⟨hstop, hnext⟩ := htaken part hslice
    obtain ⟨hle, -, -⟩ := length_of_slice hslice
    refine Orderly.bind (M := fun found => found = some part) ⟨?_, List.pairwise_singleton _ _, rfl⟩
      (hstart.trans hle) hstop ?_
    · intro range hrange
      obtain rfl := List.mem_singleton.mp hrange
      exact ⟨hstart, by dsimp only; omega⟩
    · rintro found rfl
      exact hnext

theorem Orderly.mono {wider : ℕ} {weaker : β → Prop} {x : Traced ε β}
    (hx : Orderly start stop P x) (hwider : wider ≤ start) (h : ∀ b, P b → weaker b) :
    Orderly wider stop weaker x :=
  ⟨fun part hpart => ⟨hwider.trans (hx.inside part hpart).1, (hx.inside part hpart).2⟩,
    hx.disjoint, hx.ensures.mono h⟩

end Orderly

end Traced

end Crabinet.Library
