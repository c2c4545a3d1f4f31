import Crabinet.Library.ByteLayout

/-!
# Length-prefixed fields

Big-endian numbers, and byte strings with their length in front. A framed string at the
start of a message can be told from what follows it.
-/

namespace Crabinet.Library

/-- The low `n` bytes of `value`, most significant first. -/
def beBytes (n value : ℕ) : List UInt8 := (leBytes n value).reverse

/-- The number a big-endian byte string denotes. -/
def beValue (bytes : List UInt8) : ℕ := leValue bytes.reverse

/-- A byte string behind its length. -/
def framed (value : List UInt8) : List UInt8 := beBytes 8 value.length ++ value

variable {first second rest rest' : List UInt8}

@[simp] theorem beBytes_length (n value : ℕ) : (beBytes n value).length = n := by
  simp [beBytes]

theorem beValue_beBytes_of_lt {n value : ℕ} (h : value < 256 ^ n) :
    beValue (beBytes n value) = value := by
  rw [beValue, beBytes, List.reverse_reverse, leValue_leBytes_of_lt h]

theorem beBytes_inj {n value other : ℕ} (hvalue : value < 256 ^ n) (hother : other < 256 ^ n) :
    beBytes n value = beBytes n other ↔ value = other := by
  refine ⟨fun h => ?_, fun h => by rw [h]⟩
  rw [← beValue_beBytes_of_lt hvalue, h, beValue_beBytes_of_lt hother]

theorem leValue_lt (bytes : List UInt8) : leValue bytes < 256 ^ bytes.length := by
  induction bytes with
  | nil => exact Nat.one_pos
  | cons byte rest ih =>
    have hbyte := byte.toNat_lt
    rw [leValue, List.length_cons, pow_succ']
    omega

theorem leBytes_leValue (bytes : List UInt8) : leBytes bytes.length (leValue bytes) = bytes := by
  induction bytes with
  | nil => rfl
  | cons byte rest ih =>
    have hbyte := byte.toNat_lt
    have hdiv : (byte.toNat + 256 * leValue rest) / 256 = leValue rest := by omega
    have hmod : UInt8.ofNat (byte.toNat + 256 * leValue rest) = byte := by
      refine UInt8.toNat_inj.mp ?_
      rw [UInt8.toNat_ofNat']
      omega
    rw [List.length_cons, leBytes, leValue, hdiv, ih, hmod]

/-- Reading a field and writing it again gives its bytes. -/
theorem beBytes_beValue (bytes : List UInt8) : beBytes bytes.length (beValue bytes) = bytes := by
  have hlength : bytes.length = bytes.reverse.length := List.length_reverse.symm
  rw [beBytes, beValue, hlength, leBytes_leValue, List.reverse_reverse]

theorem beValue_lt (bytes : List UInt8) : beValue bytes < 256 ^ bytes.length := by
  simpa [beValue] using leValue_lt bytes.reverse

theorem length_framed (value : List UInt8) : (framed value).length = 8 + value.length := by
  simp [framed]

/-- The first framed string of a message, and what follows it, are determined by the message. -/
theorem framed_append_inj (hfirst : first.length < 256 ^ 8) (hsecond : second.length < 256 ^ 8) :
    framed first ++ rest = framed second ++ rest' ↔ first = second ∧ rest = rest' := by
  constructor
  · intro h
    rw [framed, framed, List.append_assoc, List.append_assoc] at h
    obtain ⟨hlength, htail⟩ := List.append_inj h (by simp)
    exact List.append_inj htail ((beBytes_inj hfirst hsecond).mp hlength)
  · rintro ⟨rfl, rfl⟩
    rfl

/-- Where a separator is in neither first part, a message determines what is before and after it. -/
theorem append_separator_inj {separator : UInt8} (hfirst : separator ∉ first)
    (hsecond : separator ∉ second) :
    first ++ separator :: rest = second ++ separator :: rest' ↔ first = second ∧ rest = rest' := by
  constructor
  · intro h
    induction first generalizing second with
    | nil =>
      cases second with
      | nil => exact ⟨rfl, (List.cons.inj h).2⟩
      | cons byte second => exact absurd ((List.cons.inj h).1 ▸ List.mem_cons_self) hsecond
    | cons byte first ih =>
      cases second with
      | nil => exact absurd ((List.cons.inj h).1 ▸ List.mem_cons_self) hfirst
      | cons other second =>
        obtain ⟨rfl, htail⟩ := List.cons.inj h
        obtain ⟨rfl, hrest⟩ := ih (fun hmem => hfirst (List.mem_cons_of_mem _ hmem))
          (fun hmem => hsecond (List.mem_cons_of_mem _ hmem)) htail
        exact ⟨rfl, hrest⟩
  · rintro ⟨rfl, rfl⟩
    rfl

end Crabinet.Library
