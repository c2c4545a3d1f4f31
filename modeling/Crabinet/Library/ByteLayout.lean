import Mathlib.Data.List.Basic
import Mathlib.Data.Nat.Basic
import Mathlib.Tactic.Ring

/-!
# Little-endian fields and located segments

A byte image is a list of bytes. `Located image start segment` says that `segment`
occupies the bytes from `start`; it splits over concatenation, so a record written as a
concatenation of fields can be read back one field at a time. Readers return `none`
where a slice would leave the image.
-/

namespace Crabinet.Library

/-- The low `n` bytes of `value`, least significant first. -/
def leBytes : ℕ → ℕ → List UInt8
  | 0, _ => []
  | n + 1, value => UInt8.ofNat value :: leBytes n (value / 256)

/-- The number a little-endian byte string denotes. -/
def leValue : List UInt8 → ℕ
  | [] => 0
  | byte :: rest => byte.toNat + 256 * leValue rest

/-- The bytes `start .. stop` of an image, or `none` outside it. -/
def slice (image : List UInt8) (start stop : ℕ) : Option (List UInt8) :=
  if start ≤ stop ∧ stop ≤ image.length then some ((image.drop start).take (stop - start)) else none

/-- The `n`-byte little-endian field at `start`. -/
def leAt (n : ℕ) (image : List UInt8) (start : ℕ) : Option ℕ :=
  (slice image start (start + n)).map leValue

/-- `segment` occupies the bytes of `image` from `start`. -/
def Located (image : List UInt8) (start : ℕ) (segment : List UInt8) : Prop :=
  ∃ before after, image = before ++ (segment ++ after) ∧ before.length = start

@[simp] theorem leBytes_length (n value : ℕ) : (leBytes n value).length = n := by
  induction n generalizing value with
  | zero => rfl
  | succ n ih => simp [leBytes, ih]

/-- Reading back a written field loses exactly the bits above its width. -/
theorem leValue_leBytes (n value : ℕ) : leValue (leBytes n value) = value % 256 ^ n := by
  induction n generalizing value with
  | zero => simp [leBytes, leValue, Nat.mod_one]
  | succ n ih =>
    rw [leBytes, leValue, ih, pow_succ', Nat.mod_mul]
    simp

/-- A field wide enough for its value is read back exactly. -/
theorem leValue_leBytes_of_lt {n value : ℕ} (h : value < 256 ^ n) :
    leValue (leBytes n value) = value := by
  rw [leValue_leBytes, Nat.mod_eq_of_lt h]

/-- A concatenation is located exactly when its parts are, one after the other. -/
theorem located_append {image : List UInt8} {start : ℕ} {first second : List UInt8} :
    Located image start (first ++ second) ↔
      Located image start first ∧ Located image (start + first.length) second := by
  constructor
  · rintro ⟨before, after, rfl, rfl⟩
    exact ⟨⟨before, second ++ after, by simp, rfl⟩,
      ⟨before ++ first, after, by simp, by simp⟩⟩
  · rintro ⟨⟨before, after, himage, hbefore⟩, ⟨before', after', himage', hbefore'⟩⟩
    have hsplit : (before ++ first) ++ after = before' ++ (second ++ after') := by
      rw [← himage', himage, List.append_assoc]
    have hlen : (before ++ first).length = before'.length := by simp [hbefore, hbefore']
    obtain ⟨-, hafter⟩ := List.append_inj hsplit hlen
    exact ⟨before, after', by rw [himage, hafter]; simp, hbefore⟩

/-- The whole image is located at its start. -/
theorem located_self (image : List UInt8) : Located image 0 image :=
  ⟨[], [], by simp, rfl⟩

/-- A located segment ends inside the image. -/
theorem Located.le_length {image segment : List UInt8} {start : ℕ}
    (h : Located image start segment) : start + segment.length ≤ image.length := by
  obtain ⟨before, after, rfl, rfl⟩ := h
  simp

/-- Slicing at a located segment returns it. -/
theorem Located.slice_eq {image segment : List UInt8} {start : ℕ}
    (h : Located image start segment) :
    slice image start (start + segment.length) = some segment := by
  obtain ⟨before, after, rfl, rfl⟩ := h
  simp [slice]

/-- Reading at a located field returns its value, when the field is wide enough. -/
theorem Located.leAt_eq {image : List UInt8} {start n value : ℕ}
    (h : Located image start (leBytes n value)) (hvalue : value < 256 ^ n) :
    leAt n image start = some value := by
  have hslice := h.slice_eq
  rw [leBytes_length] at hslice
  rw [leAt, hslice, Option.map_some, leValue_leBytes_of_lt hvalue]

end Crabinet.Library
