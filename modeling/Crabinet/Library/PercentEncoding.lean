import Crabinet.Library.Text
import Mathlib.Data.List.Basic

/-!
# Percent-encoding

A text is encoded byte by byte, but for the characters that are kept. What is decoded are the
bytes; a percent sign that starts no escape stands for itself. Where percent signs are kept, an
encoding leaves the escapes of a text as they are, and is decoded to the same bytes.
-/

namespace Crabinet.Library

namespace PercentEncoding

/-- An upper-case hexadecimal digit. -/
def upperHexDigit (value : ℕ) : Char := Char.ofNat (if value < 10 then 48 + value else 55 + value)

/-- The value of a hexadecimal digit of either case. -/
def hexValue (c : Char) : Option ℕ :=
  if '0' ≤ c ∧ c ≤ '9' then some (c.toNat - 48)
  else if 'A' ≤ c ∧ c ≤ 'F' then some (c.toNat - 55)
  else if 'a' ≤ c ∧ c ≤ 'f' then some (c.toNat - 87)
  else none

/-- A byte as an escape. -/
def escape (byte : UInt8) : List Char :=
  ['%', upperHexDigit (byte.toNat / 16), upperHexDigit (byte.toNat % 16)]

/-- A character, escaped unless it is kept. -/
def encodeChar (keep : Char → Bool) (c : Char) : List Char :=
  if keep c then [c] else (String.utf8EncodeChar c).flatMap escape

/-- A text with the other characters escaped. -/
def encode (keep : Char → Bool) (text : List Char) : List Char := text.flatMap (encodeChar keep)

/-- The bytes of a text with escapes. -/
def decode : List Char → List UInt8
  | [] => []
  | c :: rest =>
    if c = '%' then
      match rest with
      | first :: second :: after =>
        match hexValue first, hexValue second with
        | some high, some low => UInt8.ofNat (high * 16 + low) :: decode after
        | _, _ => 37 :: decode (first :: second :: after)
      | [last] => 37 :: decode [last]
      | [] => [37]
    else String.utf8EncodeChar c ++ decode rest

/-- Whether every percent sign starts an escape. -/
def isWellFormed : List Char → Bool
  | [] => true
  | c :: rest =>
    if c = '%' then
      match rest with
      | first :: second :: after =>
        (hexValue first).isSome && (hexValue second).isSome && isWellFormed after
      | _ => false
    else isWellFormed rest

variable {keep : Char → Bool} {text other : List Char} {c : Char}

theorem hexValue_upperHexDigit {value : ℕ} (h : value < 16) :
    hexValue (upperHexDigit value) = some value := by
  have hall : ∀ value : Fin 16, hexValue (upperHexDigit value) = some value.val := by decide
  exact hall ⟨value, h⟩

/-! ### One character at a time -/

theorem decode_cons_of_ne (h : c ≠ '%') (rest : List Char) :
    decode (c :: rest) = String.utf8EncodeChar c ++ decode rest := by
  rw [decode.eq_def]
  exact if_neg h

theorem isWellFormed_cons_of_ne (h : c ≠ '%') (rest : List Char) :
    isWellFormed (c :: rest) = isWellFormed rest := by
  rw [isWellFormed.eq_def]
  exact if_neg h

/-- A percent sign that is well-formed starts an escape. -/
theorem isWellFormed_percent {rest : List Char} :
    isWellFormed ('%' :: rest) = true ↔ ∃ first second after high low,
      rest = first :: second :: after ∧ hexValue first = some high ∧ hexValue second = some low ∧
        isWellFormed after = true := by
  rw [isWellFormed.eq_def]
  dsimp only
  rw [if_pos rfl]
  constructor
  · intro h
    split at h
    · rename_i first second after
      rw [Bool.and_eq_true, Bool.and_eq_true, Option.isSome_iff_exists, Option.isSome_iff_exists] at h
      obtain ⟨⟨⟨high, hhigh⟩, ⟨low, hlow⟩⟩, hafter⟩ := h
      exact ⟨first, second, after, high, low, rfl, hhigh, hlow, hafter⟩
    · cases h
  · rintro ⟨first, second, after, high, low, rfl, hhigh, hlow, hafter⟩
    dsimp only
    rw [hhigh, hlow, hafter]
    rfl

theorem decode_percent {first second : Char} {high low : ℕ} (hhigh : hexValue first = some high)
    (hlow : hexValue second = some low) (after : List Char) :
    decode ('%' :: first :: second :: after) = UInt8.ofNat (high * 16 + low) :: decode after := by
  rw [decode, if_pos rfl, hhigh, hlow]

/-- Induction along the escapes of a well-formed text. -/
theorem wellFormed_induction {motive : List Char → Prop} (hnil : motive [])
    (hplain : ∀ c rest, c ≠ '%' → isWellFormed rest = true → motive rest → motive (c :: rest))
    (hescape : ∀ first second after high low, hexValue first = some high →
      hexValue second = some low → isWellFormed after = true → motive after →
      motive ('%' :: first :: second :: after))
    (text : List Char) (h : isWellFormed text = true) : motive text := by
  obtain ⟨length, hlength⟩ : ∃ length, text.length ≤ length := ⟨_, le_rfl⟩
  induction length generalizing text with
  | zero =>
    rw [List.length_eq_zero_iff.mp (Nat.le_zero.mp hlength)]
    exact hnil
  | succ length ih =>
    cases text with
    | nil => exact hnil
    | cons c rest =>
      rw [List.length_cons] at hlength
      by_cases hc : c = '%'
      · subst hc
        obtain ⟨first, second, after, high, low, rfl, hhigh, hlow, hafter⟩ :=
          isWellFormed_percent.mp h
        rw [List.length_cons, List.length_cons] at hlength
        exact hescape _ _ _ _ _ hhigh hlow hafter (ih after hafter (by omega))
      · rw [isWellFormed_cons_of_ne hc] at h
        exact hplain c rest hc h (ih rest h (by omega))

/-- In a well-formed text every percent sign starts two digits. -/
theorem isWellFormed_iff : isWellFormed text = true ↔
    ∀ before after, text = before ++ '%' :: after → ∃ first second rest,
      after = first :: second :: rest ∧ (hexValue first).isSome = true ∧
        (hexValue second).isSome = true := by
  constructor
  · refine wellFormed_induction (motive := fun text => ∀ before after, text = before ++ '%' :: after →
      ∃ first second rest, after = first :: second :: rest ∧ (hexValue first).isSome = true ∧
        (hexValue second).isSome = true) (fun before after h => ?_)
      (fun c rest hc _ ih before after h => ?_)
      (fun first second rest high low hhigh hlow _ ih before after h => ?_) text
    · exact absurd h.symm (List.append_ne_nil_of_right_ne_nil _ (List.cons_ne_nil _ _))
    · cases before with
      | nil => exact absurd (List.cons.inj h).1 hc
      | cons other before => exact ih before after (List.cons.inj h).2
    · have hdigit : hexValue '%' = none := rfl
      rcases before with _ | ⟨other, _ | ⟨third, _ | ⟨fourth, before⟩⟩⟩
      · exact ⟨first, second, rest, (List.cons.inj h).2.symm, Option.isSome_of_eq_some hhigh,
          Option.isSome_of_eq_some hlow⟩
      · rw [(List.cons.inj (List.cons.inj h).2).1, hdigit] at hhigh
        cases hhigh
      · rw [(List.cons.inj (List.cons.inj (List.cons.inj h).2).2).1, hdigit] at hlow
        cases hlow
      · exact ih before after (List.cons.inj (List.cons.inj (List.cons.inj h).2).2).2
  · intro h
    obtain ⟨length, hlength⟩ : ∃ length, text.length ≤ length := ⟨_, le_rfl⟩
    induction length generalizing text with
    | zero =>
      rw [List.length_eq_zero_iff.mp (Nat.le_zero.mp hlength)]
      rfl
    | succ length ih =>
      cases text with
      | nil => rfl
      | cons c rest =>
        rw [List.length_cons] at hlength
        by_cases hc : c = '%'
        · subst hc
          obtain ⟨first, second, after, rfl, hfirst, hsecond⟩ := h [] rest rfl
          obtain ⟨high, hhigh⟩ := Option.isSome_iff_exists.mp hfirst
          obtain ⟨low, hlow⟩ := Option.isSome_iff_exists.mp hsecond
          rw [List.length_cons, List.length_cons] at hlength
          refine isWellFormed_percent.mpr ⟨first, second, after, high, low, rfl, hhigh, hlow,
            ih (fun before rest hafter => ?_) (by omega)⟩
          exact h ('%' :: first :: second :: before) rest (by rw [hafter]; rfl)
        · rw [isWellFormed_cons_of_ne hc]
          exact ih (fun before after hrest => h (c :: before) after (by rw [hrest]; rfl)) (by omega)

/-! ### Parts -/

theorem decode_append (h : isWellFormed text = true) (other : List Char) :
    decode (text ++ other) = decode text ++ decode other := by
  refine wellFormed_induction (motive := fun text => decode (text ++ other) = decode text ++ decode other)
    rfl (fun c rest hc _ ih => ?_) (fun first second after high low hhigh hlow _ ih => ?_) text h
  · rw [List.cons_append, decode_cons_of_ne hc, ih, decode_cons_of_ne hc, List.append_assoc]
  · rw [List.cons_append, List.cons_append, List.cons_append, decode_percent hhigh hlow, ih,
      decode_percent hhigh hlow, List.cons_append]

/-- A separator that is no digit ends the well-formed text before it. -/
theorem isWellFormed_of_append {separator : Char} (hdigit : hexValue separator = none)
    {rest : List Char}
    (h : isWellFormed (text ++ separator :: rest) = true) :
    isWellFormed text = true ∧ isWellFormed rest = true := by
  rw [isWellFormed_iff] at h
  constructor
  · refine isWellFormed_iff.mpr fun before after htext => ?_
    obtain ⟨first, second, tail, htail, hfirst, hsecond⟩ :=
      h before (after ++ separator :: rest) (by rw [htext, List.append_assoc, List.cons_append])
    rcases after with _ | ⟨first', _ | ⟨second', after⟩⟩
    · rw [← (List.cons.inj htail).1, hdigit] at hfirst
      cases hfirst
    · rw [← (List.cons.inj (List.cons.inj htail).2).1, hdigit] at hsecond
      cases hsecond
    · rw [← (List.cons.inj htail).1] at hfirst
      rw [← (List.cons.inj (List.cons.inj htail).2).1] at hsecond
      exact ⟨first', second', after, rfl, hfirst, hsecond⟩
  · refine isWellFormed_iff.mpr fun before after hrest => ?_
    exact h (text ++ separator :: before) after (by rw [hrest, List.append_assoc]; rfl)

/-! ### Encoding -/

/-- Escapes are read as their bytes. -/
theorem decode_flatMap_escape (bytes : List UInt8) (rest : List Char) :
    decode (bytes.flatMap escape ++ rest) = bytes ++ decode rest ∧
      isWellFormed (bytes.flatMap escape ++ rest) = isWellFormed rest := by
  induction bytes with
  | nil => exact ⟨rfl, rfl⟩
  | cons byte bytes ih =>
    obtain ⟨hdecode, hwellFormed⟩ := ih
    have hbyte := byte.toNat_lt
    have hvalue : byte.toNat / 16 * 16 + byte.toNat % 16 = byte.toNat := by omega
    have hhigh : hexValue (upperHexDigit (byte.toNat / 16)) = some (byte.toNat / 16) :=
      hexValue_upperHexDigit (by omega)
    have hlow : hexValue (upperHexDigit (byte.toNat % 16)) = some (byte.toNat % 16) :=
      hexValue_upperHexDigit (by omega)
    rw [List.flatMap_cons, List.append_assoc, escape, List.cons_append, List.cons_append,
      List.cons_append, List.nil_append]
    constructor
    · rw [decode_percent hhigh hlow, hdecode, hvalue, UInt8.ofNat_toNat, List.cons_append]
    · rw [isWellFormed.eq_def]
      dsimp only
      rw [if_pos rfl, hhigh, hlow, hwellFormed]
      rfl

/-- An encoding that keeps percent signs and digits leaves the escapes of a text. -/
theorem decode_encode (hpercent : keep '%' = true)
    (hdigit : ∀ c, (hexValue c).isSome = true → keep c = true) (h : isWellFormed text = true) :
    decode (encode keep text) = decode text ∧ isWellFormed (encode keep text) = true := by
  refine wellFormed_induction (motive := fun text => decode (encode keep text) = decode text ∧
    isWellFormed (encode keep text) = true) ⟨rfl, rfl⟩ (fun c rest hc _ ih => ?_)
    (fun first second after high low hhigh hlow _ ih => ?_) text h
  · obtain ⟨hdecode, hwellFormed⟩ := ih
    rw [encode, List.flatMap_cons, ← encode, encodeChar, decode_cons_of_ne hc]
    split
    · rw [List.singleton_append, decode_cons_of_ne hc, hdecode, isWellFormed_cons_of_ne hc]
      exact ⟨rfl, hwellFormed⟩
    · rw [(decode_flatMap_escape _ _).1, (decode_flatMap_escape _ _).2, hdecode]
      exact ⟨rfl, hwellFormed⟩
  · obtain ⟨hdecode, hwellFormed⟩ := ih
    have hkept (c : Char) (hc : keep c = true) (rest : List Char) :
        encode keep (c :: rest) = c :: encode keep rest := by
      rw [encode, List.flatMap_cons, ← encode, encodeChar, if_pos hc, List.singleton_append]
    rw [hkept '%' hpercent, hkept first (hdigit first (Option.isSome_of_eq_some hhigh)),
      hkept second (hdigit second (Option.isSome_of_eq_some hlow)), decode_percent hhigh hlow, hdecode,
      decode_percent hhigh hlow]
    exact ⟨rfl, isWellFormed_percent.mpr ⟨_, _, _, _, _, rfl, hhigh, hlow, hwellFormed⟩⟩

/-- An encoding that escapes percent signs is read as the bytes of the text. -/
theorem decode_encode_append (hpercent : keep '%' = false) (text rest : List Char) :
    decode (encode keep text ++ rest) = utf8Bytes text ++ decode rest ∧
      isWellFormed (encode keep text ++ rest) = isWellFormed rest := by
  induction text with
  | nil => exact ⟨rfl, rfl⟩
  | cons c text ih =>
    obtain ⟨hdecode, hwellFormed⟩ := ih
    rw [encode, List.flatMap_cons, ← encode, List.append_assoc, utf8Bytes, List.flatMap_cons, ← utf8Bytes,
      List.append_assoc, ← hdecode, encodeChar]
    split_ifs with hkeep
    · have hc : c ≠ '%' := fun heq => by
        rw [heq, hpercent] at hkeep
        cases hkeep
      rw [List.singleton_append, decode_cons_of_ne hc, isWellFormed_cons_of_ne hc]
      exact ⟨rfl, hwellFormed⟩
    · rw [(decode_flatMap_escape _ _).1, (decode_flatMap_escape _ _).2]
      exact ⟨rfl, hwellFormed⟩

/-- A text of kept characters is its own encoding. -/
theorem encode_eq_self (h : ∀ c ∈ text, keep c = true) : encode keep text = text := by
  induction text with
  | nil => rfl
  | cons c rest ih =>
    rw [encode, List.flatMap_cons, ← encode, ih fun other hother => h other (List.mem_cons_of_mem _ hother),
      encodeChar, if_pos (h c List.mem_cons_self), List.singleton_append]

/-- An encoding is made of kept characters, percent signs and digits. -/
theorem of_mem_encode {P : Char → Prop} (hkeep : ∀ c ∈ text, keep c = true → P c) (hpercent : P '%')
    (hdigit : ∀ value < 16, P (upperHexDigit value)) (h : c ∈ encode keep text) : P c := by
  obtain ⟨source, hsource, hc⟩ := List.mem_flatMap.mp h
  unfold encodeChar at hc
  split at hc
  · rename_i hkept
    exact List.mem_singleton.mp hc ▸ hkeep source hsource hkept
  · obtain ⟨byte, -, hc⟩ := List.mem_flatMap.mp hc
    have hbyte := byte.toNat_lt
    simp only [escape, List.mem_cons, List.not_mem_nil, or_false] at hc
    rcases hc with rfl | rfl | rfl
    · exact hpercent
    · exact hdigit _ (by omega)
    · exact hdigit _ (by omega)

end PercentEncoding

end Crabinet.Library
