import Crabinet.Library.ByteLayout
import Crabinet.Library.Checked
import Crabinet.Oidc.ReturnPath
import Crabinet.Oidc.WebUrl

/-!
# Return locations stay in the application

A location that is accepted resolves to the same origin, and neither the path nor the query of
the address it resolves to leads out of the application, as they are written or decoded.
-/

namespace Crabinet.Oidc

open Crabinet.Filesystem Crabinet.Library Crabinet.Library.PercentEncoding

variable {text decoded : List Char} {bytes rest : List UInt8} {c : Char} {byte : UInt8}

/-! ### The loop of `percent_decode` -/

/-- The loop of `percent_decode` from an index; an index that overflows is `none`. -/
def percentDecodeLoop (bytes : List UInt8) (index : ℕ) (decoded : List UInt8) :
    Option (Option (List UInt8)) :=
  match hbyte : bytes[index]? with
  | none => some (some decoded)
  | some byte =>
    if maxOfBits 64 < index + 3 then none
    else if byte = 37 then
      match slice bytes (index + 1) (index + 3) with
      | some [first, second] =>
        match hexDigitValue first, hexDigitValue second with
        | some high, some low =>
          percentDecodeLoop bytes (index + 3) (decoded ++ [UInt8.ofNat (high * 16 + low)])
        | _, _ => some none
      | _ => some none
    else percentDecodeLoop bytes (index + 1) (decoded ++ [byte])
termination_by bytes.length - index
decreasing_by
  all_goals
    have hlt := (List.getElem?_eq_some_iff.mp hbyte).1
    omega

theorem percentDecodeBytes_cons_ne (h : byte ≠ 37) : percentDecodeBytes (byte :: rest) =
    (percentDecodeBytes rest).map (byte :: ·) := by
  rw [percentDecodeBytes.eq_def]
  dsimp only
  rw [if_neg h]
  cases percentDecodeBytes rest <;> rfl

theorem percentDecodeBytes_escape {first second : UInt8} {high low : ℕ}
    (hhigh : hexDigitValue first = some high) (hlow : hexDigitValue second = some low) :
    percentDecodeBytes (37 :: first :: second :: rest) =
      (percentDecodeBytes rest).map (UInt8.ofNat (high * 16 + low) :: ·) := by
  rw [percentDecodeBytes, if_pos rfl, hhigh, hlow]
  change (percentDecodeBytes rest).bind _ = _
  cases percentDecodeBytes rest <;> rfl

/-- A percent sign that starts no two digits. -/
theorem percentDecodeBytes_eq_none (h : ∀ first second tail, rest = first :: second :: tail →
    hexDigitValue first = none ∨ hexDigitValue second = none) :
    percentDecodeBytes (37 :: rest) = none := by
  match rest with
  | [] => rfl
  | [_] => rfl
  | first :: second :: tail =>
    rw [percentDecodeBytes, if_pos rfl]
    rcases h first second tail rfl with hnone | hnone
    · rw [hnone]
      rfl
    · rw [hnone]
      cases hexDigitValue first <;> rfl

theorem drop_of_getElem? {index : ℕ} (h : bytes[index]? = some byte) :
    bytes.drop index = byte :: bytes.drop (index + 1) := by
  obtain ⟨hlt, rfl⟩ := List.getElem?_eq_some_iff.mp h
  exact List.drop_eq_getElem_cons hlt

/-- Two bytes of a slice are the next two. -/
theorem slice_two {index : ℕ} {first second : UInt8} :
    slice bytes (index + 1) (index + 3) = some [first, second] ↔
      bytes.drop (index + 1) = first :: second :: bytes.drop (index + 3) := by
  have hdrop : (bytes.drop (index + 1)).drop 2 = bytes.drop (index + 3) := List.drop_drop
  constructor
  · intro h
    unfold slice at h
    split at h
    · have htake := Option.some.inj h
      rw [show index + 3 - (index + 1) = 2 by omega] at htake
      rw [← List.take_append_drop 2 (bytes.drop (index + 1)), htake, hdrop]
      rfl
    · cases h
  · intro h
    have hlength := congrArg List.length h
    rw [List.length_drop, List.length_cons, List.length_cons] at hlength
    rw [slice, if_pos (by omega), show index + 3 - (index + 1) = 2 by omega, h]
    rfl

/-- The loop decodes what is left from its index, and no index of it overflows. -/
theorem percentDecodeLoop_eq (hlength : bytes.length < 2 ^ 63) (index : ℕ) (decoded : List UInt8) :
    percentDecodeLoop bytes index decoded =
      some ((percentDecodeBytes (bytes.drop index)).map (decoded ++ ·)) := by
  fun_induction percentDecodeLoop bytes index decoded with
  | case1 index decoded hend =>
    rw [List.drop_eq_nil_of_le (List.getElem?_eq_none_iff.mp hend)]
    change _ = some (some (decoded ++ []))
    rw [List.append_nil]
  | case2 index decoded byte hbyte hmax =>
    have hlt := (List.getElem?_eq_some_iff.mp hbyte).1
    have : maxOfBits 64 = 18446744073709551615 := rfl
    omega
  | case3 index decoded hmax first second hslice high low hlow hhigh hbyte ih =>
    rw [ih, drop_of_getElem? hbyte, slice_two.mp hslice, percentDecodeBytes_escape hhigh hlow,
      Option.map_map]
    simp only [List.append_assoc, List.singleton_append]
    rfl
  | case4 index decoded hmax first second hslice hdigits hbyte =>
    rw [drop_of_getElem? hbyte, slice_two.mp hslice, percentDecodeBytes_eq_none]
    · rfl
    · intro first' second' tail heq
      rw [← (List.cons.inj heq).1, ← (List.cons.inj (List.cons.inj heq).2).1]
      by_contra hboth
      obtain ⟨hhigh, hlow⟩ := not_or.mp hboth
      obtain ⟨high, hhigh⟩ := Option.ne_none_iff_exists'.mp hhigh
      obtain ⟨low, hlow⟩ := Option.ne_none_iff_exists'.mp hlow
      exact hdigits high low hhigh hlow
  | case5 index decoded hmax hslice hbyte =>
    rw [drop_of_getElem? hbyte, percentDecodeBytes_eq_none]
    · rfl
    · intro first second tail heq
      have htail : bytes.drop (index + 3) = tail := by
        have hdrop : (bytes.drop (index + 1)).drop 2 = bytes.drop (index + 3) := List.drop_drop
        rw [← hdrop, heq]
        rfl
      exact absurd (slice_two.mpr (by rw [htail, heq])) (hslice first second)
  | case6 index decoded byte hbyte hmax hne ih =>
    rw [ih, drop_of_getElem? hbyte, percentDecodeBytes_cons_ne hne, Option.map_map]
    simp only [List.append_assoc, List.singleton_append]
    rfl

/-! ### What is decoded -/

theorem hexDigitValue_of_le (h : 0x80 ≤ byte.toNat) : hexDigitValue byte = none := by
  have hgt (bound : UInt8) (hbound : bound.toNat < 0x80) : ¬byte ≤ bound := fun hle => by
    have := UInt8.le_iff_toNat_le.mp hle
    omega
  rw [hexDigitValue, if_neg fun h => hgt 57 (by decide) h.2, if_neg fun h => hgt 70 (by decide) h.2,
    if_neg fun h => hgt 102 (by decide) h.2]

theorem hexValue_of_lt (h : 0x7F < c.toNat) : hexValue c = none := by
  have hgt (bound : Char) (hbound : bound.toNat ≤ 0x7F) : ¬c ≤ bound := fun hle => by
    have hle : c.toNat ≤ bound.toNat := UInt32.le_iff_toNat_le.mp (Char.le_def.mp hle)
    omega
  rw [hexValue, if_neg fun h => hgt '9' (by decide) h.2, if_neg fun h => hgt 'F' (by decide) h.2,
    if_neg fun h => hgt 'f' (by decide) h.2]

/-- The first byte of a character is a digit when the character is one, and then it is the only. -/
theorem exists_head_byte (c : Char) : ∃ byte more, String.utf8EncodeChar c = byte :: more ∧
    hexDigitValue byte = hexValue c ∧ ((hexValue c).isSome = true → more = []) := by
  by_cases hascii : c.toNat ≤ 0x7F
  · refine ⟨_, _, utf8EncodeChar_of_lt hascii, ?_, fun _ => rfl⟩
    have hall : ∀ value : Fin 128,
        hexDigitValue (UInt8.ofNat value) = hexValue (Char.ofNat value) := by decide
    have hvalue := hall ⟨c.toNat, by omega⟩
    rwa [Char.ofNat_toNat] at hvalue
  · have hnone := hexValue_of_lt (Nat.lt_of_not_le hascii)
    cases hbytes : String.utf8EncodeChar c with
    | nil => exact absurd hbytes (String.utf8EncodeChar_ne_nil)
    | cons byte more =>
      refine ⟨byte, more, rfl, ?_, fun hsome => by rw [hnone] at hsome; cases hsome⟩
      rw [hnone]
      refine hexDigitValue_of_le (Nat.le_of_not_lt fun hlt => ?_)
      have hmem : byte ∈ String.utf8EncodeChar c := by
        rw [hbytes]
        exact List.mem_cons_self
      have := toNat_of_mem_utf8EncodeChar hmem hlt
      omega

/-- Where a percent sign is not a character, it is no byte of it. -/
theorem percentDecodeBytes_append (h : (37 : UInt8) ∉ bytes) :
    percentDecodeBytes (bytes ++ rest) = (percentDecodeBytes rest).map (bytes ++ ·) := by
  induction bytes with
  | nil =>
    rw [List.nil_append]
    cases percentDecodeBytes rest <;> rfl
  | cons byte bytes ih =>
    rw [List.mem_cons, not_or] at h
    rw [List.cons_append, percentDecodeBytes_cons_ne (Ne.symm h.1), ih h.2, Option.map_map]
    rfl

theorem notMem_utf8EncodeChar (h : c ≠ '%') : (37 : UInt8) ∉ String.utf8EncodeChar c := fun hmem => by
  have hnat := toNat_of_mem_utf8EncodeChar hmem (by decide)
  exact h (Char.toNat_inj.mp hnat)

/-- A percent sign that starts no escape, or an escape before an ill-formed text. -/
theorem percentDecodeBytes_illFormed {rest : List Char} (h : ¬isWellFormed ('%' :: rest) = true)
    (ih : ∀ first second after, rest = first :: second :: after →
      percentDecodeBytes (utf8Bytes after) =
        if isWellFormed after = true then some (decode after) else none) :
    percentDecodeBytes (37 :: utf8Bytes rest) = none := by
  cases rest with
  | nil => rfl
  | cons first rest =>
    obtain ⟨firstByte, more, hfirst, hdigit, hmore⟩ := exists_head_byte first
    rw [utf8Bytes, List.flatMap_cons, ← utf8Bytes, hfirst, List.cons_append]
    cases hhigh : hexValue first with
    | none =>
      refine percentDecodeBytes_eq_none fun byte other tail heq => .inl ?_
      rw [← (List.cons.inj heq).1, hdigit, hhigh]
    | some high =>
      obtain rfl := hmore (Option.isSome_of_eq_some hhigh)
      cases rest with
      | nil => rfl
      | cons second after =>
        obtain ⟨secondByte, more, hsecond, hdigit', hmore'⟩ := exists_head_byte second
        rw [List.nil_append, utf8Bytes, List.flatMap_cons, ← utf8Bytes, hsecond, List.cons_append]
        cases hlow : hexValue second with
        | none =>
          refine percentDecodeBytes_eq_none fun byte other tail heq => .inr ?_
          rw [← (List.cons.inj (List.cons.inj heq).2).1, hdigit', hlow]
        | some low =>
          obtain rfl := hmore' (Option.isSome_of_eq_some hlow)
          have hafter : ¬isWellFormed after = true := fun hafter =>
            h (isWellFormed_percent.mpr ⟨first, second, after, high, low, rfl, hhigh, hlow, hafter⟩)
          rw [List.nil_append, percentDecodeBytes_escape (hdigit.trans hhigh) (hdigit'.trans hlow),
            ih first second after rfl, if_neg hafter]
          rfl

/-- Decoding succeeds exactly on well-formed texts. -/
theorem percentDecodeBytes_utf8Bytes (text : List Char) : percentDecodeBytes (utf8Bytes text) =
    if isWellFormed text = true then some (decode text) else none := by
  obtain ⟨length, hlength⟩ : ∃ length, text.length ≤ length := ⟨_, le_rfl⟩
  induction length generalizing text with
  | zero =>
    rw [List.length_eq_zero_iff.mp (Nat.le_zero.mp hlength)]
    rfl
  | succ length ih =>
    cases text with
    | nil => rfl
    | cons c rest =>
      rw [List.length_cons] at hlength
      rw [utf8Bytes, List.flatMap_cons, ← utf8Bytes]
      by_cases hc : c = '%'
      · subst hc
        change percentDecodeBytes (37 :: utf8Bytes rest) = _
        by_cases hwellFormed : isWellFormed ('%' :: rest) = true
        · obtain ⟨first, second, after, high, low, rfl, hhigh, hlow, hafter⟩ :=
            isWellFormed_percent.mp hwellFormed
          obtain ⟨firstByte, more, hfirst, hdigit, hmore⟩ := exists_head_byte first
          obtain rfl := hmore (Option.isSome_of_eq_some hhigh)
          obtain ⟨secondByte, more, hsecond, hdigit', hmore'⟩ := exists_head_byte second
          obtain rfl := hmore' (Option.isSome_of_eq_some hlow)
          simp only [List.length_cons] at hlength
          rw [if_pos hwellFormed, utf8Bytes, List.flatMap_cons, List.flatMap_cons, ← utf8Bytes, hfirst,
            hsecond, List.singleton_append, List.singleton_append,
            percentDecodeBytes_escape (hdigit.trans hhigh) (hdigit'.trans hlow),
            ih after (by omega), if_pos hafter, decode_percent hhigh hlow]
          rfl
        · rw [if_neg hwellFormed]
          exact percentDecodeBytes_illFormed hwellFormed fun first second after hrest => by
            rw [hrest, List.length_cons, List.length_cons] at hlength
            exact ih after (by omega)
      · rw [percentDecodeBytes_append (notMem_utf8EncodeChar hc), ih rest (by omega),
          isWellFormed_cons_of_ne hc, decode_cons_of_ne hc]
        split <;> rfl

/-- `percent_decode` succeeds exactly on texts in which every percent sign starts two digits and that
decode to UTF-8. -/
theorem percentDecode_eq_some_iff : percentDecode text = some decoded ↔
    (∀ before after, text = before ++ '%' :: after → ∃ first second rest,
      after = first :: second :: rest ∧ (hexValue first).isSome = true ∧
        (hexValue second).isSome = true) ∧
      textOf (decode text) = some decoded := by
  rw [← isWellFormed_iff, percentDecode, bytesOf_eq, ← utf8Bytes, percentDecodeBytes_utf8Bytes]
  by_cases hwellFormed : isWellFormed text = true
  · rw [if_pos hwellFormed, and_iff_right hwellFormed]
    exact Iff.rfl
  · rw [if_neg hwellFormed]
    exact iff_of_false (fun h => by cases h) fun h => hwellFormed h.1

/-! ### Resolving -/

/-- The characters of an accepted location. -/
def isLocationCharacter (c : Char) : Bool := '!' ≤ c && c ≤ '~' && c != '\\' && c != '#'

/-- Two texts that decode alike are decoded to the same text. -/
theorem percentDecode_congr {other : List Char} (h : percentDecode text = some decoded)
    (hwellFormed : isWellFormed other = true) (hdecode : decode other = decode text) :
    percentDecode other = some decoded := by
  rw [percentDecode_eq_some_iff, ← isWellFormed_iff] at h ⊢
  exact ⟨hwellFormed, hdecode ▸ h.2⟩

theorem utf8Bytes_of_percentDecode (h : percentDecode text = some decoded) :
    utf8Bytes decoded = decode text := by
  have htext := (percentDecode_eq_some_iff.mp h).2
  rw [utf8Bytes, ← bytesOf_eq]
  exact bytesOf_textOf htext

/-- The last digit of an escaped dot, in either case. -/
theorem hexValue_of_toLower_eq (h : c.toLower = 'e') : hexValue c = some 14 := by
  rcases toLower_cases c with hsame | ⟨-, hlower⟩
  · rw [← hsame, h]
    rfl
  · rw [h] at hlower
    have hnat : c.toNat = 69 := by
      change 101 = c.toNat + 32 at hlower
      omega
    rw [show c = 'E' from Char.toNat_inj.mp hnat]
    rfl

/-- A dot of a dot segment. -/
theorem decode_dot {lower : List Char} (h : text.map Char.toLower = '.' :: lower) :
    ∃ tail, decode text = 46 :: decode tail ∧ tail.map Char.toLower = lower := by
  obtain ⟨c, tail, rfl, hc, htail⟩ := List.map_eq_cons_iff.mp h
  obtain rfl : c = '.' := eq_of_toLower_eq hc (by decide)
  exact ⟨tail, by rw [decode_cons_of_ne (by decide)]; rfl, htail⟩

/-- An escaped dot of a dot segment. -/
theorem decode_escapedDot {lower : List Char}
    (h : text.map Char.toLower = '%' :: '2' :: 'e' :: lower) :
    ∃ tail, decode text = 46 :: decode tail ∧ tail.map Char.toLower = lower := by
  obtain ⟨sign, digits, rfl, hsign, hdigits⟩ := List.map_eq_cons_iff.mp h
  obtain rfl : sign = '%' := eq_of_toLower_eq hsign (by decide)
  obtain ⟨two, rest, rfl, htwo, hrest⟩ := List.map_eq_cons_iff.mp hdigits
  obtain rfl : two = '2' := eq_of_toLower_eq htwo (by decide)
  obtain ⟨c, tail, rfl, hc, htail⟩ := List.map_eq_cons_iff.mp hrest
  exact ⟨tail, by rw [decode_percent rfl (hexValue_of_toLower_eq hc)]; rfl, htail⟩

/-- A segment that only names a directory of dots decodes to dots. -/
theorem decode_of_isDot {segment : List Char}
    (h : isSingleDot segment = true ∨ isDoubleDot segment = true) :
    decode segment = [46] ∨ decode segment = [46, 46] := by
  have hend {tail : List Char} (h : tail.map Char.toLower = []) : decode tail = [] := by
    rw [List.map_eq_nil_iff.mp h]
    rfl
  unfold isSingleDot isDoubleDot at h
  simp only [Bool.or_eq_true, beq_iff_eq, or_assoc] at h
  rcases h with h | h | h | h | h | h
  · obtain ⟨tail, hfirst, htail⟩ := decode_dot h
    exact .inl (by rw [hfirst, hend htail])
  · obtain ⟨tail, hfirst, htail⟩ := decode_escapedDot h
    exact .inl (by rw [hfirst, hend htail])
  · obtain ⟨middle, hfirst, hmiddle⟩ := decode_dot h
    obtain ⟨tail, hsecond, htail⟩ := decode_dot hmiddle
    exact .inr (by rw [hfirst, hsecond, hend htail])
  · obtain ⟨middle, hfirst, hmiddle⟩ := decode_dot h
    obtain ⟨tail, hsecond, htail⟩ := decode_escapedDot hmiddle
    exact .inr (by rw [hfirst, hsecond, hend htail])
  · obtain ⟨middle, hfirst, hmiddle⟩ := decode_escapedDot h
    obtain ⟨tail, hsecond, htail⟩ := decode_dot hmiddle
    exact .inr (by rw [hfirst, hsecond, hend htail])
  · obtain ⟨middle, hfirst, hmiddle⟩ := decode_escapedDot h
    obtain ⟨tail, hsecond, htail⟩ := decode_escapedDot hmiddle
    exact .inr (by rw [hfirst, hsecond, hend htail])

/-- A segment that is read into the buffer. -/
theorem pathState_segment {segment : List Char} (path : List (List Char)) (buffer rest : List Char)
    (h : ∀ c ∈ segment, c ≠ '/' ∧ c ≠ '\\' ∧ c ≠ '?' ∧ c ≠ '#') :
    pathState path buffer (segment ++ rest) =
      pathState path (buffer ++ encode keepInPath segment) rest := by
  induction segment generalizing buffer with
  | nil => rw [encode, List.flatMap_nil, List.append_nil, List.nil_append]
  | cons c segment ih =>
    obtain ⟨hslash, hback, hquestion, hhash⟩ := h c List.mem_cons_self
    rw [List.cons_append, pathState, if_neg (not_or.mpr ⟨hslash, hback⟩), if_neg hquestion,
      if_neg hhash, ih _ fun other hother => h other (List.mem_cons_of_mem _ hother), encode, encode,
      List.flatMap_cons, List.append_assoc]

/-- A segment that is not one of dots ends as it is. -/
theorem endSegment_of_not_dot {segment : List Char}
    (h : ¬(isSingleDot segment = true ∨ isDoubleDot segment = true)) (path : List (List Char))
    (slash : Bool) : endSegment path segment slash = path ++ [segment] := by
  rw [endSegment, if_neg fun hdouble => h (.inr hdouble), if_neg fun hsingle => h (.inl hsingle)]

/-- What is left of an accepted location after its path. -/
def queryTail : Option (List Char) → List Char
  | none => []
  | some query => '?' :: query

theorem queryState_eq {query : List Char} (path : List (List Char)) (buffer : List Char)
    (h : '#' ∉ query) : queryState path buffer query =
      ⟨path, some (buffer ++ encode keepInQuery query), none⟩ := by
  induction query generalizing buffer with
  | nil => rw [queryState, encode, List.flatMap_nil, List.append_nil]
  | cons c query ih =>
    rw [List.mem_cons, not_or] at h
    rw [queryState, if_neg (Ne.symm h.1), ih _ h.2, encode, encode, List.flatMap_cons,
      List.append_assoc]

/-- The segments of a path are kept, unless they are dots. -/
theorem pathState_segments {segments : List (List Char)} {query : Option (List Char)}
    (hsegments : ∀ segment ∈ segments, ∀ c ∈ segment, c ≠ '/' ∧ c ≠ '\\' ∧ c ≠ '?' ∧ c ≠ '#')
    (hdots : ∀ segment ∈ segments, ¬(isSingleDot (encode keepInPath segment) = true ∨
      isDoubleDot (encode keepInPath segment) = true))
    (hne : segments ≠ []) (hquery : ∀ text ∈ query, '#' ∉ text) (path : List (List Char)) :
    pathState path [] (['/'].intercalate segments ++ queryTail query) =
      ⟨path ++ segments.map (encode keepInPath), query.map (encode keepInQuery), none⟩ := by
  induction segments generalizing path with
  | nil => exact absurd rfl hne
  | cons segment rest ih =>
    have hfirst := hsegments segment List.mem_cons_self
    have hend := endSegment_of_not_dot (hdots segment List.mem_cons_self)
    cases rest with
    | nil =>
      rw [List.intercalate_singleton, pathState_segment _ _ _ hfirst, List.nil_append]
      cases query with
      | none => rw [queryTail, pathState, hend]; rfl
      | some text =>
        rw [queryTail, pathState, if_neg (by decide), if_pos rfl, hend,
          queryState_eq _ _ (hquery text rfl)]
        rfl
    | cons next rest =>
      have hrest := ih (fun other hother => hsegments other (List.mem_cons_of_mem _ hother))
        (fun other hother => hdots other (List.mem_cons_of_mem _ hother)) (List.cons_ne_nil _ _)
        (path ++ [encode keepInPath segment])
      rw [List.intercalate_cons_cons, List.append_assoc, List.append_assoc,
        pathState_segment _ _ _ hfirst, List.singleton_append, pathState, if_pos (.inl rfl),
        List.nil_append, hend, hrest]
      simp

/-! ### Inside the application -/

/-- The path is a route or below it, in any ASCII letter case. -/
def AtOrBelow (route path : List Char) : Prop :=
  ∃ rest, path.map Char.toLower = route ++ rest ∧ (rest = [] ∨ rest.head? = some '/')

/-- A path and a query that stay in the application. -/
structure InApp (path query : List Char) : Prop where
  slash : ∃ rest, path = '/' :: rest ∧ rest.head? ≠ some '/'
  dots : ∀ segment ∈ path.splitOn '/', segment ≠ ['.'] ∧ segment ≠ ['.', '.']
  clean : ∀ c ∈ path ++ query, isControl c = false ∧ c ≠ '\\'
  routes : ∀ route ∈ ["/api", "/health"], ¬AtOrBelow route.toList path

theorem isBelow_of_atOrBelow {route : String} {path : List Char} (h : AtOrBelow route.toList path) :
    isBelow route path = true := by
  obtain ⟨rest, hlower, hrest⟩ := h
  rw [isBelow, hlower, Bool.and_eq_true]
  refine ⟨List.isPrefixOf_iff_prefix.mpr (List.prefix_append _ _), ?_⟩
  rw [← String.length_toList, List.drop_left]
  rcases hrest with rfl | hhead
  · rfl
  · rw [hhead]
    rfl

/-- An accepted location, in its parts. -/
theorem safeReturnPath_cases {value kept : List Char} (h : safeReturnPath value = some kept) :
    ∃ path query decodedPath decodedQuery, value = path ++ queryTail query ∧ '?' ∉ path ∧
      (∀ c ∈ value, isLocationCharacter c = true) ∧ percentDecode path = some decodedPath ∧
      percentDecode (query.getD []) = some decodedQuery ∧
      isUnsafe path decodedPath decodedQuery = false ∧
      ∀ route ∈ ["/api", "/health"], isBelow route decodedPath = false := by
  unfold safeReturnPath at h
  split at h
  · cases h
  · rename_i hchars
    simp only [Bool.or_eq_true, Bool.not_eq_true', not_or, Bool.not_eq_false] at hchars
    have hvisible : ∀ c ∈ value, isLocationCharacter c = true := fun c hc => List.all_eq_true.mp hchars.2 c hc
    obtain ⟨path, query, hvalue, hquestion, hsplit⟩ : ∃ path query, value = path ++ queryTail query ∧
        '?' ∉ path ∧ (splitOnce '?' value).getD (value, []) = (path, query.getD []) := by
      cases hsplit : splitOnce '?' value with
      | none =>
        refine ⟨value, none, (List.append_nil value).symm, fun hmem => ?_, rfl⟩
        obtain ⟨before, after, rfl, hbefore⟩ := List.eq_append_cons_of_mem hmem
        rw [splitOnce_append hbefore] at hsplit
        cases hsplit
      | some parts =>
        obtain ⟨path, query⟩ := parts
        obtain ⟨hvalue, hquestion⟩ := splitOnce_eq_some.mp hsplit
        exact ⟨path, some query, hvalue, hquestion, rfl⟩
    rw [hsplit] at h
    obtain ⟨decodedPath, hpath, h⟩ := Option.bind_eq_some_iff.mp h
    obtain ⟨decodedQuery, hquery, h⟩ := Option.bind_eq_some_iff.mp h
    split at h
    · cases h
    · rename_i hsafe
      split at h
      · cases h
      · rename_i hroutes
        refine ⟨path, query, decodedPath, decodedQuery, hvalue, hquestion, hvisible, hpath, hquery,
          Bool.eq_false_of_not_eq_true hsafe, fun route hroute => ?_⟩
        exact Bool.eq_false_of_not_eq_true fun hbelow => hroutes (List.any_eq_true.mpr ⟨route, hroute, hbelow⟩)

/-- What is checked of the decoded form keeps it in the application. -/
theorem inApp_of_checked {path decodedPath decodedQuery : List Char}
    (hsafe : isUnsafe path decodedPath decodedQuery = false)
    (hroutes : ∀ route ∈ ["/api", "/health"], isBelow route decodedPath = false) :
    InApp decodedPath decodedQuery ∧ ∃ rest, path = '/' :: rest ∧ rest.head? ≠ some '/' := by
  unfold isUnsafe at hsafe
  rw [Bool.or_eq_false_iff, Bool.or_eq_false_iff] at hsafe
  obtain ⟨⟨hslash, hclean⟩, hdots⟩ := hsafe
  have hstart : ∀ text ∈ [path, decodedPath], ∃ rest, text = '/' :: rest ∧ rest.head? ≠ some '/' := by
    intro text htext
    have hfalse := List.any_eq_false.mp hslash text htext
    rw [Bool.or_eq_true, not_or, bne_iff_ne, not_not] at hfalse
    obtain ⟨hhead, hdouble⟩ := hfalse
    obtain ⟨rest, rfl⟩ := List.head?_eq_some_iff.mp hhead
    refine ⟨rest, rfl, fun hnext => hdouble ?_⟩
    obtain ⟨tail, rfl⟩ := List.head?_eq_some_iff.mp hnext
    rfl
  refine ⟨⟨hstart _ (by simp), fun segment hsegment => ?_, fun c hc => ?_, fun route hroute h => ?_⟩,
    hstart _ (by simp)⟩
  · have hfalse := List.any_eq_false.mp hdots segment hsegment
    rw [Bool.or_eq_true, not_or, beq_iff_eq, beq_iff_eq] at hfalse
    exact hfalse
  · have hpart : ∃ part ∈ [decodedPath, decodedQuery], c ∈ part := by
      rcases List.mem_append.mp hc with hc | hc
      · exact ⟨decodedPath, by simp, hc⟩
      · exact ⟨decodedQuery, by simp, hc⟩
    obtain ⟨part, hpart, hc⟩ := hpart
    have hfalse := List.any_eq_false.mp hclean part hpart
    have hnone := List.any_eq_false.mp (Bool.eq_false_of_not_eq_true hfalse) c hc
    rw [Bool.or_eq_true, not_or, beq_iff_eq] at hnone
    exact ⟨Bool.eq_false_of_not_eq_true hnone.1, hnone.2⟩
  · have hbelow := hroutes route hroute
    rw [isBelow_of_atOrBelow h] at hbelow
    cases hbelow

theorem utf8Bytes_inj {first second : List Char} (h : utf8Bytes first = utf8Bytes second) :
    first = second := by
  rw [utf8Bytes, utf8Bytes, ← bytesOf_eq, ← bytesOf_eq] at h
  exact bytesOf_inj.mp h

/-- What holds of the segments of a decoded path holds of those of the path. -/
theorem decode_segment_ne {path decodedPath segment dots : List Char}
    (hwellFormed : isWellFormed path = true) (hbytes : utf8Bytes decodedPath = decode path)
    (hdots : dots ∉ decodedPath.splitOn '/') (hplain : '/' ∉ dots)
    (hsegment : segment ∈ path.splitOn '/') : decode segment ≠ utf8Bytes dots := by
  intro hdecode
  obtain ⟨segments, hsegments⟩ : ∃ segments, path.splitOn '/' = segments := ⟨_, rfl⟩
  induction segments generalizing path decodedPath with
  | nil => exact absurd hsegments (List.splitOn_ne_nil _ _)
  | cons first rest ih =>
    have hjoin : ['/'].intercalate (first :: rest) = path := by
      rw [← hsegments, List.intercalate_splitOn]
    rw [hsegments] at hsegment
    cases rest with
    | nil =>
      rw [List.intercalate_singleton] at hjoin
      obtain rfl := List.mem_singleton.mp hsegment
      rw [← hjoin, hdecode] at hbytes
      rw [utf8Bytes_inj hbytes, List.splitOn_eq_singleton hplain] at hdots
      exact hdots (List.mem_singleton.mpr rfl)
    | cons second rest =>
      have hnotMem : '/' ∉ first := notMem_of_mem_splitOn (hsegments ▸ List.mem_cons_self)
      rw [List.intercalate_cons_cons, List.append_assoc, List.singleton_append] at hjoin
      rw [← hjoin] at hwellFormed hbytes
      obtain ⟨hfirst, hrest⟩ := isWellFormed_of_append rfl hwellFormed
      rw [decode_append hfirst, decode_cons_of_ne (by decide)] at hbytes
      obtain ⟨head, tail, rfl, hhead, htail⟩ := utf8Bytes_eq_append_cons (c := '/') (by decide) hbytes
      rw [List.splitOn_append_cons_self, List.mem_append, not_or] at hdots
      rcases List.mem_cons.mp hsegment with rfl | hmem
      · rw [hdecode] at hhead
        rw [utf8Bytes_inj hhead, List.splitOn_eq_singleton hplain] at hdots
        exact hdots.1 (List.mem_singleton.mpr rfl)
      · rw [← hjoin, List.splitOn_append_cons_self_of_not_mem hnotMem] at hsegments
        have hsplit := (List.cons.inj hsegments).2
        exact ih hrest htail hdots.2 (by rw [hsplit]; exact hmem) hsplit

/-- A text without percent signs decodes to its own bytes. -/
theorem decode_eq_utf8Bytes (h : '%' ∉ text) : decode text = utf8Bytes text ∧ isWellFormed text = true := by
  induction text with
  | nil => exact ⟨rfl, rfl⟩
  | cons c rest ih =>
    rw [List.mem_cons, not_or] at h
    obtain ⟨hdecode, hwellFormed⟩ := ih h.2
    rw [decode_cons_of_ne (Ne.symm h.1), hdecode, isWellFormed_cons_of_ne (Ne.symm h.1), hwellFormed]
    exact ⟨rfl, rfl⟩

/-- A path below a route decodes to a path below it. -/
theorem atOrBelow_of_decode {route path decodedPath : List Char} (hroute : '%' ∉ route)
    (hbytes : utf8Bytes decodedPath = decode path) (h : AtOrBelow route path) :
    AtOrBelow route decodedPath := by
  obtain ⟨rest, hlower, hrest⟩ := h
  obtain ⟨head, tail, rfl, hhead, htail⟩ := List.map_eq_append_iff.mp hlower
  have hpercent : '%' ∉ head := fun hmem => by
    refine hroute (hhead ▸ List.mem_map.mpr ⟨'%', hmem, ?_⟩)
    decide
  obtain ⟨hdecode, hwellFormed⟩ := decode_eq_utf8Bytes hpercent
  rw [decode_append hwellFormed, hdecode] at hbytes
  rcases hrest with rfl | hslash
  · rw [List.map_eq_nil_iff.mp htail] at hbytes
    change _ = utf8Bytes head ++ [] at hbytes
    rw [List.append_nil] at hbytes
    rw [utf8Bytes_inj hbytes]
    exact ⟨[], by rw [hhead, List.append_nil], .inl rfl⟩
  · obtain ⟨below, rfl⟩ := List.head?_eq_some_iff.mp hslash
    obtain ⟨c, tail, rfl, hc, htail⟩ := List.map_eq_cons_iff.mp htail
    obtain rfl : c = '/' := eq_of_toLower_eq hc (by decide)
    rw [decode_cons_of_ne (by decide)] at hbytes
    obtain ⟨first, second, rfl, hfirst, -⟩ := utf8Bytes_eq_append_cons (c := '/') (by decide) hbytes
    rw [utf8Bytes_inj hfirst]
    exact ⟨'/' :: second.map Char.toLower, by rw [List.map_append, hhead]; rfl, .inr rfl⟩

section Encoded

variable {path query decodedPath decodedQuery : List Char}

/-- Digits are kept wherever a text is encoded. -/
theorem keep_digit {c : Char} (h : (hexValue c).isSome = true) :
    keepInPath c = true ∧ keepInQuery c = true := by
  have hall : ∀ value : Fin 128, (hexValue (Char.ofNat value)).isSome = true →
      keepInPath (Char.ofNat value) = true ∧ keepInQuery (Char.ofNat value) = true := by decide
  have hascii : c.toNat ≤ 0x7F := Nat.le_of_not_lt fun hlt => by
    rw [hexValue_of_lt hlt] at h
    cases h
  have hvalue := hall ⟨c.toNat, by omega⟩
  rw [Char.ofNat_toNat] at hvalue
  exact hvalue h

/-- What is encoded of an accepted location is clean. -/
theorem clean_encode {keep : Char → Bool} (htext : ∀ c ∈ text, isLocationCharacter c = true) :
    ∀ c ∈ encode keep text, isControl c = false ∧ c ≠ '\\' := by
  have hall : ∀ value : Fin 16, isControl (upperHexDigit value) = false ∧
      upperHexDigit value ≠ '\\' := by decide
  refine fun c => of_mem_encode (P := fun c => isControl c = false ∧ c ≠ '\\') (fun c hc _ => ?_)
    (by decide) fun value hvalue => hall ⟨value, hvalue⟩
  have hvisible := htext c hc
  simp only [isLocationCharacter, Bool.and_eq_true, decide_eq_true_eq, bne_iff_ne] at hvisible
  obtain ⟨⟨⟨hlow, hhigh⟩, hback⟩, -⟩ := hvisible
  have hlow : 33 ≤ c.toNat := UInt32.le_iff_toNat_le.mp (Char.le_def.mp hlow)
  have hhigh : c.toNat ≤ 126 := UInt32.le_iff_toNat_le.mp (Char.le_def.mp hhigh)
  refine ⟨?_, hback⟩
  rw [isControl, Bool.or_eq_false_iff, Bool.and_eq_false_iff, decide_eq_false_iff_not,
    decide_eq_false_iff_not, decide_eq_false_iff_not]
  omega

/-- A path that stays in the application when it is decoded does so as it is encoded. -/
theorem inApp_encode (hpath : percentDecode path = some decodedPath)
    (hstart : ∃ rest, path = '/' :: rest) (hclean : ∀ c ∈ path, isLocationCharacter c = true)
    (hquery : ∀ c ∈ query, isLocationCharacter c = true) (h : InApp decodedPath decodedQuery) :
    InApp (encode keepInPath path) (encode keepInQuery query) := by
  have hwellFormed := isWellFormed_iff.mpr (percentDecode_eq_some_iff.mp hpath).1
  obtain ⟨hdecode, hencoded⟩ := decode_encode rfl (fun c hc => (keep_digit hc).1) hwellFormed
  have hbytes : utf8Bytes decodedPath = decode (encode keepInPath path) := by
    rw [hdecode, utf8Bytes_of_percentDecode hpath]
  refine ⟨?_, fun segment hsegment => ⟨?_, ?_⟩, fun c hc => ?_, fun route hroute hbelow => ?_⟩
  · obtain ⟨rest, rfl⟩ := hstart
    refine ⟨encode keepInPath rest, rfl, fun hhead => ?_⟩
    obtain ⟨tail, htail⟩ := List.head?_eq_some_iff.mp hhead
    obtain ⟨decodedRest, rfl, hne⟩ := h.slash
    change _ = decode ('/' :: encode keepInPath rest) at hbytes
    rw [htail, decode_cons_of_ne (by decide), decode_cons_of_ne (by decide), utf8Bytes,
      List.flatMap_cons, ← utf8Bytes] at hbytes
    have hrest : utf8Bytes decodedRest = [] ++ UInt8.ofNat '/'.toNat :: decode tail :=
      List.append_cancel_left hbytes
    obtain ⟨first, second, rfl, hfirst, -⟩ := utf8Bytes_eq_append_cons (by decide) hrest
    rw [utf8Bytes_inj (hfirst.trans (show [] = utf8Bytes [] from rfl))] at hne
    exact hne rfl
  · rintro rfl
    exact decode_segment_ne hencoded hbytes (fun hmem => (h.dots _ hmem).1 rfl) (by decide) hsegment
      rfl
  · rintro rfl
    exact decode_segment_ne hencoded hbytes (fun hmem => (h.dots _ hmem).2 rfl) (by decide) hsegment
      rfl
  · rcases List.mem_append.mp hc with hc | hc
    · exact clean_encode hclean c hc
    · exact clean_encode hquery c hc
  · have hpercent : '%' ∉ route.toList := by
      rcases List.mem_cons.mp hroute with rfl | hroute
      · decide
      · rw [List.mem_singleton.mp hroute]
        decide
    exact h.routes route hroute (atOrBelow_of_decode hpercent hbytes hbelow)

end Encoded

/-! ### The address a location resolves to -/

theorem encode_intercalate (segments : List (List Char)) :
    encode keepInPath (['/'].intercalate segments) =
      ['/'].intercalate (segments.map (encode keepInPath)) := by
  induction segments with
  | nil => rfl
  | cons segment rest ih =>
    cases rest with
    | nil => rw [List.intercalate_singleton, List.map_singleton, List.intercalate_singleton]
    | cons next rest =>
      rw [List.map_cons, List.map_cons, List.intercalate_cons_cons, List.intercalate_cons_cons,
        ← List.map_cons, ← ih, encode, encode, encode, List.flatMap_append, List.flatMap_append]
      rfl

theorem flatMap_slash {segments : List (List Char)} (h : segments ≠ []) :
    segments.flatMap ('/' :: ·) = '/' :: ['/'].intercalate segments := by
  induction segments with
  | nil => exact absurd rfl h
  | cons segment rest ih =>
    cases rest with
    | nil => rw [List.flatMap_singleton, List.intercalate_singleton]
    | cons next rest =>
      rw [List.flatMap_cons, ih (List.cons_ne_nil _ _), List.intercalate_cons_cons, List.append_assoc]
      rfl

theorem slash_notMem_encode {segment : List Char} (h : '/' ∉ segment) :
    '/' ∉ encode keepInPath segment := fun hmem => by
  have hall : ∀ value : Fin 16, upperHexDigit value ≠ '/' := by decide
  exact of_mem_encode (P := (· ≠ '/')) (fun c hc _ heq => h (heq ▸ hc)) (by decide)
    (fun value hvalue => hall ⟨value, hvalue⟩) hmem rfl

/-- Nothing is cut off or left out of a location that is accepted. -/
theorem resolve_eq {value : List Char} (base : WebUrl)
    (h : ∀ c ∈ value, isLocationCharacter c = true) :
    resolve base value = if hasScheme value then .elsewhere else relativeState base value := by
  have hplain : ∀ c ∈ value, isC0OrSpace c = false ∧ isTabOrNewline c = false := fun c hc => by
    have hvisible := h c hc
    simp only [isLocationCharacter, Bool.and_eq_true, decide_eq_true_eq] at hvisible
    have hlow : 33 ≤ c.toNat := UInt32.le_iff_toNat_le.mp (Char.le_def.mp hvisible.1.1.1)
    unfold isC0OrSpace isTabOrNewline
    simp only [decide_eq_false_iff_not, Bool.or_eq_false_iff, beq_eq_false_iff_ne]
    omega
  have hdrop : value.dropWhile isC0OrSpace = value := by
    cases value with
    | nil => rfl
    | cons c rest =>
      exact List.dropWhile_cons_of_neg (by rw [(hplain c List.mem_cons_self).1]; decide)
  have hdropBack : value.rdropWhile isC0OrSpace = value := by
    rw [List.rdropWhile_eq_self_iff]
    intro hne
    rw [(hplain _ (List.getLast_mem hne)).1]
    decide
  have hfilter : value.filter (!isTabOrNewline ·) = value :=
    List.filter_eq_self.mpr fun c hc => by rw [(hplain c hc).2]; rfl
  rw [resolve, hdrop, hdropBack, hfilter]

theorem relativeSlashState_eq {input : List Char} (hslash : input.head? ≠ some '/')
    (hback : input.head? ≠ some '\\') :
    relativeSlashState input = .sameOrigin (pathState [] [] input) := by
  unfold relativeSlashState
  split
  · exact absurd rfl hslash
  · exact absurd rfl hback
  · rfl

/-- The segments of an encoded path are those that were encoded. -/
theorem splitOn_encode (rest : List Char) : (encode keepInPath ('/' :: rest)).splitOn '/' =
    [] :: (rest.splitOn '/').map (encode keepInPath) := by
  have hsegments : ∀ segment ∈ (rest.splitOn '/').map (encode keepInPath), '/' ∉ segment := by
    intro segment hsegment
    obtain ⟨source, hsource, rfl⟩ := List.mem_map.mp hsegment
    exact slash_notMem_encode (notMem_of_mem_splitOn hsource)
  have hne : (rest.splitOn '/').map (encode keepInPath) ≠ [] := fun hnil =>
    List.splitOn_ne_nil _ _ (List.map_eq_nil_iff.mp hnil)
  have hjoin : encode keepInPath ('/' :: rest) =
      [] ++ '/' :: ['/'].intercalate ((rest.splitOn '/').map (encode keepInPath)) := by
    rw [← encode_intercalate, List.intercalate_splitOn]
    rfl
  rw [hjoin, List.splitOn_append_cons_self_of_not_mem List.not_mem_nil,
    List.splitOn_intercalate '/' hsegments hne]

/-- An accepted location resolves to its segments and its query. -/
theorem resolve_path {rest : List Char} {query : Option (List Char)} (base : WebUrl)
    (hvisible : ∀ c ∈ '/' :: rest ++ queryTail query, isLocationCharacter c = true)
    (hquestion : '?' ∉ '/' :: rest) (hrest : rest.head? ≠ some '/')
    (hdots : ∀ segment ∈ rest.splitOn '/', ¬(isSingleDot (encode keepInPath segment) = true ∨
      isDoubleDot (encode keepInPath segment) = true)) :
    resolve base ('/' :: rest ++ queryTail query) = .sameOrigin
      ⟨(rest.splitOn '/').map (encode keepInPath), query.map (encode keepInQuery), none⟩ := by
  have hplain : ∀ c ∈ '/' :: rest ++ queryTail query, c ≠ '\\' ∧ c ≠ '#' := fun c hc => by
    have := hvisible c hc
    simp only [isLocationCharacter, Bool.and_eq_true, bne_iff_ne] at this
    exact ⟨this.1.2, this.2⟩
  have hhead : ∀ c ∈ (rest ++ queryTail query).head?, c ≠ '/' ∧ c ≠ '\\' := by
    intro c hc
    refine ⟨?_, (hplain c (List.mem_cons_of_mem _ (List.mem_of_mem_head? hc))).1⟩
    rintro rfl
    cases rest with
    | nil => cases query <;> cases hc
    | cons first rest => exact hrest hc
  rw [resolve_eq base hvisible, if_neg (by exact Bool.false_ne_true)]
  change relativeSlashState (rest ++ queryTail query) = _
  rw [relativeSlashState_eq (fun h => (hhead _ h).1 rfl) fun h => (hhead _ h).2 rfl]
  have hsegments : ∀ segment ∈ rest.splitOn '/', ∀ c ∈ segment,
      c ≠ '/' ∧ c ≠ '\\' ∧ c ≠ '?' ∧ c ≠ '#' := fun segment hsegment c hc => by
    have hmem := subset_of_mem_splitOn hsegment c hc
    obtain ⟨hback, hhash⟩ := hplain c (List.mem_append_left _ (List.mem_cons_of_mem _ hmem))
    exact ⟨fun heq => notMem_of_mem_splitOn hsegment (heq ▸ hc), hback,
      fun heq => hquestion (heq ▸ List.mem_cons_of_mem _ hmem), hhash⟩
  have hquery : ∀ text ∈ query, '#' ∉ text := by
    rintro text rfl hmem
    exact (hplain '#' (List.mem_append_right _ (List.mem_cons_of_mem _ hmem))).2 rfl
  have hstate := pathState_segments hsegments hdots (List.splitOn_ne_nil _ _) hquery []
  rw [List.intercalate_splitOn] at hstate
  rw [hstate, List.nil_append]

/-- An accepted location resolves to an address of the same origin without a fragment, whose path and
query stay in the application as they are written and decoded. Decoding succeeds exactly on texts
whose percent signs start two digits and that decode to UTF-8, and no index of it overflows. -/
theorem safe_return_path_same_origin :
    (∀ value kept base, safeReturnPath value = some kept →
      ∃ url decodedPath decodedQuery, resolve base value = .sameOrigin url ∧ url.fragment = none ∧
        (∀ segment ∈ url.path, ¬(isSingleDot segment = true ∨ isDoubleDot segment = true)) ∧
        percentDecode url.pathText = some decodedPath ∧
        percentDecode (url.query.getD []) = some decodedQuery ∧
        InApp url.pathText (url.query.getD []) ∧ InApp decodedPath decodedQuery) ∧
    (∀ text decoded, percentDecode text = some decoded ↔
      (∀ before after, text = before ++ '%' :: after → ∃ first second rest,
        after = first :: second :: rest ∧ (hexValue first).isSome = true ∧
          (hexValue second).isSome = true) ∧
      textOf (decode text) = some decoded) ∧
    ∀ bytes : List UInt8, bytes.length < 2 ^ 63 →
      percentDecodeLoop bytes 0 [] = some (percentDecodeBytes bytes) := by
  refine ⟨fun value kept base h => ?_, fun text decoded => percentDecode_eq_some_iff,
    fun bytes hlength => ?_⟩
  · obtain ⟨path, query, decodedPath, decodedQuery, rfl, hquestion, hvisible, hpath, hquery, hsafe,
      hroutes⟩ := safeReturnPath_cases h
    obtain ⟨hdecoded, rest, rfl, hrest⟩ := inApp_of_checked hsafe hroutes
    have hpathVisible : ∀ c ∈ '/' :: rest, isLocationCharacter c = true := fun c hc =>
      hvisible c (List.mem_append_left _ hc)
    have hqueryVisible : ∀ c ∈ query.getD [], isLocationCharacter c = true := fun c hc => by
      cases query with
      | none => cases hc
      | some text => exact hvisible c (List.mem_append_right _ (List.mem_cons_of_mem _ hc))
    have hwellFormed := isWellFormed_iff.mpr (percentDecode_eq_some_iff.mp hpath).1
    obtain ⟨hdecode, hencoded⟩ := decode_encode rfl (fun c hc => (keep_digit hc).1) hwellFormed
    have hbytes : utf8Bytes decodedPath = decode (encode keepInPath ('/' :: rest)) := by
      rw [hdecode, utf8Bytes_of_percentDecode hpath]
    have hdots : ∀ segment ∈ rest.splitOn '/', ¬(isSingleDot (encode keepInPath segment) = true ∨
        isDoubleDot (encode keepInPath segment) = true) := fun segment hsegment hdot => by
      have hmem : encode keepInPath segment ∈ (encode keepInPath ('/' :: rest)).splitOn '/' := by
        rw [splitOn_encode]
        exact List.mem_cons_of_mem _ (List.mem_map_of_mem hsegment)
      rcases decode_of_isDot hdot with hone | htwo
      · exact decode_segment_ne hencoded hbytes (fun h => (hdecoded.dots _ h).1 rfl) (by decide) hmem
          hone
      · exact decode_segment_ne hencoded hbytes (fun h => (hdecoded.dots _ h).2 rfl) (by decide) hmem
          htwo
    have hpathText : ((rest.splitOn '/').map (encode keepInPath)).flatMap ('/' :: ·) =
        encode keepInPath ('/' :: rest) := by
      rw [flatMap_slash fun hnil => List.splitOn_ne_nil _ _ (List.map_eq_nil_iff.mp hnil),
        ← encode_intercalate, List.intercalate_splitOn]
      rfl
    have hqueryText : (query.map (encode keepInQuery)).getD [] = encode keepInQuery (query.getD []) := by
      cases query <;> rfl
    have hqueryWellFormed := isWellFormed_iff.mpr (percentDecode_eq_some_iff.mp hquery).1
    obtain ⟨hqueryDecode, hqueryEncoded⟩ :=
      decode_encode rfl (fun c hc => (keep_digit hc).2) hqueryWellFormed
    refine ⟨_, decodedPath, decodedQuery, resolve_path base hvisible hquestion hrest hdots, rfl, ?_, ?_,
      ?_, ?_, hdecoded⟩
    · intro segment hsegment
      obtain ⟨source, hsource, rfl⟩ := List.mem_map.mp hsegment
      exact hdots source hsource
    · rw [WebUrl.pathText, hpathText]
      exact percentDecode_congr hpath hencoded hdecode
    · rw [hqueryText]
      exact percentDecode_congr hquery hqueryEncoded hqueryDecode
    · rw [WebUrl.pathText, hpathText, hqueryText]
      exact inApp_encode hpath ⟨rest, rfl⟩ hpathVisible hqueryVisible hdecoded
  · rw [percentDecodeLoop_eq hlength, List.drop_zero]
    cases percentDecodeBytes bytes <;> rfl

/-- A location with a query. -/
theorem safe_return_path_same_origin_query : safeReturnPath "/a?b".toList = some "/a?b".toList ∧
    ∃ url, resolve ⟨[[]], none, none⟩ "/a?b".toList = .sameOrigin url ∧ url.fragment = none := by
  have haccepted : safeReturnPath "/a?b".toList = some "/a?b".toList := by decide
  obtain ⟨hresolve, -⟩ := safe_return_path_same_origin
  obtain ⟨url, -, -, hurl, hfragment, -⟩ := hresolve _ _ ⟨[[]], none, none⟩ haccepted
  exact ⟨haccepted, url, hurl, hfragment⟩

end Crabinet.Oidc
