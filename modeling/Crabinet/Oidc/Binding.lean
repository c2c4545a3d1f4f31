import Crabinet.Oidc.Transaction

/-!
# What a cookie is bound to

A sign-in's own cookie is read back field by field, and the message of a tag determines the
four fields before it. The fields of a cookie come from a header, so none of them has a byte
that is zero, which is what stands between them in the message.
-/

namespace Crabinet.Oidc

open Crabinet.Filesystem Crabinet.Library Crabinet.Tokens

/-! ### Characters of the cookie -/

/-- The characters of states, keys, numbers and tags. -/
def isTokenCharacter (c : Char) : Bool := isAsciiAlphanumeric c || c == '-' || c == '_'

theorem isTokenCharacter_digit {value : ℕ} (h : value < 64) :
    isTokenCharacter (Base64.digit value) = true := by
  have hall : ∀ value : Fin 64, isTokenCharacter (Base64.digit value) = true := by decide
  exact hall ⟨value, h⟩

theorem isTokenCharacter_hexDigit {value : ℕ} (h : value < 16) :
    isTokenCharacter (hexDigit value) = true := by
  have hall : ∀ value : Fin 16, isTokenCharacter (hexDigit value) = true := by decide
  exact hall ⟨value, h⟩

/-- An encoding is made of token characters. -/
theorem isTokenCharacter_of_mem_encode {bytes : List UInt8} {c : Char} (h : c ∈ Base64.encode bytes) :
    isTokenCharacter c = true := by
  induction bytes using Base64.encode.induct with
  | case1 first second third rest ih =>
    have hfirst := first.toNat_lt
    have hsecond := second.toNat_lt
    have hthird := third.toNat_lt
    simp only [Base64.encode, List.mem_cons] at h
    rcases h with rfl | rfl | rfl | rfl | h
    · exact isTokenCharacter_digit (by omega)
    · exact isTokenCharacter_digit (by omega)
    · exact isTokenCharacter_digit (by omega)
    · exact isTokenCharacter_digit (by omega)
    · exact ih h
  | case2 first second =>
    have hfirst := first.toNat_lt
    have hsecond := second.toNat_lt
    simp only [Base64.encode, List.mem_cons, List.not_mem_nil, or_false] at h
    rcases h with rfl | rfl | rfl
    · exact isTokenCharacter_digit (by omega)
    · exact isTokenCharacter_digit (by omega)
    · exact isTokenCharacter_digit (by omega)
  | case3 first =>
    have hfirst := first.toNat_lt
    simp only [Base64.encode, List.mem_cons, List.not_mem_nil, or_false] at h
    rcases h with rfl | rfl
    · exact isTokenCharacter_digit (by omega)
    · exact isTokenCharacter_digit (by omega)
  | case4 => cases h

theorem isTokenCharacter_of_mem_hex {bytes : List UInt8} {c : Char} (h : c ∈ hex bytes) :
    isTokenCharacter c = true := by
  obtain ⟨byte, -, hc⟩ := List.mem_flatMap.mp h
  have hbyte := byte.toNat_lt
  simp only [List.mem_cons, List.not_mem_nil, or_false] at hc
  rcases hc with rfl | rfl
  · exact isTokenCharacter_hexDigit (by omega)
  · exact isTokenCharacter_hexDigit (by omega)

theorem isTokenCharacter_of_mem_toDigits {number : ℕ} {c : Char} (h : c ∈ Nat.toDigits 10 number) :
    isTokenCharacter c = true := by
  have hdigit := isAsciiDigit_of_mem_toDigits h
  simp only [isTokenCharacter, isAsciiAlphanumeric]
  simp only [isAsciiDigit] at hdigit
  rw [hdigit]
  rfl

/-- A token character is between the digits and the lower-case letters of ASCII, or a hyphen. -/
theorem toNat_of_isTokenCharacter {c : Char} (h : isTokenCharacter c = true) :
    c.toNat = 45 ∨ (48 ≤ c.toNat ∧ c.toNat ≤ 57) ∨ (65 ≤ c.toNat ∧ c.toNat ≤ 90) ∨ c.toNat = 95 ∨
      (97 ≤ c.toNat ∧ c.toNat ≤ 122) := by
  simp only [isTokenCharacter, isAsciiAlphanumeric, Bool.or_eq_true, Bool.and_eq_true,
    decide_eq_true_eq, beq_iff_eq, Char.le_def, UInt32.le_iff_toNat_le] at h
  rcases h with (((h | h) | h) | rfl) | rfl
  · exact .inr (.inl h)
  · exact .inr (.inr (.inl h))
  · exact .inr (.inr (.inr (.inr h)))
  · exact .inl rfl
  · exact .inr (.inr (.inr (.inl rfl)))

/-- The bytes of visible characters are visible. -/
theorem mem_bytesOf_visible {text : List Char} (h : ∀ c ∈ text, 33 ≤ c.toNat ∧ c.toNat ≤ 126)
    {byte : UInt8} (hbyte : byte ∈ bytesOf text) : ∃ c ∈ text, byte.toNat = c.toNat := by
  rw [bytesOf_eq, List.mem_flatMap] at hbyte
  obtain ⟨c, hc, hbyte⟩ := hbyte
  have hvisible := h c hc
  rw [utf8EncodeChar_of_lt (by omega), List.mem_singleton] at hbyte
  refine ⟨c, hc, ?_⟩
  rw [hbyte, UInt8.toNat_ofNat']
  omega

/-- A text of token characters has no byte that is zero. -/
theorem zero_notMem_bytesOf {text : List Char} (h : ∀ c ∈ text, isTokenCharacter c = true) :
    0 ∉ bytesOf text := by
  intro hzero
  have hvisible : ∀ c ∈ text, 33 ≤ c.toNat ∧ c.toNat ≤ 126 := fun c hc => by
    have := toNat_of_isTokenCharacter (h c hc)
    omega
  obtain ⟨c, hc, hbyte⟩ := mem_bytesOf_visible hvisible hzero
  have := hvisible c hc
  change 0 = c.toNat at hbyte
  omega

/-- A text of token characters has as many bytes. -/
theorem length_bytesOf {text : List Char} (h : ∀ c ∈ text, isTokenCharacter c = true) :
    (bytesOf text).length = text.length := by
  rw [bytesOf_eq]
  induction text with
  | nil => rfl
  | cons c rest ih =>
    have hc := toNat_of_isTokenCharacter (h c List.mem_cons_self)
    rw [List.flatMap_cons, List.length_append, ih fun other hother => h other (List.mem_cons_of_mem _ hother),
      utf8EncodeChar_of_lt (by omega), List.length_cons]
    exact Nat.add_comm _ _

namespace Bound

variable (bound : Bound)

theorem state_token : ∀ c ∈ bound.state, isTokenCharacter c = true :=
  fun _ => isTokenCharacter_of_mem_encode

theorem previousText_token : ∀ c ∈ bound.previousText, isTokenCharacter c = true := by
  intro c hc
  cases hprevious : bound.previous with
  | none => simp [previousText, hprevious] at hc
  | some key =>
    rw [previousText, hprevious] at hc
    exact isTokenCharacter_of_mem_hex hc

theorem returnText_token : ∀ c ∈ bound.returnText, isTokenCharacter c = true := by
  intro c hc
  cases hpath : bound.returnPath with
  | none => simp [returnText, hpath] at hc
  | some path =>
    rw [returnText, hpath] at hc
    exact isTokenCharacter_of_mem_encode hc

/-- A state is 43 characters long. -/
theorem length_state : bound.state.length = 43 := by
  rw [state, Base64.length_encode, Vector.length_toList]

theorem expiresAt_lt : bound.expiresAt < 2 ^ 64 := by
  have := bound.now.lt
  rw [expiresAt, transactionSeconds]
  omega

end Bound

/-! ### Reading a cookie -/

/-- Fields without dots are read back from the cookie's text. -/
theorem cookieFields_text {fields : CookieFields}
    (h : ∀ field ∈ [fields.state, fields.expiresAt, fields.previous, fields.returnPath, fields.tag],
      '.' ∉ field) : cookieFields fields.text = some fields := by
  rw [cookieFields, CookieFields.text, List.splitOn_intercalate '.' h (List.cons_ne_nil _ _)]

/-- What is read from a text is what it is made of. -/
theorem text_of_cookieFields {value : List Char} {fields : CookieFields}
    (h : cookieFields value = some fields) : value = fields.text := by
  unfold cookieFields at h
  split at h
  · rename_i state expiresAt previous returnPath tag hsplit
    obtain rfl := Option.some.inj h
    rw [CookieFields.text, ← hsplit, List.intercalate_splitOn]
  · cases h

/-- The fields before the tag have no characters that the text does not have. -/
theorem mem_text_of_mem_field {fields : CookieFields} {field : List Char}
    (h : field ∈ [fields.state, fields.expiresAt, fields.previous, fields.returnPath, fields.tag])
    {c : Char} (hc : c ∈ field) : c ∈ fields.text := by
  simp only [List.mem_cons, List.not_mem_nil, or_false] at h
  simp only [CookieFields.text, List.intercalate, List.intersperse, List.flatten_cons, List.flatten_nil,
    List.mem_append]
  rcases h with rfl | rfl | rfl | rfl | rfl <;> simp [hc]

/-- A cookie's value is part of a header. -/
theorem mem_header_of_cookieValue {headers : List HeaderValue} {name value : List Char}
    (h : cookieValue headers name = some value) :
    ∃ header ∈ headers, ∀ byte ∈ bytesOf value, byte ∈ header.bytes := by
  simp only [cookieValue] at h
  split at h
  · rename_i key found hpairs
    obtain rfl := Option.some.inj h
    have hmem : (key, found) ∈ _ := List.mem_of_mem_filter (hpairs ▸ List.mem_singleton_self _)
    obtain ⟨pair, hpair, hread⟩ := List.mem_filterMap.mp hmem
    obtain ⟨header, hheader, hpair⟩ := List.mem_flatMap.mp hpair
    refine ⟨header, hheader, fun byte hbyte => ?_⟩
    obtain ⟨text, htext, hsplit⟩ := Option.bind_eq_some_iff.mp hread
    have hpart : byte ∈ pair := by
      rw [← bytesOf_textOf htext]
      refine mem_bytesOf_of_subset (fun c hc => ?_) hbyte
      have htrimmed : c ∈ trim text := by
        unfold splitOnce at hsplit
        split at hsplit
        · cases hsplit
        · rename_i separator after hafter
          obtain ⟨-, rfl⟩ := Prod.mk.inj (Option.some.inj hsplit)
          exact List.dropWhile_subset _ (hafter ▸ List.mem_cons_of_mem _ hc)
      exact List.dropWhile_subset _ ((List.rdropWhile_prefix _ _).subset htrimmed)
    exact subset_of_mem_splitOn hpair byte hpart
  · cases h

/-! ### A sign-in's own header -/

theorem mem_text {fields : CookieFields} {c : Char} (h : c ∈ fields.text) :
    c = '.' ∨ ∃ field ∈ [fields.state, fields.expiresAt, fields.previous, fields.returnPath, fields.tag],
      c ∈ field := by
  simp only [CookieFields.text, List.intercalate, List.intersperse, List.flatten_cons, List.flatten_nil,
    List.mem_append, List.mem_singleton, List.not_mem_nil, or_false] at h
  simp only [List.mem_cons, List.not_mem_nil, or_false, exists_eq_or_imp, exists_eq_left]
  tauto

namespace OidcService

variable (service : OidcService) (bound : Bound)

/-- The fields of a sign-in's cookie are made of token characters. -/
theorem fields_token : ∀ field ∈ [(service.fields bound).state, (service.fields bound).expiresAt,
    (service.fields bound).previous, (service.fields bound).returnPath, (service.fields bound).tag],
    ∀ c ∈ field, isTokenCharacter c = true := by
  intro field hfield
  simp only [List.mem_cons, List.not_mem_nil, or_false] at hfield
  rcases hfield with rfl | rfl | rfl | rfl | rfl
  · exact bound.state_token
  · exact fun _ => isTokenCharacter_of_mem_toDigits
  · exact bound.previousText_token
  · exact bound.returnText_token
  · exact fun _ => isTokenCharacter_of_mem_encode

/-- What a browser sends for the cookie of a sign-in. -/
def pair : List Char := transactionCookie ++ '=' :: (service.fields bound).text

/-- The pair is visible, and has no semicolon. -/
theorem pair_visible : ∀ c ∈ service.pair bound,
    (33 ≤ c.toNat ∧ c.toNat ≤ 126) ∧ c.toNat ≠ 59 := by
  intro c hc
  rcases List.mem_append.mp hc with hc | hc
  · have hall : transactionCookie.all (fun c => 33 ≤ c.toNat && c.toNat ≤ 126 && c.toNat != 59) = true := by
      decide
    simpa only [Bool.and_eq_true, decide_eq_true_eq, bne_iff_ne] using List.all_eq_true.mp hall c hc
  · rcases List.mem_cons.mp hc with rfl | hc
    · decide
    · rcases mem_text hc with rfl | ⟨field, hfield, hc⟩
      · decide
      · have := toNat_of_isTokenCharacter (service.fields_token bound field hfield c hc)
        omega

/-- The header a browser sends. -/
def header : HeaderValue where
  bytes := bytesOf (service.pair bound)
  valid := by
    refine List.all_eq_true.mpr fun byte hbyte => ?_
    obtain ⟨c, hc, hsame⟩ := mem_bytesOf_visible (fun c hc => (service.pair_visible bound c hc).1) hbyte
    have hvisible := (service.pair_visible bound c hc).1
    have hlow : 32 ≤ byte := UInt8.le_iff_toNat_le.mpr (by simp only [UInt8.toNat_ofNat]; omega)
    have hdel : byte ≠ 127 := fun heq => by
      rw [heq] at hsame
      change 127 = c.toNat at hsame
      omega
    simp [hlow, hdel]

/-- The header has the cookie. -/
theorem cookieValue_header :
    cookieValue [service.header bound] transactionCookie = some (service.fields bound).text := by
  have hvisible := service.pair_visible bound
  have hsplit : (service.header bound).bytes.splitOn 59 = [bytesOf (service.pair bound)] := by
    refine List.splitOn_eq_singleton fun hmem => ?_
    obtain ⟨c, hc, hsame⟩ := mem_bytesOf_visible (fun c hc => (hvisible c hc).1) hmem
    exact (hvisible c hc).2 hsame.symm
  have hwhite : ∀ c ∈ service.pair bound, isWhitespace c = false := fun c hc => by
    have := (hvisible c hc).1
    simp only [isWhitespace, Bool.or_eq_false_iff, Bool.and_eq_false_iff, decide_eq_false_iff_not,
      beq_eq_false_iff_ne]
    omega
  have hpair : cookiePair (bytesOf (service.pair bound)) =
      some (transactionCookie, (service.fields bound).text) := by
    rw [cookiePair, textOf_bytesOf]
    simp only [Option.bind_eq_bind, Option.bind_some]
    rw [trim_eq_self (fun c hc => hwhite c (List.mem_of_mem_head? hc))
      (fun c hc => hwhite c (List.mem_of_getLast? hc)), pair,
      splitOnce_append (by decide)]
  simp only [cookieValue, List.flatMap_cons, List.flatMap_nil, List.append_nil, hsplit,
    List.filterMap_cons, hpair, List.filterMap_nil, List.filter_cons, beq_self_eq_true, if_true,
    List.filter_nil]

end OidcService

/-! ### Session keys and locations -/

theorem decodeNibble_hexDigit {value : ℕ} (h : value < 16) :
    decodeNibble (UInt8.ofNat (hexDigit value).toNat) = some value := by
  have hall : ∀ value : Fin 16, decodeNibble (UInt8.ofNat (hexDigit value).toNat) = some value.val := by
    decide
  exact hall ⟨value, h⟩

/-- The bytes of a key's digits give the key. -/
theorem decodePairs_hex (bytes : List UInt8) : decodePairs (bytesOf (hex bytes)) = some bytes := by
  induction bytes with
  | nil => rfl
  | cons byte rest ih =>
    have hbyte := byte.toNat_lt
    have hdigit : ∀ value < 16, String.utf8EncodeChar (hexDigit value) =
        [UInt8.ofNat (hexDigit value).toNat] := fun value hvalue => by
      have := toNat_of_isTokenCharacter (isTokenCharacter_hexDigit hvalue)
      exact utf8EncodeChar_of_lt (by omega)
    have hsplit : bytesOf (hex (byte :: rest)) =
        UInt8.ofNat (hexDigit (byte.toNat / 16)).toNat :: UInt8.ofNat (hexDigit (byte.toNat % 16)).toNat ::
          bytesOf (hex rest) := by
      rw [bytesOf_eq, bytesOf_eq, hex, hex, List.flatMap_cons, List.flatMap_append, List.flatMap_cons,
        List.flatMap_cons, List.flatMap_nil, hdigit _ (by omega), hdigit _ (by omega)]
      rfl
    have hvalue : UInt8.ofNat (byte.toNat / 16 * 16 + byte.toNat % 16) = byte := by
      rw [Nat.div_add_mod', UInt8.ofNat_toNat]
    rw [hsplit, decodePairs, decodeNibble_hexDigit (by omega), decodeNibble_hexDigit (by omega), ih]
    simp only [Option.bind_eq_bind, Option.bind_some, Option.pure_def, hvalue]

/-- The key in a sign-in's cookie is the one it replaces. -/
theorem previousSessionKey_previousText (bound : Bound) :
    previousSessionKey bound.previousText = some (bound.previous.map (·.toList)) := by
  cases hprevious : bound.previous with
  | none => rw [Bound.previousText, hprevious]; rfl
  | some key =>
    have hlength : (hex key.toList).length = 64 := by
      rw [hex, List.length_flatMap]
      simp
    have hbytes : (bytesOf (hex key.toList)).length = tokenBytes * 2 := by
      rw [length_bytesOf fun _ => isTokenCharacter_of_mem_hex, hlength]
      rfl
    have hne : (hex key.toList).isEmpty = false := by
      cases hhex : hex key.toList with
      | nil => rw [hhex] at hlength; cases hlength
      | cons _ _ => rfl
    rw [Bound.previousText, hprevious, Option.map_some, Option.getD_some, previousSessionKey, hne,
      decodeToken, if_neg (not_not.mpr hbytes), decodePairs_hex]
    rfl

/-- The location in a sign-in's cookie is the one it keeps. -/
theorem returnPath_returnText (bound : Bound) :
    (do safeReturnPath (← textOf (← Base64.decode bound.returnText)) : Option (List Char)) =
      bound.returnPath := by
  cases hpath : bound.returnPath with
  | none =>
    have hempty : safeReturnPath [] = none := rfl
    rw [Bound.returnText, hpath, Option.map_none, Option.getD_none, Base64.decode]
    exact hempty
  | some path =>
    rw [Bound.returnText, hpath, Option.map_some, Option.getD_some, Base64.decode_encode]
    simp only [Option.bind_eq_bind, Option.bind_some, textOf_bytesOf]
    exact bound.safe path hpath

/-! ### Messages -/

/-- The message of a tag determines the fields before it. -/
theorem cookieMessage_inj {state state' previous previous' returnPath returnPath' : List Char}
    {expiresAt expiresAt' : ℕ} (hstate : 0 ∉ bytesOf state) (hstate' : 0 ∉ bytesOf state')
    (hprevious : 0 ∉ bytesOf previous) (hprevious' : 0 ∉ bytesOf previous') :
    cookieMessage state expiresAt previous returnPath =
        cookieMessage state' expiresAt' previous' returnPath' ↔
      state = state' ∧ expiresAt = expiresAt' ∧ previous = previous' ∧ returnPath = returnPath' := by
  have hdigits : ∀ number, 0 ∉ bytesOf (Nat.toDigits 10 number) := fun number =>
    zero_notMem_bytesOf fun _ => isTokenCharacter_of_mem_toDigits
  rw [cookieMessage, cookieMessage, List.append_right_inj, append_separator_inj hstate hstate',
    append_separator_inj (hdigits _) (hdigits _), append_separator_inj hprevious hprevious',
    bytesOf_inj, bytesOf_inj, bytesOf_inj, bytesOf_inj]
  refine and_congr_right fun _ => and_congr_left fun _ => ⟨fun h => ?_, fun h => by rw [h]⟩
  rw [← Nat.ofDigitChars_ten_toDigits (n := expiresAt), h, Nat.ofDigitChars_ten_toDigits]

/-- The message of a cookie is not that of a nonce or a verifier. -/
theorem cookieMessage_ne_deriveMessage {state other previous returnPath : List Char} {expiresAt : ℕ}
    {domain : String} (h : domain = "oidc-nonce\x00" ∨ domain = "oidc-verifier\x00") :
    cookieMessage state expiresAt previous returnPath ≠ deriveMessage domain other := by
  intro hsame
  have hcookie : (cookieMessage state expiresAt previous returnPath)[5]? = some 116 := rfl
  rw [hsame] at hcookie
  rcases h with rfl | rfl <;> cases hcookie

end Crabinet.Oidc
