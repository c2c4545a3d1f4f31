import Crabinet.Library.ContentDisposition

/-!
# The name of a download

What an answer says about the name to save a download under: a fallback of safe characters, and
the name itself with its other bytes escaped. Whatever the name is, it adds nothing else to the field.
-/

namespace Crabinet.Browse

open Crabinet.Library PercentEncoding UriComponents Utf8Decoder

/-- What `content_disposition` keeps of a name. -/
def keepInFilename (c : Char) : Bool := isAlphanumeric c || c == '.' || c == '-' || c == '_'

/-- `fallback`. -/
def fallback (filename : List Char) : List Char :=
  filename.map fun c => if keepInFilename c then c else '_'

/-- `encoded`. -/
def encoded (filename : List Char) : List Char :=
  (utf8Bytes filename).flatMap fun byte =>
    if keepInFilename (Char.ofNat byte.toNat) then [Char.ofNat byte.toNat] else escape byte

/-- `header_value`; `none` where the value is refused. -/
def headerValue (value : List Char) : Option (List Char) :=
  if value.all fun c => (32 ≤ c.toNat && c.toNat < 127) || c == '\t' then some value else none

/-- `content_disposition`. -/
def contentDisposition (filename : List Char) : Option (List Char) :=
  headerValue ("attachment; filename=\"".toList ++ fallback filename ++
    "\"; filename*=UTF-8''".toList ++ encoded filename)

section DownloadName

variable {filename : List Char} {c : Char}

theorem keepInFilename_cases (h : keepInFilename c = true) :
    isAlphanumeric c = true ∨ c = '.' ∨ c = '-' ∨ c = '_' := by
  simpa [keepInFilename, or_assoc] using h

/-- What is kept may stand in a token. -/
theorem isTokenChar_of_keepInFilename (h : keepInFilename c = true) :
    ContentDisposition.isTokenChar c = true := by
  rcases keepInFilename_cases h with halphanumeric | rfl | rfl | rfl
  · rw [ContentDisposition.isTokenChar, halphanumeric, Bool.true_or]
  · decide
  · decide
  · decide

/-- A token is valid in a header. -/
theorem visible_of_isTokenChar (h : ContentDisposition.isTokenChar c = true) :
    32 ≤ c.toNat ∧ c.toNat < 127 := by
  rcases Bool.or_eq_true_iff.mp h with halphanumeric | hmark
  · simp only [isAlphanumeric, Bool.or_eq_true, Bool.and_eq_true, decide_eq_true_eq, Char.le_def,
      UInt32.le_iff_toNat_le] at halphanumeric
    have hvalue : c.val.toNat = c.toNat := rfl
    have h0 : '0'.val.toNat = 48 := rfl
    have h9 : '9'.val.toNat = 57 := rfl
    have hA : 'A'.val.toNat = 65 := rfl
    have hZ : 'Z'.val.toNat = 90 := rfl
    have ha : 'a'.val.toNat = 97 := rfl
    have hz : 'z'.val.toNat = 122 := rfl
    omega
  · have hall : ∀ c ∈ "!#$%&'*+-.^_`|~".toList, 32 ≤ c.toNat ∧ c.toNat < 127 := by simp
    exact hall c (List.contains_iff_mem.mp hmark)

theorem toNat_lt_of_keepInFilename (h : keepInFilename c = true) : c.toNat < 128 := by
  have hvisible := visible_of_isTokenChar (isTokenChar_of_keepInFilename h)
  exact hvisible.2.trans (by decide)

theorem visible_of_token {text : List Char} (h : text.all ContentDisposition.isTokenChar = true) :
    ∀ c ∈ text, 32 ≤ c.toNat ∧ c.toNat < 127 :=
  fun c hc => visible_of_isTokenChar (List.all_eq_true.mp h c hc)

/-- A byte is kept if it is a character that is kept. -/
theorem flatMap_utf8EncodeChar (c : Char) :
    ((String.utf8EncodeChar c).flatMap fun byte =>
      if keepInFilename (Char.ofNat byte.toNat) then [Char.ofNat byte.toNat] else escape byte) =
      encodeChar keepInFilename c := by
  by_cases hascii : c.toNat ≤ 0x7F
  · have hbyte : Char.ofNat (UInt8.ofNat c.toNat).toNat = c := by
      rw [UInt8.toNat_ofNat', Nat.mod_eq_of_lt (by omega), Char.ofNat_toNat]
    rw [encodeChar, utf8EncodeChar_of_lt hascii, List.flatMap_singleton, List.flatMap_singleton, hbyte]
  · have hkeep : keepInFilename c = false := by
      refine Bool.eq_false_iff.mpr fun hkept => ?_
      have hlt := toNat_lt_of_keepInFilename hkept
      omega
    rw [encodeChar, hkeep, if_neg Bool.false_ne_true]
    refine List.flatMap_congr fun byte hbyte => if_neg fun hkept => ?_
    -- No byte of a longer encoding is one of an ASCII character.
    have hlt := toNat_lt_of_keepInFilename hkept
    have hsmall : byte.toNat < 0x80 := by
      have hnat : (Char.ofNat byte.toNat).toNat = byte.toNat := by
        have hvalid : byte.toNat.isValidChar := .inl (by have := byte.toNat_lt; omega)
        rw [Char.ofNat, dif_pos hvalid]
        rfl
      rwa [hnat] at hlt
    have heq := toNat_of_mem_utf8EncodeChar hbyte hsmall
    omega

theorem encoded_eq (filename : List Char) : encoded filename = encode keepInFilename filename := by
  rw [encoded, encode, utf8Bytes, List.flatMap_assoc]
  exact List.flatMap_congr fun c _ => flatMap_utf8EncodeChar c

theorem isTokenChar_of_mem_encoded (h : c ∈ encoded filename) :
    ContentDisposition.isTokenChar c = true := by
  rw [encoded_eq] at h
  refine of_mem_encode (P := fun c => ContentDisposition.isTokenChar c = true)
    (fun c _ hc => isTokenChar_of_keepInFilename hc) (by decide) (fun value hvalue => ?_) h
  rw [ContentDisposition.isTokenChar, isAlphanumeric_upperHexDigit hvalue, Bool.true_or]

theorem keep_of_mem_fallback (h : c ∈ fallback filename) : keepInFilename c = true := by
  obtain ⟨source, -, rfl⟩ := List.mem_map.mp h
  split_ifs with hkept
  · exact hkept
  · decide

/-- The escaped bytes are those of the name. -/
theorem decode_encoded (filename : List Char) :
    decode (encoded filename) = utf8Bytes filename ∧ isWellFormed (encoded filename) = true := by
  have hpercent : keepInFilename '%' = false := by decide
  have h := decode_encode_append hpercent filename []
  rw [List.append_nil] at h
  rw [encoded_eq]
  exact ⟨h.1.trans (List.append_nil _), h.2⟩

/-- The value of `filename*` is the name. -/
theorem extendedValue_encoded (filename : List Char) :
    ContentDisposition.extendedValue ("UTF-8''".toList ++ encoded filename) = some filename := by
  obtain ⟨hdecode, hwellFormed⟩ := decode_encoded filename
  have hparts : ContentDisposition.extendedValue ("UTF-8''".toList ++ encoded filename) =
      if "UTF-8".toList.map Char.toLower = "utf-8".toList ∧
          some ContentDisposition.apostrophe = some ContentDisposition.apostrophe ∧
            isWellFormed (encoded filename) then utf8Text (decode (encoded filename)) else none := rfl
  rw [hparts, if_pos ⟨by decide, rfl, hwellFormed⟩, hdecode, utf8Text_utf8Bytes]

/-- The second value, with what parts it from the first. -/
def extendedPart (filename : List Char) : List Char :=
  ';' :: ' ' :: ("filename*".toList ++ '=' :: ("UTF-8''".toList ++ encoded filename))

/-- Both values. -/
def bothParts (filename : List Char) : List Char :=
  ';' :: ' ' :: ("filename".toList ++ '=' :: '"' :: (fallback filename ++ '"' :: extendedPart filename))

theorem contentDisposition_eq (filename : List Char) :
    contentDisposition filename = headerValue ("attachment".toList ++ bothParts filename) := by
  rw [contentDisposition]
  congr 1
  simp [bothParts, extendedPart]

/-- The text of the field is a valid value. -/
theorem headerValue_bothParts (filename : List Char) :
    headerValue ("attachment".toList ++ bothParts filename) =
      some ("attachment".toList ++ bothParts filename) := by
  have hall : ∀ c ∈ "attachment".toList ++ bothParts filename, 32 ≤ c.toNat ∧ c.toNat < 127 := by
    simp only [bothParts, extendedPart, List.forall_mem_append, List.forall_mem_cons]
    refine ⟨visible_of_token rfl, by decide, by decide, visible_of_token rfl, by decide, by decide, ?_,
      by decide, by decide, by decide, visible_of_token rfl, by decide, visible_of_token rfl, ?_⟩
    · intro c hc
      exact visible_of_isTokenChar (isTokenChar_of_keepInFilename (keep_of_mem_fallback hc))
    · intro c hc
      exact visible_of_isTokenChar (isTokenChar_of_mem_encoded hc)
  apply if_pos
  apply List.all_eq_true.mpr
  intro c hc
  obtain ⟨hlow, hhigh⟩ := hall c hc
  simp [hlow, hhigh]

theorem readParameters_extendedPart (filename : List Char) (fuel : ℕ) :
    ContentDisposition.readParameters (fuel + 1) (extendedPart filename) =
      some [("filename*".toList, "UTF-8''".toList ++ encoded filename)] := by
  have htoken : ∀ c ∈ "UTF-8''".toList ++ encoded filename, ContentDisposition.isTokenChar c = true := by
    rw [List.forall_mem_append]
    exact ⟨List.all_eq_true.mp rfl, fun c hc => isTokenChar_of_mem_encoded hc⟩
  have hvalue := ContentDisposition.readValue_token (List.cons_ne_nil _ _) htoken
  apply ContentDisposition.readParameters_cons (List.all_eq_true.mp rfl) hvalue
  cases fuel with
  | zero => rfl
  | succ fuel => rfl

theorem readParameters_bothParts (filename : List Char) (fuel : ℕ) :
    ContentDisposition.readParameters (fuel + 2) (bothParts filename) =
      some [("filename".toList, fallback filename),
        ("filename*".toList, "UTF-8''".toList ++ encoded filename)] := by
  have hquoted : ∀ c ∈ fallback filename, c ≠ '"' ∧ c ≠ '\\' := by
    intro c hc
    have hkept := keep_of_mem_fallback hc
    constructor
    · intro heq
      exact absurd (heq ▸ hkept) (by decide)
    · intro heq
      exact absurd (heq ▸ hkept) (by decide)
  have hvalue := @ContentDisposition.readValue_quoted (extendedPart filename) (fallback filename) hquoted
  exact ContentDisposition.readParameters_cons (List.all_eq_true.mp rfl) hvalue
    (readParameters_extendedPart filename fuel)

theorem read_bothParts (filename : List Char) :
    ContentDisposition.read ("attachment".toList ++ bothParts filename) = some ⟨"attachment".toList,
      [("filename".toList, fallback filename),
        ("filename*".toList, "UTF-8''".toList ++ encoded filename)]⟩ := by
  have hend : ∀ c, (bothParts filename).head? = some c → ContentDisposition.isTokenChar c = false := by
    intro c hc
    obtain rfl := Option.some.inj hc
    decide
  have hkind : ∀ c ∈ "attachment".toList, ContentDisposition.isTokenChar c = true :=
    List.all_eq_true.mp rfl
  obtain ⟨htake, hdrop⟩ := ContentDisposition.takeWhile_token hkind hend
  have hspaces : (bothParts filename).dropWhile (· == ' ') = bothParts filename := rfl
  have hlength : ("attachment".toList ++ bothParts filename).length = (bothParts filename).length + 8 + 2 := by
    rw [List.length_append]
    exact Nat.add_comm _ _
  rw [ContentDisposition.read, htake, hdrop, hspaces, hlength, readParameters_bothParts]
  rfl

/-- What is sent for a name, whatever it is, is a valid field that a browser reads as an attachment with
two values: a name of safe characters for those that read no other, and the name itself. -/
theorem content_disposition_round_trip (filename : List Char) : ∃ value disposition,
    contentDisposition filename = some value ∧ ContentDisposition.read value = some disposition ∧
      disposition.kind = "attachment".toList ∧
      disposition.parameters.map Prod.fst = ["filename".toList, "filename*".toList] ∧
      disposition.parameter "filename" = some (fallback filename) ∧
      (∀ c ∈ fallback filename, keepInFilename c = true) ∧ disposition.filename = some filename := by
  refine ⟨"attachment".toList ++ bothParts filename, _, ?_, read_bothParts filename, rfl, rfl, rfl, ?_, ?_⟩
  · rw [contentDisposition_eq, headerValue_bothParts]
  · intro c hc
    exact keep_of_mem_fallback hc
  · have hname : ContentDisposition.filename ⟨"attachment".toList,
        [("filename".toList, fallback filename),
          ("filename*".toList, "UTF-8''".toList ++ encoded filename)]⟩ =
        (ContentDisposition.extendedValue ("UTF-8''".toList ++ encoded filename)).or
          (some (fallback filename)) := rfl
    rw [hname, extendedValue_encoded]
    rfl

end DownloadName

end Crabinet.Browse
