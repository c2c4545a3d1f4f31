import Mathlib.Algebra.Ring.Nat
import Mathlib.Data.List.DropRight
import Mathlib.Tactic.Common

/-!
# Text

Splitting and trimming of texts as lists of characters, and decimal numbers of 64 bits. A
number may be written with a plus sign and with leading zeros; it is always printed without.
-/

namespace Crabinet.Library

/-- The characters with the Unicode property `White_Space`. -/
def isWhitespace (c : Char) : Bool :=
  let code := c.toNat
  (0x09 ≤ code && code ≤ 0x0D) || code == 0x20 || code == 0x85 || code == 0xA0 || code == 0x1680 ||
    (0x2000 ≤ code && code ≤ 0x200A) || code == 0x2028 || code == 0x2029 || code == 0x202F ||
    code == 0x205F || code == 0x3000

/-- A text without the whitespace around it. -/
def trim (text : List Char) : List Char := (text.dropWhile isWhitespace).rdropWhile isWhitespace

/-- What is before and after the first separator. -/
def splitOnce (separator : Char) (text : List Char) : Option (List Char × List Char) :=
  match text.dropWhile (· != separator) with
  | [] => none
  | _ :: after => some (text.takeWhile (· != separator), after)

/-- The decimal digits. -/
def isAsciiDigit (c : Char) : Bool := '0' ≤ c && c ≤ '9'

/-- A text without its plus sign. -/
def unsigned : List Char → List Char
  | '+' :: rest => rest
  | text => text

/-- A number of 64 bits, as it is parsed. -/
def parseU64 (text : List Char) : Option ℕ :=
  let digits := unsigned text
  if digits.isEmpty || !digits.all isAsciiDigit then none
  else
    let number := Nat.ofDigitChars 10 digits 0
    if number < 2 ^ 64 then some number else none

variable {text : List Char}

/-- A text without whitespace at its ends is not trimmed. -/
theorem trim_eq_self (hfirst : ∀ c ∈ text.head?, isWhitespace c = false)
    (hlast : ∀ c ∈ text.getLast?, isWhitespace c = false) : trim text = text := by
  have hdrop : text.dropWhile isWhitespace = text := by
    cases text with
    | nil => rfl
    | cons c rest => exact List.dropWhile_cons_of_neg (by simp [hfirst c rfl])
  rw [trim, hdrop, List.rdropWhile_eq_self_iff]
  intro hne
  simp [hlast _ (List.getLast?_eq_getLast_of_ne_nil hne)]

theorem splitOnce_append {separator : Char} {before : List Char} (h : separator ∉ before)
    (after : List Char) : splitOnce separator (before ++ separator :: after) = some (before, after) := by
  have hall : ∀ c ∈ before, (c != separator) = true := fun c hc =>
    bne_iff_ne.mpr fun heq => h (heq ▸ hc)
  rw [splitOnce, List.dropWhile_append_of_pos hall, List.takeWhile_append_of_pos hall]
  simp

/-- A text is split at its first separator. -/
theorem splitOnce_eq_some {separator : Char} {before after : List Char} :
    splitOnce separator text = some (before, after) ↔
      text = before ++ separator :: after ∧ separator ∉ before := by
  constructor
  · intro h
    have hjoin := List.takeWhile_append_dropWhile (p := (· != separator)) (l := text)
    unfold splitOnce at h
    split at h
    · cases h
    · rename_i first rest hrest
      obtain ⟨rfl, rfl⟩ := Prod.mk.inj (Option.some.inj h)
      have hfirst := List.head_dropWhile_not (· != separator) (l := text) (by simp [hrest])
      simp only [hrest, List.head_cons, bne_eq_false_iff_eq] at hfirst
      subst hfirst
      exact ⟨by rw [← hrest, hjoin], fun hmem => by simpa using List.mem_takeWhile_imp hmem⟩
  · rintro ⟨rfl, hmem⟩
    exact splitOnce_append hmem after

/-- The parts of a list contain nothing else. -/
theorem subset_of_mem_splitOn {α : Type} [BEq α] [LawfulBEq α] {separator : α} {items part : List α}
    (h : part ∈ items.splitOn separator) : ∀ item ∈ part, item ∈ items := by
  induction items generalizing part with
  | nil =>
    rw [List.splitOn_nil, List.mem_singleton] at h
    subst h
    nofun
  | cons first rest ih =>
    intro item hitem
    rw [List.splitOn_cons_eq_if_modifyHead] at h
    split at h
    · rcases List.mem_cons.mp h with rfl | h
      · cases hitem
      · exact List.mem_cons_of_mem _ (ih h item hitem)
    · cases hparts : rest.splitOn separator with
      | nil => exact absurd hparts (List.splitOn_ne_nil _ _)
      | cons head parts =>
        rw [hparts] at ih h
        rcases List.mem_cons.mp h with rfl | h
        · rcases List.mem_cons.mp hitem with rfl | hitem
          · exact List.mem_cons_self
          · exact List.mem_cons_of_mem _ (ih List.mem_cons_self item hitem)
        · exact List.mem_cons_of_mem _ (ih (List.mem_cons_of_mem _ h) item hitem)

/-- The parts of a list do not contain the separator. -/
theorem notMem_of_mem_splitOn {α : Type} [BEq α] [LawfulBEq α] {separator : α} {items part : List α}
    (h : part ∈ items.splitOn separator) : separator ∉ part := by
  induction items generalizing part with
  | nil =>
    rw [List.splitOn_nil, List.mem_singleton] at h
    subst h
    exact List.not_mem_nil
  | cons first rest ih =>
    rw [List.splitOn_cons_eq_if_modifyHead] at h
    split at h
    · rcases List.mem_cons.mp h with rfl | h
      · exact List.not_mem_nil
      · exact ih h
    · rename_i hfirst
      cases hparts : rest.splitOn separator with
      | nil => exact absurd hparts (List.splitOn_ne_nil _ _)
      | cons head parts =>
        rw [hparts] at ih h
        rcases List.mem_cons.mp h with rfl | h
        · rw [List.mem_cons, not_or]
          exact ⟨fun heq => hfirst (heq ▸ BEq.rfl), ih List.mem_cons_self⟩
        · exact ih (List.mem_cons_of_mem _ h)

/-- A decimal digit is a digit. -/
theorem isAsciiDigit_of_mem_toDigits {number : ℕ} {c : Char} (h : c ∈ Nat.toDigits 10 number) :
    isAsciiDigit c = true := by
  have hdigit := Nat.isDigit_of_mem_toDigits (by decide) (by decide) h
  simpa [Char.isDigit, isAsciiDigit, Char.le_def] using hdigit

/-- Digits have no sign. -/
theorem unsigned_eq_self (h : text.all isAsciiDigit = true) : unsigned text = text := by
  unfold unsigned
  split
  · have hplus : isAsciiDigit '+' = true := List.all_eq_true.mp h _ List.mem_cons_self
    cases hplus
  · rfl

/-- What is printed is read again. -/
theorem parseU64_toDigits {number : ℕ} (h : number < 2 ^ 64) :
    parseU64 (Nat.toDigits 10 number) = some number := by
  have hall : (Nat.toDigits 10 number).all isAsciiDigit = true :=
    List.all_eq_true.mpr fun c hc => isAsciiDigit_of_mem_toDigits hc
  have hunsigned := unsigned_eq_self hall
  have hdigits : ¬((Nat.toDigits 10 number).isEmpty || !(Nat.toDigits 10 number).all isAsciiDigit) = true := by
    simp [hall, Nat.toDigits_ne_nil]
  simp only [parseU64, hunsigned, Nat.ofDigitChars_ten_toDigits, if_neg hdigits]
  exact if_pos h

/-! ### ASCII -/

/-- What holds of the ASCII characters one by one. -/
theorem forall_ascii {p : Char → Bool} (h : ∀ value : Fin 128, p (Char.ofNat value) = true) {c : Char}
    (hc : c.toNat < 128) : p c = true := by
  have hvalue := h ⟨c.toNat, hc⟩
  rwa [Char.ofNat_toNat] at hvalue

/-! ### UTF-8 -/

/-- An ASCII character is one byte. -/
theorem utf8EncodeChar_of_lt {c : Char} (h : c.toNat ≤ 0x7F) :
    String.utf8EncodeChar c = [UInt8.ofNat c.toNat] := if_pos h

/-- Where an encoding has the byte of an ASCII character, it is that character's. -/
theorem toNat_of_mem_utf8EncodeChar {c : Char} {byte : UInt8} (h : byte ∈ String.utf8EncodeChar c)
    (hbyte : byte.toNat < 0x80) : c.toNat = byte.toNat := by
  have hhigh {value : ℕ} (hlow : 0x80 ≤ value) (hlt : value < 256) : UInt8.ofNat value ≠ byte := by
    rintro rfl
    rw [UInt8.toNat_ofNat', Nat.mod_eq_of_lt hlt] at hbyte
    omega
  change c.val.toNat = byte.toNat
  unfold String.utf8EncodeChar at h
  dsimp only at h
  split at h
  · rename_i hascii
    obtain rfl := List.mem_singleton.mp h
    rw [UInt8.toNat_ofNat']
    exact (Nat.mod_eq_of_lt (by omega)).symm
  · split at h
    · simp only [List.mem_cons, List.not_mem_nil, or_false] at h
      rcases h with h | h <;> exact absurd h.symm (hhigh (by omega) (by omega))
    · split at h
      · simp only [List.mem_cons, List.not_mem_nil, or_false] at h
        rcases h with h | h | h <;> exact absurd h.symm (hhigh (by omega) (by omega))
      · simp only [List.mem_cons, List.not_mem_nil, or_false] at h
        rcases h with h | h | h | h <;> exact absurd h.symm (hhigh (by omega) (by omega))

/-- The bytes of a text in UTF-8. -/
def utf8Bytes (text : List Char) : List UInt8 := text.flatMap String.utf8EncodeChar

/-- The byte of an ASCII character in an encoding ends one part of the text and starts another. -/
theorem utf8Bytes_eq_append_cons {text : List Char} {before after : List UInt8} {c : Char}
    (hc : c.toNat ≤ 0x7F) (h : utf8Bytes text = before ++ UInt8.ofNat c.toNat :: after) :
    ∃ first second, text = first ++ c :: second ∧ utf8Bytes first = before ∧
      utf8Bytes second = after := by
  have hbyte : (UInt8.ofNat c.toNat).toNat = c.toNat := UInt8.toNat_ofNat_of_lt (by
    have hsize : UInt8.size = 256 := rfl
    omega)
  induction text generalizing before with
  | nil => exact absurd h.symm (List.append_ne_nil_of_right_ne_nil _ (List.cons_ne_nil _ _))
  | cons first rest ih =>
    rw [utf8Bytes, List.flatMap_cons, ← utf8Bytes] at h
    rcases List.append_eq_append_iff.mp h with ⟨more, rfl, hrest⟩ | ⟨more, hfirst, hmore⟩
    · obtain ⟨head, tail, rfl, hhead, htail⟩ := ih hrest
      exact ⟨first :: head, tail, rfl, by rw [utf8Bytes, List.flatMap_cons, ← utf8Bytes, hhead], htail⟩
    · cases more with
      | nil =>
        have hrest : utf8Bytes rest = [] ++ UInt8.ofNat c.toNat :: after := hmore.symm
        obtain ⟨head, tail, rfl, hhead, htail⟩ := ih hrest
        refine ⟨first :: head, tail, rfl, ?_, htail⟩
        rw [utf8Bytes, List.flatMap_cons, ← utf8Bytes, hhead, hfirst, List.append_nil,
          List.append_nil]
      | cons byte more =>
        obtain ⟨rfl, hafter⟩ := List.cons.inj hmore
        have hmem : UInt8.ofNat c.toNat ∈ String.utf8EncodeChar first := by
          rw [hfirst]
          exact List.mem_append_right _ List.mem_cons_self
        have hnat := toNat_of_mem_utf8EncodeChar hmem (by omega)
        obtain rfl : first = c := Char.toNat_inj.mp (hnat.trans hbyte)
        rw [utf8EncodeChar_of_lt hc] at hfirst
        have hlength := congrArg List.length hfirst
        simp only [List.length_append, List.length_cons, List.length_nil] at hlength
        obtain rfl : before = [] := List.length_eq_zero_iff.mp (by omega)
        obtain rfl : more = [] := List.length_eq_zero_iff.mp (by omega)
        exact ⟨[], rest, rfl, rfl, hafter.symm⟩

/-! ### Case -/

/-- A lower case is the character itself, unless that is a capital letter. -/
theorem toLower_cases (c : Char) : c.toLower = c ∨
    (65 ≤ c.toNat ∧ c.toNat ≤ 90) ∧ c.toLower.toNat = c.toNat + 32 := by
  unfold Char.toLower
  split
  · rename_i hupper
    have hlow : 65 ≤ c.toNat := hupper.1
    have hhigh : c.toNat ≤ 90 := hupper.2
    refine .inr ⟨⟨hlow, hhigh⟩, ?_⟩
    change (c.val + 32).toNat = c.toNat + 32
    rw [UInt32.toNat_add]
    change (c.toNat + 32) % 2 ^ 32 = c.toNat + 32
    omega
  · exact .inl rfl

/-- Only letters are the lower case of anything else. -/
theorem eq_of_toLower_eq {c d : Char} (h : c.toLower = d) (hd : ¬(97 ≤ d.toNat ∧ d.toNat ≤ 122)) :
    c = d := by
  rcases toLower_cases c with hsame | ⟨hupper, hlower⟩
  · rw [← h, hsame]
  · rw [h] at hlower
    omega

end Crabinet.Library
