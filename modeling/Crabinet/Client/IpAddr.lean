import Mathlib.Data.List.TakeWhile
import Mathlib.Tactic.Common

/-!
# IP addresses and their textual forms

Addresses as bit vectors, and the standard library's readers for them over a list of
characters. Every reader consumes address characters only, which is what keeps quotes and
separators out of whatever it accepts.
-/

namespace Crabinet.Client

/-- `IpAddr`. -/
inductive IpAddr where
  | v4 (bits : BitVec 32)
  | v6 (bits : BitVec 128)
deriving DecidableEq, Repr

/-- `to_canonical`: an IPv4-mapped IPv6 address becomes the IPv4 address. -/
def IpAddr.toCanonical : IpAddr → IpAddr
  | .v4 bits => .v4 bits
  | .v6 bits => if bits >>> 32 = 0xFFFF#128 then .v4 (bits.setWidth 32) else .v6 bits

/-- `is_ipv4`. -/
def IpAddr.isIpv4 : IpAddr → Bool
  | .v4 _ => true
  | .v6 _ => false

@[simp] theorem IpAddr.toCanonical_toCanonical (address : IpAddr) :
    address.toCanonical.toCanonical = address.toCanonical := by
  cases address with
  | v4 bits => rfl
  | v6 bits =>
    by_cases h : bits >>> 32 = 0xFFFF#128 <;> simp [toCanonical, h]

/-- What a reader returns: a value and the unread characters. -/
abbrev Reader (α : Type) := List Char → Option (α × List Char)

/-- `char::to_digit`. -/
def toDigit (radix : ℕ) (c : Char) : Option ℕ :=
  let value :=
    if '0' ≤ c ∧ c ≤ '9' then some (c.toNat - '0'.toNat)
    else if 'a' ≤ c ∧ c ≤ 'f' then some (c.toNat - 'a'.toNat + 10)
    else if 'A' ≤ c ∧ c ≤ 'F' then some (c.toNat - 'A'.toNat + 10)
    else none
  value.filter fun value => value < radix

/-- `read_number`: as many digits as there are, at most `maxDigits` of them and at most `bound`. -/
def readNumber (radix maxDigits : ℕ) (allowZeroPrefix : Bool) (bound : ℕ) : Reader ℕ := fun text =>
  let digits := text.takeWhile fun c => (toDigit radix c).isSome
  let value := digits.foldl (fun value c => value * radix + (toDigit radix c).getD 0) 0
  if digits.length = 0 ∨ maxDigits < digits.length ∨ bound < value ∨
      (allowZeroPrefix = false ∧ digits.head? = some '0' ∧ 1 < digits.length) then none
  else some (value, text.drop digits.length)

/-- `read_given_char`. -/
def readGivenChar (c : Char) (text : List Char) : Option (List Char) :=
  match text with
  | first :: rest => if first = c then some rest else none
  | [] => none

/-- `read_separator`: the separator, except before the first element. -/
def readSeparator (separator : Char) (index : ℕ) {α : Type} (inner : Reader α) : Reader α :=
  fun text => if index = 0 then inner text else (readGivenChar separator text).bind inner

/-- One octet of a dotted address. -/
def readOctet (index : ℕ) : Reader ℕ := readSeparator '.' index (readNumber 10 3 false 255)

/-- `read_ipv4_addr`. -/
def readIpv4Addr : Reader (BitVec 32) := fun text => do
  let (a, text) ← readOctet 0 text
  let (b, text) ← readOctet 1 text
  let (c, text) ← readOctet 2 text
  let (d, text) ← readOctet 3 text
  some (BitVec.ofNat 32 (((a * 256 + b) * 256 + c) * 256 + d), text)

/-- `read_groups`: up to `slots` groups from the `index`-th on, and whether a dotted address ended
them. -/
def readGroups : ℕ → ℕ → List Char → (List ℕ × Bool) × List Char
  | 0, _, text => (([], false), text)
  | slots + 1, index, text =>
    -- A dotted address needs two groups.
    match if 0 < slots then readSeparator ':' index readIpv4Addr text else none with
    | some (address, text) => (([address.toNat / 65536, address.toNat % 65536], true), text)
    | none =>
      match readSeparator ':' index (readNumber 16 4 true 0xFFFF) text with
      | none => (([], false), text)
      | some (group, text) =>
        let ((groups, dotted), text) := readGroups slots (index + 1) text
        ((group :: groups, dotted), text)

/-- The address of eight groups. -/
def ofGroups (groups : List ℕ) : BitVec 128 :=
  BitVec.ofNat 128 (groups.foldl (fun value group => value * 65536 + group) 0)

/-- `read_ipv6_addr`. -/
def readIpv6Addr : Reader (BitVec 128) := fun text =>
  let ((head, dotted), text) := readGroups 8 0 text
  if head.length = 8 then some (ofGroups head, text)
  else if dotted then none
  else do
    let text ← readGivenChar ':' text
    let text ← readGivenChar ':' text
    let ((tail, _), text) := readGroups (8 - (head.length + 1)) 0 text
    some (ofGroups (head ++ List.replicate (8 - head.length - tail.length) 0 ++ tail), text)

/-- Whether a reader's result consumed the whole text. -/
def parseWith {α : Type} (reader : Reader α) (text : List Char) : Option α :=
  match reader text with
  | some (value, []) => some value
  | _ => none

/-- `Ipv4Addr::from_str`. -/
def parseIpv4 (text : List Char) : Option (BitVec 32) :=
  if 15 < text.length then none else parseWith readIpv4Addr text

/-- `Ipv6Addr::from_str`. -/
def parseIpv6 (text : List Char) : Option (BitVec 128) := parseWith readIpv6Addr text

/-- `read_ip_addr`. -/
def readIpAddr : Reader IpAddr := fun text =>
  match readIpv4Addr text with
  | some (address, text) => some (.v4 address, text)
  | none => (readIpv6Addr text).map fun (address, text) => (.v6 address, text)

/-- `IpAddr::from_str`. -/
def parseIpAddr (text : List Char) : Option IpAddr := parseWith readIpAddr text

/-- A character of some address: a hexadecimal digit, a dot or a colon. -/
def isAddressChar (c : Char) : Bool := (toDigit 16 c).isSome || c == '.' || c == ':'

/-- The unread characters follow address characters only. -/
def Consumed (text rest : List Char) : Prop :=
  ∃ read, text = read ++ rest ∧ ∀ c ∈ read, isAddressChar c = true

/-- A reader that consumes address characters only. -/
def Consumes {α : Type} (reader : Reader α) : Prop :=
  ∀ text value rest, reader text = some (value, rest) → Consumed text rest

theorem Consumed.refl (text : List Char) : Consumed text text := ⟨[], rfl, by simp⟩

theorem Consumed.trans {a b c : List Char} (hab : Consumed a b) (hbc : Consumed b c) :
    Consumed a c := by
  obtain ⟨first, rfl, hfirst⟩ := hab
  obtain ⟨second, rfl, hsecond⟩ := hbc
  refine ⟨first ++ second, by simp, fun x hx => ?_⟩
  rcases List.mem_append.mp hx with h | h
  · exact hfirst x h
  · exact hsecond x h

theorem toDigit_mono {c : Char} (h : (toDigit 10 c).isSome = true) : (toDigit 16 c).isSome = true := by
  obtain ⟨value, hvalue⟩ := Option.isSome_iff_exists.mp h
  obtain ⟨hdigit, hlt⟩ := Option.filter_eq_some_iff.mp hvalue
  rw [decide_eq_true_iff] at hlt
  exact Option.isSome_iff_exists.mpr ⟨value, Option.filter_eq_some_iff.mpr ⟨hdigit, by simpa using by omega⟩⟩

theorem readNumber_consumes {radix : ℕ} (hradix : radix = 10 ∨ radix = 16) (maxDigits : ℕ)
    (allowZeroPrefix : Bool) (bound : ℕ) :
    Consumes (readNumber radix maxDigits allowZeroPrefix bound) := by
  intro text value rest h
  simp only [readNumber, Option.ite_none_left_eq_some, Option.some.injEq, Prod.mk.injEq] at h
  obtain ⟨-, -, rfl⟩ := h
  refine ⟨text.takeWhile fun c => (toDigit radix c).isSome, ?_, fun c hc => ?_⟩
  · exact (List.prefix_iff_eq_append.mp (List.takeWhile_prefix _)).symm
  · have hdigit := List.mem_takeWhile_imp hc
    rcases hradix with rfl | rfl
    · simp [isAddressChar, toDigit_mono hdigit]
    · simp [isAddressChar, hdigit]

theorem readGivenChar_consumed {c : Char} (hc : isAddressChar c = true) {text rest : List Char}
    (h : readGivenChar c text = some rest) : Consumed text rest := by
  unfold readGivenChar at h
  split at h
  · rename_i first tail
    rw [Option.ite_none_right_eq_some] at h
    obtain ⟨rfl, h⟩ := h
    obtain rfl := Option.some.inj h
    exact ⟨[first], rfl, by simpa using hc⟩
  · cases h

theorem readSeparator_consumes {separator : Char} (hseparator : isAddressChar separator = true)
    {α : Type} {inner : Reader α} (hinner : Consumes inner) (index : ℕ) :
    Consumes (readSeparator separator index inner) := by
  intro text value rest h
  unfold readSeparator at h
  split at h
  · exact hinner text value rest h
  · obtain ⟨middle, hmiddle, hrest⟩ := Option.bind_eq_some_iff.mp h
    exact (readGivenChar_consumed hseparator hmiddle).trans (hinner middle value rest hrest)

theorem readOctet_consumes (index : ℕ) : Consumes (readOctet index) :=
  readSeparator_consumes (by decide) (readNumber_consumes (.inl rfl) 3 false 255) index

theorem readIpv4Addr_consumes : Consumes readIpv4Addr := by
  intro text value rest h
  simp only [readIpv4Addr, bind, Option.bind_eq_some_iff] at h
  obtain ⟨⟨a, t1⟩, ha, ⟨b, t2⟩, hb, ⟨c, t3⟩, hc, ⟨d, t4⟩, hd, h⟩ := h
  obtain ⟨-, rfl⟩ := Prod.mk.inj (Option.some.inj h)
  exact (((readOctet_consumes 0 _ _ _ ha).trans (readOctet_consumes 1 _ _ _ hb)).trans
    (readOctet_consumes 2 _ _ _ hc)).trans (readOctet_consumes 3 _ _ _ hd)

theorem readGroups_consumed (slots index : ℕ) (text : List Char) :
    Consumed text (readGroups slots index text).2 := by
  induction slots generalizing index text with
  | zero => exact .refl text
  | succ slots ih =>
    have hcolon : isAddressChar ':' = true := by decide
    have hgroup := readSeparator_consumes hcolon (readNumber_consumes (.inr rfl) 4 true 0xFFFF) index
    have hdotted := readSeparator_consumes hcolon readIpv4Addr_consumes index
    rw [readGroups]
    split
    · rename_i address rest h
      rw [Option.ite_none_right_eq_some] at h
      exact hdotted _ _ _ h.2
    · split
      · exact .refl text
      · rename_i group rest h
        exact (hgroup _ _ _ h).trans (ih (index + 1) rest)

theorem readIpv6Addr_consumes : Consumes readIpv6Addr := by
  intro text value rest h
  have hhead := readGroups_consumed 8 0 text
  unfold readIpv6Addr at h
  generalize readGroups 8 0 text = first at h hhead
  obtain ⟨⟨head, dotted⟩, middle⟩ := first
  dsimp only at h hhead
  split at h
  · obtain ⟨-, rfl⟩ := Prod.mk.inj (Option.some.inj h)
    exact hhead
  · split at h
    · cases h
    · simp only [bind, Option.bind_eq_some_iff] at h
      obtain ⟨t1, h1, t2, h2, h⟩ := h
      have htail := readGroups_consumed (8 - (head.length + 1)) 0 t2
      obtain ⟨-, rfl⟩ := Prod.mk.inj (Option.some.inj h)
      exact ((hhead.trans (readGivenChar_consumed (by decide) h1)).trans
        (readGivenChar_consumed (by decide) h2)).trans htail

theorem parseWith_eq_some {α : Type} {reader : Reader α} {text : List Char} {value : α} :
    parseWith reader text = some value ↔ reader text = some (value, []) := by
  unfold parseWith
  split <;> simp_all

/-- A parsed text holds address characters only. -/
theorem addressChars_of_parseWith {α : Type} {reader : Reader α} (hreader : Consumes reader)
    {text : List Char} {value : α} (h : parseWith reader text = some value) :
    ∀ c ∈ text, isAddressChar c = true := by
  obtain ⟨read, htext, hread⟩ := hreader text value [] (parseWith_eq_some.mp h)
  rw [htext, List.append_nil]
  exact hread

theorem readIpAddr_consumes : Consumes readIpAddr := by
  intro text value rest h
  unfold readIpAddr at h
  split at h
  · rename_i bits tail hv4
    obtain ⟨-, rfl⟩ := Prod.mk.inj (Option.some.inj h)
    exact readIpv4Addr_consumes _ _ _ hv4
  · obtain ⟨⟨bits, tail⟩, hv6, heq⟩ := Option.map_eq_some_iff.mp h
    obtain ⟨-, rfl⟩ := Prod.mk.inj heq
    exact readIpv6Addr_consumes _ _ _ hv6

theorem parseIpAddr_addressChars {text : List Char} {address : IpAddr}
    (h : parseIpAddr text = some address) : ∀ c ∈ text, isAddressChar c = true :=
  addressChars_of_parseWith readIpAddr_consumes h

theorem parseIpv4_addressChars {text : List Char} {bits : BitVec 32}
    (h : parseIpv4 text = some bits) : ∀ c ∈ text, isAddressChar c = true := by
  rw [parseIpv4, Option.ite_none_left_eq_some] at h
  exact addressChars_of_parseWith readIpv4Addr_consumes h.2

theorem parseIpv6_addressChars {text : List Char} {bits : BitVec 128}
    (h : parseIpv6 text = some bits) : ∀ c ∈ text, isAddressChar c = true :=
  addressChars_of_parseWith readIpv6Addr_consumes h

end Crabinet.Client
