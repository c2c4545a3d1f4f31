import Crabinet.Client.IpAddr
import Mathlib.Tactic.Ring

/-!
# A textual form of every address

Dotted octets for IPv4 and eight four-digit groups for IPv6. The readers accept it and
return the address it was written from, so every address has a text of bounded length.
-/

namespace Crabinet.Client

/-- One hexadecimal digit. -/
def hexDigit (value : ℕ) : Char := Char.ofNat (if value < 10 then 48 + value else 87 + value)

/-- An octet in decimal, without leading zeros. -/
def octetText (value : ℕ) : List Char :=
  if value < 10 then [hexDigit value]
  else if value < 100 then [hexDigit (value / 10), hexDigit (value % 10)]
  else [hexDigit (value / 100), hexDigit (value / 10 % 10), hexDigit (value % 10)]

/-- A dotted address. -/
def ipv4Text (bits : BitVec 32) : List Char :=
  octetText (bits.toNat / 16777216) ++ ('.' :: (octetText (bits.toNat / 65536 % 256) ++
    ('.' :: (octetText (bits.toNat / 256 % 256) ++ ('.' :: octetText (bits.toNat % 256))))))

/-- A group in hexadecimal, with leading zeros. -/
def groupText (group : ℕ) : List Char :=
  [hexDigit (group / 4096), hexDigit (group / 256 % 16), hexDigit (group / 16 % 16),
    hexDigit (group % 16)]

/-- Groups from the `index`-th on, each but the first after a colon. -/
def groupsText : ℕ → List ℕ → List Char
  | _, [] => []
  | index, group :: rest =>
    (if index = 0 then [] else [':']) ++ (groupText group ++ groupsText (index + 1) rest)

/-- The low `count` groups of a value, most significant first. -/
def groupsOf : ℕ → ℕ → List ℕ
  | 0, _ => []
  | count + 1, value => groupsOf count (value / 65536) ++ [value % 65536]

/-- A text of an address. -/
def IpAddr.text : IpAddr → List Char
  | .v4 bits => ipv4Text bits
  | .v6 bits => groupsText 0 (groupsOf 8 bits.toNat)

/-- Digits up to a character that is none are read as one number. -/
theorem readNumber_append {radix maxDigits bound : ℕ} {allowZeroPrefix : Bool}
    {digits rest : List Char} (hdigits : ∀ c ∈ digits, (toDigit radix c).isSome = true)
    (hrest : ∀ c ∈ rest.head?, toDigit radix c = none) (hpos : digits ≠ [])
    (hlen : digits.length ≤ maxDigits)
    (hbound : digits.foldl (fun value c => value * radix + (toDigit radix c).getD 0) 0 ≤ bound)
    (hzero : allowZeroPrefix = true ∨ digits.head? ≠ some '0' ∨ digits.length = 1) :
    readNumber radix maxDigits allowZeroPrefix bound (digits ++ rest) =
      some (digits.foldl (fun value c => value * radix + (toDigit radix c).getD 0) 0, rest) := by
  have hstop : rest.takeWhile (fun c => (toDigit radix c).isSome) = [] := by
    cases rest with
    | nil => rfl
    | cons c rest => simp [hrest c rfl]
  have htake : (digits ++ rest).takeWhile (fun c => (toDigit radix c).isSome) = digits := by
    rw [List.takeWhile_append_of_pos hdigits, hstop, List.append_nil]
  have hpos' : 0 < digits.length := List.length_pos_iff.mpr hpos
  rw [readNumber]
  simp only [htake, List.drop_left]
  rw [if_neg]
  rintro (h | h | h | ⟨h1, h2, h3⟩)
  · omega
  · omega
  · omega
  · rcases hzero with h | h | h
    · simp [h] at h1
    · exact h h2
    · omega

set_option maxRecDepth 4000 in
/-- The decimal text of an octet is a number the reader accepts. -/
theorem octetText_spec : ∀ value : Fin 256, octetText value ≠ [] ∧ (octetText value).length ≤ 3 ∧
    ((octetText value).all fun c => (toDigit 10 c).isSome) = true ∧
    ((octetText value).head? ≠ some '0' ∨ (octetText value).length = 1) ∧
    (octetText value).foldl (fun value c => value * 10 + (toDigit 10 c).getD 0) 0 = value := by
  decide

theorem readNumber_octetText {value : ℕ} (hvalue : value < 256) {rest : List Char}
    (hrest : ∀ c ∈ rest.head?, toDigit 10 c = none) :
    readNumber 10 3 false 255 (octetText value ++ rest) = some (value, rest) := by
  obtain ⟨hpos, hlen, hdigits, hzero, hfold⟩ := octetText_spec ⟨value, hvalue⟩
  dsimp only at hfold
  have hread := @readNumber_append 10 3 255 false _ rest (List.all_eq_true.mp hdigits) hrest hpos
    hlen (hfold.trans_le (by omega)) (.inr hzero)
  rwa [hfold] at hread

/-- A dotted address is read back. -/
theorem readIpv4Addr_text (bits : BitVec 32) : readIpv4Addr (ipv4Text bits) = some (bits, []) := by
  have hdot (rest : List Char) : ∀ c ∈ ('.' :: rest).head?, toDigit 10 c = none := by
    intro c hc
    obtain rfl := Option.some.inj hc
    decide
  have hlt := bits.isLt
  simp only [readIpv4Addr, readOctet, readSeparator, ipv4Text, if_true, OfNat.ofNat_ne_zero,
    one_ne_zero, if_false, bind]
  rw [readNumber_octetText (by omega) (hdot _), Option.bind_some]
  simp only [readGivenChar, if_true, Option.bind_some]
  rw [readNumber_octetText (by omega) (hdot _), Option.bind_some]
  simp only [if_true, Option.bind_some]
  rw [readNumber_octetText (by omega) (hdot _), Option.bind_some]
  simp only [if_true, Option.bind_some]
  rw [← List.append_nil (octetText (bits.toNat % 256)), readNumber_octetText (by omega) (by simp),
    Option.bind_some]
  have hvalue : ((bits.toNat / 16777216 * 256 + bits.toNat / 65536 % 256) * 256 +
      bits.toNat / 256 % 256) * 256 + bits.toNat % 256 = bits.toNat := by
    omega
  rw [hvalue, BitVec.ofNat_toNat, BitVec.setWidth_eq]

/-- A dotted address holds a dot. -/
theorem dot_mem_of_readIpv4Addr {text rest : List Char} {bits : BitVec 32}
    (h : readIpv4Addr text = some (bits, rest)) : '.' ∈ text := by
  simp only [readIpv4Addr, bind, Option.bind_eq_some_iff] at h
  obtain ⟨⟨a, middle⟩, ha, ⟨b, t2⟩, hb, -⟩ := h
  obtain ⟨read, rfl, -⟩ := readOctet_consumes 0 _ _ _ ha
  have hdot : '.' ∈ middle := by
    simp only [readOctet, readSeparator, one_ne_zero, if_false, Option.bind_eq_some_iff] at hb
    obtain ⟨after, hafter, -⟩ := hb
    unfold readGivenChar at hafter
    split at hafter
    · rw [Option.ite_none_right_eq_some] at hafter
      simp [hafter.1]
    · cases hafter
  exact List.mem_append_right _ hdot

theorem toDigit_hexDigit : ∀ value : Fin 16, toDigit 16 (hexDigit value) = some value.val := by
  decide

theorem hexDigit_ne_dot : ∀ value : Fin 16, hexDigit value ≠ '.' := by
  decide

/-- A group is read back before anything that is not a digit. -/
theorem readNumber_groupText {group : ℕ} (hgroup : group < 65536) {rest : List Char}
    (hrest : ∀ c ∈ rest.head?, toDigit 16 c = none) :
    readNumber 16 4 true 0xFFFF (groupText group ++ rest) = some (group, rest) := by
  have hdigit (value : ℕ) (hvalue : value < 16) : toDigit 16 (hexDigit value) = some value :=
    toDigit_hexDigit ⟨value, hvalue⟩
  have hfold : (groupText group).foldl
      (fun value c => value * 16 + (toDigit 16 c).getD 0) 0 = group := by
    simp only [groupText, List.foldl_cons, List.foldl_nil]
    rw [hdigit _ (by omega), hdigit _ (by omega), hdigit _ (by omega), hdigit _ (by omega)]
    simp only [Option.getD_some]
    omega
  have hdigits : ∀ c ∈ groupText group, (toDigit 16 c).isSome = true := by
    simp only [groupText, List.mem_cons, List.not_mem_nil, or_false]
    rintro c (rfl | rfl | rfl | rfl)
    · rw [hdigit _ (by omega), Option.isSome_some]
    · rw [hdigit _ (by omega), Option.isSome_some]
    · rw [hdigit _ (by omega), Option.isSome_some]
    · rw [hdigit _ (by omega), Option.isSome_some]
  have hread := @readNumber_append 16 4 0xFFFF true _ rest hdigits hrest (by simp [groupText])
    (by simp [groupText]) (by rw [hfold]; omega) (.inl rfl)
  rwa [hfold] at hread

theorem dot_not_mem_groupsText (index : ℕ) (groups : List ℕ) (hgroups : ∀ group ∈ groups, group < 65536) :
    '.' ∉ groupsText index groups := by
  induction groups generalizing index with
  | nil => simp [groupsText]
  | cons group rest ih =>
    have hgroup := hgroups group (by simp)
    have hne (value : ℕ) (hvalue : value < 16) : '.' ≠ hexDigit value :=
      (hexDigit_ne_dot ⟨value, hvalue⟩).symm
    have hrest := ih (index + 1) fun group hmem => hgroups group (by simp [hmem])
    simp only [groupsText, groupText, List.mem_append, List.mem_cons, List.not_mem_nil, or_false,
      not_or]
    refine ⟨by split <;> decide, ⟨hne _ (by omega), hne _ (by omega), hne _ (by omega),
      hne _ (by omega)⟩, hrest⟩

/-- Groups are read back to the end of the text. -/
theorem readGroups_groupsText (index : ℕ) (groups : List ℕ)
    (hgroups : ∀ group ∈ groups, group < 65536) :
    readGroups groups.length index (groupsText index groups) = ((groups, false), []) := by
  induction groups generalizing index with
  | nil => rfl
  | cons group rest ih =>
    have hdot := dot_not_mem_groupsText index (group :: rest) hgroups
    have hnone : readSeparator ':' index readIpv4Addr (groupsText index (group :: rest)) = none := by
      rw [Option.eq_none_iff_forall_not_mem]
      rintro ⟨bits, after⟩ h
      unfold readSeparator at h
      split at h
      · exact hdot (dot_mem_of_readIpv4Addr h)
      · obtain ⟨middle, hmiddle, hbits⟩ := Option.bind_eq_some_iff.mp h
        obtain ⟨read, htext, -⟩ := readGivenChar_consumed (by decide) hmiddle
        exact hdot (htext ▸ List.mem_append_right _ (dot_mem_of_readIpv4Addr hbits))
    have hstop : ∀ c ∈ (groupsText (index + 1) rest).head?, toDigit 16 c = none := by
      cases rest with
      | nil => simp [groupsText]
      | cons next rest =>
        intro c hc
        simp only [groupsText, Nat.add_eq_zero_iff, one_ne_zero, and_false, if_false] at hc
        obtain rfl := Option.some.inj hc
        decide
    have hgroup : readSeparator ':' index (readNumber 16 4 true 0xFFFF)
        (groupsText index (group :: rest)) = some (group, groupsText (index + 1) rest) := by
      rw [groupsText, readSeparator]
      split
      · exact readNumber_groupText (hgroups group (by simp)) hstop
      · exact readNumber_groupText (hgroups group (by simp)) hstop
    rw [List.length_cons, readGroups, hnone, ite_self]
    simp only [hgroup, ih (index + 1) fun group hmem => hgroups group (by simp [hmem])]

theorem groupsOf_length (count value : ℕ) : (groupsOf count value).length = count := by
  induction count generalizing value with
  | zero => rfl
  | succ count ih => simp [groupsOf, ih]

theorem groupsOf_lt (count value : ℕ) : ∀ group ∈ groupsOf count value, group < 65536 := by
  induction count generalizing value with
  | zero => simp [groupsOf]
  | succ count ih =>
    intro group hgroup
    rcases List.mem_append.mp hgroup with h | h
    · exact ih _ group h
    · rw [List.mem_singleton.mp h]
      omega

theorem foldl_groupsOf (count value : ℕ) :
    (groupsOf count value).foldl (fun value group => value * 65536 + group) 0 =
      value % 65536 ^ count := by
  induction count generalizing value with
  | zero => simp [groupsOf, Nat.mod_one]
  | succ count ih =>
    rw [groupsOf, List.foldl_append, ih, pow_succ', Nat.mod_mul]
    simp only [List.foldl_cons, List.foldl_nil]
    ring

theorem readIpv6Addr_text (bits : BitVec 128) :
    readIpv6Addr (groupsText 0 (groupsOf 8 bits.toNat)) = some (bits, []) := by
  have hgroups := readGroups_groupsText 0 _ (groupsOf_lt 8 bits.toNat)
  rw [groupsOf_length] at hgroups
  have hvalue : ofGroups (groupsOf 8 bits.toNat) = bits := by
    have hlt := bits.isLt
    rw [ofGroups, foldl_groupsOf, Nat.mod_eq_of_lt (by omega), BitVec.ofNat_toNat, BitVec.setWidth_eq]
  simp only [readIpv6Addr, hgroups, groupsOf_length, if_true, hvalue]

/-- Every address is parsed from its text. -/
theorem parseIpAddr_text (address : IpAddr) : parseIpAddr address.text = some address := by
  rw [parseIpAddr, parseWith_eq_some, readIpAddr]
  cases address with
  | v4 bits => rw [IpAddr.text, readIpv4Addr_text]
  | v6 bits =>
    have hnone : readIpv4Addr (groupsText 0 (groupsOf 8 bits.toNat)) = none := by
      rw [Option.eq_none_iff_forall_not_mem]
      rintro ⟨found, after⟩ h
      exact dot_not_mem_groupsText 0 _ (groupsOf_lt 8 bits.toNat) (dot_mem_of_readIpv4Addr h)
    rw [IpAddr.text, hnone, readIpv6Addr_text, Option.map_some]

/-- The text of an address is short. -/
theorem text_length_le (address : IpAddr) : address.text.length ≤ 40 := by
  have hoctet (value : ℕ) : (octetText value).length ≤ 3 := by
    unfold octetText
    split
    · simp
    · split <;> simp
  cases address with
  | v4 bits =>
    have h1 := hoctet (bits.toNat / 16777216)
    have h2 := hoctet (bits.toNat / 65536 % 256)
    have h3 := hoctet (bits.toNat / 256 % 256)
    have h4 := hoctet (bits.toNat % 256)
    simp only [IpAddr.text, ipv4Text, List.length_append, List.length_cons]
    omega
  | v6 bits =>
    have hgroups (index : ℕ) (groups : List ℕ) :
        (groupsText index groups).length ≤ 5 * groups.length := by
      induction groups generalizing index with
      | nil => simp [groupsText]
      | cons group rest ih =>
        have := ih (index + 1)
        simp only [groupsText, groupText, List.length_append, List.length_cons, List.length_nil]
        split <;> simp <;> omega
    exact (hgroups 0 _).trans_eq (by rw [groupsOf_length])

end Crabinet.Client
