import Crabinet.Library.PercentEncoding
import Crabinet.Library.Utf8Decoder

/-!
# Components and queries of addresses

The encoding of a text as one component of an address, and lists of named values as a query, as
browsers write and read them. What is written is read again.
-/

namespace Crabinet.Library

namespace UriComponents

open PercentEncoding Utf8Decoder

/-- An ASCII letter or digit. -/
def isAlphanumeric (c : Char) : Bool :=
  ('0' ≤ c && c ≤ '9') || ('A' ≤ c && c ≤ 'Z') || ('a' ≤ c && c ≤ 'z')

/-- What is kept in components. -/
def keepInComponent (c : Char) : Bool := isAlphanumeric c || "-_.!~*'()".toList.contains c

/-- `encodeURIComponent`. -/
def encodeURIComponent (text : List Char) : List Char := encode keepInComponent text

/-- `decodeURIComponent`; `none` where it throws. -/
def decodeURIComponent (text : List Char) : Option (List Char) :=
  if isWellFormed text then utf8Text (decode text) else none

/-! ### Queries -/

/-- The entries of an `URLSearchParams`. -/
abbrev Params := List (List Char × List Char)

/-- What is kept in the names and values of queries. -/
def keepInForm (c : Char) : Bool := isAlphanumeric c || "*-._".toList.contains c

def encodeFormChar (c : Char) : List Char := if c = ' ' then ['+'] else encodeChar keepInForm c

/-- A name or a value as it is written. -/
def encodeForm (text : List Char) : List Char := text.flatMap encodeFormChar

/-- A name or a value as it is read. -/
def decodeForm (text : List Char) : List Char :=
  utf8Lossy (decode (text.map fun c => if c = '+' then ' ' else c))

def encodeEntry (entry : List Char × List Char) : List Char :=
  encodeForm entry.1 ++ '=' :: encodeForm entry.2

def decodeEntry (text : List Char) : List Char × List Char :=
  match splitOnce '=' text with
  | some (name, value) => (decodeForm name, decodeForm value)
  | none => (decodeForm text, [])

namespace Params

/-- `toString`. -/
def serialize (params : Params) : List Char := ['&'].intercalate (params.map encodeEntry)

/-- The entries of a query. -/
def parse (query : List Char) : Params := ((query.splitOn '&').filter (· ≠ [])).map decodeEntry

/-- `get`. -/
def get (params : Params) (name : String) : Option (List Char) := params.lookup name.toList

/-- `set`. -/
def set (params : Params) (name : String) (value : List Char) : Params :=
  match params with
  | [] => [(name.toList, value)]
  | entry :: rest =>
    if entry.1 = name.toList then (entry.1, value) :: rest.filter (·.1 ≠ name.toList)
    else entry :: set rest name value

/-- `set`, where there is a value. -/
def setSome (params : Params) (name : String) (value : Option (List Char)) : Params :=
  match value with
  | some value => params.set name value
  | none => params

end Params

variable {text : List Char} {c : Char}

/-! ### Characters of an encoding -/

theorem isAlphanumeric_upperHexDigit {value : ℕ} (h : value < 16) :
    isAlphanumeric (upperHexDigit value) = true := by
  have hall : ∀ value : Fin 16, isAlphanumeric (upperHexDigit value) = true := by decide
  exact hall ⟨value, h⟩

theorem toNat_lt_of_isAlphanumeric (h : isAlphanumeric c = true) : c.toNat < 128 := by
  simp only [isAlphanumeric, Bool.or_eq_true, Bool.and_eq_true, decide_eq_true_eq, Char.le_def,
    UInt32.le_iff_toNat_le] at h
  have hvalue : c.val.toNat = c.toNat := rfl
  rcases h with (⟨-, hhigh⟩ | ⟨-, hhigh⟩) | ⟨-, hhigh⟩ <;> exact lt_of_le_of_lt hhigh (by decide)

/-- What is kept in components and in queries is ASCII. -/
theorem toNat_lt_of_keep (h : keepInComponent c = true ∨ keepInForm c = true) : c.toNat < 128 := by
  have hmarks : ∀ c ∈ "-_.!~*'()".toList ++ "*-._".toList, c.toNat < 128 := by simp
  rcases h with h | h
  · rcases Bool.or_eq_true_iff.mp h with halphanumeric | hmark
    · exact toNat_lt_of_isAlphanumeric halphanumeric
    · exact hmarks c (List.mem_append_left _ (List.contains_iff_mem.mp hmark))
  · rcases Bool.or_eq_true_iff.mp h with halphanumeric | hmark
    · exact toNat_lt_of_isAlphanumeric halphanumeric
    · exact hmarks c (List.mem_append_right _ (List.contains_iff_mem.mp hmark))

theorem of_mem_encodeURIComponent (h : c ∈ encodeURIComponent text) :
    keepInComponent c = true ∨ c = '%' := by
  refine of_mem_encode (P := fun c => keepInComponent c = true ∨ c = '%') (fun c _ hc => .inl hc)
    (.inr rfl) (fun value hvalue => .inl ?_) h
  rw [keepInComponent, isAlphanumeric_upperHexDigit hvalue, Bool.true_or]

theorem of_mem_encodeForm (h : c ∈ encodeForm text) :
    keepInForm c = true ∨ c = '%' ∨ c = '+' := by
  obtain ⟨source, -, hc⟩ := List.mem_flatMap.mp h
  unfold encodeFormChar at hc
  split_ifs at hc
  · exact .inr (.inr (List.mem_singleton.mp hc))
  · have hmem : c ∈ encode keepInForm [source] := by rwa [encode, List.flatMap_singleton]
    refine of_mem_encode (P := fun c => keepInForm c = true ∨ c = '%' ∨ c = '+')
      (fun c _ hc => .inl hc) (.inr (.inl rfl)) (fun value hvalue => .inl ?_) hmem
    rw [keepInForm, isAlphanumeric_upperHexDigit hvalue, Bool.true_or]

/-! ### Components -/

theorem decode_encodeURIComponent (text : List Char) :
    decode (encodeURIComponent text) = utf8Bytes text ∧ isWellFormed (encodeURIComponent text) = true := by
  have hpercent : keepInComponent '%' = false := rfl
  have h := decode_encode_append hpercent text []
  rw [List.append_nil] at h
  exact ⟨h.1.trans (List.append_nil _), h.2⟩

/-- A component is read as it was written. -/
theorem decodeURIComponent_encodeURIComponent (text : List Char) :
    decodeURIComponent (encodeURIComponent text) = some text := by
  obtain ⟨hdecode, hwellFormed⟩ := decode_encodeURIComponent text
  rw [decodeURIComponent, if_pos hwellFormed, hdecode, utf8Text_utf8Bytes]

theorem encodeURIComponent_inj {other : List Char} :
    encodeURIComponent text = encodeURIComponent other ↔ text = other := by
  refine ⟨fun h => ?_, fun h => congrArg _ h⟩
  have hsame := congrArg decodeURIComponent h
  rw [decodeURIComponent_encodeURIComponent, decodeURIComponent_encodeURIComponent] at hsame
  exact Option.some.inj hsame

/-! ### Queries -/

theorem map_plus_encodeChar {c : Char} : (encodeChar keepInForm c).map (fun c => if c = '+' then ' ' else c) =
    encodeChar keepInForm c := by
  refine (List.map_congr_left fun other hother => if_neg ?_).trans (List.map_id _)
  have hall : ∀ value : Fin 16, upperHexDigit value ≠ '+' := by decide
  rintro rfl
  have hmem : '+' ∈ encode keepInForm [c] := by rwa [encode, List.flatMap_singleton]
  refine of_mem_encode (P := (· ≠ '+')) (fun c _ hkeep heq => ?_) (by decide)
    (fun value hvalue => hall ⟨value, hvalue⟩) hmem rfl
  rw [heq] at hkeep
  cases hkeep

theorem decode_map_encodeForm (text : List Char) :
    decode ((encodeForm text).map fun c => if c = '+' then ' ' else c) = utf8Bytes text := by
  induction text with
  | nil => rfl
  | cons c text ih =>
    rw [encodeForm, List.flatMap_cons, ← encodeForm, List.map_append, utf8Bytes, List.flatMap_cons,
      ← utf8Bytes, ← ih, encodeFormChar]
    split_ifs with hspace
    · rw [hspace, List.map_singleton, if_pos rfl, List.singleton_append, decode_cons_of_ne (by decide)]
    · have hpercent : keepInForm '%' = false := rfl
      have hencode := (decode_encode_append hpercent [c]
        ((encodeForm text).map fun c => if c = '+' then ' ' else c)).1
      rw [encode, List.flatMap_singleton, utf8Bytes, List.flatMap_singleton] at hencode
      rw [map_plus_encodeChar, hencode]

/-- A name or a value is read as it was written. -/
theorem decodeForm_encodeForm (text : List Char) : decodeForm (encodeForm text) = text := by
  rw [decodeForm, decode_map_encodeForm, utf8Lossy_utf8Bytes]

theorem notMem_encodeForm {separator : Char} (h : (keepInForm separator || separator == '%' ||
    separator == '+') = false) : separator ∉ encodeForm text := by
  intro hmem
  simp only [Bool.or_eq_false_iff, beq_eq_false_iff_ne] at h
  obtain hkeep | hpercent | hplus := of_mem_encodeForm hmem
  · rw [h.1.1] at hkeep
    cases hkeep
  · exact h.1.2 hpercent
  · exact h.2 hplus

theorem decodeEntry_encodeEntry (entry : List Char × List Char) :
    decodeEntry (encodeEntry entry) = entry := by
  rw [decodeEntry, encodeEntry, splitOnce_append (notMem_encodeForm rfl)]
  dsimp only
  rw [decodeForm_encodeForm, decodeForm_encodeForm]

/-- A query is read as it was written. -/
theorem Params.parse_serialize (params : Params) : parse (serialize params) = params := by
  cases params with
  | nil => rfl
  | cons entry rest =>
    have hparts : ∀ part ∈ (entry :: rest).map encodeEntry, '&' ∉ part := by
      intro part hpart hmem
      obtain ⟨source, -, rfl⟩ := List.mem_map.mp hpart
      rcases List.mem_append.mp hmem with hname | hvalue
      · exact notMem_encodeForm rfl hname
      · rcases List.mem_cons.mp hvalue with heq | hvalue
        · cases heq
        · exact notMem_encodeForm rfl hvalue
    have hfilter : ((entry :: rest).map encodeEntry).filter (· ≠ []) = (entry :: rest).map encodeEntry := by
      refine List.filter_eq_self.mpr fun part hpart => ?_
      obtain ⟨source, -, rfl⟩ := List.mem_map.mp hpart
      exact decide_eq_true (List.append_ne_nil_of_right_ne_nil _ (List.cons_ne_nil _ _))
    rw [parse, serialize, List.splitOn_intercalate '&' hparts (List.cons_ne_nil _ _), hfilter, List.map_map]
    exact (List.map_congr_left fun source _ => decodeEntry_encodeEntry source).trans (List.map_id _)

theorem of_mem_encodeEntry {entry : List Char × List Char} (h : c ∈ encodeEntry entry) :
    keepInForm c = true ∨ c ∈ ['%', '+', '='] := by
  rcases List.mem_append.mp h with hname | hvalue
  · rcases of_mem_encodeForm hname with hkeep | rfl | rfl
    · exact .inl hkeep
    · exact .inr (by decide)
    · exact .inr (by decide)
  · rcases List.mem_cons.mp hvalue with rfl | hvalue
    · exact .inr (by decide)
    · rcases of_mem_encodeForm hvalue with hkeep | rfl | rfl
      · exact .inl hkeep
      · exact .inr (by decide)
      · exact .inr (by decide)

/-- What a query is written with. -/
theorem Params.of_mem_serialize {params : Params} (h : c ∈ params.serialize) :
    keepInForm c = true ∨ c ∈ ['%', '+', '=', '&'] := by
  have hentry {entry : List Char × List Char} (h : c ∈ encodeEntry entry) :
      keepInForm c = true ∨ c ∈ ['%', '+', '=', '&'] :=
    (of_mem_encodeEntry h).imp_right fun hmem => List.mem_append_left ['&'] hmem
  induction params with
  | nil => cases h
  | cons entry rest ih =>
    cases rest with
    | nil => exact hentry (by rwa [serialize, List.map_singleton, List.intercalate_singleton] at h)
    | cons next rest =>
      rw [serialize, List.map_cons, List.map_cons, List.intercalate_cons_cons, ← List.map_cons,
        List.append_assoc, List.mem_append] at h
      rcases h with hfirst | hrest
      · exact hentry hfirst
      · rcases List.mem_append.mp hrest with hseparator | hrest
        · exact .inr (by rw [List.mem_singleton.mp hseparator]; decide)
        · exact ih hrest

@[simp]
theorem Params.get_nil (name : String) : Params.get [] name = none := rfl

theorem Params.get_cons (entry : List Char × List Char) (rest : Params) (name : String) :
    Params.get (entry :: rest) name = if name.toList = entry.1 then some entry.2 else rest.get name := by
  obtain ⟨first, value⟩ := entry
  rw [get, List.lookup_cons, ← get]
  by_cases hname : name.toList = first
  · rw [if_pos hname, beq_iff_eq.mpr hname]
  · rw [if_neg hname, beq_eq_false_iff_ne.mpr hname]

theorem Params.get_filter (params : Params) {name other : String} (h : other ≠ name) :
    Params.get (params.filter (·.1 ≠ name.toList)) other = params.get other := by
  induction params with
  | nil => rfl
  | cons entry rest ih =>
    rw [List.filter_cons]
    split_ifs with hkept
    · rw [get_cons, get_cons, ih]
    · have hentry : other.toList ≠ entry.1 := fun heq => hkept (decide_eq_true fun hname =>
        h (String.toList_inj.mp (heq.trans hname)))
      rw [get_cons, if_neg hentry, ih]

/-- A value that is set is the only one of its name. -/
@[simp]
theorem Params.get_set (params : Params) (name other : String) (value : List Char) :
    (params.set name value).get other = if other = name then some value else params.get other := by
  induction params with
  | nil =>
    rw [set, get_cons]
    exact if_congr String.toList_inj rfl rfl
  | cons entry rest ih =>
    rw [set]
    split_ifs with hentry hother hother
    · rw [get_cons, if_pos (hother ▸ hentry.symm)]
    · have hne : other.toList ≠ entry.1 := fun heq => hother (String.toList_inj.mp (heq.trans hentry))
      rw [get_cons, get_cons, if_neg hne, if_neg hne, get_filter rest hother]
    · have hne : other.toList ≠ entry.1 := fun heq => hentry (heq.symm.trans (congrArg _ hother))
      rw [get_cons, if_neg hne, ih, if_pos hother]
    · rw [get_cons, get_cons, ih, if_neg hother]

@[simp]
theorem Params.get_setSome (params : Params) (name other : String) (value : Option (List Char)) :
    (params.setSome name value).get other =
      if other = name then value.or (params.get other) else params.get other := by
  cases value with
  | none =>
    rw [setSome, Option.none_or]
    exact (ite_self _).symm
  | some value => exact get_set params name other value

end UriComponents

end Crabinet.Library
