import Crabinet.Client.HeaderText
import Crabinet.Library.Text
import Mathlib.Algebra.Ring.Nat
import Mathlib.Order.Bounds.Basic

/-!
# Byte ranges of a download

A `Range` header names one range of positions, by its first and last one, by its first one
or by how many there are at the end. What it selects is a set of positions; the answer is the
first and the last position of that set. The arithmetic is that of 64 bits, where nothing may
leave the range.
-/

namespace Crabinet.Browse

open Crabinet.Library
open Crabinet.Client (toStr bytesOf IsVisible toStr_bytesOf eq_bytesOf_of_toStr)

/-- `RangeRequest`. -/
inductive RangeRequest where
  | ignore
  | unsatisfiable
  | satisfiable (first last : ℕ)
deriving DecidableEq, Repr

/-- A difference of numbers of 64 bits, none where it underflows. -/
def subU64 (a b : ℕ) : Option ℕ := if b ≤ a then some (a - b) else none

/-- A sum of numbers of 64 bits, none where it overflows. -/
def addU64 (a b : ℕ) : Option ℕ := if a + b < 2 ^ 64 then some (a + b) else none

/-- `parse_range_number`. -/
def parseRangeNumber (value : List Char) : Option ℕ :=
  if value.isEmpty || !value.all isAsciiDigit then none else parseU64 value

/-- `parse_range`; none where its arithmetic leaves 64 bits. -/
def parseRange (value : List UInt8) (totalLen : ℕ) : Option RangeRequest :=
  match (toStr value).bind fun text => text.dropPrefix? "bytes=".toList with
  | none => some .ignore
  | some spec =>
    match (splitOnce '-' spec).filter fun _ => !spec.contains ',' with
    | none => some .ignore
    | some (start, stop) =>
      if start.isEmpty then
        match parseRangeNumber stop with
        | none => some .ignore
        | some suffix =>
          if suffix = 0 then some .unsatisfiable
          -- A suffix of an empty representation is the whole, empty representation.
          else if totalLen = 0 then some .ignore
          else do
            let length := min suffix totalLen
            return .satisfiable (← subU64 totalLen length) (← subU64 totalLen 1)
      else
        match parseRangeNumber start with
        | none => some .ignore
        | some start =>
          match
            if stop.isEmpty then some none
            else ((parseRangeNumber stop).filter fun stop => start ≤ stop).map some with
          | none => some .ignore
          | some stop =>
            if start ≥ totalLen then some .unsatisfiable
            else do
              let last ← subU64 totalLen 1
              return .satisfiable start (stop.elim last fun stop => min stop last)

/-- `if_none_match`. -/
def ifNoneMatch (value : Option (List UInt8)) (etag : List Char) : Bool :=
  match value.bind toStr with
  | none => false
  | some text =>
    let strip (tag : List Char) := (tag.dropPrefix? "W/".toList).getD tag
    (text.splitOn ',').any fun candidate =>
      let candidate := trim candidate
      candidate == ['*'] || strip candidate == strip etag

/-- `if_range_allows`. -/
def ifRangeAllows (value : Option (List UInt8)) (etag : List Char) : Bool :=
  value.isNone || (!"W/".toList.isPrefixOf etag && value == some (bytesOf etag))

/-- The headers of a request that `stream_file` reads. -/
structure DownloadHeaders where
  ifNoneMatch : Option (List UInt8)
  ifRange : Option (List UInt8)
  range : Option (List UInt8)
deriving DecidableEq

/-- `StreamedFile`: what the opened file holds, and its length when it was opened. -/
structure StreamedFile where
  contents : List UInt8
  totalLen : ℕ
  etag : List Char

/-- The answers of `stream_file`, with `Content-Length`, `Content-Range` and the body of those
that have one. -/
inductive Streamed where
  | notModified
  | rangeNotSatisfiable (totalLen : ℕ)
  | content (responseLen : ℕ) (body : List UInt8)
  | partialContent (range : ℕ × ℕ) (responseLen : ℕ) (body : List UInt8)
deriving DecidableEq

/-- The stream from a position on, of at most so many bytes. -/
def takeFrom (contents : List UInt8) (start length : ℕ) : List UInt8 := (contents.drop start).take length

/-- `stream_file`; none where its arithmetic leaves 64 bits. -/
def streamFile (headers : DownloadHeaders) (file : StreamedFile) : Option Streamed :=
  if ifNoneMatch headers.ifNoneMatch file.etag then some .notModified
  else do
    let requested ←
      if ifRangeAllows headers.ifRange file.etag then
        match headers.range with
        | none => some RangeRequest.ignore
        | some value => parseRange value file.totalLen
      else some .ignore
    match requested with
    | .unsatisfiable => return .rangeNotSatisfiable file.totalLen
    | .ignore => return .content file.totalLen (takeFrom file.contents 0 file.totalLen)
    | .satisfiable start stop =>
      let responseLen ← addU64 (← subU64 stop start) 1
      return .partialContent (start, stop) responseLen (takeFrom file.contents start responseLen)

/-! ### What a header says -/

/-- A decimal number of 64 bits. -/
structure IsNumber (digits : List Char) (number : ℕ) : Prop where
  nonempty : digits ≠ []
  decimal : ∀ c ∈ digits, isAsciiDigit c = true
  value : Nat.ofDigitChars 10 digits 0 = number
  fits : number < 2 ^ 64

/-- A single range. -/
inductive RangeSpec where
  | openEnded (first : ℕ)
  | closed (first last : ℕ)
  | suffix (length : ℕ)
deriving DecidableEq

/-- How a single range is written. -/
inductive RangeSpec.IsWritten : RangeSpec → List Char → Prop where
  | openEnded {digits first} : IsNumber digits first → IsWritten (.openEnded first) (digits ++ ['-'])
  | closed {digits digits' first last} : IsNumber digits first → IsNumber digits' last →
      first ≤ last → IsWritten (.closed first last) (digits ++ '-' :: digits')
  | suffix {digits length} : IsNumber digits length → IsWritten (.suffix length) ('-' :: digits)

/-- The header value that names a single range. -/
def RangeSpec.Spelled (spec : RangeSpec) (value : List UInt8) : Prop :=
  ∃ text, spec.IsWritten text ∧ value = bytesOf ("bytes=".toList ++ text)

/-- The positions of a representation that a range selects. -/
def RangeSpec.selected (totalLen : ℕ) : RangeSpec → Set ℕ
  | .openEnded first => {position | position < totalLen ∧ first ≤ position}
  | .closed first last => {position | position < totalLen ∧ first ≤ position ∧ position ≤ last}
  | .suffix length => {position | position < totalLen ∧ totalLen ≤ position + length}

/-- How a range is answered. -/
def RangeSpec.answer (totalLen : ℕ) : RangeSpec → RangeRequest
  | .openEnded first => if totalLen ≤ first then .unsatisfiable else .satisfiable first (totalLen - 1)
  | .closed first last =>
    if totalLen ≤ first then .unsatisfiable else .satisfiable first (min last (totalLen - 1))
  | .suffix length =>
    if length = 0 then .unsatisfiable
    else if totalLen = 0 then .ignore
    else .satisfiable (totalLen - min length totalLen) (totalLen - 1)

/-! ### Reading a header -/

variable {text digits : List Char} {number first last totalLen : ℕ} {value : List UInt8}
  {spec : RangeSpec}

theorem parseRangeNumber_eq_some : parseRangeNumber text = some number ↔ IsNumber text number := by
  unfold parseRangeNumber
  constructor
  · intro h
    obtain ⟨hdigits, h⟩ := Option.ite_none_left_eq_some.mp h
    simp only [Bool.or_eq_true, List.isEmpty_iff, Bool.not_eq_true', not_or, Bool.not_eq_false] at hdigits
    simp only [parseU64, unsigned_eq_self hdigits.2] at h
    obtain ⟨-, h⟩ := Option.ite_none_left_eq_some.mp h
    obtain ⟨hfits, h⟩ := Option.ite_none_right_eq_some.mp h
    obtain rfl := Option.some.inj h
    exact ⟨hdigits.1, List.all_eq_true.mp hdigits.2, rfl, hfits⟩
  · rintro ⟨hnonempty, hdecimal, rfl, hfits⟩
    have hall : text.all isAsciiDigit = true := List.all_eq_true.mpr hdecimal
    have hguard : ¬(text.isEmpty || !text.all isAsciiDigit) = true := by simp [hnonempty, hall]
    simp only [if_neg hguard, parseU64, unsigned_eq_self hall]
    exact if_pos hfits

theorem IsNumber.not_mem (h : IsNumber digits number) {c : Char} (hc : isAsciiDigit c = false) :
    c ∉ digits := by
  intro hmem
  have := h.decimal c hmem
  rw [hc] at this
  cases this

theorem IsNumber.isVisible (h : IsNumber digits number) : IsVisible digits := by
  intro c hc
  have hdigit := h.decimal c hc
  simp only [isAsciiDigit, Bool.and_eq_true, decide_eq_true_eq] at hdigit
  have hlow : ('0').toNat ≤ c.toNat := hdigit.1
  have hhigh : c.toNat ≤ ('9').toNat := hdigit.2
  exact ⟨le_trans (by decide) hlow, lt_of_le_of_lt hhigh (by decide)⟩

/-- A written range is visible, and has no comma. -/
theorem RangeSpec.IsWritten.visible (h : spec.IsWritten text) : IsVisible text ∧ ',' ∉ text := by
  have hcomma : isAsciiDigit ',' = false := by decide
  have hdash : IsVisible ['-'] := by
    intro c hc
    obtain rfl := List.mem_singleton.mp hc
    decide
  have happend {front back : List Char} (hfront : IsVisible front ∧ ',' ∉ front)
      (hback : IsVisible back ∧ ',' ∉ back) : IsVisible (front ++ back) ∧ ',' ∉ front ++ back := by
    refine ⟨fun c hc => (List.mem_append.mp hc).elim (hfront.1 c) (hback.1 c), ?_⟩
    simp [hfront.2, hback.2]
  have hdash' : IsVisible ['-'] ∧ ',' ∉ ['-'] := ⟨hdash, by decide⟩
  cases h with
  | openEnded hfirst => exact happend ⟨hfirst.isVisible, hfirst.not_mem hcomma⟩ hdash'
  | closed hfirst hlast _ =>
    exact happend ⟨hfirst.isVisible, hfirst.not_mem hcomma⟩
      (happend hdash' ⟨hlast.isVisible, hlast.not_mem hcomma⟩)
  | suffix hlength => exact happend hdash' ⟨hlength.isVisible, hlength.not_mem hcomma⟩

theorem subU64_of_le {a b : ℕ} (h : b ≤ a) : subU64 a b = some (a - b) := if_pos h

/-- What the parser does once the text is cut at its dash. -/
theorem parseRange_of_cut {start stop : List Char} (hcut : text = start ++ '-' :: stop)
    (hdash : '-' ∉ start) (hvisible : IsVisible text) (hcomma : ',' ∉ text) :
    (toStr (bytesOf ("bytes=".toList ++ text))).bind
        (fun text => text.dropPrefix? "bytes=".toList) = some text ∧
      ((splitOnce '-' text).filter fun _ => !text.contains ',') = some (start, stop) := by
  constructor
  · have hall : IsVisible ("bytes=".toList ++ text) := by
      intro c hc
      rcases List.mem_append.mp hc with hc | hc
      · have hbegin : ("bytes=".toList).all (fun c => 32 ≤ c.toNat && c.toNat < 127) = true := by decide
        simpa using List.all_eq_true.mp hbegin c hc
      · exact hvisible c hc
    rw [toStr_bytesOf hall, Option.bind_some, List.dropPrefix?_eq_some_iff]
    exact ⟨_, rfl, by simp⟩
  · have hcomma' : text.contains ',' = false := by simpa using hcomma
    rw [splitOnce_eq_some.mpr ⟨hcut, hdash⟩, hcomma']
    rfl

/-- A spelled range gets its answer. -/
theorem parseRange_of_spelled (h : spec.Spelled value) :
    parseRange value totalLen = some (spec.answer totalLen) := by
  obtain ⟨text, hwritten, rfl⟩ := h
  obtain ⟨hvisible, hcomma⟩ := hwritten.visible
  have hdash : isAsciiDigit '-' = false := by decide
  unfold parseRange
  cases hwritten with
  | @openEnded digits first hfirst =>
    obtain ⟨hbegin, hsplit⟩ := parseRange_of_cut rfl (hfirst.not_mem hdash) hvisible hcomma
    have hempty : digits.isEmpty = false := by simpa using hfirst.nonempty
    simp only [hbegin, hsplit, hempty, parseRangeNumber_eq_some.mpr hfirst, RangeSpec.answer]
    by_cases hbeyond : totalLen ≤ first
    · simp [hbeyond]
    · have hlastByte : subU64 totalLen 1 = some (totalLen - 1) := subU64_of_le (by omega)
      simp [hbeyond, hlastByte]
  | @closed digits digits' first last hfirst hlast hle =>
    obtain ⟨hbegin, hsplit⟩ := parseRange_of_cut rfl (hfirst.not_mem hdash) hvisible hcomma
    have hempty : digits.isEmpty = false := by simpa using hfirst.nonempty
    have hempty' : digits'.isEmpty = false := by simpa using hlast.nonempty
    have hfilter : (some last).filter (fun stop => first ≤ stop) = some last := if_pos (by simpa using hle)
    simp only [hbegin, hsplit, hempty, hempty', parseRangeNumber_eq_some.mpr hfirst,
      parseRangeNumber_eq_some.mpr hlast, hfilter, RangeSpec.answer]
    by_cases hbeyond : totalLen ≤ first
    · simp [hbeyond]
    · have hlastByte : subU64 totalLen 1 = some (totalLen - 1) := subU64_of_le (by omega)
      simp [hbeyond, hlastByte]
  | @suffix digits length hlength =>
    obtain ⟨hbegin, hsplit⟩ :=
      parseRange_of_cut (List.nil_append _).symm List.not_mem_nil hvisible hcomma
    simp only [hbegin, hsplit, List.isEmpty_nil, if_true, parseRangeNumber_eq_some.mpr hlength,
      RangeSpec.answer]
    by_cases hzero : length = 0
    · simp [hzero]
    · by_cases hnone : totalLen = 0
      · simp [hzero, hnone]
      · have hlastByte : subU64 totalLen 1 = some (totalLen - 1) := subU64_of_le (by omega)
        have hstart : subU64 totalLen (min length totalLen) = some (totalLen - min length totalLen) :=
          subU64_of_le (by omega)
        simp [hzero, hnone, hlastByte, hstart]

/-- A value that spells no range is ignored. -/
theorem parseRange_of_not_spelled (h : ∀ spec : RangeSpec, ¬spec.Spelled value) :
    parseRange value totalLen = some .ignore := by
  unfold parseRange
  split
  · rfl
  · rename_i text htext
    obtain ⟨whole, hwhole, hbegin⟩ := Option.bind_eq_some_iff.mp htext
    obtain ⟨front, hjoin, hfront⟩ := List.dropPrefix?_eq_some_iff.mp hbegin
    obtain rfl := beq_iff_eq.mp hfront
    have hvalue : value = bytesOf ("bytes=".toList ++ text) := hjoin ▸ eq_bytesOf_of_toStr hwhole
    have hunwritten (spec : RangeSpec) : ¬spec.IsWritten text := fun hwritten =>
      h spec ⟨text, hwritten, hvalue⟩
    split
    · rfl
    · rename_i start stop hsplit
      obtain ⟨hcut, -⟩ := splitOnce_eq_some.mp (Option.filter_eq_some_iff.mp hsplit).1
      split
      · rename_i hempty
        split
        · rfl
        · -- A dash in front of a number spells a suffix.
          rename_i suffix hsuffix
          have hwritten := RangeSpec.IsWritten.suffix (parseRangeNumber_eq_some.mp hsuffix)
          rw [hcut, List.isEmpty_iff.mp hempty] at hunwritten
          exact absurd hwritten (hunwritten _)
      · split
        · rfl
        · rename_i first hfirst
          have hfirst := parseRangeNumber_eq_some.mp hfirst
          split
          · rfl
          · rename_i last hlast
            split at hlast
            · rename_i hempty
              have hwritten := RangeSpec.IsWritten.openEnded hfirst
              rw [hcut, List.isEmpty_iff.mp hempty] at hunwritten
              exact absurd hwritten (hunwritten _)
            · obtain ⟨last, hlast, -⟩ := Option.map_eq_some_iff.mp hlast
              obtain ⟨hlast, hle⟩ := Option.filter_eq_some_iff.mp hlast
              have hwritten := RangeSpec.IsWritten.closed hfirst (parseRangeNumber_eq_some.mp hlast)
                (of_decide_eq_true hle)
              rw [hcut] at hunwritten
              exact absurd hwritten (hunwritten _)

/-! ### What an answer means -/

/-- What an answer says about the positions that a range selects. -/
def RangeSpec.Answers (spec : RangeSpec) (totalLen : ℕ) : RangeRequest → Prop
  | .satisfiable first last =>
    IsLeast (spec.selected totalLen) first ∧ IsGreatest (spec.selected totalLen) last
  | .unsatisfiable => spec.selected totalLen = ∅ ∧ ∀ length, 0 < length → spec ≠ .suffix length
  | .ignore => totalLen = 0 ∧ ∃ length, 0 < length ∧ spec = .suffix length

/-- A range whose first position is beyond the end selects nothing. -/
theorem RangeSpec.selected_eq_empty {P : ℕ → Prop} (h : ∀ position, P position → totalLen ≤ position) :
    {position | position < totalLen ∧ P position} = ∅ := by
  rw [Set.eq_empty_iff_forall_notMem]
  rintro position ⟨hlt, hposition⟩
  exact absurd (h position hposition) (by omega)

theorem RangeSpec.answers_answer (totalLen : ℕ) (h : spec.Spelled value) :
    spec.Answers totalLen (spec.answer totalLen) := by
  obtain ⟨text, hwritten, -⟩ := h
  cases hwritten with
  | @openEnded _ first _ =>
    by_cases hbeyond : totalLen ≤ first
    · rw [answer, if_pos hbeyond]
      exact ⟨selected_eq_empty fun position => by omega, nofun⟩
    · rw [answer, if_neg hbeyond]
      refine ⟨⟨⟨by omega, le_rfl⟩, fun position hposition => hposition.2⟩, ⟨by omega, by omega⟩, ?_⟩
      exact fun position hposition => Nat.le_sub_one_of_lt hposition.1
  | @closed _ _ first last _ _ hle =>
    by_cases hbeyond : totalLen ≤ first
    · rw [answer, if_pos hbeyond]
      exact ⟨selected_eq_empty fun position => by omega, nofun⟩
    · rw [answer, if_neg hbeyond]
      refine ⟨⟨⟨by omega, le_rfl, hle⟩, fun position hposition => hposition.2.1⟩,
        ⟨by omega, by omega, min_le_left _ _⟩, ?_⟩
      exact fun position hposition => le_min hposition.2.2 (Nat.le_sub_one_of_lt hposition.1)
  | @suffix _ length _ =>
    by_cases hzero : length = 0
    · rw [answer, if_pos hzero]
      exact ⟨selected_eq_empty fun position => by omega, by rintro _ hlength ⟨⟩; omega⟩
    · by_cases hnone : totalLen = 0
      · rw [answer, if_neg hzero, if_pos hnone]
        exact ⟨hnone, length, by omega, rfl⟩
      · rw [answer, if_neg hzero, if_neg hnone]
        refine ⟨⟨⟨by omega, by omega⟩, ?_⟩, ⟨by omega, by omega⟩, ?_⟩
        · rintro position ⟨hlt, hposition⟩
          omega
        · exact fun position hposition => Nat.le_sub_one_of_lt hposition.1

/-- A parsed range has an answer, or its value spells none. -/
theorem parseRange_cases (value : List UInt8) (totalLen : ℕ) :
    (∃ spec : RangeSpec, spec.Spelled value ∧
        parseRange value totalLen = some (spec.answer totalLen)) ∨
      (∀ spec : RangeSpec, ¬spec.Spelled value) ∧ parseRange value totalLen = some .ignore := by
  by_cases hspelled : ∃ spec : RangeSpec, spec.Spelled value
  · obtain ⟨spec, hspec⟩ := hspelled
    exact .inl ⟨spec, hspec, parseRange_of_spelled hspec⟩
  · exact .inr ⟨not_exists.mp hspelled, parseRange_of_not_spelled (not_exists.mp hspelled)⟩

theorem parseRange_eq_satisfiable : parseRange value totalLen = some (.satisfiable first last) ↔
    ∃ spec : RangeSpec, spec.Spelled value ∧
      IsLeast (spec.selected totalLen) first ∧ IsGreatest (spec.selected totalLen) last := by
  constructor
  · intro hparse
    rcases parseRange_cases value totalLen with ⟨spec, hspec, hanswer⟩ | ⟨-, hignore⟩
    · have hanswers := RangeSpec.answers_answer totalLen hspec
      rw [Option.some.inj (hanswer.symm.trans hparse)] at hanswers
      exact ⟨spec, hspec, hanswers⟩
    · cases hignore.symm.trans hparse
  · rintro ⟨spec, hspec, hleast, hgreatest⟩
    have hanswers := RangeSpec.answers_answer totalLen hspec
    rw [parseRange_of_spelled hspec]
    cases hanswer : spec.answer totalLen with
    | satisfiable first' last' =>
      rw [hanswer] at hanswers
      rw [hleast.unique hanswers.1, hgreatest.unique hanswers.2]
    | unsatisfiable =>
      rw [hanswer] at hanswers
      have hmem := hleast.1
      rw [hanswers.1] at hmem
      cases hmem
    | ignore =>
      rw [hanswer] at hanswers
      obtain ⟨hnone, length, -, rfl⟩ := hanswers
      have := hleast.1.1
      omega

theorem parseRange_eq_unsatisfiable : parseRange value totalLen = some .unsatisfiable ↔
    ∃ spec : RangeSpec, spec.Spelled value ∧ spec.selected totalLen = ∅ ∧
      ∀ length, 0 < length → spec ≠ .suffix length := by
  constructor
  · intro hparse
    rcases parseRange_cases value totalLen with ⟨spec, hspec, hanswer⟩ | ⟨-, hignore⟩
    · have hanswers := RangeSpec.answers_answer totalLen hspec
      rw [Option.some.inj (hanswer.symm.trans hparse)] at hanswers
      exact ⟨spec, hspec, hanswers⟩
    · cases hignore.symm.trans hparse
  · rintro ⟨spec, hspec, hempty, hsuffix⟩
    have hanswers := RangeSpec.answers_answer totalLen hspec
    rw [parseRange_of_spelled hspec]
    cases hanswer : spec.answer totalLen with
    | satisfiable first last =>
      rw [hanswer] at hanswers
      have hmem := hanswers.1.1
      rw [hempty] at hmem
      cases hmem
    | unsatisfiable => rfl
    | ignore =>
      rw [hanswer] at hanswers
      obtain ⟨-, length, hlength, heq⟩ := hanswers
      exact absurd heq (hsuffix length hlength)

theorem parseRange_eq_ignore : parseRange value totalLen = some .ignore ↔
    (∀ spec : RangeSpec, ¬spec.Spelled value) ∨
      totalLen = 0 ∧ ∃ length, 0 < length ∧ (RangeSpec.suffix length).Spelled value := by
  constructor
  · intro hparse
    rcases parseRange_cases value totalLen with ⟨spec, hspec, hanswer⟩ | ⟨hnone, -⟩
    · have hanswers := RangeSpec.answers_answer totalLen hspec
      rw [Option.some.inj (hanswer.symm.trans hparse)] at hanswers
      obtain ⟨hempty, length, hlength, rfl⟩ := hanswers
      exact .inr ⟨hempty, length, hlength, hspec⟩
    · exact .inl hnone
  · rintro (hnone | ⟨rfl, length, hlength, hspec⟩)
    · exact parseRange_of_not_spelled hnone
    · rw [parseRange_of_spelled hspec, RangeSpec.answer, if_neg (by omega), if_pos rfl]

/-! ### What is streamed -/

/-- The range of a partial answer is the parsed one, and its body is that part of the file. -/
theorem streamFile_partial {headers : DownloadHeaders} {file : StreamedFile}
    (hparse : parseRange value file.totalLen = some (.satisfiable first last))
    (hrange : headers.range = some value) (hmodified : ifNoneMatch headers.ifNoneMatch file.etag = false)
    (hallowed : ifRangeAllows headers.ifRange file.etag = true) (hle : first ≤ last)
    (hlast : last < file.totalLen) (htotal : file.totalLen < 2 ^ 64) :
    streamFile headers file = some (.partialContent (first, last) (last - first + 1)
      (takeFrom file.contents first (last - first + 1))) := by
  have hsum : addU64 (last - first) 1 = some (last - first + 1) := if_pos (by omega)
  simp [streamFile, hmodified, hallowed, hrange, hparse, subU64_of_le hle, hsum]

theorem length_takeFrom {contents : List UInt8} {start length : ℕ}
    (h : start + length ≤ contents.length) : (takeFrom contents start length).length = length := by
  rw [takeFrom, List.length_take, List.length_drop]
  omega

/-- A satisfiable range is the first and the last position that a spelled range selects, an
unsatisfiable one selects nothing, and any other header is ignored. The arithmetic stays within
64 bits, and the streamed body is the part of the file from the first to the last position. -/
theorem range_semantics (value : List UInt8) (totalLen : ℕ) (htotal : totalLen < 2 ^ 64) :
    (parseRange value totalLen).isSome = true ∧
    (∀ first last, parseRange value totalLen = some (.satisfiable first last) ↔
      ∃ spec : RangeSpec, spec.Spelled value ∧
        IsLeast (spec.selected totalLen) first ∧ IsGreatest (spec.selected totalLen) last) ∧
    (parseRange value totalLen = some .unsatisfiable ↔
      ∃ spec : RangeSpec, spec.Spelled value ∧ spec.selected totalLen = ∅ ∧
        ∀ length, 0 < length → spec ≠ .suffix length) ∧
    (parseRange value totalLen = some .ignore ↔
      (∀ spec : RangeSpec, ¬spec.Spelled value) ∨
        totalLen = 0 ∧ ∃ length, 0 < length ∧ (RangeSpec.suffix length).Spelled value) ∧
    (∀ first last, parseRange value totalLen = some (.satisfiable first last) →
      first ≤ last ∧ last < totalLen ∧
      ∀ (headers : DownloadHeaders) (file : StreamedFile), headers.range = some value →
        file.totalLen = totalLen → ifNoneMatch headers.ifNoneMatch file.etag = false →
        ifRangeAllows headers.ifRange file.etag = true →
        ∃ body, streamFile headers file =
            some (.partialContent (first, last) (last - first + 1) body) ∧
          body = takeFrom file.contents first (last - first + 1) ∧
          (totalLen ≤ file.contents.length → body.length = last - first + 1)) := by
  refine ⟨?_, fun first last => parseRange_eq_satisfiable, parseRange_eq_unsatisfiable,
    parseRange_eq_ignore, ?_⟩
  · rcases parseRange_cases value totalLen with ⟨spec, -, hparse⟩ | ⟨-, hparse⟩ <;> rw [hparse] <;> rfl
  · intro first last hparse
    obtain ⟨spec, -, hleast, hgreatest⟩ := parseRange_eq_satisfiable.mp hparse
    have hle : first ≤ last := hleast.2 hgreatest.1
    have hlast : last < totalLen := by
      cases spec with
      | openEnded | closed | suffix => exact hgreatest.1.1
    refine ⟨hle, hlast, ?_⟩
    rintro headers file hrange rfl hmodified hallowed
    refine ⟨_, streamFile_partial hparse hrange hmodified hallowed hle hlast htotal, rfl, ?_⟩
    exact fun hlength => length_takeFrom (by omega)

/-- `bytes=2-99` of six bytes selects the last four. -/
theorem range_semantics_clamped :
    parseRange (bytesOf "bytes=2-99".toList) 6 = some (.satisfiable 2 5) ∧ 2 ≤ 5 ∧ 5 < 6 := by
  have hparse : parseRange (bytesOf "bytes=2-99".toList) 6 = some (.satisfiable 2 5) := by decide
  obtain ⟨-, -, -, -, hpart⟩ := range_semantics (bytesOf "bytes=2-99".toList) 6 (by decide)
  exact ⟨hparse, (hpart 2 5 hparse).1, (hpart 2 5 hparse).2.1⟩

end Crabinet.Browse
