import Crabinet.Filesystem.NumberedName
import Crabinet.Share.Mutations

/-!
# The destination of an extraction

An archive is extracted beside what already has its name: under the name itself, or under the
first of its numbered siblings that is free. A sibling's name is shortened until the path fits.
-/

namespace Crabinet.Share

open Crabinet.Filesystem Crabinet.Library

/-- The longest name that keeps a path beneath the parent within its limit. -/
def maxNameBytes (parent : VirtualPath) : ℕ :=
  let prefixBytes := if parent = .root then 0 else pathBytes parent + 1
  min maxComponentBytes (maxVirtualPathBytes - prefixBytes)

/-- The candidate of a number: the name, or its beginning with the number after it. -/
def archiveCandidate (tables : UnicodeTables) (name : EntryName) (limit number : ℕ) : FsResult EntryName :=
  if number = 1 then .ok name
  else
    let suffix := numberSuffix number
    let text := name.value.toList
    let stop := floorCharBoundary text (min (utf8Length text) (limit - utf8Length suffix))
    EntryName.new tables (String.ofList (sliceTo text stop ++ suffix))

/-- One turn of the loop: what it returns, or nothing when the candidate is taken. -/
def tryCandidate (tables : UnicodeTables) (check : ℕ → Bool) (parent : Contents)
    (virtualParent : VirtualPath) (name : EntryName) (number : ℕ) : Option (FsResult VirtualPath) :=
  let limit := maxNameBytes virtualParent
  if !check number then some (.error .unavailable)
  else
    match archiveCandidate tables name limit number with
    | .error code => some (.error code)
    | .ok candidate =>
      match ensureCreatable candidate with
      | .error code => some (.error code)
      | .ok () =>
        if candidate.value.utf8ByteSize > limit then some (.error .conflict)
        else if (parent.get? candidate).isSome then none
        else some (.ok (virtualParent.join candidate))

/-- `unused_archive_destination`. -/
def AuthorizedShare.unusedArchiveDestination (share : AuthorizedShare) (tables : UnicodeTables)
    (check : ℕ → Bool) (path : VirtualPath) : FsResult VirtualPath := do
  share.requireWrite
  let (_, parent, name) ← share.root.openParent path
  ensureCreatable name
  match path.splitParent with
  | none => .error .invalidPath
  | some (virtualParent, _) =>
    ((List.range' 1 1000).findSome? (tryCandidate tables check parent virtualParent name)).getD
      (.error .conflict)

/-! ### The siblings of a name -/

/-- A numbered sibling that fits: the name itself, or as much of its beginning as leaves room for
the number. -/
def IsSibling (name : EntryName) (limit number : ℕ) (sibling : EntryName) : Prop :=
  utf8Length sibling.value.toList ≤ limit ∧
    if number = 1 then sibling = name
    else ∃ stem, sibling.value.toList = stem ++ numberSuffix number ∧ stem <+: name.value.toList ∧
      ∀ longer, longer <+: name.value.toList →
        utf8Length (longer ++ numberSuffix number) ≤ limit → longer <+: stem

/-- What is left of the name before a number. -/
def siblingStem (name : EntryName) (limit number : ℕ) : List Char :=
  sliceTo name.value.toList (limit - utf8Length (numberSuffix number))

/-- The number would follow the stem of the temporary names. -/
def IsTemporary (name : EntryName) (limit number : ℕ) : Prop :=
  2 ≤ number ∧ (siblingStem name limit number).map Char.toLower = temporaryStem

variable {tables : UnicodeTables} {name sibling : EntryName} {limit number other : ℕ}

theorem utf8Length_numberSuffix (number : ℕ) :
    utf8Length (numberSuffix number) = (Nat.toDigits 10 number).length + 1 := by
  rw [utf8Length_eq_length fun c hc => ?_]
  · rfl
  · have := code_of_mem_numberSuffix hc
    omega

/-- A larger number has no shorter suffix. -/
theorem utf8Length_numberSuffix_mono (h : number ≤ other) :
    utf8Length (numberSuffix number) ≤ utf8Length (numberSuffix other) := by
  rw [utf8Length_numberSuffix, utf8Length_numberSuffix]
  have hself := (Nat.length_toDigits_le_iff (b := 10) (n := other) (by decide) Nat.length_toDigits_pos).mp
    (Nat.le_refl (Nat.toDigits 10 other).length)
  exact Nat.succ_le_succ ((Nat.length_toDigits_le_iff (by decide) Nat.length_toDigits_pos).mpr
    (h.trans_lt hself))

/-- The sibling of a number, when the number fits. -/
theorem isSibling_iff (hnumber : number ≠ 1) : IsSibling name limit number sibling ↔
    utf8Length (numberSuffix number) ≤ limit ∧
      sibling = ⟨String.ofList (siblingStem name limit number ++ numberSuffix number)⟩ := by
  rw [IsSibling, if_neg hnumber, siblingStem]
  constructor
  · rintro ⟨hfits, stem, htext, hbegin, hlongest⟩
    rw [htext, utf8Length_append] at hfits
    have hsuffix : utf8Length (numberSuffix number) ≤ limit := by omega
    have hstem : stem = sliceTo name.value.toList (limit - utf8Length (numberSuffix number)) := by
      refine eq_sliceTo_iff.mpr ⟨⟨hbegin, by omega⟩, fun longer hlonger hle => hlongest longer hlonger ?_⟩
      rw [utf8Length_append]
      omega
    refine ⟨hsuffix, ?_⟩
    rw [← hstem, ← htext, String.ofList_toList]
  · rintro ⟨hsuffix, rfl⟩
    have hle := utf8Length_sliceTo_le name.value.toList (limit - utf8Length (numberSuffix number))
    rw [String.toList_ofList]
    refine ⟨?_, _, rfl, sliceTo_isPrefix _ _, fun longer hlonger hfits => ?_⟩
    · rw [utf8Length_append]
      omega
    · rw [utf8Length_append] at hfits
      exact isPrefix_sliceTo_iff.mpr ⟨hlonger, by omega⟩

/-- A number has one sibling. -/
theorem IsSibling.unique {sibling' : EntryName} (h : IsSibling name limit number sibling)
    (h' : IsSibling name limit number sibling') : sibling = sibling' := by
  by_cases hnumber : number = 1
  · have hself := h.2
    have hself' := h'.2
    rw [if_pos hnumber] at hself hself'
    exact hself.trans hself'.symm
  · exact ((isSibling_iff hnumber).mp h).2.trans ((isSibling_iff hnumber).mp h').2.symm

/-- The candidate of a later number is the shortened name with the number. -/
theorem archiveCandidate_of_ne (hnumber : number ≠ 1) : archiveCandidate tables name limit number =
    EntryName.new tables (String.ofList (siblingStem name limit number ++ numberSuffix number)) := by
  rw [archiveCandidate, if_neg hnumber]
  dsimp only
  rw [sliceTo_floorCharBoundary, sliceTo_min]
  rfl

/-- Nothing of the name is left before a number that does not fit. -/
theorem siblingStem_eq_nil (h : limit ≤ utf8Length (numberSuffix number)) :
    siblingStem name limit number = [] := by
  rw [siblingStem, Nat.sub_eq_zero_of_le h]
  have hle := utf8Length_sliceTo_le name.value.toList 0
  cases hslice : sliceTo name.value.toList 0 with
  | nil => rfl
  | cons c rest =>
    rw [hslice, utf8Length_cons] at hle
    have := c.utf8Size_pos
    omega

/-- A temporary stem leaves room for its number. -/
theorem IsTemporary.fits (h : IsTemporary name limit number) :
    utf8Length (numberSuffix number) ≤ limit := by
  by_contra hlong
  have hstem := h.2
  rw [siblingStem_eq_nil (Nat.le_of_not_le hlong)] at hstem
  exact absurd hstem (by decide)

/-! ### One turn -/

/-- What one turn of the loop comes to. -/
inductive Tried (tables : UnicodeTables) (check : ℕ → Bool) (parent : Contents)
    (virtualParent : VirtualPath) (name : EntryName) (limit number : ℕ) :
    Option (FsResult VirtualPath) → Prop where
  | stopped (hcheck : check number = false) :
    Tried tables check parent virtualParent name limit number (some (.error .unavailable))
  | tooLong (hnumber : number ≠ 1) (hlong : limit < utf8Length (numberSuffix number)) :
    Tried tables check parent virtualParent name limit number (some (.error .conflict))
  | refused (hcheck : check number = true) (htemporary : IsTemporary name limit number) :
    Tried tables check parent virtualParent name limit number (some (.error .invalidPath))
  | taken {sibling : EntryName} (hcheck : check number = true)
    (htemporary : ¬IsTemporary name limit number) (hsibling : IsSibling name limit number sibling)
    (htaken : (parent.get? sibling).isSome = true) :
    Tried tables check parent virtualParent name limit number none
  | free {sibling : EntryName} (htemporary : ¬IsTemporary name limit number)
    (hsibling : IsSibling name limit number sibling) (hvalid : ValidName tables sibling.value)
    (hcreatable : ensureCreatable sibling = .ok ()) (hfree : parent.get? sibling = none) :
    Tried tables check parent virtualParent name limit number (some (.ok (virtualParent.join sibling)))

section Turns

variable {check : ℕ → Bool} {parent : Contents} {virtualParent : VirtualPath}

/-- A candidate that is valid and fits is taken or free. -/
theorem tried_of_candidate (hcheck : check number = true)
    (hcandidate : archiveCandidate tables name (maxNameBytes virtualParent) number = .ok sibling)
    (hvalid : ValidName tables sibling.value) (hcreatable : ensureCreatable sibling = .ok ())
    (htemporary : ¬IsTemporary name (maxNameBytes virtualParent) number)
    (hsibling : IsSibling name (maxNameBytes virtualParent) number sibling) :
    Tried tables check parent virtualParent name (maxNameBytes virtualParent) number
      (tryCandidate tables check parent virtualParent name number) := by
  have hfits : ¬sibling.value.utf8ByteSize > maxNameBytes virtualParent := by
    rw [utf8ByteSize_eq_sum]
    exact Nat.not_lt.mpr hsibling.1
  unfold tryCandidate
  simp only [hcheck, hcandidate, hcreatable, Bool.not_true, Bool.false_eq_true, if_false, if_neg hfits]
  cases hentry : parent.get? sibling with
  | none => exact .free htemporary hsibling hvalid hcreatable hentry
  | some entry => exact .taken hcheck htemporary hsibling (by rw [hentry]; rfl)

/-- One turn, for a valid name that fits. -/
theorem tried (hlaws : tables.Lawful) (hname : ValidName tables name.value)
    (hcreatable : ensureCreatable name = .ok ())
    (hfits : utf8Length name.value.toList ≤ maxNameBytes virtualParent) (hpositive : 1 ≤ number)
    (hlast : number ≤ 1000) :
    Tried tables check parent virtualParent name (maxNameBytes virtualParent) number
      (tryCandidate tables check parent virtualParent name number) := by
  have hlimit : maxNameBytes virtualParent ≤ maxComponentBytes := Nat.min_le_left _ _
  cases hcheck : check number with
  | false =>
    unfold tryCandidate
    simp only [hcheck, Bool.not_false, if_true]
    exact .stopped hcheck
  | true =>
    by_cases hnumber : number = 1
    · subst hnumber
      have htemporary : ¬IsTemporary name (maxNameBytes virtualParent) 1 := fun h => absurd h.1 (by decide)
      refine tried_of_candidate hcheck ?_ hname hcreatable htemporary ⟨hfits, ?_⟩
      · rw [archiveCandidate, if_pos rfl]
      · rw [if_pos rfl]
    · have hstem : siblingStem name (maxNameBytes virtualParent) number <+: name.value.toList :=
        sliceTo_isPrefix _ _
      have hvalidName : ValidName tables (String.ofList name.value.toList) := by
        rwa [String.ofList_toList]
      have hcreatableName : ensureCreatable ⟨String.ofList name.value.toList⟩ = .ok () := by
        rwa [String.ofList_toList]
      have hcandidate := @archiveCandidate_of_ne tables name (maxNameBytes virtualParent) number hnumber
      have hcreatableStem := @creatable_numbered _ _ number hstem hcreatableName
      by_cases hsuffix : utf8Length (numberSuffix number) ≤ maxNameBytes virtualParent
      · have hsibling := (@isSibling_iff name _ (maxNameBytes virtualParent) _ hnumber).mpr ⟨hsuffix, rfl⟩
        have hbytes : utf8Length (siblingStem name (maxNameBytes virtualParent) number ++ numberSuffix number) ≤
            maxComponentBytes := by
          have := hsibling.1
          rw [String.toList_ofList] at this
          exact this.trans hlimit
        have hvalid := validName_numbered_iff hlaws hvalidName hstem hbytes
        by_cases htemporary : IsTemporary name (maxNameBytes virtualParent) number
        · -- The candidate is a reserved name.
          have hrefused : EntryName.accepts tables
              (String.ofList (siblingStem name (maxNameBytes virtualParent) number ++ numberSuffix number)) = false :=
            Bool.eq_false_iff.mpr fun h => hvalid.mp (accepts_iff.mp h) htemporary.2
          rw [EntryName.new, hrefused, if_neg Bool.false_ne_true] at hcandidate
          unfold tryCandidate
          simp only [hcheck, hcandidate, Bool.not_true, Bool.false_eq_true, if_false]
          exact .refused hcheck htemporary
        · have hvalid := hvalid.mpr fun h => htemporary ⟨by omega, h⟩
          rw [EntryName.new, if_pos (accepts_iff.mpr hvalid)] at hcandidate
          exact tried_of_candidate hcheck hcandidate hvalid hcreatableStem htemporary hsibling
      · -- Not even the number fits: it is a valid name, but too long.
        have hlong := Nat.lt_of_not_le hsuffix
        have hnil : siblingStem name (maxNameBytes virtualParent) number = [] := siblingStem_eq_nil hlong.le
        have hdigits : (Nat.toDigits 10 number).length ≤ 4 :=
          (Nat.length_toDigits_le_iff (by decide) (by decide)).mpr (by omega)
        have hbytes : utf8Length ([] ++ numberSuffix number) ≤ maxComponentBytes := by
          rw [List.nil_append, utf8Length_numberSuffix, maxComponentBytes]
          omega
        have hvalid := (validName_numbered_iff hlaws hvalidName List.nil_prefix hbytes).mpr (by decide)
        rw [hnil] at hcandidate hcreatableStem
        rw [EntryName.new, if_pos (accepts_iff.mpr hvalid)] at hcandidate
        have htooLong : (String.ofList ([] ++ numberSuffix number)).utf8ByteSize > maxNameBytes virtualParent := by
          rw [utf8ByteSize_eq_sum, String.toList_ofList]
          exact hlong
        unfold tryCandidate
        simp only [hcheck, hcandidate, hcreatableStem, Bool.not_true, Bool.false_eq_true, if_false,
          if_pos htooLong]
        exact .tooLong hnumber hlong

end Turns

/-! ### The loop -/

/-- The loop reaches a number whose candidate is reserved: every sibling before it is taken. -/
def HitsReserved (check : ℕ → Bool) (parent : Contents) (name : EntryName) (limit : ℕ) : Prop :=
  ∃ number ≤ 1000, IsTemporary name limit number ∧
    (∀ smaller, 1 ≤ smaller → smaller ≤ number → check smaller = true) ∧
    ∀ smaller sibling, 1 ≤ smaller → smaller < number → IsSibling name limit smaller sibling →
      (parent.get? sibling).isSome = true

/-- The first free one of the name and its numbered siblings is found, and a conflict means that
there is none. -/
structure NameFound (tables : UnicodeTables) (check : ℕ → Bool) (parent : Contents)
    (virtualParent : VirtualPath) (name : EntryName) (result : FsResult VirtualPath) : Prop where
  free : ∀ found, result = .ok found → ∃ number sibling, 1 ≤ number ∧ number ≤ 1000 ∧
    IsSibling name (maxNameBytes virtualParent) number sibling ∧ found = virtualParent.join sibling ∧
    parent.get? sibling = none ∧
    (∀ smaller, 1 ≤ smaller → smaller < number → ∃ taken,
      IsSibling name (maxNameBytes virtualParent) smaller taken ∧ (parent.get? taken).isSome = true) ∧
    ValidName tables sibling.value ∧ ensureCreatable sibling = .ok () ∧ pathBytes found ≤ maxVirtualPathBytes
  conflict : result = .error .conflict → ∀ number sibling, 1 ≤ number → number ≤ 1000 →
    IsSibling name (maxNameBytes virtualParent) number sibling → (parent.get? sibling).isSome = true
  other : ∀ code, result = .error code →
    code = .conflict ∨ code = .unavailable ∧ ∃ number, check number = false

/-- The length of a longer path. -/
theorem pathBytes_join (parent : VirtualPath) (name : EntryName) : pathBytes (parent.join name) =
    (if parent = .root then 0 else pathBytes parent + 1) + name.value.utf8ByteSize := by
  obtain ⟨components⟩ := parent
  unfold pathBytes VirtualPath.join VirtualPath.depth VirtualPath.root
  cases components with
  | nil => simp
  | cons first rest =>
    simp only [List.map_append, List.sum_append, List.length_append, List.length_cons, VirtualPath.mk.injEq,
      reduceCtorEq, if_false, List.map_cons, List.map_nil, List.sum_cons, List.sum_nil, List.length_nil]
    omega

/-- A name within the limit keeps the path within its own. -/
theorem pathBytes_join_le {virtualParent : VirtualPath} (hpositive : name.value ≠ "")
    (h : name.value.utf8ByteSize ≤ maxNameBytes virtualParent) :
    pathBytes (virtualParent.join name) ≤ maxVirtualPathBytes := by
  have hbytes : 0 < name.value.utf8ByteSize := by
    rw [Nat.pos_iff_ne_zero, ne_eq, String.utf8ByteSize_eq_zero_iff]
    exact hpositive
  rw [pathBytes_join]
  rw [maxNameBytes] at h
  omega

/-- The name of a path within its limit fits. -/
theorem le_maxNameBytes {virtualParent : VirtualPath} (hshort : name.value.utf8ByteSize ≤ maxComponentBytes)
    (h : pathBytes (virtualParent.join name) ≤ maxVirtualPathBytes) :
    name.value.utf8ByteSize ≤ maxNameBytes virtualParent := by
  rw [pathBytes_join] at h
  rw [maxNameBytes]
  omega

section Loop

variable {check : ℕ → Bool} {parent : Contents} {virtualParent : VirtualPath}

/-- The numbers before one in the loop. -/
theorem of_range'_eq_append {before after : List ℕ} (h : List.range' 1 1000 = before ++ number :: after) :
    1 ≤ number ∧ number ≤ 1000 ∧ ∀ smaller, smaller ∈ before ↔ 1 ≤ smaller ∧ smaller < number := by
  obtain ⟨count, hcount, rfl, hrest⟩ := List.range'_eq_append_iff.mp h
  obtain ⟨rfl, hleft, -⟩ := List.range'_eq_cons_iff.mp hrest.symm
  refine ⟨by omega, by omega, fun smaller => ?_⟩
  rw [List.mem_range'_1]
  omega

/-- The loop ends with a conflict, or at the first number that decides. -/
theorem findSome?_cases (f : ℕ → Option (FsResult VirtualPath)) :
    (((List.range' 1 1000).findSome? f).getD (.error .conflict) = .error .conflict ∧
        ∀ number, 1 ≤ number → number ≤ 1000 → f number = none) ∨
      ∃ number result, 1 ≤ number ∧ number ≤ 1000 ∧ f number = some result ∧
        (∀ smaller, 1 ≤ smaller → smaller < number → f smaller = none) ∧
        ((List.range' 1 1000).findSome? f).getD (.error .conflict) = result := by
  cases hfind : (List.range' 1 1000).findSome? f with
  | none =>
    refine .inl ⟨rfl, fun number hpositive hlast => List.findSome?_eq_none_iff.mp hfind number ?_⟩
    rw [List.mem_range'_1]
    omega
  | some result =>
    obtain ⟨before, number, after, hrange, hresult, hbefore⟩ := List.findSome?_eq_some_iff.mp hfind
    obtain ⟨hpositive, hlast, hmem⟩ := of_range'_eq_append hrange
    exact .inr ⟨number, result, hpositive, hlast, hresult, fun smaller hsmall hlt =>
      hbefore smaller ((hmem smaller).mpr ⟨hsmall, hlt⟩), rfl⟩

theorem unusedArchiveDestination_eq {share : AuthorizedShare} {path : VirtualPath}
    {parents : List EntryName} (hwrite : share.requireWrite = .ok ())
    (hopen : share.root.openParent path = .ok (parents, parent, name))
    (hcreatable : ensureCreatable name = .ok ()) :
    share.unusedArchiveDestination tables check path =
      ((List.range' 1 1000).findSome? (tryCandidate tables check parent ⟨parents⟩ name)).getD
        (.error .conflict) := by
  have hsplit := VirtualPath.splitFile_eq_ok.mp (Contents.openParent_eq_ok.mp hopen).1
  have hparent : path.splitParent = some (⟨parents⟩, name) := by
    rw [VirtualPath.splitParent, hsplit]
    simp
  unfold AuthorizedShare.unusedArchiveDestination
  simp only [hwrite, hopen, hcreatable, hparent, ok_bind]

/-- A turn that does not decide has seen its sibling taken, and its candidate is not reserved. -/
theorem Tried.of_none {limit : ℕ} (h : Tried tables check parent virtualParent name limit number none) :
    check number = true ∧ ¬IsTemporary name limit number ∧
      ∃ sibling, IsSibling name limit number sibling ∧ (parent.get? sibling).isSome = true := by
  cases h with
  | taken hcheck htemporary hsibling htaken => exact ⟨hcheck, htemporary, _, hsibling, htaken⟩

/-- The sibling of such a turn is the one that is taken. -/
theorem Tried.isSome_of_none {limit : ℕ}
    (h : Tried tables check parent virtualParent name limit number none)
    (hsibling : IsSibling name limit number sibling) : (parent.get? sibling).isSome = true := by
  obtain ⟨-, -, taken, htakenSibling, hisSome⟩ := h.of_none
  exact hsibling.unique htakenSibling ▸ hisSome

/-- A loop without a turn that decides has seen every sibling taken. -/
theorem nameFound_of_none
    (hnone : ∀ number, 1 ≤ number → number ≤ 1000 →
      Tried tables check parent virtualParent name (maxNameBytes virtualParent) number none) :
    NameFound tables check parent virtualParent name (.error .conflict) ∧
      ¬HitsReserved check parent name (maxNameBytes virtualParent) := by
  refine ⟨⟨nofun, fun _ number sibling hpositive hlast hsibling =>
    (hnone number hpositive hlast).isSome_of_none hsibling, ?_⟩, ?_⟩
  · rintro code h
    exact .inl (Except.error.inj h).symm
  · rintro ⟨number, hlast, htemporary, -, -⟩
    have hpositive : 1 ≤ number := by have := htemporary.1; omega
    exact (hnone number hpositive hlast).of_none.2.1 htemporary

/-- The turn that decides gives a name as wanted, unless its candidate is reserved. -/
theorem nameFound_iff_of_some {result : FsResult VirtualPath} (hpositive : 1 ≤ number)
    (hlast : number ≤ 1000)
    (hbefore : ∀ smaller, 1 ≤ smaller → smaller < number →
      Tried tables check parent virtualParent name (maxNameBytes virtualParent) smaller none)
    (hturn : Tried tables check parent virtualParent name (maxNameBytes virtualParent) number
      (some result)) :
    NameFound tables check parent virtualParent name result ↔
      ¬HitsReserved check parent name (maxNameBytes virtualParent) := by
  -- A reserved candidate that the loop reaches is not before the number that decides.
  have hbeyond {other : ℕ} (htemporary : IsTemporary name (maxNameBytes virtualParent) other) :
      number ≤ other := by
    by_contra hlt
    have hother := htemporary.1
    exact (hbefore other (by omega) (by omega)).of_none.2.1 htemporary
  cases hturn with
  | stopped hcheck =>
    refine iff_of_true ⟨nofun, nofun, fun code h => ?_⟩ ?_
    · exact .inr ⟨(Except.error.inj h).symm, number, hcheck⟩
    · rintro ⟨other, -, htemporary, hchecks, -⟩
      have := hchecks number hpositive (hbeyond htemporary)
      rw [hcheck] at this
      cases this
  | tooLong hnumber hlong =>
    refine iff_of_true ⟨nofun, fun _ other sibling hotherPositive _ hsibling => ?_, ?_⟩ ?_
    · by_cases hlt : other < number
      · exact (hbefore other hotherPositive hlt).isSome_of_none hsibling
      · have hfitting := ((isSibling_iff (by omega)).mp hsibling).1
        have := utf8Length_numberSuffix_mono (Nat.le_of_not_lt hlt)
        omega
    · rintro code h
      exact .inl (Except.error.inj h).symm
    · rintro ⟨other, -, htemporary, -, -⟩
      have hfitting := htemporary.fits
      have := utf8Length_numberSuffix_mono (hbeyond htemporary)
      omega
  | refused hcheck htemporary =>
    refine iff_of_false (fun hfound => ?_) (not_not.mpr ⟨number, hlast, htemporary, ?_, ?_⟩)
    · rcases hfound.other _ rfl with h | ⟨h, -⟩ <;> cases h
    · intro smaller hsmall hle
      rcases Nat.lt_or_eq_of_le hle with hlt | rfl
      · exact (hbefore smaller hsmall hlt).of_none.1
      · exact hcheck
    · exact fun smaller sibling hsmall hlt hsibling =>
        (hbefore smaller hsmall hlt).isSome_of_none hsibling
  | @free sibling hnot hsibling hvalid hcreatableSibling hfree =>
    refine iff_of_true ⟨?_, nofun, nofun⟩ ?_
    · rintro found h
      obtain rfl := Except.ok.inj h
      refine ⟨number, sibling, hpositive, hlast, hsibling, rfl, hfree, fun smaller hsmall hlt =>
        (hbefore smaller hsmall hlt).of_none.2.2, hvalid, hcreatableSibling, ?_⟩
      refine pathBytes_join_le hvalid.nonempty ?_
      rw [utf8ByteSize_eq_sum]
      exact hsibling.1
    · rintro ⟨other, -, htemporary, -, htakenBefore⟩
      rcases Nat.lt_or_eq_of_le (hbeyond htemporary) with hlt | rfl
      · have := htakenBefore number sibling hpositive hlt hsibling
        rw [hfree] at this
        cases this
      · exact hnot htemporary

/-- For a valid, creatable name within the limits, the first free sibling is found, unless every
sibling before a reserved candidate is taken. -/
theorem archive_name_found_iff {share : AuthorizedShare} {path : VirtualPath}
    {parents : List EntryName} (hlaws : tables.Lawful) (hwrite : share.requireWrite = .ok ())
    (hopen : share.root.openParent path = .ok (parents, parent, name))
    (hname : ValidName tables name.value) (hcreatable : ensureCreatable name = .ok ())
    (hbytes : pathBytes path ≤ maxVirtualPathBytes) :
    NameFound tables check parent ⟨parents⟩ name (share.unusedArchiveDestination tables check path) ↔
      ¬HitsReserved check parent name (maxNameBytes ⟨parents⟩) := by
  have hpath : path = (⟨parents⟩ : VirtualPath).join name :=
    congrArg VirtualPath.mk (VirtualPath.splitFile_eq_ok.mp (Contents.openParent_eq_ok.mp hopen).1)
  have hfits : utf8Length name.value.toList ≤ maxNameBytes ⟨parents⟩ := by
    have := le_maxNameBytes hname.short (hpath ▸ hbytes)
    rwa [utf8ByteSize_eq_sum] at this
  have htried (number : ℕ) (hpositive : 1 ≤ number) (hlast : number ≤ 1000) :=
    @tried tables name number check parent ⟨parents⟩ hlaws hname hcreatable hfits hpositive hlast
  rw [unusedArchiveDestination_eq hwrite hopen hcreatable]
  rcases findSome?_cases (tryCandidate tables check parent ⟨parents⟩ name) with
    ⟨hresult, hnone⟩ | ⟨number, result, hpositive, hlast, hsome, hbefore, hresult⟩
  · obtain ⟨hfound, hnot⟩ := nameFound_of_none fun number hpositive hlast =>
      hnone number hpositive hlast ▸ htried number hpositive hlast
    rw [hresult]
    exact iff_of_true hfound hnot
  · rw [hresult]
    exact nameFound_iff_of_some hpositive hlast
      (fun smaller hsmall hlt => hbefore smaller hsmall hlt ▸ htried smaller hsmall (by omega))
      (hsome ▸ htried number hpositive hlast)

end Loop

/-- Unicode, as far as texts in ASCII need it. -/
def asciiTables : UnicodeTables where
  isNfc value := value.toList.all fun c => c.toNat < 0x80
  toUppercase value := String.ofList (value.toList.map Char.toUpper)

theorem asciiTables_lawful : asciiTables.Lawful where
  nfc_front first second h := by
    simp only [asciiTables, String.toList_ofList, List.all_append, Bool.and_eq_true] at h ⊢
    exact h.1
  nfc_ascii first second h hsecond := by
    simp only [asciiTables, String.toList_ofList, List.all_append, Bool.and_eq_true] at h ⊢
    exact ⟨h, List.all_eq_true.mpr fun c hc => decide_eq_true (hsecond c hc)⟩
  uppercase := ⟨fun c => [c.toUpper], fun text => by simp [asciiTables, List.map_eq_flatMap],
    fun _ _ => rfl⟩

/-- A writable share with one file in its root. -/
def shareOfFile (name : EntryName) : AuthorizedShare where
  root := .leaf name .file ⟨0, none, 1, 1⟩ .empty
  trash := ⟨.empty, .empty, .empty, []⟩
  readWrite := true

theorem archive_name_found_backup :
    NameFound asciiTables (fun _ => true) (shareOfFile ⟨"backup"⟩).root ⟨[]⟩ ⟨"backup"⟩
      ((shareOfFile ⟨"backup"⟩).unusedArchiveDestination asciiTables (fun _ => true) ⟨[⟨"backup"⟩]⟩) := by
  refine (archive_name_found_iff asciiTables_lawful rfl rfl (accepts_iff.mp (by decide)) rfl (by decide)).mpr ?_
  rintro ⟨number, -, ⟨-, hstem⟩, -⟩
  have hlength := congrArg List.length hstem
  rw [List.length_map] at hlength
  have hle : (siblingStem ⟨"backup"⟩ (maxNameBytes ⟨[]⟩) number).length ≤ "backup".toList.length :=
    (sliceTo_isPrefix _ _).length_le
  rw [hlength] at hle
  exact absurd hle (by decide)

/-- The first sibling of a taken `.index-tmp` is a reserved name. -/
theorem archive_name_refused :
    EntryName.accepts asciiTables ".index-tmp" = true ∧ ensureCreatable ⟨".index-tmp"⟩ = .ok () ∧
      (shareOfFile ⟨".index-tmp"⟩).unusedArchiveDestination asciiTables (fun _ => true)
        ⟨[⟨".index-tmp"⟩]⟩ = .error .invalidPath ∧
      ¬NameFound asciiTables (fun _ => true) (shareOfFile ⟨".index-tmp"⟩).root ⟨[]⟩ ⟨".index-tmp"⟩
        ((shareOfFile ⟨".index-tmp"⟩).unusedArchiveDestination asciiTables (fun _ => true)
          ⟨[⟨".index-tmp"⟩]⟩) := by
  have hresult : (shareOfFile ⟨".index-tmp"⟩).unusedArchiveDestination asciiTables (fun _ => true)
      ⟨[⟨".index-tmp"⟩]⟩ = .error .invalidPath := by decide +kernel
  refine ⟨by decide, rfl, hresult, fun hfound => ?_⟩
  rcases hfound.other _ hresult with h | ⟨h, -⟩ <;> cases h

end Crabinet.Share
