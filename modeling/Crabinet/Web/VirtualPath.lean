import Crabinet.Filesystem.PathGrammar
import Crabinet.Library.Text

/-!
# Virtual paths in the web client

The client's own grammar of paths. A text is the list of its characters, so that it has no
unpaired surrogate. What the server accepts the client accepts.
-/

namespace Crabinet.Web

open Crabinet.Filesystem Crabinet.Library

/-- `hasControlCharacter`. -/
def hasControlCharacter (value : List Char) : Bool :=
  value.any fun c => c.toNat ≤ 0x1f || (0x7f ≤ c.toNat && c.toNat ≤ 0x9f)

/-- The test of `PERCENT_TRIPLET`. -/
def hasPercentTriplet : List Char → Bool
  | [] => false
  | c :: rest =>
    (c == '%' && (rest.take 2).length == 2 && (rest.take 2).all isAsciiHexdigit) || hasPercentTriplet rest

/-- `isValidPathComponent`. -/
def isValidPathComponent (tables : UnicodeTables) (value : List Char) : Bool :=
  value.length > 0 && value != ['.'] && value != ['.', '.'] && !value.contains '/' &&
    !value.contains '\\' && !hasControlCharacter value && !hasPercentTriplet value &&
    value.getLast? != some '.' && value.getLast? != some ' ' && tables.isNfc (String.ofList value)

/-- `isValidVirtualPath`. -/
def isValidVirtualPath (tables : UnicodeTables) (value : List Char) : Bool :=
  if value = [] then true
  else if value.head? = some '/' ∨ value.getLast? = some '/' then false
  else (value.splitOn '/').all (isValidPathComponent tables)

/-- The segments of a path. -/
def segmentsOf (path : List Char) : List (List Char) := (path.splitOn '/').filter (· ≠ [])

/-- `parentPath`. -/
def parentPath (tables : UnicodeTables) (path : List Char) : List Char :=
  if isValidVirtualPath tables path then ['/'].intercalate (segmentsOf path).dropLast else []

variable {tables : UnicodeTables} {value text path : List Char}

/-! ### What the server accepts -/

theorem exists_of_hasPercentTriplet (h : hasPercentTriplet value = true) :
    ∃ high low, isAsciiHexdigit high = true ∧ isAsciiHexdigit low = true ∧
      ['%', high, low] <:+: value := by
  induction value with
  | nil => cases h
  | cons c rest ih =>
    rcases Bool.or_eq_true_iff.mp h with hfirst | hrest
    · rcases rest with _ | ⟨high, _ | ⟨low, rest⟩⟩
      · simp at hfirst
      · simp at hfirst
      · simp only [List.take_succ_cons, List.take_zero, List.all_cons, List.all_nil, Bool.and_true,
          Bool.and_eq_true, beq_iff_eq] at hfirst
        obtain ⟨⟨rfl, -⟩, hhigh, hlow⟩ := hfirst
        exact ⟨high, low, hhigh, hlow, [], rest, rfl⟩
    · obtain ⟨high, low, hhigh, hlow, hwithin⟩ := ih hrest
      exact ⟨high, low, hhigh, hlow, List.infix_cons hwithin⟩

/-- A name that the server accepts is a component in the client. -/
theorem isValidPathComponent_of_accepts {name : String} (h : EntryName.accepts tables name = true) :
    isValidPathComponent tables name.toList = true := by
  have hname := accepts_iff.mp h
  have hcontrol : hasControlCharacter name.toList = false := by
    refine List.any_eq_false.mpr fun c hc hcontrol => ?_
    have hnone := hname.controls c hc
    simp only [isControl, Bool.or_eq_false_iff, decide_eq_false_iff_not, Bool.and_eq_false_iff] at hnone
    simp only [Bool.or_eq_true, decide_eq_true_eq, Bool.and_eq_true] at hcontrol
    omega
  have htriplet : hasPercentTriplet name.toList = false := by
    refine Bool.eq_false_iff.mpr fun hsome => ?_
    obtain ⟨high, low, hhigh, hlow, hwithin⟩ := exists_of_hasPercentTriplet hsome
    exact hname.escapes high low hhigh hlow hwithin
  have hdot : name.toList.getLast? ≠ some '.' := mt getLast?_eq_iff_suffix.mp hname.ending.1
  have hspace : name.toList.getLast? ≠ some ' ' := mt getLast?_eq_iff_suffix.mp hname.ending.2
  have hpositive : 0 < name.toList.length := List.length_pos_iff.mpr fun hnil =>
    hname.nonempty (String.toList_inj.mp hnil)
  have hsingle : name.toList ≠ ['.'] := fun heq => hname.named.1 (String.toList_inj.mp heq)
  have hdouble : name.toList ≠ ['.', '.'] := fun heq => hname.named.2 (String.toList_inj.mp heq)
  simp [isValidPathComponent, hpositive, hsingle, hdouble, hname.separators.1, hname.separators.2.1,
    hcontrol, htriplet, hdot, hspace, hname.normalized]

/-! ### Paths and their segments -/

theorem ne_nil_of_component (h : isValidPathComponent tables value = true) : value ≠ [] := by
  rintro rfl
  cases h

/-- A text joined of parts without a slash starts and ends with none. -/
theorem ends_intercalate {parts : List (List Char)} (hne : ∀ part ∈ parts, part ≠ [])
    (hslash : ∀ part ∈ parts, '/' ∉ part) :
    (['/'].intercalate parts).head? ≠ some '/' ∧ (['/'].intercalate parts).getLast? ≠ some '/' := by
  induction parts with
  | nil => exact ⟨nofun, nofun⟩
  | cons part rest ih =>
    obtain ⟨-, hlast⟩ := ih (fun other hother => hne other (List.mem_cons_of_mem _ hother))
      fun other hother => hslash other (List.mem_cons_of_mem _ hother)
    have hpart := hslash part List.mem_cons_self
    have hhead (after : List Char) : (part ++ after).head? ≠ some '/' := by
      rw [List.head?_append_of_ne_nil _ (hne part List.mem_cons_self)]
      exact fun h => hpart (List.mem_of_mem_head? h)
    cases rest with
    | nil =>
      rw [List.intercalate_singleton]
      exact ⟨fun h => hpart (List.mem_of_mem_head? h), fun h => hpart (List.mem_of_mem_getLast? h)⟩
    | cons next rest =>
      rw [List.intercalate_cons_cons, List.append_assoc]
      refine ⟨hhead _, ?_⟩
      have hjoined : ['/'].intercalate (next :: rest) ≠ [] := by
        intro hnil
        have hmem : next ≠ [] := hne next (List.mem_cons_of_mem _ List.mem_cons_self)
        cases rest with
        | nil => exact hmem (by rwa [List.intercalate_singleton] at hnil)
        | cons other rest =>
          rw [List.intercalate_cons_cons, List.append_assoc] at hnil
          exact hmem (List.append_eq_nil_iff.mp hnil).1
      rw [List.getLast?_append_of_ne_nil _ (List.append_ne_nil_of_right_ne_nil _ hjoined),
        List.getLast?_append_of_ne_nil _ hjoined]
      exact hlast

/-- A path other than the root is valid when its parts are. -/
theorem isValidVirtualPath_iff (hne : path ≠ []) : isValidVirtualPath tables path = true ↔
    ∀ part ∈ path.splitOn '/', isValidPathComponent tables part = true := by
  rw [isValidVirtualPath, if_neg hne]
  constructor
  · intro h
    split_ifs at h
    exact List.all_eq_true.mp h
  · intro h
    have hends := ends_intercalate (fun part hpart => ne_nil_of_component (h part hpart))
      fun part hpart => notMem_of_mem_splitOn hpart
    rw [List.intercalate_splitOn] at hends
    rw [if_neg (not_or.mpr hends)]
    exact List.all_eq_true.mpr h

/-- A path that the server parses is valid in the client. -/
theorem isValidVirtualPath_of_parsePath {parsed : Filesystem.VirtualPath}
    (h : parsePath (EntryName.accepts tables) text = .ok parsed) : isValidVirtualPath tables text = true := by
  obtain ⟨rfl, hcanonical, hroot, -⟩ := parsePath_eq_ok h
  have hseparable := separable_accepts tables
  refine (isValidVirtualPath_iff (pathText_ne_nil hseparable hcanonical hroot)).mpr fun part hpart => ?_
  rw [splitOn_pathText hseparable hcanonical hroot] at hpart
  obtain ⟨name, hname, rfl⟩ := List.mem_map.mp hpart
  exact isValidPathComponent_of_accepts (hcanonical name hname)

/-- The segments of a valid path are its components. -/
theorem segmentsOf_valid (h : isValidVirtualPath tables path = true) :
    (∀ segment ∈ segmentsOf path, isValidPathComponent tables segment = true) ∧
      ['/'].intercalate (segmentsOf path) = path := by
  by_cases hne : path = []
  · rw [hne]
    exact ⟨nofun, rfl⟩
  · have hparts := (isValidVirtualPath_iff hne).mp h
    have hall : segmentsOf path = path.splitOn '/' := List.filter_eq_self.mpr fun part hpart =>
      decide_eq_true (ne_nil_of_component (hparts part hpart))
    rw [hall]
    exact ⟨hparts, List.intercalate_splitOn _⟩

/-- What a component is not. -/
theorem of_component (h : isValidPathComponent tables value = true) :
    value ≠ ['.'] ∧ value ≠ ['.', '.'] ∧ '/' ∉ value := by
  simp only [isValidPathComponent, Bool.and_eq_true, bne_iff_ne, Bool.not_eq_true', List.contains_eq_mem,
    decide_eq_false_iff_not] at h
  exact ⟨h.1.1.1.1.1.1.1.1.2, h.1.1.1.1.1.1.1.2, h.1.1.1.1.1.1.2⟩

end Crabinet.Web
