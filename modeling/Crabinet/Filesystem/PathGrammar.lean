import Crabinet.Filesystem.PathText

/-!
# The grammar of paths

Which texts are paths: lists of names, with a separator between them. A name is described by
what it may not be; the checks of the code accept exactly these, and what is accepted is
printed as it was written.
-/

namespace Crabinet.Filesystem

/-- A valid name, by what the grammar refuses. -/
structure ValidName (tables : UnicodeTables) (value : String) : Prop where
  nonempty : value ≠ ""
  short : value.utf8ByteSize ≤ maxComponentBytes
  named : value ≠ "." ∧ value ≠ ".."
  separators : '/' ∉ value.toList ∧ '\\' ∉ value.toList ∧ '\x00' ∉ value.toList
  controls : ∀ c ∈ value.toList, isControl c = false
  ending : ¬['.'] <:+ value.toList ∧ ¬[' '] <:+ value.toList
  escapes : ∀ high low, isAsciiHexdigit high = true → isAsciiHexdigit low = true →
    ¬['%', high, low] <:+: value.toList
  normalized : tables.isNfc value = true
  device : isWindowsDeviceName tables value = false
  reserved : isReservedName value = false

/-- A text that is a list of at most 64 names with a separator between them. -/
def PathGrammar (tables : UnicodeTables) (text : List Char) : Prop :=
  ∃ names : List String, 1 ≤ names.length ∧ names.length ≤ maxPathDepth ∧
    text = List.intercalate ['/'] (names.map String.toList) ∧
    (text.map Char.utf8Size).sum ≤ maxVirtualPathBytes ∧ ∀ name ∈ names, ValidName tables name

/-- `split_parent`. -/
def VirtualPath.splitParent (path : VirtualPath) : Option (VirtualPath × EntryName) :=
  path.components.getLast?.map fun name => (⟨path.components.dropLast⟩, name)

/-! ### Names -/

variable {tables : UnicodeTables} {value : String} {path : VirtualPath} {text : List Char}

theorem getLast?_eq_iff_suffix {c : Char} : text.getLast? = some c ↔ [c] <:+ text := by
  rw [List.getLast?_eq_some_iff]
  exact ⟨fun ⟨init, h⟩ => ⟨init, h.symm⟩, fun ⟨init, h⟩ => ⟨init, h.symm⟩⟩

/-- The scan finds an escape where there is one. -/
theorem containsPercentEscape_iff : containsPercentEscape text = true ↔
    ∃ high low, isAsciiHexdigit high = true ∧ isAsciiHexdigit low = true ∧
      ['%', high, low] <:+: text := by
  fun_induction containsPercentEscape text with
  | case1 first second third rest ih =>
    rw [Bool.or_eq_true, ih]
    constructor
    · rintro (hfirst | ⟨high, low, hhigh, hlow, hwithin⟩)
      · simp only [Bool.and_eq_true, beq_iff_eq] at hfirst
        obtain ⟨⟨rfl, hsecond⟩, hthird⟩ := hfirst
        exact ⟨second, third, hsecond, hthird, [], rest, rfl⟩
      · exact ⟨high, low, hhigh, hlow, List.infix_cons hwithin⟩
    · rintro ⟨high, low, hhigh, hlow, hwithin⟩
      rcases List.infix_cons_iff.mp hwithin with hbegin | hwithin
      · simp only [List.cons_prefix_cons, List.nil_prefix, and_true] at hbegin
        obtain ⟨rfl, rfl, rfl⟩ := hbegin
        exact .inl (by simp [hhigh, hlow])
      · exact .inr ⟨high, low, hhigh, hlow, hwithin⟩
  | case2 text hshort =>
    refine ⟨nofun, ?_⟩
    rintro ⟨high, low, -, -, before, after, htext⟩
    -- An escape has three characters.
    have hlength := congrArg List.length htext
    match text, hshort with
    | [], _ | [_], _ | [_, _], _ => simp at hlength <;> omega
    | first :: second :: third :: rest, hshort => exact absurd rfl (hshort first second third rest)

/-- The checks accept the valid names. -/
theorem accepts_iff : EntryName.accepts tables value = true ↔ ValidName tables value := by
  have hescape := @containsPercentEscape_iff value.toList
  constructor
  · intro haccepts
    simp only [EntryName.accepts, Bool.not_eq_true', Bool.or_eq_false_iff] at haccepts
    obtain ⟨⟨⟨⟨⟨⟨⟨⟨⟨⟨⟨hempty, hshort⟩, hdot⟩, hdots⟩, hseparators⟩, hcontrols⟩, hend⟩, hend'⟩,
      hescapes⟩, hnfc⟩, hdevice⟩, hreserved⟩ := haccepts
    refine ⟨?_, ?_, ⟨?_, ?_⟩, ?_, ?_, ⟨?_, ?_⟩, ?_, ?_, hdevice, hreserved⟩
    · rintro rfl
      cases hempty
    · simpa using hshort
    · simpa using hdot
    · simpa using hdots
    · simp only [List.any_eq_false, Bool.or_eq_true, beq_iff_eq] at hseparators
      exact ⟨fun h => hseparators _ h (.inl (.inl rfl)), fun h => hseparators _ h (.inl (.inr rfl)),
        fun h => hseparators _ h (.inr rfl)⟩
    · intro c hc
      exact Bool.eq_false_iff.mpr (List.any_eq_false.mp hcontrols c hc)
    · rw [← getLast?_eq_iff_suffix]
      simpa using hend
    · rw [← getLast?_eq_iff_suffix]
      simpa using hend'
    · intro high low hhigh hlow hwithin
      exact Bool.eq_false_iff.mp hescapes (hescape.mpr ⟨high, low, hhigh, hlow, hwithin⟩)
    · simpa using hnfc
  · rintro ⟨hempty, hshort, ⟨hdot, hdots⟩, ⟨hslash, hbackslash, hnul⟩, hcontrols, ⟨hend, hend'⟩,
      hescapes, hnfc, hdevice, hreserved⟩
    rw [← getLast?_eq_iff_suffix] at hend hend'
    have hseparators : value.toList.any (fun c => c == '/' || c == '\\' || c == '\x00') = false := by
      simp only [List.any_eq_false, Bool.or_eq_true, beq_iff_eq]
      rintro c hc ((rfl | rfl) | rfl)
      exacts [hslash hc, hbackslash hc, hnul hc]
    have hcontrol : value.toList.any isControl = false :=
      List.any_eq_false.mpr fun c hc => Bool.eq_false_iff.mp (hcontrols c hc)
    have hescapes' : containsPercentEscape value.toList = false := by
      refine Bool.eq_false_iff.mpr fun h => ?_
      obtain ⟨high, low, hhigh, hlow, hwithin⟩ := hescape.mp h
      exact hescapes high low hhigh hlow hwithin
    have hnonempty : value.isEmpty = false := by simpa using hempty
    simp [EntryName.accepts, hnonempty, hshort, hdot, hdots, hseparators, hcontrol, hend, hend',
      hescapes', hnfc, hdevice, hreserved]

/-! ### Paths -/

/-- The parser accepts the grammar. -/
theorem parsePath_isOk_iff :
    (∃ path, parsePath (EntryName.accepts tables) text = .ok path) ↔ PathGrammar tables text := by
  have hseparable := separable_accepts tables
  constructor
  · rintro ⟨path, hparse⟩
    obtain ⟨htext, hpath, hroot, hbytes⟩ := parsePath_eq_ok hparse
    refine ⟨path.components.map EntryName.value, ?_, ?_, ?_, ?_, ?_⟩
    · rw [List.length_map, Nat.one_le_iff_ne_zero]
      exact fun h => hroot (congrArg VirtualPath.mk (List.length_eq_zero_iff.mp h))
    · rw [List.length_map]
      exact depth_of_parsePath hseparable hparse
    · rw [List.map_map, ← htext]
      rfl
    · rw [← htext, sum_pathText]
      exact hbytes
    · intro value hvalue
      obtain ⟨name, hname, rfl⟩ := List.mem_map.mp hvalue
      exact accepts_iff.mp (hpath name hname)
  · rintro ⟨names, hpositive, hdepth, rfl, hbytes, hvalid⟩
    let path : VirtualPath := ⟨names.map EntryName.mk⟩
    have htext : pathText path = List.intercalate ['/'] (names.map String.toList) := by
      simp only [pathText, path, List.map_map]
      rfl
    have hpath : path.Canonical (EntryName.accepts tables) := by
      intro name hname
      obtain ⟨value, hvalue, rfl⟩ := List.mem_map.mp hname
      exact accepts_iff.mpr (hvalid value hvalue)
    have hroot : path ≠ .root := by
      intro h
      have := congrArg VirtualPath.depth h
      simp only [path, VirtualPath.depth, List.length_map, VirtualPath.root, List.length_nil] at this
      omega
    refine ⟨path, ?_⟩
    rw [← htext] at hbytes ⊢
    rw [sum_pathText] at hbytes
    exact parsePath_pathText hseparable hpath hroot hbytes (by simpa [path, VirtualPath.depth] using hdepth)

/-- Joining names one after the other lists them. -/
theorem components_foldl_join (names : List EntryName) (path : VirtualPath) :
    (names.foldl VirtualPath.join path).components = path.components ++ names := by
  induction names generalizing path with
  | nil => simp
  | cons name rest ih => simp [ih, VirtualPath.join]

/-- A path other than the root is its parent joined with its last name. -/
theorem join_of_splitParent (hroot : path ≠ .root) :
    ∃ parent name, path.splitParent = some (parent, name) ∧ parent.join name = path := by
  rcases path.eq_root_or_join with rfl | ⟨parent, name, rfl⟩
  · exact absurd rfl hroot
  · exact ⟨parent, name, by simp [VirtualPath.splitParent, VirtualPath.join], rfl⟩

/-- A text is parsed exactly when it follows the grammar, and the path is printed as it was
written. So no two texts are one path. What is joined from accepted names within the limits is
read back from its text; the root alone has none. Splitting the last name off and joining it
again changes nothing. -/
theorem virtual_path_grammar (tables : UnicodeTables) :
    (∀ text, (∃ path, parsePath (EntryName.accepts tables) text = .ok path) ↔
      PathGrammar tables text) ∧
    (∀ text path, parsePath (EntryName.accepts tables) text = .ok path → pathText path = text) ∧
    (∀ text text' path, parsePath (EntryName.accepts tables) text = .ok path →
      parsePath (EntryName.accepts tables) text' = .ok path → text = text') ∧
    (∀ names : List EntryName, (∀ name ∈ names, ValidName tables name.value) →
      (names.foldl VirtualPath.join .root).depth ≤ maxPathDepth →
      ((pathText (names.foldl VirtualPath.join .root)).map Char.utf8Size).sum ≤ maxVirtualPathBytes →
      parsePath (EntryName.accepts tables) (pathText (names.foldl VirtualPath.join .root)) =
        if names = [] then .error .invalidPath else .ok (names.foldl VirtualPath.join .root)) ∧
    (∀ path, path ≠ VirtualPath.root →
      ∃ parent name, path.splitParent = some (parent, name) ∧ parent.join name = path) := by
  refine ⟨fun text => parsePath_isOk_iff, fun text path hparse => (parsePath_eq_ok hparse).1, ?_, ?_,
    fun path hroot => join_of_splitParent hroot⟩
  · intro text text' path hparse hparse'
    rw [← (parsePath_eq_ok hparse).1, ← (parsePath_eq_ok hparse').1]
  · intro names hvalid hdepth hbytes
    have hcomponents : (names.foldl VirtualPath.join .root).components = names := by
      simpa [VirtualPath.root] using components_foldl_join names .root
    by_cases hnil : names = []
    · subst hnil
      rfl
    · rw [if_neg hnil]
      refine parsePath_pathText (separable_accepts tables) ?_ ?_ (sum_pathText _ ▸ hbytes) hdepth
      · intro name hname
        exact accepts_iff.mpr (hvalid name (hcomponents ▸ hname))
      · intro hroot
        exact hnil (by rw [← hcomponents, hroot]; rfl)

end Crabinet.Filesystem
