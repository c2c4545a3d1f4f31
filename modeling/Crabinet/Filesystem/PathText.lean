import Crabinet.Filesystem.VirtualPath
import Mathlib.Algebra.Ring.Nat
import Mathlib.Data.List.Basic

/-!
# Names and paths as text

Which names a component may have, and paths written with separators. Canonical names have
no separator, so a path's text determines its components. What Unicode says about a name,
whether it is normalised and what its upper-case form is, is an argument.
-/

namespace Crabinet.Filesystem

/-- `MAX_COMPONENT_BYTES`. -/
def maxComponentBytes : ℕ := 255

/-- `MAX_VIRTUAL_PATH_BYTES`. -/
def maxVirtualPathBytes : ℕ := 4096

/-! ### Names -/

/-- What the name grammar uses of Unicode. -/
structure UnicodeTables where
  isNfc : String → Bool
  toUppercase : String → String

/-- `char::is_control`. -/
def isControl (c : Char) : Bool := c.toNat < 0x20 || (0x7F ≤ c.toNat && c.toNat ≤ 0x9F)

/-- `u8::is_ascii_hexdigit`, for a character. -/
def isAsciiHexdigit (c : Char) : Bool :=
  ('0' ≤ c && c ≤ '9') || ('A' ≤ c && c ≤ 'F') || ('a' ≤ c && c ≤ 'f')

/-- `contains_percent_escape`. -/
def containsPercentEscape : List Char → Bool
  | first :: second :: third :: rest =>
    (first == '%' && isAsciiHexdigit second && isAsciiHexdigit third) ||
      containsPercentEscape (second :: third :: rest)
  | _ => false

/-- `is_windows_device_name`. -/
def isWindowsDeviceName (tables : UnicodeTables) (value : String) : Bool :=
  let stem := tables.toUppercase (String.ofList (value.toList.takeWhile (· != '.')))
  let start := String.ofList (stem.toList.take 3)
  let suffix := stem.toList.drop 3
  ["CON", "PRN", "AUX", "NUL", "CLOCK$", "CONIN$", "CONOUT$"].contains stem ||
    ((start == "COM" || start == "LPT") && suffix.length == 1 &&
      suffix.all fun c => ('0' ≤ c && c ≤ '9') || "⁰¹²³⁴⁵⁶⁷⁸⁹".toList.contains c)

/-- A text without regard to the case of ASCII letters. -/
def asciiLower (value : String) : List Char := value.toList.map Char.toLower

/-- `is_reserved_name`. -/
def isReservedName (value : String) : Bool :=
  asciiLower value == ".crabinet".toList || asciiLower value == ".index-staging".toList ||
    ".index-tmp-".toList.isPrefixOf (asciiLower value)

/-- What `EntryName::new` accepts. -/
def EntryName.accepts (tables : UnicodeTables) (value : String) : Bool :=
  !(value.isEmpty || value.utf8ByteSize > maxComponentBytes || value == "." || value == ".." ||
    value.toList.any (fun c => c == '/' || c == '\\' || c == '\x00') || value.toList.any isControl ||
    value.toList.getLast? == some '.' || value.toList.getLast? == some ' ' ||
    containsPercentEscape value.toList || !tables.isNfc value || isWindowsDeviceName tables value ||
    isReservedName value)

/-- `is_spoofing_character`. -/
def isSpoofingCharacter (c : Char) : Bool :=
  let code := c.toNat
  code == 0x00AD || code == 0x061C || code == 0x180E || code == 0x200B ||
    (0x200E ≤ code && code ≤ 0x200F) || (0x2028 ≤ code && code ≤ 0x202E) ||
    (0x2060 ≤ code && code ≤ 0x2064) || (0x2066 ≤ code && code ≤ 0x206F) ||
    code == 0xFEFF || (0xFFF9 ≤ code && code ≤ 0xFFFB)

/-- `ensure_creatable`. -/
def ensureCreatable (name : EntryName) : FsResult Unit :=
  if name.value.toList.any isSpoofingCharacter then .error .invalidPath else .ok ()

/-- What every accepted name is: not empty, and without a separator. -/
structure Separable (canonical : String → Bool) : Prop where
  nonempty : ∀ value, canonical value = true → value ≠ ""
  slash : ∀ value, canonical value = true → '/' ∉ value.toList

theorem separable_accepts (tables : UnicodeTables) : Separable (EntryName.accepts tables) where
  nonempty := by
    rintro value haccepts rfl
    simp [EntryName.accepts] at haccepts
  slash := by
    intro value haccepts hslash
    have hany : value.toList.any (fun c => c == '/' || c == '\\' || c == '\x00') = true :=
      List.any_eq_true.mpr ⟨'/', hslash, by decide⟩
    simp [EntryName.accepts, hany] at haccepts

/-! ### Paths -/

/-- The length of a path's text: its components with a separator between them. -/
def pathBytes (path : VirtualPath) : ℕ :=
  (path.components.map fun name => name.value.utf8ByteSize).sum + (path.depth - 1)

/-- The text of a path. -/
def pathText (path : VirtualPath) : List Char :=
  List.intercalate ['/'] (path.components.map fun name => name.value.toList)

/-- `VirtualPath::parse_stored` of a path's own text. -/
def parseStored (path : VirtualPath) : FsResult VirtualPath :=
  if path.depth = 0 ∨ pathBytes path > maxVirtualPathBytes then .error .invalidPath else .ok path

/-- `VirtualPath::parse`, with the canonical names. -/
def parsePath (canonical : String → Bool) (text : List Char) : FsResult VirtualPath :=
  if text.isEmpty || (text.map Char.utf8Size).sum > maxVirtualPathBytes ||
      text.count '/' ≥ maxPathDepth then .error .invalidPath
  else
    let components := (text.splitOn '/').map String.ofList
    if components.all canonical then .ok ⟨components.map EntryName.mk⟩ else .error .invalidPath

/-- Every component is canonical. -/
def VirtualPath.Canonical (canonical : String → Bool) (path : VirtualPath) : Prop :=
  ∀ name ∈ path.components, canonical name.value = true

variable {canonical : String → Bool} {path other : VirtualPath} {text : List Char}

theorem utf8ByteSize_eq_sum (value : String) :
    value.utf8ByteSize = (value.toList.map Char.utf8Size).sum := by
  obtain ⟨chars, rfl⟩ : ∃ chars, value = String.ofList chars := ⟨value.toList, by simp⟩
  rw [String.toList_ofList]
  induction chars with
  | nil => rfl
  | cons c rest ih =>
    rw [← List.singleton_append, String.ofList_append, String.utf8ByteSize_append, ih]
    simp

theorem pathText_root : pathText .root = [] := rfl

/-- The length of a path's text, in bytes. -/
theorem sum_pathText (path : VirtualPath) :
    ((pathText path).map Char.utf8Size).sum = pathBytes path := by
  obtain ⟨components⟩ := path
  unfold pathText pathBytes VirtualPath.depth
  induction components with
  | nil => rfl
  | cons name rest ih =>
    cases rest with
    | nil => simp [utf8ByteSize_eq_sum]
    | cons next rest =>
      have hslash : Char.utf8Size '/' = 1 := by decide
      dsimp only at ih ⊢
      rw [List.map_cons] at ih
      simp only [List.map_cons, List.intercalate_cons_cons, List.map_append, List.sum_append, ih]
      simp only [List.map_nil, List.sum_cons, List.sum_nil, List.length_cons, utf8ByteSize_eq_sum, hslash]
      omega

theorem count_pathText (hcanonical : Separable canonical) (hpath : path.Canonical canonical) :
    (pathText path).count '/' = path.depth - 1 := by
  obtain ⟨components⟩ := path
  unfold pathText VirtualPath.depth
  dsimp only
  induction components with
  | nil => rfl
  | cons name rest ih =>
    have hname : (name.value.toList).count '/' = 0 :=
      List.count_eq_zero.mpr (hcanonical.slash _ (hpath name List.mem_cons_self))
    cases rest with
    | nil => simpa using hname
    | cons next rest =>
      have hrest := ih fun name hmem => hpath name (List.mem_cons_of_mem _ hmem)
      rw [List.map_cons] at hrest
      simp only [List.map_cons, List.intercalate_cons_cons, List.count_append, hname, hrest]
      simp
      omega

/-- The components of a path are its text between the separators. -/
theorem splitOn_pathText (hcanonical : Separable canonical) (hpath : path.Canonical canonical)
    (hroot : path ≠ .root) :
    (pathText path).splitOn '/' = path.components.map fun name => name.value.toList := by
  refine List.splitOn_intercalate '/' ?_ ?_
  · intro chars hmem
    obtain ⟨name, hname, rfl⟩ := List.mem_map.mp hmem
    exact hcanonical.slash _ (hpath name hname)
  · intro hnil
    exact hroot (congrArg VirtualPath.mk (List.map_eq_nil_iff.mp hnil))

/-- A canonical path other than the root has a text. -/
theorem pathText_ne_nil (hcanonical : Separable canonical) (hpath : path.Canonical canonical)
    (hroot : path ≠ .root) : pathText path ≠ [] := by
  intro hnil
  have hsplit := splitOn_pathText hcanonical hpath hroot
  rw [hnil, List.splitOn_nil] at hsplit
  obtain ⟨name, rest, hcomponents, hname, -⟩ := List.map_eq_cons_iff.mp hsplit.symm
  have hmem : name ∈ path.components := hcomponents ▸ List.mem_cons_self
  exact hcanonical.nonempty _ (hpath name hmem) (by simpa using hname)

/-- The text of a canonical path determines it. -/
theorem pathText_inj (hcanonical : Separable canonical) (hpath : path.Canonical canonical)
    (hother : other.Canonical canonical) : pathText path = pathText other ↔ path = other := by
  refine ⟨fun htext => ?_, fun h => congrArg _ h⟩
  by_cases hroot : path = .root
  · by_cases hroot' : other = .root
    · rw [hroot, hroot']
    · rw [hroot, pathText_root] at htext
      exact absurd htext.symm (pathText_ne_nil hcanonical hother hroot')
  · by_cases hroot' : other = .root
    · rw [hroot', pathText_root] at htext
      exact absurd htext (pathText_ne_nil hcanonical hpath hroot)
    · have hnames := splitOn_pathText hcanonical hpath hroot
      rw [htext, splitOn_pathText hcanonical hother hroot'] at hnames
      obtain ⟨components⟩ := path
      obtain ⟨components'⟩ := other
      refine congrArg VirtualPath.mk (List.map_injective_iff.mpr ?_ hnames.symm)
      rintro ⟨value⟩ ⟨value'⟩ hvalue
      exact congrArg EntryName.mk (String.toList_inj.mp hvalue)

/-- What a parsed path is. -/
theorem parsePath_eq_ok (h : parsePath canonical text = .ok path) :
    pathText path = text ∧ path.Canonical canonical ∧ path ≠ .root ∧
      pathBytes path ≤ maxVirtualPathBytes := by
  unfold parsePath at h
  split at h
  · cases h
  · rename_i hguard
    dsimp only at h
    split at h
    · rename_i hall
      obtain rfl := Except.ok.inj h
      have htext : pathText ⟨((text.splitOn '/').map String.ofList).map EntryName.mk⟩ = text := by
        simp [pathText, Function.comp_def]
      refine ⟨htext, ?_, ?_, ?_⟩
      · intro name hname
        obtain ⟨value, hvalue, rfl⟩ := List.mem_map.mp hname
        exact List.all_eq_true.mp hall value hvalue
      · intro hroot
        rw [hroot, pathText_root] at htext
        simp [← htext] at hguard
      · rw [← sum_pathText, htext]
        simp only [Bool.or_eq_true, decide_eq_true_eq, not_or] at hguard
        omega
    · cases h

/-- A canonical path that is not too long and not too deep parses to itself. -/
theorem parsePath_pathText (hcanonical : Separable canonical) (hpath : path.Canonical canonical)
    (hroot : path ≠ .root) (hbytes : pathBytes path ≤ maxVirtualPathBytes)
    (hdepth : path.depth ≤ maxPathDepth) : parsePath canonical (pathText path) = .ok path := by
  have hnil := pathText_ne_nil hcanonical hpath hroot
  have hsplit := splitOn_pathText hcanonical hpath hroot
  have hcount := count_pathText hcanonical hpath
  have hsum := sum_pathText path
  have hpositive : 0 < path.depth := by
    rw [VirtualPath.depth, List.length_pos_iff]
    intro hcomponents
    exact hroot (congrArg VirtualPath.mk hcomponents)
  unfold parsePath
  rw [if_neg]
  · obtain ⟨components⟩ := path
    have hall : ((components.map fun name => name.value.toList).map String.ofList).all canonical =
        true := by
      simpa [VirtualPath.Canonical] using hpath
    have hnames : ((EntryName.mk ∘ String.ofList) ∘ fun name : EntryName => name.value.toList) =
        id :=
      funext fun name => by simp
    dsimp only at hsplit ⊢
    rw [hsplit, if_pos hall, List.map_map, List.map_map, hnames, List.map_id]
  · unfold maxPathDepth at hdepth ⊢
    simp only [Bool.or_eq_true, List.isEmpty_iff, decide_eq_true_eq, not_or, hnil, not_false_eq_true,
      true_and]
    omega

/-- A parsed path is no deeper than the limit. -/
theorem depth_of_parsePath (hcanonical : Separable canonical)
    (h : parsePath canonical text = .ok path) : path.depth ≤ maxPathDepth := by
  obtain ⟨htext, hpath, -, -⟩ := parsePath_eq_ok h
  have hcount := count_pathText hcanonical hpath
  unfold parsePath at h
  split at h
  · cases h
  · rename_i hguard
    simp only [Bool.or_eq_true, decide_eq_true_eq, not_or] at hguard
    rw [htext] at hcount
    omega

end Crabinet.Filesystem
