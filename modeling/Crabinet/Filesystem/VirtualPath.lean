import Crabinet.Filesystem.Metadata
import Mathlib.Data.List.Infix

/-!
# Share identifiers and virtual paths

A virtual path is its list of components; the share root has none. What a component may
contain is decided when it is parsed and plays no part in how paths are compared.
-/

namespace Crabinet.Filesystem

/-- `MAX_PATH_DEPTH`. -/
def maxPathDepth : ℕ := 64

/-- `MAX_SHARE_ID_BYTES`. -/
def maxShareIdBytes : ℕ := 64

/-- `u8::is_ascii_alphanumeric`, for a character. -/
def isAsciiAlphanumeric (c : Char) : Bool :=
  ('0' ≤ c && c ≤ '9') || ('A' ≤ c && c ≤ 'Z') || ('a' ≤ c && c ≤ 'z')

/-- What `ShareId::new` accepts. -/
def isShareId (value : String) : Bool :=
  value.utf8ByteSize ≤ maxShareIdBytes && (value.toList.head?.any isAsciiAlphanumeric) &&
    (value.toList.all fun c => isAsciiAlphanumeric c || c == '-' || c == '_' || c == '.') &&
    value != "." && value != ".."

/-- `ShareId`. -/
structure ShareId where
  value : String
  valid : isShareId value = true
deriving DecidableEq

/-- `ShareId::new`. -/
def ShareId.new (value : String) : FsResult ShareId :=
  if valid : isShareId value = true then .ok ⟨value, valid⟩ else .error .invalidPath

/-- `EntryName`, one path component. -/
structure EntryName where
  value : String
deriving DecidableEq, Repr

/-- `VirtualPath`. -/
structure VirtualPath where
  components : List EntryName
deriving DecidableEq, Repr

namespace VirtualPath

/-- `root`. -/
def root : VirtualPath := ⟨[]⟩

/-- `depth`. -/
def depth (path : VirtualPath) : ℕ := path.components.length

/-- `join`. -/
def join (path : VirtualPath) (name : EntryName) : VirtualPath := ⟨path.components ++ [name]⟩

/-- `starts_with`. -/
def startsWith (path other : VirtualPath) : Bool := other.components.isPrefixOf path.components

/-- Whether a path lies strictly beneath `other`. -/
def isUnder (path other : VirtualPath) : Bool := path.startsWith other && path != other

@[simp] theorem depth_root : root.depth = 0 := rfl

@[simp] theorem depth_join (path : VirtualPath) (name : EntryName) :
    (path.join name).depth = path.depth + 1 := by
  simp [depth, join]

theorem startsWith_iff {path other : VirtualPath} :
    path.startsWith other = true ↔ other.components <+: path.components := by
  simp [startsWith]

@[simp] theorem startsWith_root (path : VirtualPath) : path.startsWith root = true := by
  simp [startsWith_iff, root]

@[simp] theorem startsWith_self (path : VirtualPath) : path.startsWith path = true := by
  simp [startsWith_iff]

@[simp] theorem join_startsWith (path : VirtualPath) (name : EntryName) :
    (path.join name).startsWith path = true := by
  simp [startsWith_iff, join]

theorem startsWith_trans {a b c : VirtualPath} (hab : a.startsWith b = true)
    (hbc : b.startsWith c = true) : a.startsWith c = true := by
  rw [startsWith_iff] at *
  exact hbc.trans hab

theorem startsWith_antisymm {a b : VirtualPath} (hab : a.startsWith b = true)
    (hba : b.startsWith a = true) : a = b := by
  rw [startsWith_iff] at *
  obtain ⟨components⟩ := a
  obtain ⟨components'⟩ := b
  simp only [mk.injEq]
  exact (hba.eq_of_length_le hab.length_le)

theorem join_inj {a b : VirtualPath} {m n : EntryName} : a.join m = b.join n ↔ a = b ∧ m = n := by
  obtain ⟨a⟩ := a
  obtain ⟨b⟩ := b
  simp only [join, mk.injEq]
  constructor
  · intro h
    obtain ⟨hinit, hlast⟩ := List.append_inj' h rfl
    exact ⟨hinit, by simpa using hlast⟩
  · rintro ⟨rfl, rfl⟩
    rfl

theorem join_ne_root (path : VirtualPath) (name : EntryName) : path.join name ≠ root := by
  simp [join, root]

theorem isUnder_iff {path other : VirtualPath} :
    path.isUnder other = true ↔ path.startsWith other = true ∧ path ≠ other := by
  simp [isUnder]

theorem join_ne (path : VirtualPath) (name : EntryName) : path.join name ≠ path := by
  intro h
  have := congrArg depth h
  simp at this

@[simp] theorem join_isUnder (path : VirtualPath) (name : EntryName) :
    (path.join name).isUnder path = true := by
  simp [isUnder_iff, join_ne]

/-- A path is the root or a child. -/
theorem eq_root_or_join (path : VirtualPath) : path = root ∨ ∃ parent name, path = join parent name := by
  obtain ⟨components⟩ := path
  rcases List.eq_nil_or_concat components with rfl | ⟨init, name, rfl⟩
  · exact .inl rfl
  · exact .inr ⟨⟨init⟩, name, by rw [join, List.concat_eq_append]⟩

/-- A joined path starts with what its parent starts with, and with itself. -/
theorem join_startsWith_iff {path other : VirtualPath} {name : EntryName} :
    (path.join name).startsWith other = true ↔
      path.startsWith other = true ∨ other = path.join name := by
  obtain ⟨path⟩ := path
  obtain ⟨other⟩ := other
  simp only [startsWith_iff, join, mk.injEq]
  rw [List.prefix_concat_iff]
  exact or_comm

/-- What lies beneath a path is a child of it or lies beneath one. -/
theorem join_isUnder_iff {path other : VirtualPath} {name : EntryName} :
    (path.join name).isUnder other = true ↔ path.startsWith other = true := by
  rw [isUnder_iff, join_startsWith_iff]
  constructor
  · rintro ⟨h | rfl, hne⟩
    · exact h
    · exact absurd rfl hne
  · intro h
    refine ⟨.inl h, ?_⟩
    rintro rfl
    rw [startsWith_iff] at h
    have := h.length_le
    simp only [join, List.length_append, List.length_singleton] at this
    omega

/-- Below a path the first step leads to one of its children. -/
theorem exists_child_of_isUnder {path other : VirtualPath} (h : path.isUnder other = true) :
    ∃ name, path.startsWith (other.join name) = true := by
  obtain ⟨hstarts, hne⟩ := isUnder_iff.mp h
  rw [startsWith_iff] at hstarts
  obtain ⟨rest, hrest⟩ := hstarts
  cases rest with
  | nil =>
    exact absurd (by rw [List.append_nil] at hrest; exact congrArg mk hrest.symm) hne
  | cons name rest =>
    refine ⟨name, ?_⟩
    rw [startsWith_iff]
    exact ⟨rest, by rw [join, List.append_assoc]; exact hrest⟩

end VirtualPath

end Crabinet.Filesystem
