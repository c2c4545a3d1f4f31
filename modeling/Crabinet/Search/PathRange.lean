import Crabinet.Library.PrefixRange
import Crabinet.Library.Text
import Crabinet.Search.Reconcile
import Crabinet.Tokens.MacInput

/-!
# The text range beneath a path

The index selects what lies beneath a path by its text: the texts from the path and a slash up
to the path and a zero, which is the next byte, in the order of their bytes. No name has a slash
in it, and no other character has that byte in its encoding.
-/

namespace Crabinet.Search

open Crabinet.Filesystem Crabinet.Library Crabinet.Tokens

/-- The byte of a slash. -/
def slash : UInt8 := 47

/-- The texts in `["path/", "path0")`, compared byte by byte. -/
def InTextRange (path other : VirtualPath) : Prop :=
  pathUtf8 path ++ [slash] ≤ pathUtf8 other ∧ pathUtf8 other < pathUtf8 path ++ [48]

variable {canonical : String → Bool} {path other : VirtualPath} {value : String}

theorem utf8_ofList (text : List Char) : utf8 (String.ofList text) = text.flatMap String.utf8EncodeChar := by
  simp [utf8, List.utf8Encode]

theorem utf8_append (first second : String) : utf8 (first ++ second) = utf8 first ++ utf8 second := by
  rw [utf8, String.toByteArray_append, ByteArray.toList_data_append]
  rfl

theorem slash_notMem_utf8 (h : '/' ∉ value.toList) : slash ∉ utf8 value := by
  intro hmem
  rw [← String.ofList_toList (s := value), utf8_ofList, List.mem_flatMap] at hmem
  obtain ⟨c, hc, hbyte⟩ := hmem
  have hnat := toNat_of_mem_utf8EncodeChar hbyte (by decide)
  have hslash : c = '/' := Char.toNat_inj.mp hnat
  exact h (hslash ▸ hc)

/-- The bytes of a path's text are those of its names, with a slash between them. -/
theorem pathUtf8_eq (path : VirtualPath) :
    pathUtf8 path = List.intercalate [slash] (path.components.map fun name => utf8 name.value) := by
  obtain ⟨components⟩ := path
  unfold pathUtf8 pathText
  induction components with
  | nil => rfl
  | cons name rest ih =>
    cases rest with
    | nil => simp
    | cons next rest =>
      dsimp only at ih ⊢
      have hname : utf8 (String.ofList (name.value.toList ++ ['/'])) = utf8 name.value ++ [slash] := by
        rw [String.ofList_append, String.ofList_toList, utf8_append]
        rfl
      rw [List.map_cons] at ih
      rw [List.map_cons, List.map_cons, List.intercalate_cons_cons, String.ofList_append, utf8_append,
        ih, hname, List.map_cons, List.map_cons]
      exact List.intercalate_cons_cons.symm

/-- The range beneath a path holds the texts that continue its own with a slash. -/
theorem inTextRange_iff_isPrefix : InTextRange path other ↔ pathUtf8 path ++ [slash] <+: pathUtf8 other := by
  refine mem_range_iff_isPrefix (by decide) fun byte hlow hhigh => ?_
  have hlow : ¬byte.toNat < 47 := hlow
  have hhigh : byte.toNat < 48 := hhigh
  exact UInt8.toNat_inj.mp (by change byte.toNat = 47; omega)

/-- The range of a canonical path holds exactly the canonical paths strictly beneath it; that of the
root holds none. -/
theorem inTextRange_iff (hcanonical : Separable canonical) (hpath : path.Canonical canonical)
    (hother : other.Canonical canonical) : InTextRange path other ↔ inRange path other = true := by
  have hnames {path : VirtualPath} (hpath : path.Canonical canonical) :
      ∀ part ∈ path.components.map fun name => utf8 name.value, slash ∉ part := by
    intro part hpart
    obtain ⟨name, hname, rfl⟩ := List.mem_map.mp hpart
    exact slash_notMem_utf8 (hcanonical.slash _ (hpath name hname))
  have hinj : Function.Injective fun name : EntryName => utf8 name.value := fun name name' h =>
    entryName_utf8_inj.mp h
  rw [inTextRange_iff_isPrefix, pathUtf8_eq, pathUtf8_eq]
  by_cases hroot : path = .root
  · -- Nothing canonical begins with a slash.
    subst hroot
    refine iff_of_false (fun hbegin => ?_) (by simp [inRange])
    change [] ++ slash :: [] <+: _ at hbegin
    cases hcomponents : other.components with
    | nil => simp [hcomponents] at hbegin
    | cons name rest =>
      have hname : name ∈ other.components := hcomponents ▸ List.mem_cons_self
      have hfree := slash_notMem_utf8 (hcanonical.slash _ (hother name hname))
      have hempty : utf8 name.value ≠ [] := fun hnil => by
        have hvalue : name.value = "" := utf8_inj.mp hnil
        exact hcanonical.nonempty _ (hother name hname) hvalue
      rw [hcomponents, List.map_cons] at hbegin
      cases rest with
      | nil =>
        rw [List.map_nil, List.intercalate_singleton] at hbegin
        exact not_separator_isPrefix hfree hbegin
      | cons next rest =>
        rw [List.map_cons, List.intercalate_cons_cons, List.append_assoc, List.singleton_append,
          append_separator_isPrefix_iff List.not_mem_nil hfree] at hbegin
        exact hempty hbegin.1.symm
  · have hne : path.components.map (fun name => utf8 name.value) ≠ [] := fun hnil =>
      hroot (congrArg VirtualPath.mk (List.map_eq_nil_iff.mp hnil))
    have hcomponents : path.components ≠ other.components ↔ other ≠ path := by
      rw [ne_eq, ne_eq, not_iff_not]
      exact ⟨fun h => (congrArg VirtualPath.mk h).symm, fun h => by rw [h]⟩
    have hmap : path.components.map (fun name => utf8 name.value) <+:
        other.components.map (fun name => utf8 name.value) ↔ path.components <+: other.components := by
      refine ⟨fun h => ?_, fun h => h.map _⟩
      obtain ⟨front, hfront, heq⟩ := List.prefix_map_iff.mp h
      exact (List.map_injective_iff.mpr hinj heq) ▸ hfront
    rw [intercalate_append_isPrefix_iff (hnames hpath) (hnames hother) hne, hmap,
      (List.map_injective_iff.mpr hinj).ne_iff, hcomponents, inRange_iff, VirtualPath.isUnder_iff,
      VirtualPath.startsWith_iff]
    exact ⟨fun h => ⟨hroot, h⟩, fun h => h.2⟩

end Crabinet.Search
