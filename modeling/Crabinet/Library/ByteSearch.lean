import Crabinet.Library.ByteLayout

/-!
# Searching byte strings

The windows of an image and the last of them that meets a condition. A pattern whose first
byte does not recur in it cannot straddle into a segment that begins with that byte, so the
occurrences in a concatenation of such segments are those in its segments.
-/

namespace Crabinet.Library

/-- The segments of length `n`, one for each position where one fits. -/
def windows (n : ℕ) : List UInt8 → List (List UInt8)
  | [] => []
  | byte :: rest =>
    if n ≤ rest.length + 1 then (byte :: rest).take n :: windows n rest else []

/-- The last position that meets a condition. -/
def rposition {α : Type} (p : α → Bool) : List α → Option ℕ
  | [] => none
  | a :: rest =>
    match rposition p rest with
    | some index => some (index + 1)
    | none => if p a then some 0 else none

/-- A located segment begins what is left of the image at its start. -/
theorem located_iff_isPrefix {image segment : List UInt8} {start : ℕ} :
    Located image start segment ↔ start ≤ image.length ∧ segment <+: image.drop start := by
  constructor
  · rintro ⟨before, after, rfl, rfl⟩
    exact ⟨by simp, after, by simp⟩
  · rintro ⟨hstart, after, hafter⟩
    exact ⟨image.take start, after, by rw [hafter, List.take_append_drop],
      List.length_take_of_le hstart⟩

theorem located_cons_succ {image segment : List UInt8} {byte : UInt8} {start : ℕ} :
    Located (byte :: image) (start + 1) segment ↔ Located image start segment := by
  simp [located_iff_isPrefix]

/-- A slice is the segment of its length located at its start. -/
theorem slice_eq_some {image segment : List UInt8} {start count : ℕ} :
    slice image start (start + count) = some segment ↔
      segment.length = count ∧ Located image start segment := by
  constructor
  · intro h
    simp only [slice, Nat.le_add_right, true_and, Nat.add_sub_cancel_left,
      Option.ite_none_right_eq_some, Option.some.injEq] at h
    obtain ⟨hinside, rfl⟩ := h
    refine ⟨List.length_take_of_le (by rw [List.length_drop]; omega), ?_⟩
    exact located_iff_isPrefix.mpr ⟨by omega, List.take_prefix _ _⟩
  · rintro ⟨rfl, h⟩
    exact h.slice_eq

/-- What is located in a located segment is located in the image. -/
theorem Located.trans {image segment inner : List UInt8} {start index : ℕ}
    (h : Located image start segment) (hinner : Located segment index inner) :
    Located image (start + index) inner := by
  obtain ⟨before, after, rfl, rfl⟩ := h
  obtain ⟨before', after', rfl, rfl⟩ := hinner
  exact ⟨before ++ before', after' ++ after, by simp, by simp⟩

/-- A field of a located segment is that field of the image. -/
theorem Located.leAt_add {image segment : List UInt8} {start index n : ℕ}
    (h : Located image start segment) (hindex : index + n ≤ segment.length) :
    leAt n image (start + index) = leAt n segment index := by
  obtain ⟨part, hpart⟩ : ∃ part, slice segment index (index + n) = some part := by
    rw [slice, if_pos ⟨by omega, hindex⟩]
    exact ⟨_, rfl⟩
  obtain ⟨rfl, hlocated⟩ := slice_eq_some.mp hpart
  rw [leAt, leAt, hpart, (h.trans hlocated).slice_eq]

/-- What is left behind a position is located there. -/
theorem located_drop_self {image : List UInt8} {start : ℕ} (h : start ≤ image.length) :
    Located image start (image.drop start) :=
  ⟨image.take start, [], by simp, List.length_take_of_le h⟩

theorem located_take_drop {image : List UInt8} {start count : ℕ}
    (h : start + count ≤ image.length) : Located image start ((image.drop start).take count) :=
  located_iff_isPrefix.mpr ⟨by omega, List.take_prefix _ _⟩

theorem located_of_take {image segment : List UInt8} {count : ℕ} (h : image.take count = segment) :
    Located image 0 segment :=
  located_iff_isPrefix.mpr ⟨Nat.zero_le _, h ▸ List.take_prefix _ _⟩

/-- Of two segments at one position the shorter one begins the other. -/
theorem Located.located_zero {image first second : List UInt8} {start : ℕ}
    (hfirst : Located image start first) (hsecond : Located image start second)
    (hle : first.length ≤ second.length) : Located second 0 first := by
  have hprefix : first <+: second := List.prefix_of_prefix_length_le
    (located_iff_isPrefix.mp hfirst).2 (located_iff_isPrefix.mp hsecond).2 hle
  exact located_iff_isPrefix.mpr ⟨Nat.zero_le _, hprefix⟩

/-- What is located behind a position is what is located in the rest from there. -/
theorem located_drop {image segment : List UInt8} {position start : ℕ}
    (hposition : position ≤ image.length) :
    Located (image.drop position) start segment ↔ Located image (position + start) segment := by
  rw [located_iff_isPrefix, located_iff_isPrefix, List.drop_drop, List.length_drop]
  exact and_congr (by omega) .rfl

/-- A segment that reaches the end of the image is all that is left from its start. -/
theorem Located.drop_eq {image segment : List UInt8} {start : ℕ} (h : Located image start segment)
    (hend : start + segment.length = image.length) : image.drop start = segment := by
  obtain ⟨before, after, rfl, rfl⟩ := h
  obtain rfl : after = [] := by simpa using hend
  simp

/-- A segment is still located in the part of the image that holds it. -/
theorem Located.take {image segment : List UInt8} {start count : ℕ} (h : Located image start segment)
    (hcount : start + segment.length ≤ count) : Located (image.take count) start segment := by
  obtain ⟨before, after, rfl, rfl⟩ := h
  refine ⟨before, after.take (count - (before.length + segment.length)), ?_, rfl⟩
  rw [List.take_append, List.take_append, List.take_of_length_le (by omega),
    List.take_of_length_le (by omega), Nat.sub_sub]

/-- At one position there is one segment of each length. -/
theorem Located.eq_of_length {image first second : List UInt8} {start : ℕ}
    (hfirst : Located image start first) (hsecond : Located image start second)
    (hlength : first.length = second.length) : first = second := by
  have := hfirst.slice_eq
  rw [hlength, hsecond.slice_eq] at this
  exact (Option.some.inj this).symm

/-- A segment is located somewhere exactly when the image contains it. -/
theorem exists_located_iff {image segment : List UInt8} :
    (∃ start, Located image start segment) ↔ segment <:+: image := by
  constructor
  · rintro ⟨_, before, after, rfl, -⟩
    exact ⟨before, after, by simp⟩
  · rintro ⟨before, after, rfl⟩
    exact ⟨before.length, before, after, by simp, rfl⟩

/-- An image contains a segment nowhere but at its start exactly when its tail does not. -/
theorem not_infix_tail_iff {image segment : List UInt8} (hsegment : segment ≠ []) :
    ¬segment <:+: image.tail ↔ ∀ start, Located image start segment → start = 0 := by
  rw [← exists_located_iff]
  cases image with
  | nil =>
    have hempty (start : ℕ) : ¬Located [] start segment := fun h => by
      have := h.le_length
      rw [List.length_nil] at this
      exact hsegment (List.eq_nil_of_length_eq_zero (by omega))
    exact ⟨fun _ start h => absurd h (hempty start), fun _ ⟨start, h⟩ => hempty start h⟩
  | cons byte rest =>
    constructor
    · intro hnone start h
      cases start with
      | zero => rfl
      | succ start => exact absurd ⟨start, located_cons_succ.mp h⟩ hnone
    · rintro hstart ⟨start, h⟩
      cases hstart (start + 1) (located_cons_succ.mpr h)

/-- Where a segment may be located at the start of an image only, it is located nowhere else
exactly when the tail does not contain it. -/
theorem forall_located_iff {image segment : List UInt8} {P : ℕ → Prop} (hsegment : segment ≠ [])
    (hstart : Located image 0 segment → P 0)
    (hlater : ∀ start, start ≠ 0 → start + segment.length ≤ image.length → ¬P start) :
    (∀ start, Located image start segment → P start) ↔ ¬segment <:+: image.tail := by
  rw [not_infix_tail_iff hsegment]
  constructor
  · intro hall start h
    by_contra hne
    exact hlater start hne h.le_length (hall start h)
  · intro hzero start h
    obtain rfl := hzero start h
    exact hstart h

/-- The windows of an image are the segments of their length located in it. -/
theorem getElem?_windows {n : ℕ} (hn : 0 < n) {image window : List UInt8} {start : ℕ} :
    (windows n image)[start]? = some window ↔ window.length = n ∧ Located image start window := by
  induction image generalizing start with
  | nil =>
    simp only [windows, List.getElem?_nil, reduceCtorEq, false_iff, not_and]
    intro hlen hlocated
    have := hlocated.le_length
    rw [List.length_nil] at this
    omega
  | cons byte rest ih =>
    rw [windows]
    split
    case isTrue hfits =>
      cases start with
      | zero =>
        rw [List.getElem?_cons_zero, Option.some.injEq, located_iff_isPrefix, List.drop_zero]
        constructor
        · rintro rfl
          exact ⟨List.length_take_of_le hfits, Nat.zero_le _, List.take_prefix _ _⟩
        · rintro ⟨rfl, -, hbegin⟩
          exact (List.prefix_iff_eq_take.mp hbegin).symm
      | succ start => rw [List.getElem?_cons_succ, ih, located_cons_succ]
    case isFalse hshort =>
      simp only [List.getElem?_nil, reduceCtorEq, false_iff, not_and]
      intro hlen hlocated
      have := hlocated.le_length
      rw [List.length_cons] at this
      omega

theorem rposition_eq_none {α : Type} {p : α → Bool} {list : List α} :
    rposition p list = none ↔ ∀ a ∈ list, p a = false := by
  induction list with
  | nil => simp [rposition]
  | cons first rest ih =>
    rw [rposition, List.forall_mem_cons]
    cases hrest : rposition p rest with
    | some found =>
      simp only [reduceCtorEq, false_iff, not_and]
      exact fun _ hall => nomatch hrest.symm.trans (ih.mpr hall)
    | none =>
      have hall := ih.mp hrest
      cases hp : p first with
      | true => simp
      | false => simpa using hall

/-- The last position is one that meets the condition, with none after it. -/
theorem rposition_eq_some {α : Type} {p : α → Bool} {list : List α} {index : ℕ} :
    rposition p list = some index ↔
      (∃ a, list[index]? = some a ∧ p a = true) ∧
        ∀ later a, index < later → list[later]? = some a → p a = false := by
  induction list generalizing index with
  | nil => simp [rposition]
  | cons first rest ih =>
    rw [rposition]
    cases hrest : rposition p rest with
    | some found =>
      obtain ⟨⟨a, ha, hp⟩, hlater⟩ := ih.mp hrest
      dsimp only
      constructor
      · rintro ⟨⟩
        refine ⟨⟨a, by simpa using ha, hp⟩, ?_⟩
        intro later b hlt hb
        obtain ⟨later, rfl⟩ := Nat.exists_eq_add_one_of_ne_zero (Nat.ne_of_gt (Nat.zero_lt_of_lt hlt))
        exact hlater later b (by omega) (by simpa using hb)
      · rintro ⟨⟨b, hb, hpb⟩, hnone⟩
        have hle : found + 1 ≤ index := by
          by_contra hlt
          have := hnone (found + 1) a (by omega) (by simpa using ha)
          rw [hp] at this
          cases this
        obtain ⟨index, rfl⟩ := Nat.exists_eq_add_one_of_ne_zero (show index ≠ 0 by omega)
        have hge : index ≤ found := by
          by_contra hlt
          have := hlater index b (by omega) (by simpa using hb)
          rw [hpb] at this
          cases this
        rw [show found = index by omega]
    | none =>
      have hnone (later : ℕ) (a : α) (ha : rest[later]? = some a) : p a = false :=
        rposition_eq_none.mp hrest a (List.mem_of_getElem? ha)
      dsimp only
      constructor
      · intro hfound
        obtain ⟨hp, rfl⟩ : p first = true ∧ 0 = index := by simpa using hfound
        refine ⟨⟨first, rfl, hp⟩, ?_⟩
        intro later b hlt hb
        obtain ⟨later, rfl⟩ := Nat.exists_eq_add_one_of_ne_zero (Nat.ne_of_gt hlt)
        exact hnone later b (by simpa using hb)
      · rintro ⟨⟨a, ha, hp⟩, -⟩
        cases index with
        | zero =>
          obtain rfl := Option.some.inj ha
          rw [if_pos hp]
        | succ index =>
          rw [hnone index a (by simpa using ha)] at hp
          cases hp

/-- The pattern begins with a byte that does not recur in it. -/
structure Leads (head : UInt8) (pattern : List UInt8) : Prop where
  head_eq : pattern.head? = some head
  not_mem : head ∉ pattern.tail

theorem Leads.ne_nil {head : UInt8} {pattern : List UInt8} (h : Leads head pattern) :
    pattern ≠ [] := by
  rintro rfl
  cases h.head_eq

section Segments

variable {head : UInt8} {pattern first second : List UInt8}

/-- Such a pattern lies in one of two segments, where the second begins with its first byte. -/
theorem Leads.located_append (h : Leads head pattern) {start : ℕ}
    (hsecond : ∀ byte ∈ second.head?, byte = head) :
    Located (first ++ second) start pattern ↔
      Located first start pattern ∨
        ∃ inner, start = first.length + inner ∧ Located second inner pattern := by
  constructor
  · rintro ⟨before, after, himage, rfl⟩
    rcases List.append_eq_append_iff.mp himage with ⟨gap, rfl, hgap⟩ | ⟨left, rfl, hleft⟩
    · exact .inr ⟨gap.length, by simp, gap, after, hgap, rfl⟩
    rcases List.append_eq_append_iff.mp hleft with ⟨gap, rfl, -⟩ | ⟨right, hpattern, hright⟩
    · exact .inl ⟨before, gap, by simp, rfl⟩
    -- the pattern is cut into `left` and `right`, and one of them is empty
    cases right with
    | nil => exact .inl ⟨before, [], by simp [hpattern], rfl⟩
    | cons byte right =>
      cases left with
      | nil => exact .inr ⟨0, by simp, [], after, by rw [hright, hpattern]; rfl, rfl⟩
      | cons other left =>
        obtain rfl : byte = head := hsecond byte (by simp [hright])
        exact absurd (by simp [hpattern]) h.not_mem
  · rintro (⟨before, after, rfl, rfl⟩ | ⟨inner, rfl, before, after, rfl, rfl⟩)
    · exact ⟨before, after ++ second, by simp, rfl⟩
    · exact ⟨first ++ before, after, by simp, by simp⟩

/-- What holds of every place of such a pattern holds of its places in each segment. -/
theorem Leads.forall_located_append (h : Leads head pattern) {P : ℕ → Prop}
    (hsecond : ∀ byte ∈ second.head?, byte = head) :
    (∀ start, Located (first ++ second) start pattern → P start) ↔
      (∀ start, Located first start pattern → P start) ∧
        ∀ start, Located second start pattern → P (first.length + start) := by
  simp only [h.located_append hsecond]
  constructor
  · exact fun hall => ⟨fun start hfirst => hall start (.inl hfirst),
      fun inner hinner => hall _ (.inr ⟨inner, rfl, hinner⟩)⟩
  · rintro ⟨hfirst, hinner⟩ start (hlocated | ⟨inner, rfl, hlocated⟩)
    · exact hfirst start hlocated
    · exact hinner inner hlocated

end Segments

end Crabinet.Library
