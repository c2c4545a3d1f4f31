import Crabinet.Thumbnail.TiffScan
import Mathlib.Data.List.Induction
import Mathlib.Data.List.Nodup

/-!
# The bounds of the scan

The last entry with a tag decides what a directory says under it. The loop over the entries
computes just that, so that every candidate and every pending directory can be traced to the
directory it comes from. One turn of the scan keeps the bounds and leaves fewer turns; with
that a scan of any file ends, within them.
-/

namespace Crabinet.Thumbnail.Tiff

open Crabinet.Library Crabinet.Library.Traced

/-- What the last entry with a tag says. -/
def lastOf {β : Type} (tag : ℕ) (content : Entry → Option β) (entries : List Entry) : Option β :=
  ((entries.filter (·.tag = tag)).getLast?).bind content

theorem lastOf_concat {β : Type} (tag : ℕ) (content : Entry → Option β) (entries : List Entry)
    (entry : Entry) :
    lastOf tag content (entries ++ [entry]) =
      if entry.tag = tag then content entry else lastOf tag content entries := by
  unfold lastOf
  by_cases h : entry.tag = tag
  · simp [List.filter_append, h]
  · simp [List.filter_append, h]

namespace Walker

variable (walker : Walker)

/-- The single value of an entry, if it has one. -/
def value? (entry : Entry) : Option ℕ := (walker.single entry).outcome.toOption

/-- The values of an entry with one value. -/
def values? (max : ℕ) (entry : Entry) : Option (List ℕ) := (walker.values entry max).outcome.toOption

/-- The directories that an entry refers to as children of its own. -/
def children (entry : Entry) : List ℕ :=
  if entry.tag = tagSubIfds then (walker.values? maxSubIfds entry).getD []
  else if entry.tag = tagExifIfd then (walker.value? entry).toList
  else []

/-- What the loop over the entries sets, from what was set before them. -/
def collect (isFirst : Bool) (depth : ℕ) (orientation : Option ℕ) (pending : List (ℕ × ℕ))
    (entries : List Entry) : Seen where
  orientation :=
    if isFirst = true ∧ ∃ entry ∈ entries, entry.tag = tagOrientation then
      asOrientation (lastOf tagOrientation walker.value? entries)
    else orientation
  pending :=
    (if depth < maxDepth then (entries.flatMap walker.children).map (·, depth + 1) else []).reverse ++
      pending
  compression := lastOf tagCompression walker.value? entries
  photometric := lastOf tagPhotometric walker.value? entries
  stripOffsets := lastOf tagStripOffsets (walker.values? 1) entries
  stripCounts := lastOf tagStripByteCounts (walker.values? 1) entries
  jpegOffset := lastOf tagJpegOffset walker.value? entries
  jpegLength := lastOf tagJpegLength walker.value? entries

/-- What one entry changes of what was set before. -/
def note (isFirst : Bool) (depth : ℕ) (seen : Seen) (entry : Entry) : Seen where
  orientation :=
    if entry.tag = tagOrientation ∧ isFirst = true then asOrientation (walker.value? entry)
    else seen.orientation
  pending :=
    (if depth < maxDepth then (walker.children entry).map (·, depth + 1) else []).reverse ++
      seen.pending
  compression := if entry.tag = tagCompression then walker.value? entry else seen.compression
  photometric := if entry.tag = tagPhotometric then walker.value? entry else seen.photometric
  stripOffsets := if entry.tag = tagStripOffsets then walker.values? 1 entry else seen.stripOffsets
  stripCounts := if entry.tag = tagStripByteCounts then walker.values? 1 entry else seen.stripCounts
  jpegOffset := if entry.tag = tagJpegOffset then walker.value? entry else seen.jpegOffset
  jpegLength := if entry.tag = tagJpegLength then walker.value? entry else seen.jpegLength

/-- A directory and its nesting: the first one of the file, the next one in a chain, or a child. -/
inductive Nested (first : ℕ) : ℕ → ℕ → Prop
  | first : Nested first first 0
  | next {offset level next : ℕ} {entries : List Entry} :
    Nested first offset level → (walker.directory offset).outcome = .ok (entries, next) →
    Nested first next level
  | child {offset level next child : ℕ} {entries : List Entry} {entry : Entry} :
    Nested first offset level → (walker.directory offset).outcome = .ok (entries, next) →
    entry ∈ entries → child ∈ walker.children entry → Nested first child (level + 1)

/-- A candidate is what the last tags of a directory name: an embedded JPEG, or the strip of a
directory that is compressed as JPEG and not raw sensor data. -/
inductive Names (entries : List Entry) : Candidate → Prop
  | jpeg {offset length : ℕ} :
    lastOf tagJpegOffset walker.value? entries = some offset →
    lastOf tagJpegLength walker.value? entries = some length → Names entries ⟨offset, length⟩
  | strip {offset length : ℕ} {offsets lengths : List ℕ} :
    lastOf tagCompression walker.value? entries = some 6 ∨
      lastOf tagCompression walker.value? entries = some 7 →
    lastOf tagPhotometric walker.value? entries ≠ some photometricCfa →
    lastOf tagPhotometric walker.value? entries ≠ some photometricLinearRaw →
    lastOf tagStripOffsets (walker.values? 1) entries = some (offset :: offsets) →
    lastOf tagStripByteCounts (walker.values? 1) entries = some (length :: lengths) →
    Names entries ⟨offset, length⟩

variable {walker : Walker}

theorem attempt_single_bounded (walker : Walker) (entry : Entry) (fails : Ending → Prop) :
    Bounded walker.len (maxSubIfds * 4) fails (fun value => value = walker.value? entry)
      (attempt (walker.single entry)) :=
  (single_bounded walker entry).attempt.mono (by decide) (fun _ h => h) fun _ h => h

theorem attempt_values_bounded (walker : Walker) (entry : Entry) (max : ℕ) (hmax : max ≤ maxSubIfds)
    (fails : Ending → Prop) :
    Bounded walker.len (maxSubIfds * 4) fails (fun values => values = walker.values? max entry)
      (attempt (walker.values entry max)) :=
  (values_bounded walker entry max).attempt.mono (Nat.mul_le_mul_right 4 hmax) (fun _ h => h)
    fun _ h => h

/-- One entry more sets what its tag is for. -/
theorem collect_concat (walker : Walker) (isFirst : Bool) (depth : ℕ) (orientation : Option ℕ)
    (pending : List (ℕ × ℕ)) (done : List Entry) (entry : Entry) :
    walker.collect isFirst depth orientation pending (done ++ [entry]) =
      walker.note isFirst depth (walker.collect isFirst depth orientation pending done) entry := by
  simp only [note, collect, lastOf_concat, Seen.mk.injEq, and_true]
  constructor
  · by_cases hfirst : isFirst = true
    · by_cases htag : entry.tag = tagOrientation
      · simp [hfirst, htag]
      · simp [hfirst, htag]
    · simp [hfirst]
  · split <;> simp

/-- The tags that the loop over the entries tells apart. -/
theorem tags_pairwise : [tagOrientation, tagCompression, tagPhotometric, tagStripOffsets,
    tagStripByteCounts, tagJpegOffset, tagJpegLength, tagSubIfds, tagExifIfd].Pairwise
      fun first second => first ≠ second ∧ second ≠ first := by
  decide

/-- A turn that keeps the value of a computation is done with it. -/
theorem bounded_keep {β : Type} {size budget : ℕ} {fails : Ending → Prop} {x : Traced Ending β}
    {value : β} {keep : β → Seen} {kept : Seen}
    (hx : Bounded size budget fails (fun found => found = value) x) (h : keep value = kept) :
    Bounded size budget fails (fun seen => seen = kept) (x >>= fun found => pure (keep found)) := by
  refine hx.bind _ 0 ?_
  rintro _ rfl
  exact bounded_pure h

/-- A turn of the loop over the entries sets what the tag of its entry is for. -/
theorem readEntry_bounded (walker : Walker) (isFirst : Bool) (depth : ℕ) (seen : Seen)
    (entry : Entry) (fails : Ending → Prop) :
    Bounded walker.len (maxSubIfds * 4) fails
      (fun next => next = walker.note isFirst depth seen entry)
      (walker.readEntry isFirst depth seen entry) := by
  have hsingle := attempt_single_bounded walker entry fails
  have hone := attempt_values_bounded walker entry 1 (by decide) fails
  have hmany := attempt_values_bounded walker entry maxSubIfds le_rfl fails
  have htags := tags_pairwise
  simp only [List.pairwise_cons, List.mem_cons, List.not_mem_nil, or_false, forall_eq_or_imp,
    forall_eq, false_implies, implies_true, List.Pairwise.nil, and_true] at htags
  unfold readEntry
  split_ifs with horientation hcompression hphotometric hoffsets hcounts hjpegOffset hjpegLength
    hchildren hexif
  · exact bounded_keep hsingle (by simp [note, horientation, htags, children])
  · exact bounded_keep hsingle (by simp [note, hcompression, htags, children])
  · exact bounded_keep hsingle (by simp [note, hphotometric, htags, children])
  · exact bounded_keep hone (by simp [note, hoffsets, htags, children])
  · exact bounded_keep hone (by simp [note, hcounts, htags, children])
  · exact bounded_keep hsingle (by simp [note, hjpegOffset, htags, children])
  · exact bounded_keep hsingle (by simp [note, hjpegLength, htags, children])
  · refine hmany.bind _ 0 ?_
    rintro _ rfl
    cases hvalues : walker.values? maxSubIfds entry with
    | none => exact bounded_pure (by simp [note, hchildren, htags, children, hvalues])
    | some values => exact bounded_pure (by simp [note, hchildren, htags, children, hvalues])
  · refine hsingle.bind _ 0 ?_
    rintro _ rfl
    cases hvalue : walker.value? entry with
    | none => exact bounded_pure (by simp [note, hexif, htags, children, hvalue])
    | some value => exact bounded_pure (by simp [note, hexif, htags, children, hvalue])
  · refine bounded_pure ?_
    by_cases hdepth : depth < maxDepth
    · have hnone : walker.children entry = [] := by
        simp only [hdepth, and_true] at hchildren hexif
        rw [children, if_neg hchildren, if_neg hexif]
      simp [note, horientation, hcompression, hphotometric, hoffsets, hcounts, hjpegOffset,
        hjpegLength, hnone]
    · simp [note, horientation, hcompression, hphotometric, hoffsets, hcounts, hjpegOffset,
        hjpegLength, hdepth]

theorem collect_nil (walker : Walker) (isFirst : Bool) (depth : ℕ) (orientation : Option ℕ)
    (pending : List (ℕ × ℕ)) :
    walker.collect isFirst depth orientation pending [] =
      ⟨orientation, pending, none, none, none, none, none, none⟩ := by
  simp [collect, lastOf]

/-- The loop over the entries collects what they all say. -/
theorem readEntries_bounded (walker : Walker) (isFirst : Bool) (depth : ℕ) (orientation : Option ℕ)
    (pending : List (ℕ × ℕ)) (entries : List Entry) (fails : Ending → Prop) :
    Bounded walker.len (entries.length * (maxSubIfds * 4)) fails
      (fun seen => seen = walker.collect isFirst depth orientation pending entries)
      (entries.foldlM (walker.readEntry isFirst depth)
        ⟨orientation, pending, none, none, none, none, none, none⟩) := by
  refine bounded_foldlM
    (fun done seen => seen = walker.collect isFirst depth orientation pending done) ?_ [] entries rfl
    (collect_nil walker isFirst depth orientation pending).symm
  rintro done entry rest _ - rfl
  rw [collect_concat]
  exact readEntry_bounded walker isFirst depth _ entry fails

/-- A strip tag that has a list of values has a first one. -/
theorem ne_nil_of_lastOf {tag : ℕ} {entries : List Entry} {values : List ℕ}
    (h : lastOf tag (walker.values? 1) entries = some values) : values ≠ [] := by
  obtain ⟨entry, -, hvalues⟩ := Option.bind_eq_some_iff.mp h
  exact ((values_bounded walker entry 1).post_of_ok (toOption_eq_some.mp hvalues)).1

theorem children_length_le (walker : Walker) (entry : Entry) :
    (walker.children entry).length ≤ maxSubIfds := by
  unfold children
  split_ifs
  · cases hvalues : walker.values? maxSubIfds entry with
    | none => exact Nat.zero_le _
    | some values =>
      exact ((values_bounded walker entry maxSubIfds).post_of_ok (toOption_eq_some.mp hvalues)).2
  · exact Option.length_toList_le.trans (by decide)
  · exact Nat.zero_le _

theorem collect_pending_length_le (walker : Walker) (isFirst : Bool) (depth : ℕ)
    (orientation : Option ℕ) (pending : List (ℕ × ℕ)) (entries : List Entry) :
    (walker.collect isFirst depth orientation pending entries).pending.length ≤
      pending.length + entries.length * maxSubIfds := by
  induction entries using List.reverseRecOn with
  | nil =>
    rw [collect_nil]
    exact Nat.le_add_right _ _
  | append_singleton done entry ih =>
    have hchildren := children_length_le walker entry
    rw [collect_concat, List.length_append, List.length_singleton, Nat.succ_mul]
    dsimp only [note]
    rw [List.length_append, List.length_reverse]
    split
    · rw [List.length_map]
      omega
    · rw [List.length_nil]
      omega

/-- What is pending after the entries was pending before, or is a child of theirs one level deeper. -/
theorem mem_collect_pending {isFirst : Bool} {depth : ℕ} {orientation : Option ℕ}
    {pending : List (ℕ × ℕ)} {entries : List Entry} {reference : ℕ × ℕ}
    (h : reference ∈ (walker.collect isFirst depth orientation pending entries).pending) :
    reference ∈ pending ∨ depth < maxDepth ∧ reference.2 = depth + 1 ∧
      ∃ entry ∈ entries, reference.1 ∈ walker.children entry := by
  simp only [collect, List.mem_append, List.mem_reverse] at h
  refine h.symm.imp_right fun hchild => ?_
  split at hchild
  case isTrue hdepth =>
    obtain ⟨child, hmem, rfl⟩ := List.mem_map.mp hchild
    exact ⟨hdepth, rfl, List.mem_flatMap.mp hmem⟩
  case isFalse => cases hchild

/-- No more candidates than are kept, all different, in front of the declared length and not too
short to be an image. -/
structure Confined (len : ℕ) (source : Candidate → Prop) (candidates : List Candidate) : Prop where
  length_le : candidates.length ≤ maxCandidates
  nodup : candidates.Nodup
  four_le : ∀ candidate ∈ candidates, 4 ≤ candidate.length
  inside : ∀ candidate ∈ candidates, candidate.offset + candidate.length ≤ len
  source : ∀ candidate ∈ candidates, source candidate

theorem Confined.push {len : ℕ} {source : Candidate → Prop} {result : TiffScan}
    (h : Confined len source result.candidates) {offset length : ℕ} (hsource : source ⟨offset, length⟩) :
    Confined len source (pushCandidate result len offset length).candidates := by
  unfold pushCandidate
  dsimp only
  split
  case isTrue hpush =>
    obtain ⟨⟨hfour, -, hinside⟩, hroom, hfresh⟩ := hpush
    refine ⟨?_, ?_, ?_, ?_, ?_⟩
    · rw [List.length_append, List.length_singleton]
      exact hroom
    · exact List.nodup_append.mpr ⟨h.nodup, List.nodup_singleton _, by
        rintro candidate hmem _ hother rfl
        exact hfresh (List.mem_singleton.mp hother ▸ hmem)⟩
    · exact List.forall_mem_append.mpr ⟨h.four_le, List.forall_mem_singleton.mpr hfour⟩
    · exact List.forall_mem_append.mpr ⟨h.inside, List.forall_mem_singleton.mpr hinside⟩
    · exact List.forall_mem_append.mpr ⟨h.source, List.forall_mem_singleton.mpr hsource⟩
  case isFalse => exact h

@[simp] theorem pushCandidate_orientation (result : TiffScan) (len offset length : ℕ) :
    (pushCandidate result len offset length).orientation = result.orientation := by
  unfold pushCandidate
  dsimp only
  split <;> rfl

/-! ### Visits -/

/-- The candidate comes from a directory that has been visited. -/
def FromVisited (walker : Walker) (visited : List ℕ) (candidate : Candidate) : Prop :=
  ∃ offset ∈ visited, ∃ entries next, (walker.directory offset).outcome = .ok (entries, next) ∧
    walker.Names entries candidate

/-- The orientation is what the first directory of the file says. -/
def FromFirst (walker : Walker) (first : ℕ) (orientation : ℕ) : Prop :=
  ∃ entries next, (walker.directory first).outcome = .ok (entries, next) ∧
    lastOf tagOrientation walker.value? entries = some orientation

/-- The scan so far is within its bounds. -/
structure Sound (walker : Walker) (first : ℕ) (state : State) : Prop where
  visited_nodup : state.visited.Nodup
  visited_le : state.visited.length ≤ maxIfds
  visited_nested : ∀ offset ∈ state.visited, ∃ level ≤ maxDepth, walker.Nested first offset level
  pending_nested : ∀ reference ∈ state.pending,
    reference.2 ≤ maxDepth ∧ walker.Nested first reference.1 reference.2
  candidates : Confined walker.len (walker.FromVisited state.visited) state.result.candidates
  orientation : ∀ orientation, state.result.orientation = some orientation →
    (1 ≤ orientation ∧ orientation ≤ 8) ∧ walker.FromFirst first orientation

theorem asOrientation_eq_some {value : Option ℕ} {orientation : ℕ}
    (h : asOrientation value = some orientation) :
    value = some orientation ∧ 1 ≤ orientation ∧ orientation ≤ 8 := by
  simp only [asOrientation, Option.filter_eq_some_iff, decide_eq_true_eq] at h
  exact ⟨h.1.1, h.2⟩

section Candidates

variable {isFirst : Bool} {depth : ℕ} {orientation : Option ℕ} {pending : List (ℕ × ℕ)}
  {entries : List Entry} {result : TiffScan} {source : Candidate → Prop}

/-- The tags of an embedded JPEG name a candidate. -/
theorem pushJpeg_confined (hsource : ∀ candidate, walker.Names entries candidate → source candidate)
    (h : Confined walker.len source result.candidates) :
    Confined walker.len source
      (walker.pushJpeg (walker.collect isFirst depth orientation pending entries) result).candidates := by
  unfold pushJpeg
  split
  case h_1 offset length hoffset hlength =>
    exact h.push (hsource _ (.jpeg hoffset hlength))
  case h_2 => exact h

theorem pushJpeg_orientation (walker : Walker) (seen : Seen) (result : TiffScan) :
    (walker.pushJpeg seen result).orientation = result.orientation := by
  unfold pushJpeg
  split
  · exact pushCandidate_orientation _ _ _ _
  · rfl

/-- A strip that is compressed as JPEG and not raw is a candidate. -/
theorem pushStrip_bounded (size : ℕ) (fails : Ending → Prop)
    (hsource : ∀ candidate, walker.Names entries candidate → source candidate)
    (h : Confined walker.len source result.candidates) :
    Bounded size 0 fails
      (fun next => Confined walker.len source next.candidates ∧
        next.orientation = result.orientation)
      (walker.pushStrip (walker.collect isFirst depth orientation pending entries) result) := by
  unfold pushStrip
  dsimp only
  split
  case isFalse => exact bounded_pure ⟨h, rfl⟩
  case isTrue hcompressed =>
    obtain ⟨hcompression, hraw⟩ := hcompressed
    rw [not_or] at hraw
    split
    case h_1 offset offsets length lengths hoffset hlength =>
      exact bounded_pure ⟨h.push (hsource _ (.strip hcompression hraw.1 hraw.2 hoffset hlength)),
        pushCandidate_orientation _ _ _ _⟩
    case h_2 offsets lengths hnone hoffsets hlengths =>
      obtain ⟨offset, _, hfirst⟩ := List.exists_cons_of_ne_nil (ne_nil_of_lastOf hoffsets)
      obtain ⟨length, _, hsecond⟩ := List.exists_cons_of_ne_nil (ne_nil_of_lastOf hlengths)
      exact (hnone _ _ _ _ hfirst hsecond).elim
    case h_3 => exact bounded_pure ⟨h, rfl⟩

end Candidates

/-- The bytes that the visit of one directory reads. -/
def visitBudget : ℕ := directoryBudget + maxEntries * (maxSubIfds * 4)

/-- A visit keeps the bounds, and pushes no more than the children of the entries and the next
directory. -/
theorem visit_bounded {first offset depth : ℕ} {state : State} (h : walker.Sound first state)
    (hfresh : offset ∉ state.visited) (hroom : state.visited.length < maxIfds)
    (hdepth : depth ≤ maxDepth) (hnested : walker.Nested first offset depth) :
    Bounded walker.len visitBudget (fun ending => ending = .refused)
      (fun next => walker.Sound first next ∧ next.visited.length = state.visited.length + 1 ∧
        next.pending.length ≤ state.pending.length + (maxEntries * maxSubIfds + 1))
      (walker.visit first state offset depth) := by
  have hvisited : (state.visited ++ [offset]).Nodup :=
    List.nodup_append.mpr ⟨h.visited_nodup, List.nodup_singleton _, by
      rintro other hmem _ hsingle rfl
      exact hfresh (List.mem_singleton.mp hsingle ▸ hmem)⟩
  have hlength : (state.visited ++ [offset]).length = state.visited.length + 1 := by
    rw [List.length_append, List.length_singleton]
  have hle : (state.visited ++ [offset]).length ≤ maxIfds := by omega
  have hvisitedNested : ∀ other ∈ state.visited ++ [offset],
      ∃ level ≤ maxDepth, walker.Nested first other level :=
    List.forall_mem_append.mpr ⟨h.visited_nested,
      List.forall_mem_singleton.mpr ⟨depth, hdepth, hnested⟩⟩
  have hcandidates : Confined walker.len (walker.FromVisited (state.visited ++ [offset]))
      state.result.candidates := by
    refine ⟨h.candidates.length_le, h.candidates.nodup, h.candidates.four_le, h.candidates.inside, ?_⟩
    intro candidate hmem
    obtain ⟨other, hother, hfrom⟩ := h.candidates.source candidate hmem
    exact ⟨other, List.mem_append_left _ hother, hfrom⟩
  refine ((directory_bounded walker offset).attempt).bind _ _ ?_
  rintro _ rfl
  cases hfound : (walker.directory offset).outcome.toOption with
  | none =>
    dsimp only
    split
    · exact bounded_fail rfl
    · exact bounded_pure ⟨⟨hvisited, hle, hvisitedNested, h.pending_nested, hcandidates,
        h.orientation⟩, hlength, Nat.le_add_right _ _⟩
  | some found =>
    obtain ⟨entries, next⟩ := found
    have hdirectory := toOption_eq_some.mp hfound
    have hentries : entries.length ≤ maxEntries :=
      (directory_bounded walker offset).post_of_ok hdirectory
    have hsource (candidate : Candidate) (hnames : walker.Names entries candidate) :
        walker.FromVisited (state.visited ++ [offset]) candidate :=
      ⟨offset, List.mem_append_right _ (List.mem_singleton_self _), entries, next, hdirectory, hnames⟩
    dsimp only
    refine Bounded.bind _ 0 ((readEntries_bounded walker _ _ _ _ entries _).mono
      (Nat.mul_le_mul_right _ hentries) (fun _ h => h) fun _ h => h) ?_
    rintro _ rfl
    refine Bounded.bind 0 0 (pushStrip_bounded _ _ hsource (pushJpeg_confined hsource hcandidates))
      fun result hresult => bounded_pure ?_
    obtain ⟨hconfined, horientation⟩ := hresult
    rw [pushJpeg_orientation] at horientation
    refine ⟨⟨hvisited, hle, hvisitedNested, ?_, hconfined, ?_⟩, hlength, ?_⟩
    · have hpending : ∀ reference ∈ (walker.collect (decide (offset = first)) depth
          state.result.orientation state.pending entries).pending,
          reference.2 ≤ maxDepth ∧ walker.Nested first reference.1 reference.2 := by
        intro reference hmem
        rcases mem_collect_pending hmem with hold | ⟨hless, hlevel, entry, hentry, hchild⟩
        · exact h.pending_nested reference hold
        · rw [hlevel]
          exact ⟨hless, .child hnested hdirectory hentry hchild⟩
      dsimp only
      split
      · exact List.forall_mem_cons.mpr ⟨⟨hdepth, .next hnested hdirectory⟩, hpending⟩
      · exact hpending
    · intro found hstated
      rw [horientation] at hstated
      dsimp only [collect] at hstated
      split at hstated
      case isTrue hfirst =>
        obtain rfl := of_decide_eq_true hfirst.1
        obtain ⟨hlast, hrange⟩ := asOrientation_eq_some hstated
        exact ⟨hrange, entries, next, hdirectory, hlast⟩
      case isFalse => exact h.orientation found hstated
    · have hpushed := collect_pending_length_le walker (decide (offset = first)) depth
        state.result.orientation state.pending entries
      have hchildren := Nat.mul_le_mul_right maxSubIfds hentries
      dsimp only
      split
      · rw [List.length_cons]
        omega
      · omega

/-! ### The whole scan -/

/-- The bytes that the visits which are left may read. -/
def remainingBudget (state : State) : ℕ := (maxIfds - state.visited.length) * visitBudget

/-- A turn keeps the bounds, leaves fewer turns, and reads at the expense of the visits which are
left. -/
theorem turn_bounded {first : ℕ} {state : State} (h : walker.Sound first state) :
    ∃ budget ≤ remainingBudget state,
      Bounded walker.len budget (fun ending => ending = .refused)
        (fun next => ∀ after, next = some after → walker.Sound first after ∧
          after.turns < state.turns ∧ budget + remainingBudget after ≤ remainingBudget state)
        (walker.turn first state) := by
  obtain ⟨visited, pending, result, readFirst⟩ := state
  unfold turn
  cases pending with
  | nil => exact ⟨0, Nat.zero_le _, bounded_pure nofun⟩
  | cons reference pending =>
    obtain ⟨offset, depth⟩ := reference
    obtain ⟨⟨hdepth, hnested⟩, hpending⟩ := List.forall_mem_cons.mp h.pending_nested
    have hpopped : walker.Sound first ⟨visited, pending, result, readFirst⟩ :=
      ⟨h.visited_nodup, h.visited_le, h.visited_nested, hpending, h.candidates, h.orientation⟩
    dsimp only
    split
    case isTrue =>
      refine ⟨0, Nat.zero_le _, bounded_pure ?_⟩
      rintro _ ⟨⟩
      refine ⟨hpopped, ?_, by rw [Nat.zero_add]; rfl⟩
      simp only [State.turns, List.length_cons]
      omega
    case isFalse hvisit =>
      simp only [not_or, not_le, ge_iff_le] at hvisit
      obtain ⟨-, hroom, hfresh⟩ := hvisit
      have hleft : maxIfds - visited.length = (maxIfds - (visited.length + 1)) + 1 := by omega
      refine ⟨visitBudget, ?_, ?_⟩
      · rw [remainingBudget, hleft, Nat.succ_mul]
        exact Nat.le_add_left _ _
      refine (visit_bounded hpopped hfresh hroom hdepth hnested).bind _ 0 fun next hnext =>
        bounded_pure ?_
      obtain ⟨hsound, hvisited, hpushed⟩ := hnext
      rintro _ ⟨⟩
      refine ⟨hsound, ?_, ?_⟩
      · dsimp only at hvisited hpushed
        rw [State.turns, State.turns, hvisited, hleft, Nat.succ_mul, List.length_cons]
        omega
      · dsimp only at hvisited
        rw [remainingBudget, remainingBudget, hvisited, hleft, Nat.succ_mul, Nat.add_comm]

/-- The states of the loop. -/
inductive Reaches (walker : Walker) (first : ℕ) : State → Prop
  | start : Reaches walker first (.start first)
  | turn {state next : State} : Reaches walker first state →
    (walker.turn first state).outcome = .ok (some next) → Reaches walker first next

theorem sound_start (walker : Walker) (first : ℕ) : walker.Sound first (.start first) := by
  refine ⟨List.nodup_nil, Nat.zero_le _, nofun, ?_, ⟨Nat.zero_le _, List.nodup_nil, nofun, nofun,
    nofun⟩, nofun⟩
  exact List.forall_mem_singleton.mpr ⟨Nat.zero_le _, .first⟩

/-- Every state of the loop is within the bounds. -/
theorem Reaches.sound {first : ℕ} {state : State} (h : walker.Reaches first state) :
    walker.Sound first state := by
  induction h with
  | start => exact sound_start walker first
  | turn _ hturn ih =>
    obtain ⟨_, _, hbounded⟩ := turn_bounded ih
    exact (hbounded.post_of_ok hturn _ rfl).1

/-- A loop with enough turns ends in one of its states. -/
theorem loop_bounded {first turns : ℕ} {state : State} (h : walker.Reaches first state)
    (hturns : state.turns < turns) :
    Bounded walker.len (remainingBudget state) (fun ending => ending = .refused)
      (walker.Reaches first) (walker.loop first turns state) := by
  induction turns generalizing state with
  | zero => exact absurd hturns (Nat.not_lt_zero _)
  | succ turns ih =>
    obtain ⟨budget, hbudget, hturn⟩ := turn_bounded h.sound
    rw [← Nat.add_sub_of_le hbudget]
    refine hturn.and_outcome.bind budget _ fun next hnext => ?_
    cases next with
    | none => exact bounded_pure h
    | some after =>
      obtain ⟨hpost, houtcome⟩ := hnext
      obtain ⟨-, hless, hleft⟩ := hpost after rfl
      exact (ih (h.turn houtcome) (by omega)).mono (by omega) (fun _ h => h) fun _ h => h

/-- The loop of a scan. -/
theorem loop_start_bounded (walker : Walker) (first : ℕ) :
    Bounded walker.len (maxIfds * visitBudget) (fun ending => ending = .refused)
      (walker.Reaches first) (walker.loop first ((State.start first).turns + 1) (.start first)) := by
  have hbudget : remainingBudget (.start first) = maxIfds * visitBudget :=
    congrArg (· * visitBudget) (Nat.sub_zero maxIfds)
  rw [← hbudget]
  exact loop_bounded .start (Nat.lt_succ_self _)

/-- The walker that the header of a file asks for. -/
def ofHeader (reader : List UInt8) (len : ℕ) : Walker :=
  ⟨reader, len, if reader.head? = some 0x49 then .little else .big⟩

/-- The first directory that the header refers to. -/
def firstDirectory (walker : Walker) : ℕ := walker.number ((walker.reader.drop 4).take 4)

end Walker

/-- The bytes that a scan may read. -/
def scanBudget : ℕ := 8 + maxIfds * Walker.visitBudget

/-- A scan reads the header and runs the loop, whose last state has its result. -/
theorem scan_bounded (reader : List UInt8) (len : ℕ) :
    Bounded len scanBudget (fun ending => ending = .refused)
      (fun result => ∃ state, (Walker.ofHeader reader len).Reaches
        (Walker.ofHeader reader len).firstDirectory state ∧ state.result = result)
      (scan reader len) := by
  unfold scan
  split
  case isTrue => exact bounded_fail rfl
  case isFalse hlen =>
    have hheader : Bounded len 8 (fun ending => ending = Ending.refused)
        (fun header => header = reader.take 8) (read reader 0 8 .refused) := by
      refine bounded_read (by omega) le_rfl (fun _ => rfl) fun header hslice => ?_
      simp only [slice, Option.ite_none_right_eq_some, Option.some.injEq] at hslice
      exact hslice.2.symm
    refine hheader.bind _ _ ?_
    rintro _ rfl
    split
    case isTrue => exact bounded_fail rfl
    case isFalse =>
      have hhead : (reader.take 8).head? = reader.head? := by
        cases reader <;> rfl
      have hfirst : ((reader.take 8).drop 4).take 4 = (reader.drop 4).take 4 := by
        rw [List.drop_take, List.take_take, Nat.min_self]
      rw [hhead, hfirst]
      have hloop := Walker.loop_start_bounded (Walker.ofHeader reader len)
        (Walker.ofHeader reader len).firstDirectory
      refine hloop.bind _ 0 fun state hstate => ?_
      split
      · exact bounded_pure ⟨state, hstate, rfl⟩
      · exact bounded_fail rfl

/-- The scan of any bytes with any declared length ends, without a panic, and reads in front of that
length and no more than its budget. Every state of its loop is within the bounds on directories,
nesting, candidates and orientation, and what it returns is the result of such a state. -/
theorem scan_confined (reader : List UInt8) (len : ℕ) :
    (scan reader len).outcome ≠ .error .panic ∧
      (scan reader len).outcome ≠ .error (.error .exhausted) ∧
      (∀ range ∈ (scan reader len).reads, range.1 + range.2 ≤ len) ∧
      (scan reader len).bytes ≤ scanBudget ∧
      (∀ state, (Walker.ofHeader reader len).Reaches (Walker.ofHeader reader len).firstDirectory state →
        (Walker.ofHeader reader len).Sound (Walker.ofHeader reader len).firstDirectory state) ∧
      ∀ result, (scan reader len).outcome = .ok result →
        ∃ state, (Walker.ofHeader reader len).Reaches (Walker.ofHeader reader len).firstDirectory
          state ∧ state.result = result := by
  have hbounded := scan_bounded reader len
  refine ⟨hbounded.ne_panic, ?_, hbounded.inside, hbounded.bytes_le, fun _ h => h.sound,
    fun _ h => hbounded.post_of_ok h⟩
  intro hexhausted
  have hensures := hbounded.ensures
  rw [hexhausted] at hensures
  obtain ⟨_, hfault, hrefused⟩ := hensures
  cases hfault
  cases hrefused

/-- A file whose only directory declares an uncompressed strip of sensor data, and names the same
four bytes as an embedded JPEG. The strip starts at this offset. -/
def rawStripFile (offset : ℕ) : List UInt8 :=
  [0x49, 0x49, 0x2a, 0x00] ++ leBytes 4 8 ++ leBytes 2 6 ++
    (([(tagCompression, 1), (tagPhotometric, photometricCfa), (tagStripOffsets, offset),
      (tagStripByteCounts, 4), (tagJpegOffset, offset), (tagJpegLength, 4)]).flatMap
      fun (tag, value) => leBytes 2 tag ++ leBytes 2 typeLong ++ leBytes 4 1 ++ leBytes 4 value) ++
    leBytes 4 0 ++ [0xff, 0xff, 0xff, 0xff]

/-- What the directory of such a file declares: its compression, its photometric interpretation and
its strip. -/
def declaredStrip (reader : List UInt8) (len : ℕ) :
    Option (Option ℕ × Option ℕ × Option (List ℕ) × Option (List ℕ)) :=
  let walker := Walker.ofHeader reader len
  (walker.directory walker.firstDirectory).outcome.toOption.map fun (entries, _) =>
    (lastOf tagCompression walker.value? entries, lastOf tagPhotometric walker.value? entries,
      lastOf tagStripOffsets (walker.values? 1) entries,
      lastOf tagStripByteCounts (walker.values? 1) entries)

theorem scan_keeps_raw_strip :
    (rawStripFile 86).length = 90 ∧
      declaredStrip (rawStripFile 86) 90 =
        some (some 1, some photometricCfa, some [86], some [4]) ∧
      (scan (rawStripFile 86) 90).outcome = .ok ⟨none, [⟨86, 4⟩]⟩ ∧
      (rawStripFile 90).length = 90 ∧
      (scan (rawStripFile 90) 94).outcome = .ok ⟨none, [⟨90, 4⟩]⟩ := by
  decide +kernel

end Crabinet.Thumbnail.Tiff
