import Crabinet.Filesystem.Tree
import Mathlib.Algebra.Ring.Nat

/-!
# Bounded walks

The three walks that meet the depth limit: the check before a tree moves deeper, the quota
measurement, and the removal of a tree. Each counts depth from a different place.
-/

namespace Crabinet.Filesystem

open Crabinet.Library

/-- `MAX_SUBTREE_CHECK_ENTRIES`. -/
def maxSubtreeCheckEntries : ℕ := 1000000

/-- `DIRECTORY_QUOTA_BYTES`. -/
def directoryQuotaBytes : ℕ := 4096

/-- The largest `u64` and `usize`. -/
def u64Max : ℕ := 2 ^ 64 - 1

/-- `is_internal_temp_name`. -/
def isInternalTempName (name : String) : Bool :=
  match name.toList.dropPrefix? ".index-tmp-".toList with
  | some suffix => suffix.length == 32 && suffix.all fun c =>
      ('0' ≤ c && c ≤ '9') || ('a' ≤ c && c ≤ 'f') || ('A' ≤ c && c ≤ 'F')
  | none => false

/-- `is_own_internal_name`. -/
def isOwnInternalName (name : String) : Bool :=
  name == ".crabinet" || name == ".index-staging" || isInternalTempName name

/-- `UsageError`. -/
inductive UsageError where
  | limitExceeded | tooManyEntries | tooDeep
  | fs (error : FsErrorCode)
deriving DecidableEq, Repr

/-- `UsageScan`. -/
structure UsageScan where
  entries : ℕ
  maxEntries : ℕ
  bytes : ℕ
  maxBytes : ℕ
deriving DecidableEq, Repr

namespace UsageScan

/-- `visit`. -/
def visit (scan : UsageScan) : Except UsageError UsageScan :=
  if scan.entries + 1 > u64Max then .error .tooManyEntries
  else if scan.entries + 1 > scan.maxEntries then .error .tooManyEntries
  else .ok { scan with entries := scan.entries + 1 }

/-- `charge`. -/
def charge (scan : UsageScan) (bytes : ℕ) : Except UsageError UsageScan :=
  if scan.bytes + bytes > u64Max then .error .limitExceeded
  else if scan.bytes + bytes > scan.maxBytes then .error .limitExceeded
  else .ok { scan with bytes := scan.bytes + bytes }

theorem visit_ne_tooDeep (scan : UsageScan) : scan.visit ≠ .error .tooDeep := by
  unfold visit
  split
  · simp
  · split <;> simp

theorem charge_ne_tooDeep (scan : UsageScan) (bytes : ℕ) : scan.charge bytes ≠ .error .tooDeep := by
  unfold charge
  split
  · simp
  · split <;> simp

end UsageScan

namespace Contents

/-- `ensure_subtree_within`; the result is the number of entries visited. -/
def ensureSubtreeWithin : Contents → ℕ → ℕ → FsResult ℕ
  | empty, _, visited => .ok visited
  | leaf _ _ _ rest, allowance, visited =>
    if visited + 1 > maxSubtreeCheckEntries then .error .tooLarge
    else if allowance = 0 then .error .tooDeep
    else rest.ensureSubtreeWithin allowance (visited + 1)
  | directory _ _ inside rest, allowance, visited =>
    if visited + 1 > maxSubtreeCheckEntries then .error .tooLarge
    else if allowance = 0 then .error .tooDeep
    else do
      let visited ← inside.ensureSubtreeWithin (allowance - 1) (visited + 1)
      rest.ensureSubtreeWithin allowance visited

/-- A subtree that passes is no higher than its allowance. -/
theorem height_of_ensureSubtreeWithin {contents : Contents} {allowance visited after : ℕ}
    (h : contents.ensureSubtreeWithin allowance visited = .ok after) :
    contents.height ≤ allowance := by
  induction contents generalizing allowance visited after with
  | empty => exact Nat.zero_le _
  | leaf name type stat rest ih =>
    unfold ensureSubtreeWithin at h
    rw [ite_error_eq_ok, ite_error_eq_ok] at h
    have hrest := ih h.2.2
    simp only [height]
    omega
  | directory name stat inside rest ihInside ih =>
    unfold ensureSubtreeWithin at h
    rw [ite_error_eq_ok, ite_error_eq_ok, bind_eq_ok] at h
    obtain ⟨-, hallowance, middle, hinside, hrest⟩ := h
    have hinside := ihInside hinside
    have hrest := ih hrest
    simp only [height]
    omega

/-- `measure_directory`, for a directory at the given depth. -/
def measureDirectory : Contents → UsageScan → ℕ → Except UsageError UsageScan
  | empty, scan, _ => .ok scan
  | leaf name type stat rest, scan, depth => do
    let scan ← scan.visit
    if isOwnInternalName name.value then rest.measureDirectory scan depth
    else if depth ≥ maxPathDepth then .error .tooDeep
    else
      match type with
      | .file => do
        let scan ← scan.charge stat.size
        rest.measureDirectory scan depth
      | .other => rest.measureDirectory scan depth
  | directory name _ inside rest, scan, depth => do
    let scan ← scan.visit
    if isOwnInternalName name.value then rest.measureDirectory scan depth
    else if depth ≥ maxPathDepth then .error .tooDeep
    else do
      let scan ← scan.charge directoryQuotaBytes
      let scan ← inside.measureDirectory scan (depth + 1)
      rest.measureDirectory scan depth

/-- A tree within the depth limit is never too deep to measure. -/
theorem measureDirectory_ne_tooDeep {contents : Contents} {depth : ℕ}
    (h : depth + contents.height ≤ maxPathDepth) (scan : UsageScan) :
    contents.measureDirectory scan depth ≠ .error .tooDeep := by
  induction contents generalizing scan depth with
  | empty => simp [measureDirectory]
  | leaf name type stat rest ih =>
    simp only [height] at h
    have hrest (scan : UsageScan) : rest.measureDirectory scan depth ≠ .error .tooDeep :=
      ih (by omega) scan
    refine bind_ne_error scan.visit_ne_tooDeep fun scan => ?_
    split
    · exact hrest scan
    · rw [if_neg (by omega)]
      cases type with
      | file => exact bind_ne_error (scan.charge_ne_tooDeep _) hrest
      | other => exact hrest scan
  | directory name stat inside rest ihInside ih =>
    simp only [height] at h
    have hrest (scan : UsageScan) : rest.measureDirectory scan depth ≠ .error .tooDeep :=
      ih (by omega) scan
    have hinside (scan : UsageScan) : inside.measureDirectory scan (depth + 1) ≠ .error .tooDeep :=
      ihInside (by omega) scan
    refine bind_ne_error scan.visit_ne_tooDeep fun scan => ?_
    split
    · exact hrest scan
    · rw [if_neg (by omega)]
      exact bind_ne_error (scan.charge_ne_tooDeep _) fun scan => bind_ne_error (hinside scan) hrest

/-- `remove_tree`: what is left, the count, and whether the directory is now empty. The removal
attempted at a count that `fails` is refused by the file system. -/
def removeTree (fails : ℕ → Bool) (limit : ℕ) : Contents → ℕ → ℕ → Contents × ℕ × FsResult Bool
  | empty, count, _ => (empty, count, .ok true)
  | leaf name type stat rest, count, depth =>
    if count ≥ limit then (leaf name type stat rest, count, .ok false)
    else if depth ≥ maxPathDepth then (leaf name type stat rest, count, .error .tooDeep)
    else if fails count then (leaf name type stat rest, count, .error .unavailable)
    else rest.removeTree fails limit (count + 1) depth
  | directory name stat inside rest, count, depth =>
    if count ≥ limit then (directory name stat inside rest, count, .ok false)
    else if depth ≥ maxPathDepth then (directory name stat inside rest, count, .error .tooDeep)
    else
      match inside.removeTree fails limit count (depth + 1) with
      | (left, count, .ok true) =>
        if count ≥ limit then (directory name stat left rest, count, .ok false)
        else if fails count then (directory name stat left rest, count, .error .unavailable)
        else rest.removeTree fails limit (count + 1) depth
      | (left, count, result) => (directory name stat left rest, count, result)

/-- A tree within the depth limit is never too deep to remove. -/
theorem removeTree_ne_tooDeep {contents : Contents} {depth : ℕ}
    (h : depth + contents.height ≤ maxPathDepth) (fails : ℕ → Bool) (limit count : ℕ) :
    (contents.removeTree fails limit count depth).2.2 ≠ .error .tooDeep := by
  induction contents generalizing count depth with
  | empty => simp [removeTree]
  | leaf name type stat rest ih =>
    simp only [height] at h
    unfold removeTree
    split
    · simp
    · rw [if_neg (by omega)]
      split
      · simp
      · exact ih (by omega) _
  | directory name stat inside rest ihInside ih =>
    simp only [height] at h
    have hinside : (inside.removeTree fails limit count (depth + 1)).2.2 ≠ .error .tooDeep :=
      ihInside (by omega) count
    unfold removeTree
    split
    · simp
    · rw [if_neg (by omega)]
      split
      · split
        · simp
        · split
          · simp
          · exact ih (by omega) _
      · rename_i left after result _ hresult
        rw [hresult] at hinside
        exact hinside

/-- A removal counts what it removes, and is done only when nothing is left. -/
theorem removeTree_count {fails : ℕ → Bool} {limit : ℕ} {contents left : Contents}
    {count depth after : ℕ} {result : FsResult Bool}
    (h : contents.removeTree fails limit count depth = (left, after, result)) :
    count ≤ after ∧ after + left.count = count + contents.count ∧ (result = .ok true → left = .empty) ∧
      (result = .ok false → limit ≤ after) := by
  induction contents generalizing left count depth after result with
  | empty =>
    obtain ⟨rfl, rfl, rfl⟩ : empty = left ∧ count = after ∧ .ok true = result := by
      simpa [removeTree] using h
    exact ⟨le_rfl, rfl, fun _ => rfl, nofun⟩
  | leaf name type stat rest ih =>
    unfold removeTree at h
    split at h
    · rename_i hlimit
      obtain ⟨rfl, rfl, rfl⟩ := by simpa using h
      exact ⟨le_rfl, rfl, nofun, fun _ => hlimit⟩
    · split at h
      · obtain ⟨rfl, rfl, rfl⟩ := by simpa using h
        exact ⟨le_rfl, rfl, nofun, nofun⟩
      · split at h
        · obtain ⟨rfl, rfl, rfl⟩ := by simpa using h
          exact ⟨le_rfl, rfl, nofun, nofun⟩
        · obtain ⟨hle, hcount, hrest⟩ := ih h
          refine ⟨by omega, ?_, hrest⟩
          rw [hcount, Contents.count]
          omega
  | directory name stat inside rest ihInside ih =>
    unfold removeTree at h
    split at h
    · rename_i hlimit
      obtain ⟨rfl, rfl, rfl⟩ := by simpa using h
      exact ⟨le_rfl, rfl, nofun, fun _ => hlimit⟩
    · split at h
      · obtain ⟨rfl, rfl, rfl⟩ := by simpa using h
        exact ⟨le_rfl, rfl, nofun, nofun⟩
      · split at h
        · rename_i inner middle hinner
          obtain ⟨hinside, hcount, hempty, -⟩ := ihInside hinner
          have hempty := hempty rfl
          subst hempty
          split at h
          · rename_i hlimit
            obtain ⟨rfl, rfl, rfl⟩ := by simpa using h
            refine ⟨hinside, ?_, nofun, fun _ => hlimit⟩
            simp only [Contents.count] at *
            omega
          · split at h
            · obtain ⟨rfl, rfl, rfl⟩ := by simpa using h
              refine ⟨hinside, ?_, nofun, nofun⟩
              simp only [Contents.count] at *
              omega
            · obtain ⟨hle, htotal, hrest⟩ := ih h
              refine ⟨by omega, ?_, hrest⟩
              simp only [Contents.count] at *
              omega
        · rename_i inner middle innerResult hnot hinner
          obtain ⟨rfl, rfl, rfl⟩ := by simpa using h
          obtain ⟨hinside, hcount, -, hlimit⟩ := ihInside hinner
          refine ⟨hinside, ?_, fun h => ?_, hlimit⟩
          · simp only [Contents.count] at *
            omega
          · exact absurd h (fun heq => hnot (by rw [heq]) )

/-- An unbounded removal is done or fails. -/
theorem removeTree_unbounded {fails : ℕ → Bool} {limit : ℕ} {contents left : Contents}
    {count depth after : ℕ} {result : FsResult Bool}
    (h : contents.removeTree fails limit count depth = (left, after, result))
    (hlimit : count + contents.count < limit) :
    result = .ok true ∨ ∃ error, result = .error error := by
  obtain ⟨-, hcount, -, hbudget⟩ := removeTree_count h
  rcases result with error | done
  · exact .inr ⟨error, rfl⟩
  · cases done with
    | true => exact .inl rfl
    | false =>
      have := hbudget rfl
      omega

/-- A removal that nothing refuses, within the depth limit and its budget, removes everything. -/
theorem removeTree_complete {fails : ℕ → Bool} (hfails : ∀ count, fails count = false) {limit : ℕ}
    {contents : Contents} {count depth : ℕ} (hdepth : depth + contents.height ≤ maxPathDepth)
    (hlimit : count + contents.count < limit) :
    contents.removeTree fails limit count depth = (.empty, count + contents.count, .ok true) := by
  induction contents generalizing count depth with
  | empty => rfl
  | leaf name type stat rest ih =>
    simp only [height, Contents.count] at hdepth hlimit
    rw [removeTree, if_neg (by omega), if_neg (by omega), hfails, ih (by omega) (by omega)]
    simp [Contents.count, Nat.add_assoc, Nat.add_comm 1]
  | directory name stat inside rest ihInside ih =>
    simp only [height, Contents.count] at hdepth hlimit
    rw [removeTree, if_neg (by omega), if_neg (by omega), ihInside (by omega) (by omega)]
    dsimp only
    rw [if_neg (by omega), hfails, ih (by omega) (by omega)]
    simp [Contents.count, Nat.add_assoc]

/-- What an unbounded removal left over was within the budget before its end. -/
theorem lt_of_removeTree {fails : ℕ → Bool} {large limit : ℕ} {contents left : Contents}
    {count depth after : ℕ} {result : FsResult Bool}
    (h : contents.removeTree fails large (count + 1) depth = (left, after, result))
    (hlarge : count + 1 + contents.count < large) (hdone : result = .ok true → after ≤ limit)
    (herror : ∀ error, result = .error error → after < limit) : count < limit := by
  have hle := (removeTree_count h).1
  rcases removeTree_unbounded h hlarge with rfl | ⟨error, rfl⟩
  · have := hdone rfl
    omega
  · have := herror error rfl
    omega

/-- A budget that covers every removal attempted makes no difference. -/
theorem removeTree_of_fits {fails : ℕ → Bool} {large limit : ℕ} {contents left : Contents}
    {count depth after : ℕ} {result : FsResult Bool}
    (h : contents.removeTree fails large count depth = (left, after, result))
    (hlarge : count + contents.count < large) (hdone : result = .ok true → after ≤ limit)
    (herror : ∀ error, result = .error error → after < limit) :
    contents.removeTree fails limit count depth = (left, after, result) := by
  induction contents generalizing left count depth after result with
  | empty => exact h
  | leaf name type stat rest ih =>
    simp only [Contents.count] at hlarge
    unfold removeTree at h ⊢
    rw [if_neg (by omega)] at h
    split at h
    · obtain ⟨rfl, rfl, rfl⟩ := by simpa using h
      rw [if_neg (not_le.mpr (herror _ rfl)), if_pos ‹_›]
    · split at h
      · obtain ⟨rfl, rfl, rfl⟩ := by simpa using h
        rw [if_neg (not_le.mpr (herror _ rfl)), if_neg ‹_›, if_pos ‹_›]
      · have hbudget := lt_of_removeTree h (by omega) hdone herror
        rw [if_neg (not_le.mpr hbudget), if_neg ‹_›, if_neg ‹_›]
        exact ih h (by omega) hdone herror
  | directory name stat inside rest ihInside ih =>
    simp only [Contents.count] at hlarge
    unfold removeTree at h ⊢
    rw [if_neg (by omega)] at h
    split at h
    · obtain ⟨rfl, rfl, rfl⟩ := by simpa using h
      rw [if_neg (not_le.mpr (herror _ rfl)), if_pos ‹_›]
    · rename_i hdepth
      split at h
      · rename_i inner middle hinner
        obtain ⟨hinside, hcount, hempty, -⟩ := removeTree_count hinner
        rw [if_neg (by omega)] at h
        have hmiddle : middle < limit ∧ ¬count ≥ limit := by
          split at h
          · obtain ⟨rfl, rfl, rfl⟩ := by simpa using h
            have := herror _ rfl
            omega
          · have := lt_of_removeTree h (by omega) hdone herror
            omega
        have hsame := ihInside hinner (by omega) (fun _ => hmiddle.1.le) nofun
        rw [if_neg hmiddle.2, if_neg hdepth, hsame]
        dsimp only
        rw [if_neg (not_le.mpr hmiddle.1)]
        split at h
        · rw [if_pos ‹_›]
          exact h
        · rw [if_neg ‹_›]
          exact ih h (by omega) hdone herror
      · rename_i inner middle innerResult hnot hinner
        obtain ⟨rfl, rfl, rfl⟩ := by simpa using h
        obtain ⟨hinside, -, -, -⟩ := removeTree_count hinner
        rcases removeTree_unbounded hinner (by omega) with rfl | ⟨error, rfl⟩
        · exact absurd rfl hnot
        · have hmiddle := herror error rfl
          have hsame := ihInside hinner (by omega) nofun fun _ _ => hmiddle
          rw [if_neg (by omega), if_neg hdepth, hsame]

/-- A budget that covers no more than what is removed stops the removal without an error. -/
theorem removeTree_short {fails : ℕ → Bool} {large limit : ℕ} {contents left : Contents}
    {count depth after : ℕ} {result : FsResult Bool}
    (h : contents.removeTree fails large count depth = (left, after, result))
    (hlarge : count + contents.count < large) (hcount : count ≤ limit) (hshort : limit ≤ after) :
    ∃ kept done, contents.removeTree fails limit count depth = (kept, limit, .ok done) := by
  induction contents generalizing left count depth after result with
  | empty =>
    obtain ⟨-, rfl, -⟩ : empty = left ∧ count = after ∧ .ok true = result := by simpa [removeTree] using h
    obtain rfl := Nat.le_antisymm hcount hshort
    exact ⟨empty, true, rfl⟩
  | leaf name type stat rest ih =>
    simp only [Contents.count] at hlarge
    by_cases hstop : count ≥ limit
    · obtain rfl := Nat.le_antisymm hcount hstop
      exact ⟨_, false, by rw [removeTree, if_pos hstop]⟩
    · unfold removeTree at h ⊢
      rw [if_neg (by omega)] at h
      rw [if_neg hstop]
      split at h
      · obtain ⟨-, rfl, -⟩ := by simpa using h
        exact absurd hshort hstop
      · split at h
        · obtain ⟨-, rfl, -⟩ := by simpa using h
          exact absurd hshort hstop
        · rw [if_neg ‹_›, if_neg ‹_›]
          exact ih h (by omega) (by omega) hshort
  | directory name stat inside rest ihInside ih =>
    simp only [Contents.count] at hlarge
    by_cases hstop : count ≥ limit
    · obtain rfl := Nat.le_antisymm hcount hstop
      exact ⟨_, false, by rw [removeTree, if_pos hstop]⟩
    · unfold removeTree at h ⊢
      rw [if_neg (by omega)] at h
      rw [if_neg hstop]
      split at h
      · obtain ⟨-, rfl, -⟩ := by simpa using h
        exact absurd hshort hstop
      · rename_i hdepth
        rw [if_neg hdepth]
        split at h
        · rename_i inner middle hinner
          obtain ⟨hinside, htotal, -⟩ := removeTree_count hinner
          rw [if_neg (by omega)] at h
          by_cases hmiddle : limit ≤ middle
          · obtain ⟨kept, done, hkept⟩ := ihInside hinner (by omega) (by omega) hmiddle
            rw [hkept]
            cases done with
            | true => exact ⟨_, false, by dsimp only; rw [if_pos le_rfl]⟩
            | false => exact ⟨_, false, rfl⟩
          · have hsame := removeTree_of_fits hinner (by omega) (fun _ => Nat.le_of_not_le hmiddle) nofun
            rw [hsame]
            dsimp only
            rw [if_neg hmiddle]
            split at h
            · obtain ⟨-, rfl, -⟩ := by simpa using h
              exact absurd hshort hmiddle
            · rw [if_neg ‹_›]
              exact ih h (by omega) (by omega) hshort
        · rename_i inner middle innerResult hnot hinner
          obtain ⟨-, rfl, -⟩ := by simpa using h
          obtain ⟨kept, done, hkept⟩ := ihInside hinner (by omega) (by omega) hshort
          rw [hkept]
          cases done with
          | true => exact ⟨_, false, by dsimp only; rw [if_pos le_rfl]⟩
          | false => exact ⟨_, false, rfl⟩

/-- A removal leaves entries that were there. -/
theorem removeTree_fileIds (fails : ℕ → Bool) (limit : ℕ) (contents : Contents) (count depth : ℕ) :
    (contents.removeTree fails limit count depth).1.fileIds.Sublist contents.fileIds := by
  induction contents generalizing count depth with
  | empty => exact List.Sublist.refl _
  | leaf name type stat rest ih =>
    unfold removeTree
    split
    · exact List.Sublist.refl _
    · split
      · exact List.Sublist.refl _
      · split
        · exact List.Sublist.refl _
        · exact (ih (count + 1) depth).cons stat.fileId
  | directory name stat inside rest ihInside ih =>
    have hinside := ihInside count (depth + 1)
    have hkept (left : Contents) (h : left.fileIds.Sublist inside.fileIds) :
        (directory name stat left rest).fileIds.Sublist (directory name stat inside rest).fileIds :=
      (h.cons_cons stat.fileId).append_right rest.fileIds
    unfold removeTree
    split
    · exact List.Sublist.refl _
    · split
      · exact List.Sublist.refl _
      · split
        · rename_i left after htree
          rw [htree] at hinside
          split
          · exact hkept left hinside
          · split
            · exact hkept left hinside
            · exact (ih _ depth).trans (List.sublist_append_right _ _)
        · rename_i left after result _ htree
          rw [htree] at hinside
          exact hkept left hinside

end Contents

end Crabinet.Filesystem
