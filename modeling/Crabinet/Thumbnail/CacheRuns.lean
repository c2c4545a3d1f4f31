import Crabinet.Library.Transition
import Crabinet.Thumbnail.Cache

/-!
# What the files on disk take

Between the steps of the operations every file of the cache has its entry in the index, or an
operation in flight will still enter it or remove it; and every entry has its file, or one in
flight has yet to enter what it wrote. Where no operation is in flight, the files are the entries.
-/

namespace Crabinet.Thumbnail

open Filesystem Library

/-! ### Evicted entries -/

namespace CacheIndex

/-- The index has this entry, whatever its place in the order. -/
def HasEntry (index : CacheIndex) (key : CacheKey) (kind : MediaKind) (len : ℕ) : Prop :=
  ∃ entry, index.entries.get? key = some entry ∧ entry.kind = kind ∧ entry.len = len

variable {index : CacheIndex} {maxBytes len : ℕ} {key other : CacheKey} {kind : MediaKind}
  {result : CacheIndex × List (CacheKey × MediaKind)}

/-- Eviction leaves the entries of the other keys. -/
theorem Evicts.get? (h : index.Evicts maxBytes result) (key : CacheKey) :
    result.1.entries.get? key = if key ∈ result.2.map Prod.fst then none else index.entries.get? key := by
  rw [h.entries, without, KeyedMap.get?_retain, ← h.oldest]
  by_cases hgone : key ∈ result.2.map Prod.fst
  · cases index.entries.get? key <;> simp only [Option.filter, hgone, not_true_eq_false, decide_false,
      Bool.false_eq_true, if_false, if_true]
  · cases index.entries.get? key <;> simp only [Option.filter, hgone, not_false_eq_true, decide_true,
      if_false, if_true]

/-- An entry stays or is evicted. -/
theorem Evicts.hasEntry_or_mem (h : index.Evicts maxBytes result) (hentry : index.HasEntry key kind len) :
    result.1.HasEntry key kind len ∨ (key, kind) ∈ result.2 := by
  obtain ⟨entry, hentry, hkind, hlen⟩ := hentry
  by_cases hgone : key ∈ result.2.map Prod.fst
  · obtain ⟨⟨_, found⟩, hmem, rfl⟩ := List.mem_map.mp hgone
    obtain ⟨other, hother, hfound⟩ := h.kinds _ hmem
    obtain rfl : entry = other := Option.some.inj (hentry.symm.trans hother)
    exact .inr (hkind ▸ hfound ▸ hmem)
  · exact .inl ⟨entry, by rw [h.get?, if_neg hgone, hentry], hkind, hlen⟩

/-- What stays was not evicted. -/
theorem Evicts.of_get? (h : index.Evicts maxBytes result) {entry : CacheEntry}
    (hentry : result.1.entries.get? key = some entry) :
    index.entries.get? key = some entry ∧ ∀ kind, (key, kind) ∉ result.2 := by
  rw [h.get?, Option.ite_none_left_eq_some] at hentry
  exact ⟨hentry.2, fun kind hmem => hentry.1 (List.mem_map_of_mem hmem)⟩

end CacheIndex

/-! ### The invariant -/

/-- An operation in flight will enter the file. -/
def Recording (pending : List CachePending) (key : CacheKey) (kind : MediaKind) : Prop :=
  ∃ len, .record key kind len ∈ pending

/-- An operation in flight will enter or remove the file. -/
def Touched (pending : List CachePending) (key : CacheKey) (kind : MediaKind) : Prop :=
  Recording pending key kind ∨ .unlink key kind ∈ pending

instance (pending : List CachePending) (key : CacheKey) (kind : MediaKind) :
    Decidable (Recording pending key kind) :=
  decidable_of_iff (pending.any fun operation =>
    match operation with
    | .record other kind' _ => other = key && kind' = kind
    | _ => false) (by
      rw [List.any_eq_true]
      constructor
      · rintro ⟨operation, hmem, hsame⟩
        cases operation with
        | record other kind' len =>
          simp only [Bool.and_eq_true, decide_eq_true_eq] at hsame
          exact ⟨len, hsame.1 ▸ hsame.2 ▸ hmem⟩
        | unlink | read | drop => cases hsame
      · rintro ⟨len, hmem⟩
        exact ⟨_, hmem, by simp⟩)

instance (pending : List CachePending) (key : CacheKey) (kind : MediaKind) :
    Decidable (Touched pending key kind) :=
  inferInstanceAs (Decidable (_ ∨ _))

namespace CacheState

/-- The file of the key and the kind has this length. -/
def HasFile (state : CacheState) (key : CacheKey) (kind : MediaKind) (len : ℕ) : Prop :=
  ∃ file, state.disk.get? (fileName key kind) = some file ∧ file.len = len

/-- Every file has its entry, and every entry its file, but for the operations in flight. -/
structure Tracked (state : CacheState) : Prop where
  files : ∀ key kind len, state.HasFile key kind len →
    state.index.HasEntry key kind len ∨ Touched state.pending key kind
  entries : ∀ key kind len, state.index.HasEntry key kind len →
    state.HasFile key kind len ∨ Recording state.pending key kind

/-- A step that leaves no file without its entry, and no entry without its file: what is entered is
still there and takes the place of no file of the other kind, and what is removed or dropped is not
in use. -/
def Meets (state : CacheState) : CacheAction → Prop
  | .record key kind len =>
    (state.HasFile key kind len ∨ Recording (state.pending.erase (.record key kind len)) key kind) ∧
      ∀ entry ∈ state.index.entries.get? key, entry.kind ≠ kind →
        state.disk.get? (fileName key entry.kind) = none ∨
          Touched (state.pending.erase (.record key kind len)) key entry.kind
  | .unlink key kind true => ∀ entry ∈ state.index.entries.get? key, entry.kind = kind →
      Recording state.pending key kind
  | .unlink key kind false => ∀ file ∈ state.disk.get? (fileName key kind),
      state.index.HasEntry key kind file.len ∨ Touched (state.pending.erase (.unlink key kind)) key kind
  | .drop key => ∀ entry ∈ state.index.entries.get? key,
      state.disk.get? (fileName key entry.kind) = none ∨ Touched state.pending key entry.kind
  | _ => True

instance (index : CacheIndex) (key : CacheKey) (kind : MediaKind) (len : ℕ) :
    Decidable (index.HasEntry key kind len) :=
  decidable_of_iff ((index.entries.get? key).any fun entry => entry.kind = kind && entry.len = len) (by
    rw [Option.any_eq_true]
    simp [CacheIndex.HasEntry])

instance (state : CacheState) (key : CacheKey) (kind : MediaKind) (len : ℕ) :
    Decidable (state.HasFile key kind len) :=
  decidable_of_iff ((state.disk.get? (fileName key kind)).any fun file => file.len = len) (by
    rw [Option.any_eq_true]
    simp [HasFile])

instance (state : CacheState) : (action : CacheAction) → Decidable (state.Meets action)
  | .record _ _ _ => inferInstanceAs (Decidable (_ ∧ ∀ entry ∈ _, _))
  | .unlink _ _ true => inferInstanceAs (Decidable (∀ entry ∈ _, _))
  | .unlink _ _ false => inferInstanceAs (Decidable (∀ file ∈ _, _))
  | .drop _ => inferInstanceAs (Decidable (∀ entry ∈ _, _))
  | .put _ _ _ _ | .lookup _ | .read _ _ _ | .remove _ => isTrue trivial

/-- The invariant of the runs. -/
structure Ok (maxBytes : ℕ) (state : CacheState) : Prop where
  tracked : state.Tracked
  wellFormed : state.index.WellFormed
  within : ¬CacheIndex.Beyond maxBytes state.index.entries

end CacheState

section Pending

variable {pending : List CachePending} {key : CacheKey} {kind : MediaKind} {other : CachePending}

theorem Recording.append (h : Recording pending key kind) (more : List CachePending) :
    Recording (pending ++ more) key kind :=
  h.imp fun _ => List.mem_append_left _

theorem Touched.append (h : Touched pending key kind) (more : List CachePending) :
    Touched (pending ++ more) key kind :=
  h.imp (fun hrecording => hrecording.append more) (List.mem_append_left _)

theorem Recording.erase (h : Recording pending key kind) (hne : ∀ len, other ≠ .record key kind len) :
    Recording (pending.erase other) key kind := by
  obtain ⟨len, hmem⟩ := h
  exact ⟨len, (List.mem_erase_of_ne (hne len).symm).mpr hmem⟩

theorem Touched.erase (h : Touched pending key kind) (hne : ∀ len, other ≠ .record key kind len)
    (hne' : other ≠ .unlink key kind) : Touched (pending.erase other) key kind :=
  h.imp (fun hrecording => hrecording.erase hne) (List.mem_erase_of_ne hne'.symm).mpr

end Pending

namespace CacheState

open CacheIndex

variable {maxBytes : ℕ} {state next : CacheState} {key other : CacheKey} {kind kind' : MediaKind} {len : ℕ}

/-- Writing a file leaves the others. -/
theorem hasFile_insert {file : CachedFile} {pending : List CachePending} :
    HasFile { state with disk := state.disk.insert (fileName key kind) file, pending } other kind' len ↔
      if other = key ∧ kind' = kind then file.len = len else state.HasFile other kind' len := by
  unfold HasFile
  by_cases hsame : other = key ∧ kind' = kind
  · obtain ⟨rfl, rfl⟩ := hsame
    simp
  · have hne : fileName other kind' ≠ fileName key kind := fun h => hsame (fileName_inj.mp h)
    rw [if_neg hsame]
    dsimp only
    rw [KeyedMap.get?_insert_ne _ hne]

/-- Removing a file leaves the others. -/
theorem hasFile_erase {pending : List CachePending} :
    HasFile { state with disk := state.disk.erase (fileName key kind), pending } other kind' len ↔
      ¬(other = key ∧ kind' = kind) ∧ state.HasFile other kind' len := by
  unfold HasFile
  by_cases hsame : other = key ∧ kind' = kind
  · obtain ⟨rfl, rfl⟩ := hsame
    simp
  · have hne : fileName other kind' ≠ fileName key kind := fun h => hsame (fileName_inj.mp h)
    dsimp only
    rw [KeyedMap.get?_erase_ne _ hne]
    simp [hsame]

/-- An entry of another key than the removed one. -/
theorem hasEntry_remove {index : CacheIndex} :
    (index.remove key).1.HasEntry other kind len ↔ other ≠ key ∧ index.HasEntry other kind len := by
  unfold CacheIndex.HasEntry
  rw [get?_remove]
  by_cases hkey : other = key <;> simp [hkey]

/-- The entry that was set, or another one. -/
theorem hasEntry_insert {index : CacheIndex} {added : ℕ} : (index.insert key added kind).HasEntry other kind' len ↔
    if other = key then kind' = kind ∧ len = added else index.HasEntry other kind' len := by
  unfold CacheIndex.HasEntry
  rw [get?_insert]
  by_cases hkey : other = key
  · simp [hkey, eq_comm]
  · simp [hkey]

/-- Fewer entries are within the limits. -/
theorem within_remove {index : CacheIndex} (h : ¬Beyond maxBytes index.entries) :
    ¬Beyond maxBytes (index.remove key).1.entries := by
  cases hentry : index.entries.get? key with
  | none => rwa [remove_of_none hentry]
  | some entry =>
    rw [remove_of_some hentry]
    rw [Beyond, not_or] at h ⊢
    have htotal := KeyedMap.total_of_get? hentry fun _ entry => entry.len
    have hsize := index.entries.size_erase_le key
    dsimp only
    omega

/-- Writing a file. -/
theorem Ok.put (h : state.Ok maxBytes) {file : CachedFile} {written : Bool}
    (hstep : state.step maxBytes (.put key kind file written) = some next) : next.Ok maxBytes := by
  rw [step] at hstep
  split at hstep
  · exact Option.some.inj hstep ▸ h
  · obtain rfl := Option.some.inj hstep
    refine ⟨⟨fun other kind' len hfile => ?_, fun other kind' len hentry => ?_⟩, h.wellFormed, h.within⟩
    · rw [hasFile_insert] at hfile
      split at hfile
      · rename_i hsame
        obtain ⟨rfl, rfl⟩ := hsame
        exact .inr (.inl ⟨file.len, List.mem_append_right _ List.mem_cons_self⟩)
      · exact (h.tracked.files other kind' len hfile).imp_right fun htouched => htouched.append _
    · rw [hasFile_insert]
      by_cases hsame : other = key ∧ kind' = kind
      · obtain ⟨rfl, rfl⟩ := hsame
        exact .inr ⟨file.len, List.mem_append_right _ List.mem_cons_self⟩
      · rw [if_neg hsame]
        exact (h.tracked.entries other kind' len hentry).imp_right fun hrecording => hrecording.append _

/-- Entering a file, and evicting. -/
theorem Ok.record (h : state.Ok maxBytes) (hmeets : state.Meets (.record key kind len))
    (hstep : state.step maxBytes (.record key kind len) = some next) : next.Ok maxBytes := by
  rw [step] at hstep
  obtain ⟨-, hstep⟩ := Option.ite_none_right_eq_some.mp hstep
  obtain rfl := Option.some.inj hstep
  obtain ⟨hfile, hother⟩ := hmeets
  have hinserted := h.wellFormed.insert key len kind
  obtain ⟨hevicts, hwell⟩ := hinserted.evict maxBytes
  refine ⟨⟨fun other kind' len' hhas => ?_, fun other kind' len' hentry => ?_⟩, hwell, hevicts.within⟩
  · -- A file's entry stays, is evicted, or was replaced.
    have hkept (hentry : (state.index.insert key len kind).HasEntry other kind' len') :
        ((state.index.insert key len kind).evict maxBytes).1.HasEntry other kind' len' ∨
          Touched (state.pending.erase (.record key kind len) ++
            ((state.index.insert key len kind).evict maxBytes).2.map fun entry =>
              .unlink entry.1 entry.2) other kind' :=
      (hevicts.hasEntry_or_mem hentry).imp_right fun hmem =>
        .inr (List.mem_append_right _ (List.mem_map_of_mem hmem))
    by_cases hsame : other = key ∧ kind' = kind
    · obtain ⟨rfl, rfl⟩ := hsame
      rcases hfile with ⟨file, hget, hlen⟩ | hrecording
      · obtain ⟨file', hget', hlen'⟩ := hhas
        obtain rfl : file = file' := Option.some.inj (hget.symm.trans hget')
        exact hkept (hasEntry_insert.mpr (by rw [if_pos rfl]; exact ⟨rfl, hlen'.symm.trans hlen⟩))
      · exact .inr (.inl (hrecording.append _))
    · have hconsumed (htouched : Touched state.pending other kind') :
          Touched (state.pending.erase (.record key kind len)) other kind' := by
        refine htouched.erase (fun len'' heq => hsame ?_) (by simp)
        obtain ⟨rfl, rfl, -⟩ := CachePending.record.inj heq
        exact ⟨rfl, rfl⟩
      rcases h.tracked.files other kind' len' hhas with hentry | htouched
      · by_cases hkey : other = key
        · subst hkey
          obtain ⟨entry, hget, rfl, -⟩ := hentry
          rcases hother entry hget fun heq => hsame ⟨rfl, heq⟩ with hnone | htouched
          · obtain ⟨file, hget', -⟩ := hhas
            exact absurd (hnone.symm.trans hget') (by simp)
          · exact .inr (htouched.append _)
        · exact hkept (hasEntry_insert.mpr (by rwa [if_neg hkey]))
      · exact .inr ((hconsumed htouched).append _)
  · obtain ⟨entry, hget, rfl, rfl⟩ := hentry
    have hget := (hevicts.of_get? hget).1
    have hentry : (state.index.insert key len kind).HasEntry other entry.kind entry.len := ⟨entry, hget, rfl, rfl⟩
    rw [hasEntry_insert] at hentry
    split at hentry
    · rename_i hkey
      obtain ⟨hkind, hlen⟩ := hentry
      rw [hkey, hkind, hlen]
      exact hfile.imp_right fun hrecording => hrecording.append _
    · rename_i hkey
      refine (h.tracked.entries other _ _ hentry).imp_right fun hrecording => ?_
      refine (hrecording.erase fun len' heq => hkey ?_).append _
      exact (CachePending.record.inj heq).1.symm

/-- Removing a file. -/
theorem Ok.unlink (h : state.Ok maxBytes) {removed : Bool}
    (hmeets : state.Meets (.unlink key kind removed))
    (hstep : state.step maxBytes (.unlink key kind removed) = some next) : next.Ok maxBytes := by
  rw [step] at hstep
  obtain ⟨-, hstep⟩ := Option.ite_none_right_eq_some.mp hstep
  obtain rfl := Option.some.inj hstep
  have hconsumed {other : CacheKey} {kind' : MediaKind} (hne : ¬(other = key ∧ kind' = kind))
      (htouched : Touched state.pending other kind') :
      Touched (state.pending.erase (.unlink key kind)) other kind' := by
    refine htouched.erase (by simp) fun heq => hne ?_
    obtain ⟨rfl, rfl⟩ := CachePending.unlink.inj heq
    exact ⟨rfl, rfl⟩
  have hrecordingKept {other : CacheKey} {kind' : MediaKind} (hrecording : Recording state.pending other kind') :
      Recording (state.pending.erase (.unlink key kind)) other kind' := hrecording.erase (by simp)
  cases removed with
  | true =>
    simp only [if_true]
    refine ⟨⟨fun other kind' len hfile => ?_, fun other kind' len hentry => ?_⟩, h.wellFormed, h.within⟩
    · rw [hasFile_erase] at hfile
      exact (h.tracked.files other kind' len hfile.2).imp_right (hconsumed hfile.1)
    · rw [hasFile_erase]
      by_cases hsame : other = key ∧ kind' = kind
      · obtain ⟨rfl, rfl⟩ := hsame
        obtain ⟨entry, hget, hkind, -⟩ := hentry
        exact .inr (hrecordingKept (hmeets entry hget hkind))
      · exact (h.tracked.entries other kind' len hentry).imp (fun hfile => ⟨hsame, hfile⟩) hrecordingKept
  | false =>
    simp only [Bool.false_eq_true, if_false]
    refine ⟨⟨fun other kind' len hfile => ?_, fun other kind' len hentry => ?_⟩, h.wellFormed, h.within⟩
    · by_cases hsame : other = key ∧ kind' = kind
      · obtain ⟨rfl, rfl⟩ := hsame
        obtain ⟨file, hget, rfl⟩ := hfile
        exact hmeets file hget
      · exact (h.tracked.files other kind' len hfile).imp_right (hconsumed hsame)
    · exact (h.tracked.entries other kind' len hentry).imp_right hrecordingKept

/-- Dropping the entry of a file that could not be read. -/
theorem Ok.drop (h : state.Ok maxBytes) (hmeets : state.Meets (.drop key))
    (hstep : state.step maxBytes (.drop key) = some next) : next.Ok maxBytes := by
  rw [step] at hstep
  obtain ⟨-, hstep⟩ := Option.ite_none_right_eq_some.mp hstep
  obtain rfl := Option.some.inj hstep
  refine ⟨⟨fun other kind len hfile => ?_, fun other kind len hentry => ?_⟩, h.wellFormed.remove key,
    within_remove h.within⟩
  · rcases h.tracked.files other kind len hfile with hentry | htouched
    · by_cases hkey : other = key
      · subst hkey
        obtain ⟨entry, hget, rfl, -⟩ := hentry
        rcases hmeets entry hget with hnone | htouched
        · obtain ⟨file, hget', -⟩ := hfile
          exact absurd (hnone.symm.trans hget') (by simp)
        · exact .inr (htouched.erase (by simp) (by simp))
      · exact .inl (hasEntry_remove.mpr ⟨hkey, hentry⟩)
    · exact .inr (htouched.erase (by simp) (by simp))
  · have hentry := (hasEntry_remove.mp hentry).2
    exact (h.tracked.entries other kind len hentry).imp_right fun hrecording => hrecording.erase (by simp)

/-- Taking an entry, whose file goes next. -/
theorem Ok.remove (h : state.Ok maxBytes) (hstep : state.step maxBytes (.remove key) = some next) :
    next.Ok maxBytes := by
  have hnext : next = { state with
      index := (state.index.remove key).1
      pending := state.pending ++
        ((state.index.remove key).2.map fun entry => .unlink key entry.kind).toList } :=
    (Option.some.inj hstep).symm
  subst hnext
  refine ⟨⟨fun other kind len hfile => ?_, fun other kind len hentry => ?_⟩, h.wellFormed.remove key,
    within_remove h.within⟩
  · rcases h.tracked.files other kind len hfile with hentry | htouched
    · by_cases hkey : other = key
      · subst hkey
        obtain ⟨entry, hget, rfl, -⟩ := hentry
        refine .inr (.inr (List.mem_append_right _ ?_))
        rw [remove_snd, hget]
        exact List.mem_singleton_self _
      · exact .inl (hasEntry_remove.mpr ⟨hkey, hentry⟩)
    · exact .inr (htouched.append _)
  · have hentry := (hasEntry_remove.mp hentry).2
    exact (h.tracked.entries other kind len hentry).imp_right fun hrecording => hrecording.append _

/-- Steps that change no file and no entry. -/
theorem Ok.of_pending (h : state.Ok maxBytes) {pending : List CachePending}
    (hkeeps : ∀ other, (∀ key kind, other ≠ .read key kind) → other ∈ state.pending → other ∈ pending) :
    Ok maxBytes { state with pending } := by
  have hrecording {key : CacheKey} {kind : MediaKind} (hold : Recording state.pending key kind) :
      Recording pending key kind := hold.imp fun _ => hkeeps _ (by simp)
  refine ⟨⟨fun key kind len hfile => ?_, fun key kind len hentry => ?_⟩, h.wellFormed, h.within⟩
  · exact (h.tracked.files key kind len hfile).imp_right fun htouched =>
      htouched.imp hrecording (hkeeps _ (by simp))
  · exact (h.tracked.entries key kind len hentry).imp_right hrecording

/-- What one step preserves. -/
theorem Ok.step (h : state.Ok maxBytes) {action : CacheAction} (hmeets : state.Meets action)
    (hstep : state.step maxBytes action = some next) : next.Ok maxBytes := by
  cases action with
  | put key kind file written => exact h.put hstep
  | record key kind len => exact h.record hmeets hstep
  | unlink key kind removed => exact h.unlink hmeets hstep
  | drop key => exact h.drop hmeets hstep
  | remove key => exact h.remove hstep
  | lookup key =>
    rw [CacheState.step] at hstep
    split at hstep
    · exact Option.some.inj hstep ▸ h
    · obtain rfl := Option.some.inj hstep
      exact h.of_pending fun other _ => List.mem_append_left _
  | read key kind readable =>
    rw [CacheState.step] at hstep
    obtain ⟨-, hstep⟩ := Option.ite_none_right_eq_some.mp hstep
    dsimp only at hstep
    split at hstep
    · obtain rfl := Option.some.inj hstep
      exact h.of_pending fun other hother hmem => (List.mem_erase_of_ne (hother key kind)).mpr hmem
    · obtain rfl := Option.some.inj hstep
      exact h.of_pending fun other hother hmem =>
        List.mem_append_left _ ((List.mem_erase_of_ne (hother key kind)).mpr hmem)

/-! ### Opening -/

/-- A file that the scan keeps. -/
def Acceptable (file : CachedFile) : Prop := file.len ≠ 0 ∧ file.len ≤ maxEntryBytes

/-- A directory that opens to its files: the scan sees every file of the cache, no key has one of
each kind, and what is to go can be removed. -/
structure OpenMeets (files : KeyedMap (List Char) CachedFile) (removes : List Char → Bool) : Prop where
  scanned : ∀ entry ∈ files.entries.drop maxScanEntries, parseName entry.1 = none
  kinds : ∀ key file other, files.get? (fileName key .jpeg) = some file →
    files.get? (fileName key .png) = some other → ¬(Acceptable file ∧ Acceptable other)
  removes : ∀ entry ∈ files.entries, (parseName entry.1).isSome = true → removes entry.1 = true

/-- No file of the cache has a temporary's name. -/
theorem not_temporary (key : CacheKey) (kind : MediaKind) :
    temporaryStart.isPrefixOf (fileName key kind) = false := by
  obtain ⟨bytes, hlength⟩ := key
  rw [← Bool.not_eq_true, List.isPrefixOf_iff_prefix]
  intro hbegin
  cases bytes with
  | nil => cases hlength
  | cons byte rest =>
    have hdigit := List.all_eq_true.mp (all_isLowerHex_lowerHex (byte :: rest)) _ List.mem_cons_self
    exact (toNat_of_isLowerHex hdigit).2 (List.cons_prefix_cons.mp hbegin).1.symm

/-- The scan of a file of the cache. -/
theorem scan_fileName (key : CacheKey) (kind : MediaKind) (file : CachedFile) :
    scan (fileName key kind) file =
      if file.len = 0 ∨ file.len > maxEntryBytes then .removed
      else .found ⟨file.modified, key, file.len, kind⟩ := by
  rw [scan, not_temporary, if_neg Bool.false_ne_true, parseName_eq_some.mpr rfl]

/-- What the scan finds is a file of the cache. -/
theorem scan_eq_found {name : List Char} {file : CachedFile} {found : FoundFile}
    (h : scan name file = .found found) : ∃ key kind, name = fileName key kind ∧ Acceptable file ∧
      found = ⟨file.modified, key, file.len, kind⟩ := by
  unfold scan at h
  split at h
  · cases h
  · split at h
    · cases h
    · rename_i key kind hparse
      split at h
      · cases h
      · rename_i hfits
        rw [not_or, not_lt] at hfits
        exact ⟨key, kind, parseName_eq_some.mp hparse, hfits, (Scanned.found.inj h).symm⟩

theorem file_eq_some {scanned : Scanned} {found : FoundFile} :
    scanned.file = some found ↔ scanned = .found found := by
  cases scanned <;> simp [Scanned.file]

theorem mem_foundFiles {listed : List (List Char × CachedFile)} {found : FoundFile} :
    found ∈ foundFiles listed ↔ ∃ entry ∈ listed, scan entry.1 entry.2 = .found found := by
  rw [foundFiles, List.mem_insertionSort, List.mem_filterMap]
  exact exists_congr fun entry => and_congr_right fun _ => file_eq_some

/-- Where no key has a file of each kind, the scan finds every key once. -/
theorem nodup_foundFiles {files : KeyedMap (List Char) CachedFile} {removes : List Char → Bool}
    (h : OpenMeets files removes) {listed : List (List Char × CachedFile)}
    (hlisted : listed.Sublist files.entries) : ((foundFiles listed).map FoundFile.key).Nodup := by
  have hperm : (foundFiles listed).Perm _ := List.perm_insertionSort _ _
  rw [(hperm.map _).nodup_iff, List.Nodup, List.pairwise_map, List.pairwise_filterMap]
  have hnames : listed.Pairwise fun first second => first.1 ≠ second.1 :=
    List.pairwise_map.mp (files.nodup.sublist (hlisted.map Prod.fst))
  refine hnames.imp_of_mem fun {first second} hfirst hsecond hne found hfound other hother hkey => ?_
  obtain ⟨key, kind, hname, haccepted, rfl⟩ := scan_eq_found (file_eq_some.mp hfound)
  obtain ⟨key', kind', hname', haccepted', rfl⟩ := scan_eq_found (file_eq_some.mp hother)
  dsimp only at hkey
  subst hkey
  have hget : files.get? (fileName key kind) = some first.2 :=
    KeyedMap.get?_eq_some.mpr (hname ▸ hlisted.subset hfirst)
  have hget' : files.get? (fileName key kind') = some second.2 :=
    KeyedMap.get?_eq_some.mpr (hname' ▸ hlisted.subset hsecond)
  cases kind with
  | jpeg =>
    cases kind' with
    | jpeg => exact hne (hname.trans hname'.symm)
    | png => exact h.kinds key _ _ hget hget' ⟨haccepted, haccepted'⟩
  | png =>
    cases kind' with
    | jpeg => exact h.kinds key _ _ hget' hget ⟨haccepted', haccepted⟩
    | png => exact hne (hname.trans hname'.symm)

/-- The entries made from a list of files with distinct keys. -/
theorem hasEntry_foldl {found : List FoundFile} {index : CacheIndex}
    (hnodup : (found.map FoundFile.key).Nodup) :
    (found.foldl (fun (index : CacheIndex) file => index.insert file.key file.len file.kind) index).HasEntry
        key kind len ↔
      (∃ file ∈ found, file.key = key ∧ file.kind = kind ∧ file.len = len) ∨
        key ∉ found.map FoundFile.key ∧ index.HasEntry key kind len := by
  induction found generalizing index with
  | nil => simp
  | cons file found ih =>
    rw [List.map_cons, List.nodup_cons] at hnodup
    rw [List.foldl_cons, ih hnodup.2, hasEntry_insert]
    by_cases hkey : key = file.key
    · subst hkey
      have hnone : ¬∃ other ∈ found, other.key = file.key ∧ other.kind = kind ∧ other.len = len := by
        rintro ⟨other, hmem, hother, -⟩
        exact hnodup.1 (hother ▸ List.mem_map_of_mem hmem)
      rw [if_pos rfl]
      constructor
      · rintro (hfound | ⟨-, hkind, hlen⟩)
        · exact absurd hfound hnone
        · exact .inl ⟨file, List.mem_cons_self, rfl, hkind.symm, hlen.symm⟩
      · rintro (⟨other, hmem, hother⟩ | ⟨hnot, -⟩)
        · rcases List.mem_cons.mp hmem with rfl | hmem
          · exact .inr ⟨hnodup.1, hother.2.1.symm, hother.2.2.symm⟩
          · exact absurd ⟨other, hmem, hother⟩ hnone
        · exact absurd List.mem_cons_self hnot
    · simp only [List.mem_cons, exists_eq_or_imp, hkey, Ne.symm hkey, List.map_cons, if_false,
        false_and, false_or]

theorem wellFormed_scannedIndex (files : KeyedMap (List Char) CachedFile) :
    (scannedIndex files).WellFormed := by
  have hfold (found : List FoundFile) (index : CacheIndex) (h : index.WellFormed) :
      (found.foldl (fun (index : CacheIndex) file =>
        index.insert file.key file.len file.kind) index).WellFormed := by
    induction found generalizing index with
    | nil => exact h
    | cons file found ih => exact ih _ (h.insert _ _ _)
  exact hfold _ _ wellFormed_empty

/-- A directory that opens to its files leaves them and their entries, within the limits. -/
theorem openCache_ok {files : KeyedMap (List Char) CachedFile} {removes : List Char → Bool}
    (h : OpenMeets files removes) : (openCache maxBytes files removes).Ok maxBytes := by
  set listed := files.entries.take maxScanEntries with hlisted
  have hsublist : listed.Sublist files.entries := List.take_sublist _ _
  set index := scannedIndex files with hindex
  have hentries (key : CacheKey) (kind : MediaKind) (len : ℕ) : index.HasEntry key kind len ↔
      ∃ file ∈ foundFiles listed, file.key = key ∧ file.kind = kind ∧ file.len = len := by
    rw [hindex, scannedIndex, ← hlisted, hasEntry_foldl (nodup_foundFiles h hsublist), or_iff_left]
    rintro ⟨-, entry, hentry, -⟩
    cases hentry
  obtain ⟨hevicts, hwell⟩ := (wellFormed_scannedIndex files).evict maxBytes
  rw [← hindex] at hevicts hwell
  have hopen : openCache maxBytes files removes =
    { disk := files.retain fun name _ =>
        !((leftovers listed ++ (index.evict maxBytes).2.map fun entry => fileName entry.1 entry.2).contains
          name && removes name)
      index := (index.evict maxBytes).1
      pending := [] } := rfl
  rw [hopen]
  refine ⟨⟨fun key kind len hfile => .inl ?_, fun key kind len hentry => .inl ?_⟩, hwell, hevicts.within⟩
  · obtain ⟨file, hget, hlen⟩ := hfile
    obtain ⟨hget, hkeep⟩ := KeyedMap.get?_of_retain hget
    have hmem := KeyedMap.get?_eq_some.mp hget
    have hparse : parseName (fileName key kind) = some (key, kind) := parseName_eq_some.mpr rfl
    have hkept : fileName key kind ∉ leftovers listed ++
        (index.evict maxBytes).2.map fun entry => fileName entry.1 entry.2 := by
      intro hgone
      rw [List.contains_iff_mem.mpr hgone, h.removes _ hmem (by rw [hparse]; rfl)] at hkeep
      cases hkeep
    rw [List.mem_append, not_or] at hkept
    have hscanned : (fileName key kind, file) ∈ listed := by
      rw [← List.take_append_drop maxScanEntries files.entries] at hmem
      refine (List.mem_append.mp hmem).resolve_right fun hdrop => ?_
      rw [h.scanned _ hdrop] at hparse
      cases hparse
    have hscan := scan_fileName key kind file
    split at hscan
    · exact absurd (List.mem_map_of_mem (List.mem_filter.mpr ⟨hscanned, by rw [hscan]; rfl⟩)) hkept.1
    · have hentry : index.HasEntry key kind len :=
        (hentries key kind len).mpr ⟨_, mem_foundFiles.mpr ⟨_, hscanned, hscan⟩, rfl, rfl, hlen⟩
      refine (hevicts.hasEntry_or_mem hentry).resolve_right fun hgone => ?_
      exact hkept.2 (List.mem_map_of_mem (f := fun entry : CacheKey × MediaKind =>
        fileName entry.1 entry.2) hgone)
  · obtain ⟨entry, hget, rfl, rfl⟩ := hentry
    obtain ⟨hget, hstays⟩ := hevicts.of_get? hget
    obtain ⟨found, hfound, rfl, hkind, hlen⟩ := (hentries key entry.kind entry.len).mp ⟨entry, hget, rfl, rfl⟩
    obtain ⟨⟨name, file⟩, hscanned, hscan⟩ := mem_foundFiles.mp hfound
    obtain ⟨key, kind, rfl, -, rfl⟩ := scan_eq_found hscan
    dsimp only at hkind hlen hscan ⊢
    rw [← hkind]
    refine ⟨file, ?_, hlen⟩
    have hfile : files.get? (fileName key kind) = some file :=
      KeyedMap.get?_eq_some.mpr (hsublist.subset hscanned)
    rw [KeyedMap.get?_retain, hfile]
    have hkept : fileName key kind ∉ leftovers listed ++
        (index.evict maxBytes).2.map fun entry => fileName entry.1 entry.2 := by
      rw [List.mem_append, not_or]
      constructor
      · intro hleft
        obtain ⟨⟨name, other⟩, hother, hname⟩ := List.mem_map.mp hleft
        obtain ⟨hother, hremoved⟩ := List.mem_filter.mp hother
        dsimp only at hname hremoved
        subst hname
        have hsame := KeyedMap.get?_eq_some.mpr (hsublist.subset hother)
        obtain rfl : file = other := Option.some.inj (hfile.symm.trans hsame)
        rw [hscan] at hremoved
        cases hremoved
      · intro hgone
        obtain ⟨gone, hmem, hname⟩ := List.mem_map.mp hgone
        obtain ⟨hgoneKey, hgoneKind⟩ := fileName_inj.mp hname
        exact hstays gone.2 (hgoneKey ▸ hmem)
    have hcontains : (leftovers listed ++ (index.evict maxBytes).2.map fun entry =>
        fileName entry.1 entry.2).contains (fileName key kind) = false :=
      Bool.eq_false_iff.mpr fun h => hkept (List.contains_iff_mem.mp h)
    simp only [Option.filter, hcontains, Bool.false_and, Bool.not_false, if_true]

/-! ### Runs -/

/-- The bytes of the files of the cache. -/
def cachedBytes (disk : KeyedMap (List Char) CachedFile) : ℕ :=
  disk.total fun name file => if (parseName name).isSome then file.len else 0

/-- The files of the cache are the entries of the index, and do not exceed the limit. -/
structure Accounted (maxBytes : ℕ) (state : CacheState) : Prop where
  files : ∀ key kind len,
    (∃ name file, parseName name = some (key, kind) ∧ state.disk.get? name = some file ∧ file.len = len) ↔
      state.index.HasEntry key kind len
  bytes : cachedBytes state.disk ≤ maxBytes

/-- Where the files are the entries, they take what the entries do. -/
theorem cachedBytes_eq (h : ∀ key kind len, state.HasFile key kind len ↔ state.index.HasEntry key kind len) :
    cachedBytes state.disk = state.index.entries.total fun _ entry => entry.len := by
  have hfilter (entries : List (List Char × CachedFile)) :
      (entries.map fun entry => if (parseName entry.1).isSome then entry.2.len else 0).sum =
        ((entries.filterMap fun entry =>
          (parseName entry.1).map fun name => (name.1, entry.2.len)).map Prod.snd).sum := by
    induction entries with
    | nil => rfl
    | cons entry rest ih =>
      rw [List.map_cons, List.sum_cons, ih, List.filterMap_cons]
      cases parseName entry.1 with
      | none => simp
      | some name => simp
  have hperm : (state.disk.entries.filterMap fun entry =>
      (parseName entry.1).map fun name => (name.1, entry.2.len)).Perm
      (state.index.entries.entries.map fun entry => (entry.1, entry.2.len)) := by
    have hfile {name : List Char} {file : CachedFile} (hmem : (name, file) ∈ state.disk.entries)
        {key : CacheKey} {kind : MediaKind} (hparse : parseName name = some (key, kind)) :
        state.HasFile key kind file.len :=
      ⟨file, parseName_eq_some.mp hparse ▸ KeyedMap.get?_eq_some.mpr hmem, rfl⟩
    rw [List.perm_ext_iff_of_nodup]
    · rintro ⟨key, len⟩
      simp only [List.mem_filterMap, List.mem_map, Option.map_eq_some_iff, Prod.mk.injEq]
      constructor
      · rintro ⟨⟨name, file⟩, hmem, ⟨_, kind⟩, hparse, rfl, rfl⟩
        obtain ⟨entry, hget, -, hlen⟩ := (h _ _ _).mp (hfile hmem hparse)
        exact ⟨(_, entry), KeyedMap.get?_eq_some.mp hget, rfl, hlen⟩
      · rintro ⟨⟨_, entry⟩, hmem, rfl, rfl⟩
        obtain ⟨file, hget, hlen⟩ := (h _ entry.kind _).mpr ⟨entry, KeyedMap.get?_eq_some.mpr hmem, rfl, rfl⟩
        exact ⟨_, KeyedMap.get?_eq_some.mp hget, _, parseName_eq_some.mpr rfl, rfl, hlen⟩
    · -- A key has one file, since it has one entry.
      rw [List.Nodup, List.pairwise_filterMap]
      have hnames : state.disk.entries.Pairwise fun first second => first.1 ≠ second.1 :=
        List.pairwise_map.mp state.disk.nodup
      refine hnames.imp_of_mem fun {first second} hfirst hsecond hne found hfound other hother hsame => ?_
      obtain ⟨⟨key, kind⟩, hparse, rfl⟩ := Option.map_eq_some_iff.mp hfound
      obtain ⟨⟨key', kind'⟩, hparse', rfl⟩ := Option.map_eq_some_iff.mp hother
      obtain ⟨rfl, -⟩ := Prod.mk.inj hsame
      obtain ⟨entry, hget, hkind, -⟩ := (h _ _ _).mp (hfile hfirst hparse)
      obtain ⟨entry', hget', hkind', -⟩ := (h _ _ _).mp (hfile hsecond hparse')
      obtain rfl : entry = entry' := Option.some.inj (hget.symm.trans hget')
      refine hne ?_
      rw [parseName_eq_some.mp hparse, parseName_eq_some.mp hparse', ← hkind, ← hkind']
    · refine List.Nodup.of_map Prod.fst ?_
      rw [List.map_map]
      exact state.index.entries.nodup
  rw [cachedBytes, KeyedMap.total, hfilter, (hperm.map Prod.snd).sum_eq, List.map_map, KeyedMap.total]
  rfl

/-- Where no operation is in flight, the files are the entries. -/
theorem Ok.accounted (h : state.Ok maxBytes) (hidle : state.pending = []) : state.Accounted maxBytes := by
  have hnone {key : CacheKey} {kind : MediaKind} : ¬Touched state.pending key kind := by
    rw [hidle]
    rintro (⟨len, hmem⟩ | hmem) <;> cases hmem
  have hfiles (key : CacheKey) (kind : MediaKind) (len : ℕ) :
      state.HasFile key kind len ↔ state.index.HasEntry key kind len :=
    ⟨fun hfile => (h.tracked.files key kind len hfile).resolve_right hnone, fun hentry =>
      (h.tracked.entries key kind len hentry).resolve_right fun hrecording => hnone (.inl hrecording)⟩
  refine ⟨fun key kind len => ?_, ?_⟩
  · rw [← hfiles]
    constructor
    · rintro ⟨name, file, hparse, hget, hlen⟩
      exact ⟨file, parseName_eq_some.mp hparse ▸ hget, hlen⟩
    · rintro ⟨file, hget, hlen⟩
      exact ⟨_, file, parseName_eq_some.mpr rfl, hget, hlen⟩
  · rw [cachedBytes_eq hfiles]
    exact Nat.le_of_not_lt fun hlt => h.within (.inl hlt)

/-- Every step keeps the index in order. -/
theorem wellFormed_step {action : CacheAction} (hstep : state.step maxBytes action = some next)
    (h : state.index.WellFormed) : next.index.WellFormed := by
  cases action with
  | put key kind file written =>
    rw [step] at hstep
    split at hstep <;> exact Option.some.inj hstep ▸ h
  | record key kind len =>
    rw [step] at hstep
    obtain ⟨-, hstep⟩ := Option.ite_none_right_eq_some.mp hstep
    exact Option.some.inj hstep ▸ ((h.insert key len kind).evict maxBytes).2
  | unlink key kind removed =>
    rw [step] at hstep
    obtain ⟨-, hstep⟩ := Option.ite_none_right_eq_some.mp hstep
    exact Option.some.inj hstep ▸ h
  | lookup key =>
    rw [step] at hstep
    split at hstep <;> exact Option.some.inj hstep ▸ h
  | read key kind readable =>
    rw [step] at hstep
    obtain ⟨-, hstep⟩ := Option.ite_none_right_eq_some.mp hstep
    dsimp only at hstep
    split at hstep <;> exact Option.some.inj hstep ▸ h
  | drop key =>
    rw [step] at hstep
    obtain ⟨-, hstep⟩ := Option.ite_none_right_eq_some.mp hstep
    exact Option.some.inj hstep ▸ h.remove key
  | remove key =>
    have hnext := Option.some.inj hstep
    exact hnext ▸ h.remove key

/-- A key. -/
def sampleKey (byte : UInt8) : CacheKey := ⟨List.replicate 32 byte, List.length_replicate⟩

/-- A file of some length. -/
def sampleFile (len : ℕ) : CachedFile := ⟨List.replicate len 0, none⟩

/-- A directory with one file of the cache. -/
def sampleFiles : KeyedMap (List Char) CachedFile :=
  ⟨[(fileName (sampleKey 1) .jpeg, sampleFile 2)], List.nodup_singleton _⟩

/-- A second thumbnail takes the place of the first. -/
def replacing : List CacheAction :=
  [.put (sampleKey 2) .png (sampleFile 2) true, .record (sampleKey 2) .png 2,
    .unlink (sampleKey 1) .jpeg true]

/-- A thumbnail of each kind under one key: the file of the first has no entry. -/
def bothKinds : List CacheAction :=
  [.put (sampleKey 1) .jpeg (sampleFile 2) true, .record (sampleKey 1) .jpeg 2,
    .put (sampleKey 1) .png (sampleFile 2) true, .record (sampleKey 1) .png 2]

end CacheState

end Crabinet.Thumbnail
