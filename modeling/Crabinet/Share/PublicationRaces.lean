import Crabinet.Share.Publication

/-!
# Publications beside another process

Another process creates, replaces, moves and takes the entries of the share between any two
calls of an operation. An operation validates after its rename and then undoes by name, so
what it removes is what has that name by then: nothing of the other process is lost where
the undo finds at the destination the staged file, or nothing.
-/

namespace Crabinet.Share

open Crabinet.Filesystem Crabinet.Library Program

/-! ### What becomes of an entry -/

/-- Recovery removes nothing here. -/
def Place.Kept : Place → Prop
  | .named _ => True
  | .staged name => isRetained name = true

/-- An entry is at some path of the share, or in private staging under a retained name. -/
def World.Keeps (world : World) (entry : Entry) : Prop :=
  ∃ place, place.Kept ∧ world.entryAt place = some entry

/-- An entry is kept, or it is known who took it. -/
def World.Accounts (world : World) (entry : Entry) : Prop :=
  world.Keeps entry ∨ entry ∈ world.withdrawn ∨ entry ∈ world.unlinked

section Steps

variable {world after : World} {entry : Entry}

/-- A rename onto a free name keeps every entry. -/
theorem keeps_rename {source target : Place} (hkept : source.Kept → target.Kept)
    (hfree : world.entryAt target = none) (h : world.Keeps entry) :
    (world.rename source target).Keeps entry := by
  obtain ⟨place, hplace, hentry⟩ := h
  have htarget : place ≠ target := by
    rintro rfl
    rw [hfree] at hentry
    cases hentry
  by_cases hsource : place = source
  · subst hsource
    exact ⟨target, hkept hplace, by rw [World.rename, World.put_self, hentry]⟩
  · refine ⟨place, hplace, ?_⟩
    rw [World.rename, World.put_of_ne _ _ htarget, World.put_of_ne _ _ hsource, hentry]

/-- A rename over another entry keeps every other one. -/
theorem keeps_renameOver {source target : Place} {old : Entry} (hne : source ≠ target)
    (hkept : source.Kept → target.Kept) (hold : world.entryAt target = some old)
    (h : world.Keeps entry) : (world.rename source target).Keeps entry ∨ entry = old := by
  obtain ⟨place, hplace, hentry⟩ := h
  by_cases htarget : place = target
  · subst htarget
    rw [hold] at hentry
    exact .inr (Option.some.inj hentry).symm
  · refine .inl ?_
    by_cases hsource : place = source
    · subst hsource
      exact ⟨target, hkept hplace, by rw [World.rename, World.put_self, hentry]⟩
    · refine ⟨place, hplace, ?_⟩
      rw [World.rename, World.put_of_ne _ _ htarget, World.put_of_ne _ _ hsource, hentry]

/-- An exchange of two kept names keeps every entry. -/
theorem keeps_exchange {first second : Place} (hfirst : first.Kept) (hsecond : second.Kept)
    (h : world.Keeps entry) : (world.exchange first second).Keeps entry := by
  obtain ⟨place, hplace, hentry⟩ := h
  by_cases hplacefirst : place = first
  · subst hplacefirst
    exact ⟨second, hsecond, by rw [World.exchange, World.put_self, hentry]⟩
  · by_cases hplacesecond : place = second
    · subst hplacesecond
      refine ⟨first, hfirst, ?_⟩
      rw [World.exchange, World.put_of_ne _ _ (Ne.symm hplacefirst), World.put_self, hentry]
    · refine ⟨place, hplace, ?_⟩
      rw [World.exchange, World.put_of_ne _ _ hplacesecond, World.put_of_ne _ _ hplacefirst, hentry]

/-- Putting an entry over another keeps every other one. -/
theorem keeps_put {place : Place} {put : Option Entry} (h : world.Keeps entry) :
    (world.put place put).Keeps entry ∨ world.entryAt place = some entry := by
  obtain ⟨other, hother, hentry⟩ := h
  by_cases heq : other = place
  · exact .inr (heq ▸ hentry)
  · exact .inl ⟨other, hother, (world.put_of_ne put heq).trans hentry⟩

/-- An entry that the other process put back is no longer out. -/
theorem accounts_put {path : VirtualPath} {other : Entry} {withdrawn : List Entry}
    (hcovered : ∀ there, world.entryAt (.named path) = some there → there ∈ withdrawn)
    (hwithdrawn : world.withdrawn ⊆ withdrawn) (h : world.Accounts entry) :
    World.Accounts { world.put (.named path) (some other) with
      withdrawn := withdrawn.filter (· ≠ other) } entry := by
  by_cases heq : entry = other
  · exact .inl ⟨.named path, trivial, heq ▸ world.put_self _ _⟩
  have hout (hmem : entry ∈ withdrawn) : entry ∈ withdrawn.filter (· ≠ other) :=
    List.mem_filter.mpr ⟨hmem, by simpa using heq⟩
  rcases h with hkeeps | hmem | hmem
  · rcases keeps_put hkeeps with hkeeps | hthere
    · exact .inl hkeeps
    · exact .inr (.inl (hout (hcovered entry hthere)))
  · exact .inr (.inl (hout (hwithdrawn hmem)))
  · exact .inr (.inr hmem)

/-- The other process leaves every entry accounted for. -/
theorem Interferes.accounts (h : Interferes world after) (hentry : world.Accounts entry) :
    after.Accounts entry := by
  cases h with
  | create other hfree _ =>
    exact accounts_put (fun there hthere => by simp [hfree] at hthere) (List.Subset.refl _) hentry
  | replace other hold _ =>
    refine accounts_put (fun there hthere => ?_) (List.subset_cons_self _ _) hentry
    rw [hold] at hthere
    exact Option.some.inj hthere ▸ List.mem_cons_self
  | renameAway hfree =>
    exact hentry.imp (keeps_rename (fun _ => trivial) hfree) id
  | renameOver hne _ hold =>
    rcases hentry with hkeeps | hmem | hmem
    · have hplaces : Place.named _ ≠ Place.named _ := fun heq => hne (Place.named.inj heq)
      rcases keeps_renameOver hplaces (fun _ => trivial) hold hkeeps with hkeeps | rfl
      · exact .inl hkeeps
      · exact .inr (.inl List.mem_cons_self)
    · exact .inr (.inl (List.mem_cons_of_mem _ hmem))
    · exact .inr (.inr hmem)
  | takeOut hold =>
    rcases hentry with hkeeps | hmem | hmem
    · rcases keeps_put hkeeps with hkeeps | hthere
      · exact .inl hkeeps
      · rw [hold] at hthere
        exact .inr (.inl (Option.some.inj hthere ▸ List.mem_cons_self))
    · exact .inr (.inl (List.mem_cons_of_mem _ hmem))
    · exact .inr (.inr hmem)

/-- The other process cannot reach private staging. -/
theorem Interferes.staged (h : Interferes world after) (name : String) :
    after.entryAt (.staged name) = world.entryAt (.staged name) := by
  cases h <;> simp [World.rename]

theorem Interferes.unlinked (h : Interferes world after) : after.unlinked = world.unlinked := by
  cases h <;> rfl

/-- What a name holds after a change is what was put there, or was named before. -/
theorem named_put {target path : VirtualPath} {put : Option Entry}
    (h : (world.put (.named target) put).entryAt (.named path) = some entry) :
    put = some entry ∨ ∃ other, world.entryAt (.named other) = some entry := by
  by_cases heq : path = target
  · subst heq
    exact .inl ((world.put_self _ _).symm.trans h)
  · exact .inr ⟨path, (world.put_of_ne put (by simpa using heq)).symm.trans h⟩

/-- A rename within the share names nothing new. -/
theorem named_rename {source target path : VirtualPath}
    (h : (world.rename (.named source) (.named target)).entryAt (.named path) = some entry) :
    ∃ other, world.entryAt (.named other) = some entry := by
  rcases named_put h with hsource | ⟨other, hother⟩
  · exact ⟨source, hsource⟩
  · exact (named_put hother).resolve_left nofun

/-- What the other process names was named before, or is not in staging. -/
theorem Interferes.named (h : Interferes world after) {path : VirtualPath}
    (hentry : after.entryAt (.named path) = some entry) :
    (∃ other, world.entryAt (.named other) = some entry) ∨
      ∀ name, world.entryAt (.staged name) ≠ some entry := by
  cases h with
  | create other _ hprivate | replace other _ hprivate =>
    rcases named_put hentry with heq | hother
    · exact .inr (Option.some.inj heq ▸ hprivate)
    · exact .inl hother
  | takeOut _ => exact .inl ((named_put hentry).resolve_left nofun)
  | renameAway _ | renameOver _ _ _ => exact .inl (named_rename hentry)

end Steps

/-! ### What a call may do -/

/-- The service removes only what it may, and every entry stays accounted for. -/
def Conserves (removable : Entry → Prop) (before after : World) : Prop :=
  (∀ entry ∈ after.unlinked, entry ∈ before.unlinked ∨ removable entry) ∧
    ∀ entry, before.Accounts entry → after.Accounts entry

/-- The calls of a run that meet a condition, each in its state. -/
def RaceEffect (meets : World → Call → Prop) (world : World) (call : Call) (answer : call.Answer)
    (after : World) : Prop :=
  meets world call ∧ Effect Observes world call answer after

section Calls

variable {meets : World → Call → Prop} {removable : Entry → Prop} {world : World} {α : Type}

theorem Conserves.refl (world : World) : Conserves removable world world :=
  ⟨fun _ => .inl, fun _ => id⟩

theorem conserves_rename {source target : Place} (hkept : source.Kept → target.Kept)
    (hfree : world.entryAt target = none) :
    Conserves removable world (world.rename source target) :=
  ⟨fun _ => .inl, fun _ hentry => hentry.imp (keeps_rename hkept hfree) id⟩

theorem conserves_exchange {first second : Place} (hfirst : first.Kept) (hsecond : second.Kept) :
    Conserves removable world (world.exchange first second) :=
  ⟨fun _ => .inl, fun _ hentry => hentry.imp (keeps_exchange hfirst hsecond) id⟩

theorem conserves_unlink {place : Place} {entry : Entry} (hentry : world.entryAt place = some entry)
    (hremovable : removable entry) : Conserves removable world (world.unlink place entry) := by
  refine ⟨fun other hother => ?_, fun other hother => ?_⟩
  · rcases List.mem_cons.mp hother with rfl | hother
    · exact .inr hremovable
    · exact .inl hother
  · rcases hother with hkeeps | hmem | hmem
    · rcases keeps_put hkeeps with hkeeps | hthere
      · exact .inl hkeeps
      · rw [hentry] at hthere
        exact .inr (.inr (Option.some.inj hthere ▸ List.mem_cons_self))
    · exact .inr (.inl hmem)
    · exact .inr (.inr (List.mem_cons_of_mem _ hmem))

/-- The obligation of a script beside another process. -/
abbrev RaceSafe (meets : World → Call → Prop) (removable : Entry → Prop) (post : α → World → Prop)
    (script : Script α) (world : World) : Prop :=
  Safe (RaceEffect meets) Interferes (Conserves removable) post script world

/-- The obligation of steps beside another process. -/
abbrev RaceSafeOr {ε : Type} (meets : World → Call → Prop) (removable : Entry → Prop)
    (post : α → World → Prop) (fail : ε → World → Prop) (steps : Steps ε α) (world : World) : Prop :=
  SafeOr (RaceEffect meets) Interferes (Conserves removable) post fail steps world

theorem stable_true : Stable Interferes fun _ => True := fun _ _ _ => id

/-- What staging holds under a name is stable. -/
theorem stable_staged (name : String) (assertion : Option Entry → Prop) :
    Stable Interferes fun world => assertion (world.entryAt (.staged name)) := by
  intro before after hstep h
  rwa [hstep.staged name]

theorem race_read {call : Call} {pre : World → Prop} (hreads : call.Reads)
    (hstable : Stable Interferes pre) (hpre : pre world) :
    RaceSafe meets removable (fun _ last => pre last) (perform call) world :=
  safe_of_reads hreads (fun _ _ _ hstep => hstep.2) hstable (fun current _ => .refl current) hpre

/-- A check that finds a match has seen an entry with the metadata. -/
theorem Observes.of_isMatch {there : Option Entry} {answer : FsResult EntryMetadata}
    {expected : EntryMetadata} (h : Observes there answer) (hmatch : isMatch answer expected = true) :
    ∃ entry, there = some entry ∧ entry.metadata = .ok expected := by
  rcases h with ⟨code, rfl⟩ | ⟨entry, hentry, rfl⟩
  · cases hmatch
  · refine ⟨entry, hentry, ?_⟩
    cases hmetadata : entry.metadata with
    | error code =>
      rw [hmetadata] at hmatch
      cases hmatch
    | ok current =>
      rw [hmetadata] at hmatch
      rw [(EntryMetadata.matchesValidator_iff current expected).mp hmatch]

/-- Reading the metadata under a staging name. -/
theorem race_metadata {name : String} (assertion : Option Entry → Prop)
    (h : assertion (world.entryAt (.staged name))) :
    RaceSafe meets removable (fun answer last => assertion (last.entryAt (.staged name)) ∧
      ∀ expected, isMatch answer expected = true → ∃ entry,
        last.entryAt (.staged name) = some entry ∧ entry.metadata = .ok expected)
      (metadataInParent (.staged name)) world := by
  refine Safe.perform (stable_staged name assertion) (fun answer => ?_) h
    fun before answer after hbefore hstep => ?_
  · exact stable_staged name fun there => assertion there ∧
      ∀ expected, isMatch answer expected = true → ∃ entry, there = some entry ∧
        entry.metadata = .ok expected
  · obtain ⟨-, rfl, hsees⟩ := hstep
    exact ⟨.refl after, hbefore, fun expected => hsees.of_isMatch⟩

/-- A rename onto a free name, of what recovery keeps to a name it keeps. -/
theorem race_rename {source target : Place} {pre : World → Prop} {post : FsResult Unit → World → Prop}
    (hkept : source.Kept → target.Kept) (hstable : Stable Interferes pre)
    (hstable' : ∀ answer, Stable Interferes (post answer)) (hpre : pre world)
    (herror : ∀ code current, pre current → post (.error code) current)
    (hok : ∀ current, pre current → post (.ok ()) (current.rename source target)) :
    RaceSafe meets removable post (renameNoReplace source target) world := by
  refine Safe.perform hstable hstable' hpre fun before answer after hbefore hstep => ?_
  obtain ⟨-, hstep⟩ := hstep
  cases answer with
  | error code =>
    obtain rfl : after = before := hstep
    exact ⟨.refl after, herror code after hbefore⟩
  | ok done =>
    obtain ⟨-, hfree, rfl⟩ := hstep
    exact ⟨conserves_rename hkept hfree, hok before hbefore⟩

/-- A removal of a file that may be removed. -/
theorem race_removeFile {place : Place} {pre post : World → Prop} (hstable : Stable Interferes pre)
    (hstable' : Stable Interferes post) (hpre : pre world)
    (hremovable : ∀ current entry, meets current (.removeFile place) → pre current →
      current.entryAt place = some entry → removable entry)
    (hok : ∀ current entry, pre current → post (current.unlink place entry)) :
    RaceSafe meets removable (fun answer last => match answer with
      | .ok _ => post last
      | .error _ => pre last) (removeFile place) world := by
  refine Safe.perform hstable (fun answer => by cases answer <;> assumption) hpre
    fun before answer after hbefore hstep => ?_
  obtain ⟨hmeets, hstep⟩ := hstep
  cases answer with
  | error code =>
    obtain rfl : after = before := hstep
    exact ⟨.refl after, hbefore⟩
  | ok done =>
    obtain ⟨type, stat, hentry, rfl⟩ := hstep
    exact ⟨conserves_unlink hentry (hremovable before _ hmeets hbefore hentry), hok before _ hbefore⟩

end Calls

/-! ### Publications of a staged file -/

namespace PendingWrite

/-- The staged file is under its name, and only there. -/
def Holds (file : Entry) (name : String) (world : World) : Prop :=
  world.entryAt (.staged name) = some file ∧ ∀ path, world.entryAt (.named path) ≠ some file

/-- A staging name holds the staged file, or nothing. -/
def HoldsAtMost (file : Entry) (name : String) (world : World) : Prop :=
  world.entryAt (.staged name) = none ∨ world.entryAt (.staged name) = some file

/-- Nothing is lost when the staged file is dropped. -/
def Droppable (file : Entry) (self : PendingWrite) (world : World) : Prop :=
  self.published = true ∨ HoldsAtMost file self.temporaryName world

variable {meets : World → Call → Prop} {removable : Entry → Prop} {world : World} {α : Type}
  {self : PendingWrite} {file : Entry} {name : String}

theorem stable_holds : Stable Interferes (Holds file name) := by
  intro before after hstep ⟨hstaged, honly⟩
  refine ⟨(hstep.staged name).trans hstaged, fun path hpath => ?_⟩
  rcases hstep.named hpath with ⟨other, hother⟩ | hprivate
  · exact honly other hother
  · exact hprivate name hstaged

theorem stable_holdsAtMost : Stable Interferes (HoldsAtMost file name) :=
  stable_staged name fun there => there = none ∨ there = some file

theorem stable_droppable : Stable Interferes (Droppable file self) := fun before after hstep h =>
  h.imp id (stable_holdsAtMost before after hstep)

/-- A step that fails drops the staged file. -/
theorem race_attempt {call : Script (FsResult α)} {post : α → World → Prop} {pre : World → Prop}
    (hpre : ∀ current, pre current → Droppable file self current)
    (h : RaceSafe meets removable (fun answer last => match answer with
      | .ok value => post value last
      | .error _ => pre last) call world) :
    RaceSafeOr meets removable post (fun failure last => Droppable file failure.2 last)
      (self.attempt call) world :=
  safe_attempt (h.weaken fun answer last hlast => by
    cases answer with
    | ok value => exact hlast
    | error code => exact hpre last hlast)

/-- Reading while the staged file is under its name. -/
theorem race_attempt_read {call : Script (FsResult α)}
    (h : RaceSafe meets removable (fun _ last => Holds file self.temporaryName last) call world) :
    RaceSafeOr meets removable (fun _ last => Holds file self.temporaryName last)
      (fun failure last => Droppable file failure.2 last) (self.attempt call) world :=
  have hdroppable (current : World) (hcurrent : Holds file self.temporaryName current) :
      Droppable file self current := .inr (.inr hcurrent.1)
  race_attempt hdroppable (h.weaken fun answer last hlast => by cases answer <;> exact hlast)

theorem race_drop (hfile : removable file) (h : Droppable file self world) :
    RaceSafe meets removable (fun _ _ => True) self.drop world := by
  rw [drop]
  split
  next hpublished =>
    have hatMost : HoldsAtMost file self.temporaryName world := by
      rcases h with h | h
      · simp [h] at hpublished
      · exact h
    refine Safe.bind (race_removeFile stable_holdsAtMost stable_true hatMost
      (fun current entry _ hcurrent hentry => ?_) fun _ _ _ => trivial) fun _ _ _ =>
        Safe.done stable_true trivial
    rcases hcurrent with hnone | hsome
    · rw [hnone] at hentry
      cases hentry
    · rw [hsome] at hentry
      exact Option.some.inj hentry ▸ hfile
  next => exact Safe.done stable_true trivial

theorem race_dropping (hfile : removable file) {steps : Steps Failure (α × PendingWrite)}
    (h : RaceSafeOr meets removable (fun result last => Droppable file result.2 last)
      (fun failure last => Droppable file failure.2 last) steps world) :
    RaceSafe meets removable (fun _ _ => True) (dropping steps) world := by
  refine Safe.bind h fun result middle hmiddle => ?_
  have hmiddle := hmiddle middle .refl
  cases result with
  | ok result =>
    exact Safe.bind (race_drop hfile hmiddle) fun _ _ _ => Safe.done stable_true trivial
  | error failure =>
    exact Safe.bind (race_drop hfile hmiddle) fun _ _ _ => Safe.done stable_true trivial

/-- What the undo by name finds at the destination: the staged file, or nothing. An exchange
that brings back what it displaced is such an undo. -/
def Undisturbed (file : Entry) (world : World) : Call → Prop
  | .removeFile (.named path) =>
    world.entryAt (.named path) = none ∨ world.entryAt (.named path) = some file
  | .renameExchange (.staged name) (.named path) => world.entryAt (.staged name) = some file ∨
      world.entryAt (.named path) = none ∨ world.entryAt (.named path) = some file
  | _ => True

theorem race_publishNewSteps (hfile : removable self.file)
    (h : Holds self.file self.temporaryName world) :
    RaceSafeOr (Undisturbed self.file) removable
      (fun result last => Droppable self.file result.2 last)
      (fun failure last => Droppable self.file failure.2 last) self.publishNewSteps world := by
  refine SafeOr.bind (race_attempt_read (race_read (by trivial) stable_holds h))
    fun _ middle hmiddle => ?_
  refine SafeOr.bind (race_attempt_read (race_read (by trivial) stable_holds hmiddle))
    fun expected middle hmiddle => ?_
  refine SafeOr.bind (race_attempt_read (race_read (by trivial) stable_holds hmiddle))
    fun _ middle hmiddle => ?_
  have hrename : RaceSafeOr (Undisturbed self.file) removable
      (fun _ last => HoldsAtMost self.file self.temporaryName last)
      (fun failure last => Droppable self.file failure.2 last)
      (self.attempt (renameNoReplace (.staged self.temporaryName) (.named self.destination)))
      middle := by
    refine race_attempt (fun _ h => .inr h) (race_rename (fun _ => trivial) stable_holds
      (fun answer => by cases answer <;> exact stable_holdsAtMost) hmiddle
      (fun _ _ hcurrent => .inr hcurrent.1) fun current _ => .inl ?_)
    rw [World.rename, World.put_named_staged, World.put_self]
  refine SafeOr.bind hrename fun _ middle hmiddle => ?_
  refine SafeOr.bind (SafeOr.lift (race_read (by trivial) stable_holdsAtMost hmiddle))
    fun current middle hmiddle => ?_
  split
  · have hremove : RaceSafe (Undisturbed self.file) removable
        (fun _ last => HoldsAtMost self.file self.temporaryName last)
        (removeFile (.named self.destination)) middle := by
      refine Safe.weaken (race_removeFile stable_holdsAtMost stable_holdsAtMost hmiddle
        (fun current entry hmeets _ hentry => ?_) fun current entry hcurrent => ?_)
        fun answer last hlast => by cases answer <;> exact hlast
      · rcases hmeets with hnone | hsome
        · rw [hnone] at hentry
          cases hentry
        · rw [hsome] at hentry
          exact Option.some.inj hentry ▸ hfile
      · simpa [HoldsAtMost] using hcurrent
    refine SafeOr.bind (SafeOr.lift hremove) fun _ middle hmiddle => ?_
    exact SafeOr.throw stable_droppable (.inr hmiddle)
  · refine SafeOr.bind (SafeOr.lift (race_read trivial stable_true trivial)) fun _ middle _ => ?_
    refine SafeOr.bind (SafeOr.lift (race_read trivial stable_true trivial)) fun _ middle _ => ?_
    exact SafeOr.pure stable_droppable (.inl rfl)

/-- The exchange displaced another entry than the staged file. -/
def Displaced (file : Entry) (name : String) (world : World) : Prop :=
  world.entryAt (.staged name) ≠ some file

theorem stable_displaced : Stable Interferes (Displaced file name) :=
  stable_staged name fun there => there ≠ some file

theorem race_renameExchange (hretained : isRetained self.temporaryName = true)
    (h : Holds self.file self.temporaryName world) :
    RaceSafeOr (Undisturbed self.file) removable
      (fun _ last => Displaced self.file self.temporaryName last)
      (fun failure last => Droppable self.file failure.2 last)
      (self.attempt (renameExchange (.staged self.temporaryName) (.named self.destination)))
      world := by
  refine race_attempt (fun _ (hcurrent : Holds self.file self.temporaryName _) => .inr (.inr hcurrent.1))
    (Safe.perform stable_holds (fun answer => ?_) h fun before answer after hbefore hstep => ?_)
  · cases answer
    · exact stable_holds
    · exact stable_displaced
  obtain ⟨-, hstep⟩ := hstep
  cases answer with
  | error code =>
    obtain rfl : after = before := hstep
    exact ⟨.refl after, hbefore⟩
  | ok done =>
    obtain ⟨-, -, rfl⟩ := hstep
    refine ⟨conserves_exchange hretained trivial, fun hstaged => ?_⟩
    rw [World.exchange, World.put_named_staged, World.put_self] at hstaged
    exact hbefore.2 self.destination hstaged

/-- The undo of an exchange brings the staged file back. -/
theorem race_abandon {code : FsErrorCode} (hretained : isRetained self.temporaryName = true)
    (h : Displaced self.file self.temporaryName world) :
    RaceSafeOr (Undisturbed self.file) removable
      (fun result last => Droppable self.file result.2 last)
      (fun failure last => Droppable self.file failure.2 last) (self.abandon code) world := by
  have hrollback : RaceSafe (Undisturbed self.file) removable (fun answer last => match answer with
      | .ok _ => HoldsAtMost self.file self.temporaryName last
      | .error _ => True) self.rollbackExchange world := by
    refine Safe.perform stable_displaced (fun answer => ?_) h fun before answer after hbefore hstep => ?_
    · cases answer
      · exact stable_true
      · exact stable_holdsAtMost
    obtain ⟨hmeets, hstep⟩ := hstep
    cases answer with
    | error code =>
      obtain rfl : after = before := hstep
      exact ⟨.refl after, trivial⟩
    | ok done =>
      obtain ⟨-, hnamed, rfl⟩ := hstep
      refine ⟨conserves_exchange hretained trivial, .inr ?_⟩
      rw [World.exchange, World.put_named_staged, World.put_self]
      exact (hmeets.resolve_left hbefore).resolve_left hnamed
  refine SafeOr.bind (SafeOr.lift hrollback) fun answer middle hmiddle => ?_
  cases answer with
  | error other => exact SafeOr.throw stable_droppable (.inl rfl)
  | ok done => exact SafeOr.throw stable_droppable (.inr hmiddle)

/-- An exchange is found valid only where the displaced entry is the expected one. -/
theorem race_validExchange {replacement expected : EntryMetadata}
    (h : Displaced self.file self.temporaryName world) :
    RaceSafe meets removable (fun valid last => Displaced self.file self.temporaryName last ∧
      (valid = true → ∃ entry, last.entryAt (.staged self.temporaryName) = some entry ∧
        entry.metadata = .ok expected)) (self.validExchange replacement expected) world := by
  have hstable (valid : Bool) : Stable Interferes fun last =>
      Displaced self.file self.temporaryName last ∧ (valid = true → ∃ entry,
        last.entryAt (.staged self.temporaryName) = some entry ∧ entry.metadata = .ok expected) :=
    stable_staged self.temporaryName fun there => there ≠ some self.file ∧
      (valid = true → ∃ entry, there = some entry ∧ entry.metadata = .ok expected)
  refine Safe.bind (race_read (by trivial) stable_displaced h) fun answer middle hmiddle => ?_
  have hmiddle := hmiddle middle .refl
  split
  · refine Safe.bind (race_metadata (· ≠ some self.file) hmiddle) fun other last hlast => ?_
    have hlast := hlast last .refl
    exact Safe.done (hstable _) ⟨hlast.1, hlast.2 expected⟩
  · exact Safe.done (hstable false) ⟨hmiddle, nofun⟩

theorem race_exchangeSteps {replacement expected : EntryMetadata}
    (hretained : isRetained self.temporaryName = true)
    (hexpected : ∀ entry : Entry, entry.metadata = .ok expected → removable entry)
    (h : Holds self.file self.temporaryName world) :
    RaceSafeOr (Undisturbed self.file) removable
      (fun result last => Droppable self.file result.2 last)
      (fun failure last => Droppable self.file failure.2 last)
      (self.exchangeSteps replacement expected) world := by
  refine SafeOr.bind (race_renameExchange hretained h) fun _ middle hmiddle => ?_
  refine SafeOr.bind (SafeOr.lift (race_validExchange hmiddle)) fun valid middle hmiddle => ?_
  cases valid with
  | false => exact race_abandon hretained hmiddle.1
  | true =>
    have hremove : RaceSafe (Undisturbed self.file) removable (fun answer last => match answer with
        | .ok _ => True
        | .error _ => Displaced self.file self.temporaryName last)
        (removeFile (.staged self.temporaryName)) middle := by
      refine Safe.weaken (race_removeFile (stable_staged self.temporaryName fun there =>
        there ≠ some self.file ∧ ∃ entry, there = some entry ∧ entry.metadata = .ok expected)
        stable_true ⟨hmiddle.1, hmiddle.2 rfl⟩ (fun current entry _ hcurrent hentry => ?_)
        fun _ _ _ => trivial) fun answer last hlast => ?_
      · obtain ⟨-, other, hother, hmetadata⟩ := hcurrent
        rw [hother] at hentry
        exact hexpected entry (Option.some.inj hentry ▸ hmetadata)
      · cases answer with
        | ok done => trivial
        | error code => exact hlast.1
    refine SafeOr.bind (SafeOr.lift hremove) fun answer middle hmiddle => ?_
    cases answer with
    | error code => exact race_abandon hretained hmiddle
    | ok done =>
      refine SafeOr.bind (SafeOr.lift (race_read trivial stable_true trivial)) fun _ middle _ => ?_
      refine SafeOr.bind (SafeOr.lift (race_read trivial stable_true trivial)) fun _ middle _ => ?_
      exact SafeOr.pure stable_droppable (.inl rfl)

theorem race_publishReplacementSteps {expected : EntryMetadata}
    (hexpected : ∀ entry : Entry, entry.metadata = .ok expected → removable entry)
    (h : Holds self.file self.temporaryName world) :
    RaceSafeOr (Undisturbed self.file) removable
      (fun result last => Droppable self.file result.2 last)
      (fun failure last => Droppable self.file failure.2 last)
      (self.publishReplacementSteps expected) world := by
  refine SafeOr.bind (race_attempt_read (race_read (by trivial) stable_holds h))
    fun _ middle hmiddle => ?_
  refine SafeOr.bind (race_attempt_read (race_read (by trivial) stable_holds hmiddle))
    fun replacement middle hmiddle => ?_
  refine SafeOr.bind (race_attempt_read (race_read (by trivial) stable_holds hmiddle))
    fun _ middle hmiddle => ?_
  refine SafeOr.bind (race_attempt_read (race_read (by trivial) stable_holds hmiddle))
    fun current middle hmiddle => ?_
  split
  · exact SafeOr.throw stable_droppable (.inr (.inr hmiddle.1))
  have hrandom : RaceSafeOr (Undisturbed self.file) removable
      (fun name last => Holds self.file self.temporaryName last ∧ isRetained name = true)
      (fun failure last => Droppable self.file failure.2 last)
      (self.attempt (randomInternalName internalReplacePrefix)) middle := by
    refine race_attempt (fun _ (hcurrent : Holds self.file self.temporaryName _) =>
      .inr (.inr hcurrent.1)) (Safe.perform stable_holds (fun answer => ?_) hmiddle
        fun before answer after hbefore hstep => ?_)
    · cases answer with
      | error code => exact stable_holds
      | ok name => exact fun before after hstep h => ⟨stable_holds before after hstep h.1, h.2⟩
    · obtain ⟨-, rfl, hname⟩ := hstep
      refine ⟨.refl after, ?_⟩
      cases answer with
      | error code => exact hbefore
      | ok name =>
        obtain ⟨suffix, rfl⟩ := hname name rfl
        exact ⟨hbefore, isRetained_replace suffix⟩
  refine SafeOr.bind hrandom fun name middle hmiddle => ?_
  obtain ⟨hmiddle, hretained⟩ := hmiddle
  have hrename : RaceSafeOr (Undisturbed self.file) removable
      (fun _ last => Holds self.file name last)
      (fun failure last => Droppable self.file failure.2 last)
      (self.attempt (renameNoReplace (.staged self.temporaryName) (.staged name))) middle := by
    refine race_attempt (fun _ (hcurrent : Holds self.file self.temporaryName _) =>
      .inr (.inr hcurrent.1)) (race_rename (fun _ => hretained) stable_holds
        (fun answer => by cases answer <;> exact stable_holds) hmiddle
        (fun _ _ hcurrent => hcurrent) fun current hcurrent => ⟨?_, fun path => ?_⟩)
    · rw [World.rename, World.put_self]
      exact hcurrent.1
    · rw [World.rename, World.put_staged_named, World.put_staged_named]
      exact hcurrent.2 path
  refine SafeOr.bind hrename fun _ last hlast => ?_
  exact race_exchangeSteps hretained hexpected hlast

end PendingWrite

/-! ### Moves and deletes -/

section Entries

variable {meets : World → Call → Prop} {removable : Entry → Prop} {world : World} {α : Type}

/-- A step that may fail, of which only the obligation matters. -/
theorem race_ask {call : Script (FsResult α)} (h : RaceSafe meets removable (fun _ _ => True) call world) :
    RaceSafeOr meets removable (fun _ _ => True) (fun _ _ => True) (ask call) world :=
  safe_attempt (h.weaken fun answer _ _ => by cases answer <;> trivial)

theorem race_requireWrite {readWrite : Bool} :
    RaceSafeOr meets removable (fun _ _ => True) (fun _ _ => True) (requireWrite readWrite) world := by
  cases readWrite with
  | true => exact SafeOr.pure stable_true trivial
  | false => exact SafeOr.throw stable_true trivial

/-- A rename of which only the obligation matters. -/
theorem race_rename_any {source target : Place} (hkept : source.Kept → target.Kept) :
    RaceSafe meets removable (fun _ _ => True) (renameNoReplace source target) world :=
  race_rename hkept stable_true (fun _ => stable_true) trivial (fun _ _ _ => trivial) fun _ _ => trivial

/-- A call that changes nothing, of which only the obligation matters. -/
theorem race_read_any {call : Call} (hreads : call.Reads) :
    RaceSafe meets removable (fun _ _ => True) (perform call) world :=
  race_read hreads stable_true trivial

theorem race_moveEntry {readWrite : Bool} {source destination : VirtualPath}
    {expected : EntryMetadata} :
    RaceSafeOr meets removable (fun _ _ => True) (fun _ _ => True)
      (moveEntry readWrite source destination expected) world := by
  refine SafeOr.bind race_requireWrite fun _ world _ => ?_
  split
  · exact SafeOr.throw stable_true trivial
  refine SafeOr.bind (race_ask (race_read_any (by trivial))) fun current world _ => ?_
  split
  · exact SafeOr.throw stable_true trivial
  split
  · exact SafeOr.throw stable_true trivial
  have hsubtree : RaceSafeOr meets removable (fun _ _ => True) (fun _ _ => True)
      (if current.kind = .directory ∧ destination.depth > source.depth then
        ask (probe .ensureSubtreeWithin) else return () : Steps FsErrorCode Unit) world := by
    split
    · exact race_ask (race_read_any trivial)
    · exact SafeOr.pure stable_true trivial
  refine SafeOr.bind hsubtree fun _ world _ => ?_
  refine SafeOr.bind (race_ask (race_read_any (by trivial))) fun _ world _ => ?_
  refine SafeOr.bind (race_ask (race_read_any (by trivial))) fun _ world _ => ?_
  refine SafeOr.bind (race_ask (race_rename_any fun _ => trivial)) fun _ world _ => ?_
  refine SafeOr.bind (SafeOr.lift (race_read_any (by trivial))) fun validation world _ => ?_
  split
  · refine SafeOr.bind (SafeOr.lift (race_read_any trivial)) fun _ world _ => ?_
    refine SafeOr.bind (SafeOr.lift (race_read_any trivial)) fun _ world _ => ?_
    exact SafeOr.pure stable_true trivial
  · refine SafeOr.bind (SafeOr.lift (race_rename_any fun _ => trivial)) fun answer world _ => ?_
    cases answer with
    | error code => exact SafeOr.throw stable_true trivial
    | ok done => cases validation <;> exact SafeOr.throw stable_true trivial

theorem race_undoDelete {path : VirtualPath} {name : String} {code : FsErrorCode} :
    RaceSafeOr meets removable (fun _ _ => True) (fun _ _ => True) (undoDelete path name code)
      world := by
  refine SafeOr.bind (SafeOr.lift (race_rename_any fun _ => trivial)) fun answer world _ => ?_
  cases answer <;> exact SafeOr.throw stable_true trivial

/-- The removal of a staged entry that was validated, of either kind. -/
theorem race_removal {name : String} {kind : EntryKind} {expected : EntryMetadata}
    (hexpected : ∀ entry : Entry, entry.metadata = .ok expected → removable entry)
    (h : ∃ entry, world.entryAt (.staged name) = some entry ∧ entry.metadata = .ok expected) :
    RaceSafe meets removable (fun _ _ => True) (match kind with
      | .file => removeFile (.staged name)
      | .directory => removeDir (.staged name)) world := by
  have hstable := stable_staged name fun there => ∃ entry, there = some entry ∧
    entry.metadata = .ok expected
  have hremovable {current : World} {entry : Entry}
      (hcurrent : ∃ entry, current.entryAt (.staged name) = some entry ∧ entry.metadata = .ok expected)
      (hentry : current.entryAt (.staged name) = some entry) : removable entry := by
    obtain ⟨other, hother, hmetadata⟩ := hcurrent
    rw [hother] at hentry
    exact hexpected entry (Option.some.inj hentry ▸ hmetadata)
  cases kind with
  | file =>
    exact Safe.weaken (race_removeFile hstable stable_true h
      (fun current entry _ hcurrent hentry => hremovable hcurrent hentry) fun _ _ _ => trivial)
      fun _ _ _ => trivial
  | directory =>
    refine Safe.perform hstable (fun _ => stable_true) h fun before answer after hbefore hstep => ?_
    obtain ⟨-, hstep⟩ := hstep
    cases answer with
    | error code =>
      obtain rfl : after = before := hstep
      exact ⟨.refl after, trivial⟩
    | ok done =>
      obtain ⟨stat, hentry, rfl⟩ := hstep
      exact ⟨conserves_unlink hentry (hremovable hbefore hentry), trivial⟩

theorem race_deleteEntry {readWrite : Bool} {path : VirtualPath} {expected : EntryMetadata}
    (hexpected : ∀ entry : Entry, entry.metadata = .ok expected → removable entry) :
    RaceSafeOr meets removable (fun _ _ => True) (fun _ _ => True)
      (deleteEntry readWrite path expected) world := by
  refine SafeOr.bind race_requireWrite fun _ world _ => ?_
  refine SafeOr.bind (race_ask (race_read_any (by trivial))) fun current world _ => ?_
  split
  · exact SafeOr.throw stable_true trivial
  refine SafeOr.bind (race_ask (race_read_any (by trivial))) fun _ world _ => ?_
  refine SafeOr.bind (race_ask (race_read_any (by trivial))) fun _ world _ => ?_
  have hrandom : RaceSafeOr meets removable (fun name _ => isRetained name = true) (fun _ _ => True)
      (ask (randomInternalName internalDeletePrefix)) world := by
    refine safe_attempt (Safe.perform stable_true (fun answer => ?_) trivial
      fun before answer after _ hstep => ?_)
    · cases answer <;> exact fun _ _ _ => id
    · obtain ⟨-, rfl, hname⟩ := hstep
      refine ⟨.refl after, ?_⟩
      cases answer with
      | error code => trivial
      | ok name =>
        obtain ⟨suffix, rfl⟩ := hname name rfl
        exact isRetained_delete suffix
  refine SafeOr.bind hrandom fun name world hretained => ?_
  refine SafeOr.bind (race_ask (race_rename_any fun _ => hretained)) fun _ world _ => ?_
  refine SafeOr.bind (SafeOr.lift (race_metadata (fun _ => True) trivial)) fun staged world hstaged => ?_
  split
  · exact race_undoDelete
  next hmatch =>
    have hmatch : isMatch staged expected = true := by simpa using hmatch
    refine SafeOr.bind (SafeOr.lift (race_removal hexpected (hstaged.2 expected hmatch)))
      fun answer world _ => ?_
    cases answer with
    | error code => exact race_undoDelete
    | ok done =>
      refine SafeOr.bind (SafeOr.lift (race_read_any trivial)) fun _ world _ => ?_
      refine SafeOr.bind (SafeOr.lift (race_read_any trivial)) fun _ world _ => ?_
      exact SafeOr.pure stable_true trivial

end Entries

/-! ### The four operations -/

/-- An operation that changes which entry has a name. -/
inductive Publication where
  | publishNew (self : PendingWrite)
  | publishReplacement (self : PendingWrite) (expected : EntryMetadata)
  | moveEntry (readWrite : Bool) (source destination : VirtualPath) (expected : EntryMetadata)
  | deleteEntry (readWrite : Bool) (path : VirtualPath) (expected : EntryMetadata)

namespace Publication

/-- Its calls, the drop of the staged file included. -/
def script : Publication → Script (FsResult Unit)
  | publishNew self => self.publishNew
  | publishReplacement self expected => do return (← self.publishReplacement expected).map fun _ => ()
  | moveEntry readWrite source destination expected =>
    (Share.moveEntry readWrite source destination expected).run
  | deleteEntry readWrite path expected => (Share.deleteEntry readWrite path expected).run

/-- The staged file is under its private name, and nowhere else. -/
def Ready (entryAt : Place → Option Entry) : Publication → Prop
  | publishNew self | publishReplacement self _ =>
    entryAt (.staged self.temporaryName) = some self.file ∧ ∀ path, entryAt (.named path) ≠ some self.file
  | moveEntry .. | deleteEntry .. => True

/-- What the operation means to remove: the staged file, the version whose validator the
request named, or the entry whose deletion was validated. -/
def Removes : Publication → Entry → Prop
  | publishNew self, entry => entry = self.file
  | publishReplacement self expected, entry => entry = self.file ∨ entry.metadata = .ok expected
  | moveEntry .., _ => False
  | deleteEntry _ _ expected, entry => entry.metadata = .ok expected

/-- Where the operation undoes a publication by name, no other process has put an entry there. -/
def Undisturbed : Publication → World → Call → Prop
  | publishNew self | publishReplacement self _ => PendingWrite.Undisturbed self.file
  | moveEntry .. | deleteEntry .. => fun _ _ => True

theorem safe (publication : Publication) {entryAt : Place → Option Entry}
    (hready : publication.Ready entryAt) :
    RaceSafe publication.Undisturbed publication.Removes (fun _ _ => True) publication.script
      (.start entryAt) := by
  cases publication with
  | publishNew self =>
    have hholds : PendingWrite.Holds self.file self.temporaryName (.start entryAt) := hready
    have hfile : (publishNew self).Removes self.file := rfl
    exact PendingWrite.race_dropping hfile (PendingWrite.race_publishNewSteps hfile hholds)
  | publishReplacement self expected =>
    have hholds : PendingWrite.Holds self.file self.temporaryName (.start entryAt) := hready
    exact Safe.bind (PendingWrite.race_dropping (.inl rfl)
      (PendingWrite.race_publishReplacementSteps (fun _ => .inr) hholds)) fun _ _ _ =>
        Safe.done stable_true trivial
  | moveEntry readWrite source destination expected =>
    exact Safe.weaken race_moveEntry fun _ _ _ => trivial
  | deleteEntry readWrite path expected =>
    exact Safe.weaken (race_deleteEntry fun _ => id) fun _ _ _ => trivial

/-- Beside a process that never puts an entry where an undo by name is about to reach, an
operation removes only what it means to remove, and every other entry that was at a path of
the share at any time is kept, unless the other process itself displaced or took it. -/
theorem destroys_nothing_else (publication : Publication) (entryAt : Place → Option Entry)
    (rest rest' : Script (FsResult Unit)) (middle last : World) (hready : publication.Ready entryAt)
    (hbefore : Runs (RaceEffect publication.Undisturbed) Interferes publication.script
      (.start entryAt) rest middle)
    (hafter : Runs (RaceEffect publication.Undisturbed) Interferes rest middle rest' last) :
    (∀ entry ∈ last.unlinked, publication.Removes entry) ∧
      ∀ path entry, middle.entryAt (.named path) = some entry → ¬publication.Removes entry →
        last.Keeps entry ∨ entry ∈ last.withdrawn := by
  have hsafe := publication.safe hready
  have hmeant : Stable Interferes fun world => ∀ entry ∈ world.unlinked, publication.Removes entry :=
    fun before after hstep h entry hentry => h entry (hstep.unlinked ▸ hentry)
  have hunlinked : ∀ entry ∈ last.unlinked, publication.Removes entry :=
    (hbefore.trans hafter).invariant hsafe hmeant
      (fun before after hstep h entry hentry => (hstep.1 entry hentry).elim (h entry) id)
      fun _ hentry => absurd hentry List.not_mem_nil
  refine ⟨hunlinked, fun path entry hentry hremoves => ?_⟩
  have hstable : Stable Interferes fun world => world.Accounts entry :=
    fun _ _ hstep h => hstep.accounts h
  have haccounts : last.Accounts entry :=
    hafter.invariant (hbefore.safe hsafe) hstable (fun _ _ hstep h => hstep.2 entry h)
      (.inl ⟨.named path, trivial, hentry⟩)
  rcases haccounts with hkeeps | hwithdrawn | hmem
  · exact .inl hkeeps
  · exact .inr hwithdrawn
  · exact absurd (hunlinked entry hmem) hremoves

/-- A call that the file system carries out, in a state that meets the condition. -/
theorem runs_handle {meets : World → Call → Prop} {world last : World} {call : Call}
    {next : call.Answer → Script (FsResult Unit)} {rest : Script (FsResult Unit)}
    (hmeets : meets world call)
    (later : Runs (RaceEffect meets) Interferes (next (world.handle call).1) (world.handle call).2
      rest last) : Runs (RaceEffect meets) Interferes (.call call next) world rest last :=
  .operate ⟨hmeets, world.effect_handle call⟩ later

/-- A staged file, open for a write to a path that is free. -/
def freshWrite : PendingWrite :=
  ⟨".index-tmp-00112233445566778899aabbccddeeff", ⟨[⟨"draft"⟩]⟩, .leaf .file ⟨2, none, 8, 1⟩, false⟩

/-- The share and its staging before the file is published. -/
def freshEntries : Place → Option Entry
  | .named _ => none
  | .staged name => if name = freshWrite.temporaryName then some freshWrite.file else none

/-- A file of the other process. -/
def foreignFile : Entry := .leaf .file ⟨5, none, 9, 1⟩

/-- The world once the staged file has its path. -/
def publishedWorld : World :=
  (World.start freshEntries).rename (.staged freshWrite.temporaryName) (.named freshWrite.destination)

/-- The other process then puts its own file there. -/
def replacedWorld : World :=
  { publishedWorld.put (.named freshWrite.destination) (some foreignFile) with
    withdrawn := [freshWrite.file].filter (· ≠ foreignFile) }

theorem interferes_replacedWorld : Interferes publishedWorld replacedWorld := by
  refine .replace foreignFile rfl fun name hname => ?_
  rw [publishedWorld, World.rename, World.put_named_staged] at hname
  simp only [World.put, Function.update_apply, World.start, freshEntries] at hname
  split_ifs at hname with hmoved hstaged
  exact hmoved (congrArg Place.staged hstaged)

theorem freshWrite_ready : (publishNew freshWrite).Ready freshEntries := ⟨rfl, fun _ => nofun⟩

/-- A run up to the rename, after which the other process replaces the published file. -/
theorem destroys_nothing_else_of_freshWrite :
    foreignFile ∉ replacedWorld.unlinked := by
  have hruns : Runs (RaceEffect (publishNew freshWrite).Undisturbed) Interferes
      (publishNew freshWrite).script (.start freshEntries) _ replacedWorld :=
    runs_handle trivial (runs_handle trivial (runs_handle trivial (runs_handle trivial
      (.interfere interferes_replacedWorld .stop))))
  intro hmem
  have hremoves : foreignFile = freshWrite.file :=
    (destroys_nothing_else (publishNew freshWrite) freshEntries _ _ _ _ freshWrite_ready hruns
      .stop).1 foreignFile hmem
  exact absurd hremoves (by decide)

/-- When the other process replaces a file right after its publication, the check that finds
the other file there is followed by the removal of that file. -/
theorem foreign_file_destroyed :
    ¬∀ (publication : Publication) (entryAt : Place → Option Entry)
      (rest rest' : Script (FsResult Unit)) (middle last : World), publication.Ready entryAt →
      Runs (RaceEffect fun _ _ => True) Interferes publication.script (.start entryAt) rest middle →
      Runs (RaceEffect fun _ _ => True) Interferes rest middle rest' last →
      (∀ entry ∈ last.unlinked, publication.Removes entry) ∧
        ∀ path entry, middle.entryAt (.named path) = some entry → ¬publication.Removes entry →
          last.Keeps entry ∨ entry ∈ last.withdrawn := by
  intro h
  have heffect (world : World) (call : Call) : RaceEffect (fun _ _ => True) world call
      (world.handle call).1 (world.handle call).2 := ⟨trivial, world.effect_handle call⟩
  let published := exec World.handle 4 (publishNew freshWrite).script (.start freshEntries)
  let undone := exec World.handle 2 published.1 replacedWorld
  have hbefore : Runs (RaceEffect fun _ _ => True) Interferes (publishNew freshWrite).script
      (.start freshEntries) published.1 replacedWorld :=
    (runs_exec heffect 4 _ _).trans (.interfere interferes_replacedWorld .stop)
  have hremoves : foreignFile = freshWrite.file :=
    (h (publishNew freshWrite) freshEntries _ _ _ _ freshWrite_ready hbefore
      (runs_exec heffect 2 published.1 replacedWorld)).1 foreignFile List.mem_cons_self
  exact absurd hremoves (by decide)

end Publication

end Crabinet.Share
