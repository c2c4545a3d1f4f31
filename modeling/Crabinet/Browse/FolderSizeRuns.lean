import Crabinet.Browse.FolderSizes
import Crabinet.Library.Transition
import Mathlib.Tactic.Ring

/-!
# Runs of the folder size service

Requests, mutations and watch events interleave one lock at a time. A request that misses
reads the generation, walks without the lock, and stores its result later. The log records
what happened, newest first, so freshness is a statement about the order of its events.
-/

namespace Crabinet.Browse

open Crabinet.Filesystem Crabinet.Library

/-- What happened, as seen from outside the cache. -/
inductive Event (α : Type) where
  /-- A walk of the folder began. -/
  | began (walk : ℕ) (key : FolderKey)
  /-- A walk ended with a size, which was offered to the cache. -/
  | finished (walk : ℕ) (key : FolderKey) (size : α) (time : ℕ)
  | invalidated (share : ShareId) (path : VirtualPath)
  /-- A `get` returned a size. -/
  | served (key : FolderKey) (size : α) (time : ℕ)
deriving DecidableEq

/-- One `folder_size` request after its miss: the generation it read, and whether its walk has
begun. -/
structure Walk where
  key : FolderKey
  started : ℕ
  hasBegun : Bool

/-- The cache, the clock, the requests under way and the log. -/
structure Service (α : Type) where
  cache : FolderSizeCache α
  now : ℕ
  walks : ℕ → Option Walk
  log : List (Event α)

/-- One step of one party. -/
inductive Action (α : Type) where
  /-- `get`, by a request or a listing. -/
  | get (key : FolderKey)
  /-- `generation`, after a miss. -/
  | readGeneration (walk : ℕ) (key : FolderKey)
  | beginWalk (walk : ℕ)
  /-- The walk succeeded and `insert` runs. -/
  | finishWalk (walk : ℕ) (size : α)
  /-- The walk failed or the request was cancelled. -/
  | dropWalk (walk : ℕ)
  | invalidate (share : ShareId) (path : VirtualPath)
  /-- A mutation of the raw share identifier ended. -/
  | mutated (rawShareId : String) (succeeded : Bool)
  /-- One watch event was read. -/
  | changed (share : ShareId) (path : VirtualPath) (name : Option EntryName)
  | pass (time : ℕ)
  /-- The map's iteration order changed. -/
  | reorder (entries : KeyedMap FolderKey (Cached α))

namespace Service

variable {α : Type}

/-- The service before its first request. -/
def start (ttl capacity : ℕ) : Service α :=
  { cache := .new ttl capacity, now := 0, walks := fun _ => none, log := [] }

/-- The events of a mutation's `audited`. -/
def mutationEvents (rawShareId : String) (succeeded : Bool) : List (Event α) :=
  match succeeded, ShareId.new rawShareId with
  | true, .ok share => [.invalidated share .root]
  | _, _ => []

/-- Set or clear one request. -/
def setWalk (service : Service α) (walk : ℕ) (value : Option Walk) : Service α :=
  { service with walks := Function.update service.walks walk value }

/-- One step; `none` when the action is not possible. -/
def step [DecidableEq α] (service : Service α) : Action α → Option (Service α)
  | .get key =>
    let (found, cache) := service.cache.getAt key service.now
    let events := found.toList.map fun size => .served key size service.now
    some { service with cache, log := events ++ service.log }
  | .readGeneration walk key =>
    if (service.walks walk).isNone then
      some (service.setWalk walk (some ⟨key, service.cache.generation, false⟩))
    else none
  | .beginWalk walk =>
    match service.walks walk with
    | some ⟨key, started, false⟩ =>
      some { service.setWalk walk (some ⟨key, started, true⟩) with
        log := .began walk key :: service.log }
    | _ => none
  | .finishWalk walk size =>
    match service.walks walk with
    | some ⟨key, started, true⟩ =>
      some { service.setWalk walk none with
        cache := service.cache.insertAt key size started service.now
        log := .finished walk key size service.now :: service.log }
    | _ => none
  | .dropWalk walk => some (service.setWalk walk none)
  | .invalidate share path =>
    some { service with
      cache := service.cache.invalidate share path
      log := .invalidated share path :: service.log }
  | .mutated rawShareId succeeded =>
    some { service with
      cache := service.cache.audited rawShareId succeeded
      log := mutationEvents rawShareId succeeded ++ service.log }
  | .changed share path name =>
    some { service with
      cache := service.cache.watched share path [name]
      log := .invalidated share (FolderSizeCache.changedPath path name) :: service.log }
  | .pass time => some { service with now := service.now + time }
  | .reorder entries =>
    if entries.entries.Perm service.cache.entries.entries then
      some { service with cache := { service.cache with entries } }
    else none

end Service

/-- Whether an event is an invalidation. -/
def Event.isInvalidation {α : Type} : Event α → Bool
  | .invalidated _ _ => true
  | _ => false

/-- The number of invalidations in a log. -/
def invalidations {α : Type} (log : List (Event α)) : ℕ := log.countP Event.isInvalidation

/-- The events hold no invalidation that touches the key. -/
def Untouched {α : Type} (events : List (Event α)) (key : FolderKey) : Prop :=
  ∀ share path, .invalidated share path ∈ events → ¬Touches share path key

/-- A size comes from a walk of the key that began and ended after every invalidation that touches
the key. -/
def Backed {α : Type} (log : List (Event α)) (key : FolderKey) (cached : Cached α) : Prop :=
  ∃ walk between earlier, log = between ++ .began walk key :: earlier ∧
    .finished walk key cached.size cached.stored ∈ between ∧ Untouched between key

section Log

variable {α : Type} {log : List (Event α)} {key : FolderKey} {cached : Cached α}

theorem invalidations_append (events log : List (Event α)) :
    invalidations (events ++ log) = invalidations events + invalidations log :=
  List.countP_append

theorem untouched_append {first second : List (Event α)} :
    Untouched (first ++ second) key ↔ Untouched first key ∧ Untouched second key := by
  simp only [Untouched, List.mem_append]
  constructor
  · intro h
    exact ⟨fun share path hmem => h share path (.inl hmem),
      fun share path hmem => h share path (.inr hmem)⟩
  · rintro ⟨hfirst, hsecond⟩ share path (hmem | hmem)
    · exact hfirst share path hmem
    · exact hsecond share path hmem

/-- Without invalidations nothing is touched. -/
theorem untouched_of_invalidations {events : List (Event α)} (h : invalidations events = 0) : Untouched events key := by
  intro share path hmem
  have := List.countP_eq_zero.mp h _ hmem
  simp [Event.isInvalidation] at this

/-- Later events that do not touch the key leave its size backed. -/
theorem Backed.later (h : Backed log key cached) (events : List (Event α))
    (huntouched : Untouched events key) :
    Backed (events ++ log) key cached := by
  obtain ⟨walk, between, earlier, rfl, hfinished, hbetween⟩ := h
  exact ⟨walk, events ++ between, earlier, by simp, List.mem_append_right _ hfinished,
    untouched_append.mpr ⟨huntouched, hbetween⟩⟩

end Log

namespace Service

variable {α : Type}

/-- A request's walk, once begun, began after the generation was read. -/
def Tracks (log : List (Event α)) (walk : ℕ) (request : Walk) : Prop :=
  ∃ seen ≤ invalidations log, request.started = seen % 2 ^ 64 ∧
    (request.hasBegun = true → ∃ between earlier,
      log = between ++ .began walk request.key :: earlier ∧ seen ≤ invalidations earlier)

/-- Every size served so far was backed when it was served, and within its lifetime. -/
def ServedFresh (ttl : ℕ) (log : List (Event α)) : Prop :=
  ∀ after key size now before, log = after ++ .served key size now :: before →
    ∃ stored, Backed before key ⟨size, stored⟩ ∧ now - stored < ttl

/-- What every reachable state satisfies. -/
structure Invariant (ttl capacity : ℕ) (service : Service α) : Prop where
  ttl_eq : service.cache.ttl = ttl
  capacity_eq : service.cache.capacity = max capacity 1
  within : service.cache.WithinCapacity
  generation_eq : service.cache.generation = invalidations service.log % 2 ^ 64
  backed : ∀ key cached, service.cache.entries.get? key = some cached →
    Backed service.log key cached
  tracks : ∀ walk request, service.walks walk = some request → Tracks service.log walk request
  served : ServedFresh ttl service.log

theorem Tracks.later {log : List (Event α)} {walk : ℕ} {request : Walk}
    (h : Tracks log walk request) (events : List (Event α)) :
    Tracks (events ++ log) walk request := by
  obtain ⟨seen, hseen, hstarted, hbegun⟩ := h
  refine ⟨seen, ?_, hstarted, fun h => ?_⟩
  · rw [invalidations_append]
    omega
  · obtain ⟨between, earlier, rfl, hle⟩ := hbegun h
    exact ⟨events ++ between, earlier, by simp, hle⟩

/-- An event other than a `get` result leaves the served sizes fresh. -/
theorem ServedFresh.cons {ttl : ℕ} {log : List (Event α)} (h : ServedFresh ttl log)
    {event : Event α} (hevent : ∀ key size now, event = .served key size now →
      ∃ stored, Backed log key ⟨size, stored⟩ ∧ now - stored < ttl) :
    ServedFresh ttl (event :: log) := by
  intro after key size now before heq
  cases after with
  | nil =>
    obtain ⟨rfl, rfl⟩ := List.cons.inj heq
    exact hevent key size now rfl
  | cons head tail =>
    obtain ⟨-, hlog⟩ := List.cons.inj heq
    exact h tail key size now before hlog

theorem start_invariant (ttl capacity : ℕ) : (start ttl capacity : Service α).Invariant ttl capacity where
  ttl_eq := rfl
  capacity_eq := rfl
  within := ⟨Nat.zero_le _, by simp [start, FolderSizeCache.new]⟩
  generation_eq := rfl
  backed := by simp [start, FolderSizeCache.new]
  tracks := by simp [start]
  served := by simp [start, ServedFresh]

section Steps

variable {ttl capacity : ℕ} {service : Service α}

/-- A `get` returns a backed size within its lifetime, or drops an entry. -/
theorem Invariant.get (h : service.Invariant ttl capacity) (key : FolderKey) :
    ({ service with
      cache := (service.cache.getAt key service.now).2
      log := (service.cache.getAt key service.now).1.toList.map
        (fun size => .served key size service.now) ++ service.log } : Service α).Invariant
      ttl capacity := by
  have hkeeps : (service.cache.getAt key service.now).2.ttl = service.cache.ttl ∧
      (service.cache.getAt key service.now).2.capacity = service.cache.capacity ∧
      (service.cache.getAt key service.now).2.generation = service.cache.generation := by
    unfold FolderSizeCache.getAt
    split
    · simp
    · split <;> simp
  obtain ⟨httl, hcapacity, hgeneration⟩ := hkeeps
  set events : List (Event α) := (service.cache.getAt key service.now).1.toList.map
    (fun size => .served key size service.now) with hevents
  have hnone : invalidations events = 0 := by
    rw [hevents]
    cases (service.cache.getAt key service.now).1 <;> rfl
  refine ⟨httl.trans h.ttl_eq, hcapacity.trans h.capacity_eq,
    ⟨hcapacity.symm ▸ (FolderSizeCache.getAt_size_le _).trans h.within.size_le,
      hcapacity.symm ▸ h.within.capacity_pos⟩, ?_, ?_, ?_, ?_⟩
  · rw [invalidations_append, hnone, Nat.zero_add]
    exact hgeneration.trans h.generation_eq
  · intro other cached hcached
    exact (h.backed other cached (FolderSizeCache.getAt_entries_get? hcached)).later events
      (untouched_of_invalidations hnone)
  · exact fun walk request hwalk => (h.tracks walk request hwalk).later events
  · rw [hevents]
    cases hfound : (service.cache.getAt key service.now).1 with
    | none => exact h.served
    | some size =>
      refine h.served.cons fun key' size' now' heq => ?_
      obtain ⟨rfl, rfl, rfl⟩ := Event.served.inj heq
      obtain ⟨cached, hcached, rfl, hlife⟩ := FolderSizeCache.getAt_eq_some hfound
      exact ⟨cached.stored, h.backed key cached hcached, h.ttl_eq ▸ hlife⟩

/-- An invalidation forgets the sizes it touches, so the remaining ones stay backed. -/
theorem Invariant.invalidate (h : service.Invariant ttl capacity) (share : ShareId)
    (path : VirtualPath) :
    ({ service with
      cache := service.cache.invalidate share path
      log := .invalidated share path :: service.log } : Service α).Invariant ttl capacity := by
  refine ⟨h.ttl_eq, h.capacity_eq,
    ⟨(service.cache.entries.size_retain_le _).trans h.within.size_le, h.within.capacity_pos⟩,
    ?_, ?_, ?_, h.served.cons (by simp)⟩
  · have hcount : invalidations (.invalidated share path :: service.log) =
        invalidations service.log + 1 := List.countP_cons_of_pos rfl
    rw [hcount, FolderSizeCache.invalidate, h.generation_eq]
    simp only [Nat.mod_add_mod]
  · intro key cached hcached
    rw [FolderSizeCache.invalidate_get?] at hcached
    split at hcached
    · cases hcached
    · rename_i hnot
      refine (h.backed key cached hcached).later [.invalidated share path] ?_
      intro share' path' hmem
      obtain ⟨rfl, rfl⟩ := Event.invalidated.inj (List.mem_singleton.mp hmem)
      exact hnot
  · exact fun walk request hwalk => (h.tracks walk request hwalk).later [.invalidated share path]

/-- Setting one request keeps the invariant when the request is tracked. -/
theorem Invariant.setWalk (h : service.Invariant ttl capacity) {walk : ℕ} {value : Option Walk}
    (hvalue : ∀ request, value = some request → Tracks service.log walk request) :
    (service.setWalk walk value).Invariant ttl capacity := by
  refine ⟨h.ttl_eq, h.capacity_eq, h.within, h.generation_eq, h.backed, ?_, h.served⟩
  intro other request hrequest
  simp only [Service.setWalk, Function.update_apply] at hrequest
  split at hrequest
  · rename_i heq
    exact heq ▸ hvalue request hrequest
  · exact h.tracks other request hrequest

/-- An event that is neither an invalidation nor a `get` result may be logged at any time. -/
theorem Invariant.logged (h : service.Invariant ttl capacity) (event : Event α)
    (hquiet : event.isInvalidation = false) (hserved : ∀ key size now, event ≠ .served key size now) :
    ({ service with log := event :: service.log } : Service α).Invariant ttl capacity := by
  have hnone : invalidations [event] = 0 := by simp [invalidations, hquiet]
  refine ⟨h.ttl_eq, h.capacity_eq, h.within, ?_, ?_, ?_,
    h.served.cons fun key size now heq => absurd heq (hserved key size now)⟩
  · have hcount : invalidations (event :: service.log) = invalidations service.log :=
      List.countP_cons_of_neg (by simp [hquiet])
    rw [hcount]
    exact h.generation_eq
  · exact fun key cached hcached => (h.backed key cached hcached).later [event]
      (untouched_of_invalidations hnone)
  · exact fun walk request hwalk => (h.tracks walk request hwalk).later [event]

/-- Storing a walk's size keeps the invariant: an unchanged generation means that no invalidation
happened since the walk began. -/
theorem Invariant.store (h : service.Invariant ttl capacity) {walk : ℕ} {request : Walk} {size : α}
    (htracks : Tracks service.log walk request) (hbegun : request.hasBegun = true)
    (hfew : invalidations service.log < 2 ^ 64) {log : List (Event α)}
    (hlog : log = .finished walk request.key size service.now :: service.log) :
    ({ service with
      cache := service.cache.insertAt request.key size request.started service.now
      log } : Service α).Invariant ttl capacity := by
  subst hlog
  have hlogged := h.logged (.finished walk request.key size service.now) rfl (by simp)
  obtain ⟨seen, hseen, hstarted, hbegun'⟩ := htracks
  obtain ⟨between, earlier, hsplit, hearlier⟩ := hbegun' hbegun
  unfold FolderSizeCache.insertAt
  split
  · exact hlogged
  · rename_i hgeneration
    have hcurrent : invalidations service.log % 2 ^ 64 = seen % 2 ^ 64 := by
      rw [← h.generation_eq, ← hstarted]
      exact not_not.mp hgeneration
    rw [Nat.mod_eq_of_lt hfew, Nat.mod_eq_of_lt (hseen.trans_lt hfew)] at hcurrent
    have hquiet : invalidations between = 0 := by
      have hcount := invalidations_append between (.began walk request.key :: earlier)
      rw [← hsplit] at hcount
      have hbegan : invalidations (.began walk request.key :: earlier) = invalidations earlier :=
        List.countP_cons_of_neg (by simp [Event.isInvalidation])
      omega
    refine ⟨hlogged.ttl_eq, hlogged.capacity_eq,
      ⟨FolderSizeCache.makeRoom_size h.within service.now, h.within.capacity_pos⟩,
      hlogged.generation_eq, ?_, hlogged.tracks, hlogged.served⟩
    intro key cached hcached
    by_cases hkey : key = request.key
    · subst hkey
      rw [KeyedMap.get?_insert_self] at hcached
      obtain rfl := Option.some.inj hcached
      refine ⟨walk, .finished walk request.key size service.now :: between, earlier, ?_, by simp, ?_⟩
      · rw [hsplit, List.cons_append]
      · exact untouched_of_invalidations (by
          rw [← hquiet]
          exact List.countP_cons_of_neg (by simp [Event.isInvalidation]))
    · rw [KeyedMap.get?_insert_ne _ hkey] at hcached
      exact hlogged.backed key cached (FolderSizeCache.makeRoom_get? hcached)

/-- A step only adds to the log. -/
theorem step_log [DecidableEq α] {action : Action α} {next : Service α}
    (hstep : service.step action = some next) : ∃ events, next.log = events ++ service.log := by
  cases action with
  | readGeneration walk key =>
    simp only [Service.step, Option.ite_none_right_eq_some, Option.some.injEq] at hstep
    obtain ⟨-, rfl⟩ := hstep
    exact ⟨[], rfl⟩
  | reorder entries =>
    simp only [Service.step, Option.ite_none_right_eq_some, Option.some.injEq] at hstep
    obtain ⟨-, rfl⟩ := hstep
    exact ⟨[], rfl⟩
  | beginWalk walk =>
    simp only [Service.step] at hstep
    split at hstep
    · rename_i key started hwalk
      obtain rfl := Option.some.inj hstep
      exact ⟨[.began walk key], rfl⟩
    · cases hstep
  | finishWalk walk size =>
    simp only [Service.step] at hstep
    split at hstep
    · rename_i key started hwalk
      obtain rfl := Option.some.inj hstep
      exact ⟨[.finished walk key size service.now], rfl⟩
    · cases hstep
  | dropWalk walk | pass time =>
    obtain rfl := Option.some.inj hstep
    exact ⟨[], rfl⟩
  | invalidate share path =>
    obtain rfl := Option.some.inj hstep
    exact ⟨[.invalidated share path], rfl⟩
  | changed share path name =>
    obtain rfl := Option.some.inj hstep
    exact ⟨[.invalidated share (FolderSizeCache.changedPath path name)], rfl⟩
  | get key | mutated rawShareId succeeded =>
    obtain rfl := Option.some.inj hstep
    exact ⟨_, rfl⟩

/-- Every step keeps the invariant, while there are fewer than `2 ^ 64` invalidations. -/
theorem Invariant.step [DecidableEq α] (h : service.Invariant ttl capacity) {action : Action α}
    {next : Service α} (hstep : service.step action = some next)
    (hfew : invalidations service.log < 2 ^ 64) : next.Invariant ttl capacity := by
  cases action with
  | get key =>
    obtain rfl := Option.some.inj hstep
    exact h.get key
  | readGeneration walk key =>
    simp only [Service.step, Option.ite_none_right_eq_some, Option.some.injEq] at hstep
    obtain ⟨-, rfl⟩ := hstep
    refine h.setWalk fun request hrequest => ?_
    obtain rfl := Option.some.inj hrequest
    exact ⟨invalidations service.log, le_rfl, h.generation_eq, by simp⟩
  | beginWalk walk =>
    simp only [Service.step] at hstep
    split at hstep
    · rename_i key started hwalk
      obtain rfl := Option.some.inj hstep
      refine (h.logged (.began walk key) rfl (by simp)).setWalk fun request hrequest => ?_
      obtain rfl := Option.some.inj hrequest
      obtain ⟨seen, hseen, hstarted, -⟩ := h.tracks walk _ hwalk
      refine ⟨seen, ?_, hstarted, fun _ => ⟨[], service.log, rfl, hseen⟩⟩
      exact hseen.trans (List.countP_cons_of_neg (by simp [Event.isInvalidation])).ge
    · cases hstep
  | finishWalk walk size =>
    simp only [Service.step] at hstep
    split at hstep
    · rename_i key started hwalk
      obtain rfl := Option.some.inj hstep
      exact (h.store (h.tracks walk _ hwalk) rfl hfew rfl).setWalk (by simp)
    · cases hstep
  | dropWalk walk =>
    obtain rfl := Option.some.inj hstep
    exact h.setWalk (by simp)
  | invalidate share path =>
    obtain rfl := Option.some.inj hstep
    exact h.invalidate share path
  | mutated rawShareId succeeded =>
    obtain rfl := Option.some.inj hstep
    cases succeeded with
    | false => exact h
    | true =>
      simp only [FolderSizeCache.audited, if_true, mutationEvents]
      cases ShareId.new rawShareId with
      | error code => exact h
      | ok share => exact h.invalidate share .root
  | changed share path name =>
    obtain rfl := Option.some.inj hstep
    exact h.invalidate share (FolderSizeCache.changedPath path name)
  | pass time =>
    obtain rfl := Option.some.inj hstep
    exact ⟨h.ttl_eq, h.capacity_eq, h.within, h.generation_eq, h.backed, h.tracks, h.served⟩
  | reorder entries =>
    simp only [Service.step, Option.ite_none_right_eq_some, Option.some.injEq] at hstep
    obtain ⟨hperm, rfl⟩ := hstep
    refine ⟨h.ttl_eq, h.capacity_eq, ⟨hperm.length_eq.trans_le h.within.size_le,
      h.within.capacity_pos⟩, h.generation_eq, fun key cached hcached => ?_, h.tracks, h.served⟩
    rw [KeyedMap.get?_perm hperm] at hcached
    exact h.backed key cached hcached

end Steps

/-- The invariant holds in every state a run reaches with fewer than `2 ^ 64` invalidations. -/
theorem invariant_of_run [DecidableEq α] {ttl capacity : ℕ} {actions : List (Action α)}
    {state : Service α} (hrun : run step (start ttl capacity) actions = some state)
    (hfew : invalidations state.log < 2 ^ 64) : state.Invariant ttl capacity := by
  refine @run_invariant _ _ step (fun state => invalidations state.log < 2 ^ 64 →
    state.Invariant ttl capacity) ?_ _ _ _ hrun (fun _ => start_invariant ttl capacity) hfew
  intro service action next hstep hinv hnext
  obtain ⟨events, hlog⟩ := step_log hstep
  rw [hlog, invalidations_append] at hnext
  have hbefore : invalidations service.log < 2 ^ 64 := by omega
  exact (hinv hbefore).step hstep hbefore

/-- A served size comes from a walk that began after every earlier invalidation touching its
folder and is within its lifetime; the cache never exceeds its capacity; and an invalidation
leaves the sizes it does not touch in place. -/
theorem folder_size_never_stale [DecidableEq α] {ttl capacity : ℕ} {actions : List (Action α)}
    {state : Service α} (hrun : run step (start ttl capacity) actions = some state)
    (hfew : invalidations state.log < 2 ^ 64) :
    (∀ after key size now before, state.log = after ++ .served key size now :: before →
      ∃ walk between earlier stored, before = between ++ .began walk key :: earlier ∧
        .finished walk key size stored ∈ between ∧ now - stored < ttl ∧
        ∀ share path, .invalidated share path ∈ between → ¬Touches share path key) ∧
    state.cache.entries.size ≤ max capacity 1 ∧
    ∀ share path key, ¬Touches share path key →
      (state.cache.invalidate share path).entries.get? key = state.cache.entries.get? key := by
  have hinv := invariant_of_run hrun hfew
  refine ⟨?_, ?_, ?_⟩
  · intro after key size now before hlog
    obtain ⟨stored, ⟨walk, between, earlier, hbefore, hfinished, huntouched⟩, hlife⟩ :=
      hinv.served after key size now before hlog
    exact ⟨walk, between, earlier, stored, hbefore, hfinished, hlife, huntouched⟩
  · exact hinv.capacity_eq ▸ hinv.within.size_le
  · intro share path key hkey
    rw [FolderSizeCache.invalidate_get?, if_neg hkey]

/-- A folder of one share. -/
def sampleKey : FolderKey := ⟨⟨"a", by decide⟩, ⟨[⟨"d"⟩]⟩⟩

/-- The folder is walked and served, then a change beneath it and a mutation overtaking a second
walk are invalidated. -/
def sampleActions : List (Action ℕ) :=
  [.readGeneration 0 sampleKey, .beginWalk 0, .finishWalk 0 7, .get sampleKey,
    .changed sampleKey.share sampleKey.path (some ⟨"f"⟩), .get sampleKey,
    .readGeneration 1 sampleKey, .beginWalk 1, .mutated "a" true, .finishWalk 1 8, .get sampleKey]

theorem folder_size_never_stale_sample :
    ∃ state, run step (start 60 4) sampleActions = some state ∧
      state.log = [.finished 1 sampleKey 8 0, .invalidated sampleKey.share .root,
        .began 1 sampleKey, .invalidated sampleKey.share (sampleKey.path.join ⟨"f"⟩),
        .served sampleKey 7 0, .finished 0 sampleKey 7 0, .began 0 sampleKey] ∧
      state.cache.entries.size ≤ max 4 1 := by
  obtain ⟨state, hrun, hlog⟩ : ∃ state, run step (start 60 4) sampleActions = some state ∧
      state.log = [.finished 1 sampleKey 8 0, .invalidated sampleKey.share .root,
        .began 1 sampleKey, .invalidated sampleKey.share (sampleKey.path.join ⟨"f"⟩),
        .served sampleKey 7 0, .finished 0 sampleKey 7 0, .began 0 sampleKey] :=
    ⟨_, rfl, by decide⟩
  have hfew : invalidations state.log < 2 ^ 64 := by
    rw [hlog]
    decide
  exact ⟨state, hrun, hlog, (folder_size_never_stale hrun hfew).2.1⟩

end Service

end Crabinet.Browse
