import Crabinet.Library.KeyedMap
import Crabinet.Thumbnail.Service

/-!
# Rendering a missing thumbnail

A request waits for the lock of its key, looks in the cache again, reserves memory and
decodes on a blocking thread. The lock, its entry in `in_flight` and the reservation have
different owners: the reservation moves into the blocking work, the lock and the handle on it
stay in the request's future, which may be dropped at every await.
-/

namespace Crabinet.Thumbnail

open Library ThumbnailService

/-- Where the future of a request stands. -/
inductive Phase where
  /-- Awaits the lock of its key. -/
  | waiting
  /-- Awaits the second cache lookup. -/
  | looking
  /-- Awaits its reservation. -/
  | reserving
  /-- Awaits the decode. -/
  | decoding
  /-- Has the result of `render_locked`, before `drop(guard)`. -/
  | returning
  /-- Before `release_in_flight`. -/
  | releasing
  /-- Will not test the count of handles any more, and still has one. -/
  | leaving
deriving DecidableEq

/-- The phases with the guard of the lock. -/
def Phase.hasGuard : Phase → Bool
  | .looking | .reserving | .decoding | .returning => true
  | .waiting | .releasing | .leaving => false

/-- The phases before the decode. -/
def Phase.isEarly : Phase → Bool
  | .waiting | .looking | .reserving => true
  | .decoding | .returning | .releasing | .leaving => false

/-- A request in `render_miss`, and the lock its `flight` is a handle on. -/
structure Request (κ : Type) where
  key : κ
  estimate : ℕ
  flight : Option ℕ
  phase : Phase

/-- The handles a request has on its lock: `flight` itself, and the one of `lock_owned`. -/
def Request.handles {κ : Type} (request : Request κ) : ℕ :=
  if request.phase = .releasing ∨ request.phase = .leaving then 1 else 2

/-- A reservation, with the decode that owns it while it is running. After that the
reservation is in the output of the blocking work, until the request takes the output. -/
structure Decode (κ : Type) where
  key : κ
  estimate : ℕ
  running : Bool

/-- The budget, `in_flight`, the requests, and the reservations by the request that made them. -/
structure State (κ : Type) where
  available : ℕ
  inFlight : KeyedMap κ ℕ
  requests : KeyedMap ℕ (Request κ)
  decodes : KeyedMap ℕ (Decode κ)
  nextLock : ℕ

namespace State

variable {κ : Type} [DecidableEq κ]

/-- Nothing is in flight. -/
def initial (service : ThumbnailService) : State κ := ⟨service.units, .empty, .empty, .empty, 0⟩

/-- Whether a request has the guard of the lock. -/
def isLocked (state : State κ) (lock : ℕ) : Bool :=
  state.requests.entries.any fun entry =>
    decide (entry.2.flight = some lock) && entry.2.phase.hasGuard

/-- `Arc::strong_count` of a lock. -/
def strongCount (state : State κ) (lock : ℕ) : ℕ :=
  (state.inFlight.total fun _ other => if other = lock then 1 else 0) +
    state.requests.total fun _ request =>
      if request.flight = some lock then request.handles else 0

/-- Step `id` from where its phase meets `guard`. -/
def onRequest (state : State κ) (id : ℕ) (guard : Request κ → Bool)
    (next : Request κ → State κ) : Option (State κ) :=
  match state.requests.get? id with
  | some request => if guard request then some (next request) else none
  | none => none

/-- The request goes on to another phase. -/
def advance (state : State κ) (id : ℕ) (request : Request κ) (phase : Phase) : State κ :=
  { state with requests := state.requests.insert id { request with phase } }

/-- The request goes on to another phase, or ends where it has no handle. -/
def part (state : State κ) (id : ℕ) (request : Request κ) (phase : Phase) : State κ :=
  match request.flight with
  | some _ => state.advance id request phase
  | none => { state with requests := state.requests.erase id }

/-- `in_flight`, and the request that waits for the lock. -/
def enter (state : State κ) (id : ℕ) (key : κ) (estimate : ℕ) : State κ :=
  match state.inFlight.get? key with
  | some lock =>
    { state with requests := state.requests.insert id ⟨key, estimate, some lock, .waiting⟩ }
  | none =>
    { state with
      inFlight := state.inFlight.insert key state.nextLock
      requests := state.requests.insert id ⟨key, estimate, some state.nextLock, .waiting⟩
      nextLock := state.nextLock + 1 }

/-- The reservation is made and moves into the blocking work. -/
def spawn (state : State κ) (id : ℕ) (request : Request κ) : State κ :=
  { state.advance id request .decoding with
    available := state.available - permits request.estimate
    decodes := state.decodes.insert id ⟨request.key, request.estimate, true⟩ }

/-- The output of an ended decode is dropped, and its reservation with it. -/
def settle (state : State κ) (id : ℕ) : State κ :=
  match state.decodes.get? id with
  | some decode =>
    if decode.running then state
    else
      { state with
        available := state.available + permits decode.estimate
        decodes := state.decodes.erase id }
  | none => state

/-- Whether the request awaits the output of its decode. -/
def awaitsDecode (state : State κ) (id : ℕ) : Bool :=
  (state.requests.get? id).any fun request => request.phase = .decoding

/-- The blocking work ends. Its output waits for the request, and is dropped without one, as is
everything it owns when it panics. -/
def endDecode (state : State κ) (id : ℕ) (decode : Decode κ) (panics : Bool) : State κ :=
  let ended := { state with decodes := state.decodes.insert id { decode with running := false } }
  if state.awaitsDecode id && !panics then ended else ended.settle id

/-- `release_in_flight`, up to the drop of the handle. -/
def releaseInFlight (state : State κ) (id : ℕ) (request : Request κ) (lock : ℕ) : State κ :=
  let left := state.advance id request .leaving
  if state.strongCount lock ≤ 2 then { left with inFlight := left.inFlight.erase request.key }
  else left

end State

/-- What happens to a request, or to the decode it started. -/
inductive Action (κ : Type) where
  /-- `render_miss` is entered; `cacheable` where the file has a modification time. -/
  | arrive (id : ℕ) (key : κ) (estimate : ℕ) (cacheable : Bool)
  | acquire (id : ℕ)
  /-- `IN_FLIGHT_WAIT` has passed. -/
  | lockTimeout (id : ℕ)
  /-- The lookup ends: the request has its result, or goes on to reserve. -/
  | lookup (id : ℕ) (done : Bool)
  | reserve (id : ℕ)
  /-- `BUDGET_WAIT` has passed. -/
  | reserveTimeout (id : ℕ)
  /-- The blocking work ends, with an image, with an error or with a panic. -/
  | decodeEnds (id : ℕ) (panics : Bool)
  /-- The request takes the output of the blocking work. -/
  | resume (id : ℕ)
  /-- `drop(guard)`. -/
  | unlock (id : ℕ)
  /-- The test of `release_in_flight`. -/
  | release (id : ℕ)
  /-- The last handle is dropped. -/
  | leave (id : ℕ)
  /-- The future is dropped at an await. -/
  | cancel (id : ℕ)

/-- One step of `render_miss`, of any request. The budget and the locks serve their waiters in
any order. -/
def step {κ : Type} [DecidableEq κ] (service : ThumbnailService) (hasCache : Bool)
    (state : State κ) : Action κ → Option (State κ)
  | .arrive id key estimate cacheable =>
    if service.fits estimate = true ∧ state.requests.get? id = none ∧
        state.decodes.get? id = none then
      some (if cacheable && hasCache then state.enter id key estimate
        else { state with
          requests := state.requests.insert id ⟨key, estimate, none, .reserving⟩ })
    else none
  | .acquire id =>
    state.onRequest id
      (fun request => decide (request.phase = .waiting) &&
        request.flight.all fun lock => !state.isLocked lock)
      fun request => state.advance id request .looking
  | .lockTimeout id =>
    state.onRequest id (fun request => decide (request.phase = .waiting))
      fun request => state.advance id request .leaving
  | .lookup id done =>
    state.onRequest id (fun request => decide (request.phase = .looking))
      fun request => state.advance id request (if done then .returning else .reserving)
  | .reserve id =>
    state.onRequest id
      (fun request => decide (request.phase = .reserving) &&
        decide (permits request.estimate ≤ state.available))
      fun request => state.spawn id request
  | .reserveTimeout id =>
    state.onRequest id (fun request => decide (request.phase = .reserving))
      fun request => state.advance id request .returning
  | .decodeEnds id panics =>
    match state.decodes.get? id with
    | some decode => if decode.running then some (state.endDecode id decode panics) else none
    | none => none
  | .resume id =>
    state.onRequest id
      (fun request => decide (request.phase = .decoding) &&
        (state.decodes.get? id).all fun decode => !decode.running)
      fun request => (state.settle id).advance id request .returning
  | .unlock id =>
    state.onRequest id (fun request => decide (request.phase = .returning))
      fun request => state.part id request .releasing
  | .release id =>
    state.onRequest id (fun request => decide (request.phase = .releasing))
      fun request =>
        match request.flight with
        | some lock => state.releaseInFlight id request lock
        | none => state
  | .leave id =>
    state.onRequest id (fun request => decide (request.phase = .leaving))
      fun _ => { state with requests := state.requests.erase id }
  | .cancel id =>
    state.onRequest id (fun request => request.phase.isEarly || decide (request.phase = .decoding))
      fun request => (state.settle id).part id request .leaving

variable {κ : Type}

/-- A step of a request is taken from a present request in the right phase. -/
theorem State.onRequest_eq_some {state after : State κ} {id : ℕ}
    {guard : Request κ → Bool} {next : Request κ → State κ} :
    state.onRequest id guard next = some after ↔
      ∃ request, state.requests.get? id = some request ∧ guard request = true ∧
        next request = after := by
  unfold State.onRequest
  cases hrequest : state.requests.get? id with
  | none => exact iff_of_false nofun fun ⟨_, h, _⟩ => nomatch h
  | some request =>
    constructor
    · intro h
      obtain ⟨hguard, hafter⟩ := Option.ite_none_right_eq_some.mp h
      exact ⟨request, rfl, hguard, Option.some.inj hafter⟩
    · rintro ⟨other, hother, hguard, rfl⟩
      obtain rfl := Option.some.inj hother
      exact if_pos hguard

namespace State

@[simp] theorem settle_requests (state : State κ) (id : ℕ) :
    (state.settle id).requests = state.requests := by
  unfold settle
  split
  · split <;> rfl
  · rfl

@[simp] theorem settle_inFlight (state : State κ) (id : ℕ) :
    (state.settle id).inFlight = state.inFlight := by
  unfold settle
  split
  · split <;> rfl
  · rfl

@[simp] theorem settle_nextLock (state : State κ) (id : ℕ) :
    (state.settle id).nextLock = state.nextLock := by
  unfold settle
  split
  · split <;> rfl
  · rfl

/-- What is left after the output was dropped is still running. -/
theorem running_of_settle {state : State κ} {id : ℕ} {decode : Decode κ}
    (h : (state.settle id).decodes.get? id = some decode) : decode.running = true := by
  unfold settle at h
  split at h
  · rename_i found hfound
    split at h
    · rename_i hrunning
      rw [hfound] at h
      exact Option.some.inj h ▸ hrunning
    · rw [KeyedMap.get?_erase_self] at h
      cases h
  · rename_i hnone
    rw [hnone] at h
    cases h

/-- Dropping an output starts no decode. -/
theorem get?_of_settle {state : State κ} {id other : ℕ} {decode : Decode κ}
    (h : (state.settle id).decodes.get? other = some decode) :
    state.decodes.get? other = some decode := by
  unfold settle at h
  split at h
  · split at h
    · exact h
    · exact KeyedMap.get?_of_erase h
  · exact h

theorem awaitsDecode_iff {state : State κ} {id : ℕ} :
    state.awaitsDecode id = true ↔
      ∃ request, state.requests.get? id = some request ∧ request.phase = .decoding := by
  simp [awaitsDecode, Option.any_eq_true]

theorem isLocked_eq_false {state : State κ} {lock : ℕ} :
    state.isLocked lock = false ↔
      ∀ id request, state.requests.get? id = some request → request.flight = some lock →
        request.phase.hasGuard = false := by
  simp only [isLocked, List.any_eq_false, Prod.forall, KeyedMap.get?_eq_some]
  exact forall_congr' fun id => forall_congr' fun request => by simp

@[simp] theorem endDecode_requests (state : State κ) (id : ℕ) (decode : Decode κ) (panics : Bool) :
    (state.endDecode id decode panics).requests = state.requests := by
  unfold endDecode
  dsimp only
  split
  · rfl
  · rw [settle_requests]

@[simp] theorem endDecode_inFlight (state : State κ) (id : ℕ) (decode : Decode κ) (panics : Bool) :
    (state.endDecode id decode panics).inFlight = state.inFlight := by
  unfold endDecode
  dsimp only
  split
  · rfl
  · rw [settle_inFlight]

@[simp] theorem endDecode_nextLock (state : State κ) (id : ℕ) (decode : Decode κ) (panics : Bool) :
    (state.endDecode id decode panics).nextLock = state.nextLock := by
  unfold endDecode
  dsimp only
  split
  · rfl
  · rw [settle_nextLock]

/-- The end of a decode leaves only reservations that were there, and none running under its
name. -/
theorem get?_of_endDecode {state : State κ} {id other : ℕ} {decode found : Decode κ}
    {panics : Bool} (h : (state.endDecode id decode panics).decodes.get? other = some found)
    (hrunning : found.running = true) : state.decodes.get? other = some found ∧ other ≠ id := by
  have hended : (state.decodes.insert id { decode with running := false }).get? other =
      some found := by
    unfold endDecode at h
    dsimp only at h
    split at h
    · exact h
    · exact get?_of_settle h
  by_cases hid : other = id
  · subst hid
    rw [KeyedMap.get?_insert_self] at hended
    obtain rfl := Option.some.inj hended
    cases hrunning
  · exact ⟨KeyedMap.get?_insert_ne _ hid _ ▸ hended, hid⟩

end State

end Crabinet.Thumbnail
