import Crabinet.Library.Transition
import Crabinet.Thumbnail.Budget
import Crabinet.Thumbnail.Locks

/-!
# One decode of a key at a time, within the budget

In every run the reservations stay within the budget. The two other promises rest on the
future of a request being alive: a decode goes on without the lock once its future is dropped,
and an entry of `in_flight` stays when its last request gives up its handle without a test
that finds it alone.
-/

namespace Crabinet.Thumbnail

open Library ThumbnailService

variable {κ : Type} [DecidableEq κ]

/-- The promise about memory: the estimates of the running decodes stay within the budget, every
permit is free or reserved, and a reservation outlives its decode only until the request that
awaits the output has taken it. -/
structure WithinBudget (service : ThumbnailService) (maxDecodeMemory : ℕ) (state : State κ) :
    Prop where
  running_le : (state.decodes.total fun _ decode => if decode.running then decode.estimate else 0) ≤
    maxDecodeMemory
  conserved : state.available + state.decodes.total (fun _ decode => permits decode.estimate) =
    service.units
  returned : ∀ id decode, state.decodes.get? id = some decode → decode.running = false →
    ∃ request, state.requests.get? id = some request ∧ request.phase = .decoding

/-- At most one decode of the key is running. -/
def State.IsSingle (state : State κ) (key : κ) : Prop :=
  ∀ id other decode rival, state.decodes.get? id = some decode →
    state.decodes.get? other = some rival → decode.key = key → rival.key = key →
    decode.running = true → rival.running = true → id = other

/-- `in_flight` has the key only while a request for it is alive. -/
def State.IsTracked (state : State κ) (key : κ) : Prop :=
  (state.inFlight.get? key).isSome = true →
    ∃ id request, state.requests.get? id = some request ∧ request.key = key

/-- Requests for the key use the cache, and none is dropped while its decode is running. -/
def KeepsDecode (key : κ) (state : State κ) : Action κ → Prop
  | .arrive _ other _ cacheable => other = key → cacheable = true
  | .cancel id => ∀ request decode, state.requests.get? id = some request → request.key = key →
      state.decodes.get? id = some decode → decode.running = false
  | _ => True

/-- Another request than `id` has a handle on the lock. -/
def State.IsShared (state : State κ) (id lock : ℕ) : Prop :=
  ∃ other rival, other ≠ id ∧ state.requests.get? other = some rival ∧ rival.flight = some lock

/-- Another request than `id` has a handle on the lock, and has still to test the count. -/
def State.IsAwaited (state : State κ) (id lock : ℕ) : Prop :=
  ∃ other rival, other ≠ id ∧ state.requests.get? other = some rival ∧
    rival.flight = some lock ∧ rival.phase ≠ .leaving

/-- A request that gives up its handle on the lock of the key without finding itself alone with
it, by a timeout, by being dropped or by its test, leaves another that has still to test. -/
def HandsOver (key : κ) (state : State κ) : Action κ → Prop
  | .lockTimeout id | .cancel id => ∀ request lock, state.requests.get? id = some request →
      request.key = key → request.flight = some lock → state.IsAwaited id lock
  | .release id => ∀ request lock, state.requests.get? id = some request →
      request.key = key → request.flight = some lock → state.IsShared id lock →
        state.IsAwaited id lock
  | _ => True

/-- The running decodes of the key belong to requests that await them, all with a lock. -/
structure Followed (key : κ) (state : State κ) : Prop where
  locked : ∀ id request, state.requests.get? id = some request → request.key = key →
    request.flight.isSome = true
  awaited : ∀ id decode, state.decodes.get? id = some decode → decode.key = key →
    decode.running = true →
      ∃ request, state.requests.get? id = some request ∧ request.key = key ∧
        request.phase = .decoding

/-- An entry of `in_flight` has a request that has still to test the count. -/
def Handed (key : κ) (state : State κ) : Prop :=
  ∀ lock, state.inFlight.get? key = some lock →
    ∃ id request, state.requests.get? id = some request ∧ request.key = key ∧
      request.flight = some lock ∧ request.phase ≠ .leaving

namespace Followed

variable {key : κ} {state after : State κ}

omit [DecidableEq κ] in
/-- A request is set that has no running decode, or still awaits it. -/
theorem insert (h : Followed key state) {id : ℕ} {request : Request κ}
    (hrequests : after.requests = state.requests.insert id request)
    (hdecodes : ∀ other decode, after.decodes.get? other = some decode → decode.running = true →
      other ≠ id → state.decodes.get? other = some decode)
    (hlocked : request.key = key → request.flight.isSome = true)
    (hawaited : ∀ decode, after.decodes.get? id = some decode → decode.key = key →
      decode.running = true → request.key = key ∧ request.phase = .decoding) :
    Followed key after := by
  constructor
  · intro other found hget hkey
    rw [hrequests] at hget
    by_cases hid : other = id
    · subst hid
      rw [KeyedMap.get?_insert_self] at hget
      obtain rfl := Option.some.inj hget
      exact hlocked hkey
    · rw [KeyedMap.get?_insert_ne _ hid] at hget
      exact h.locked other found hget hkey
  · intro other decode hget hkey hrunning
    rw [hrequests]
    by_cases hid : other = id
    · subst hid
      exact ⟨request, KeyedMap.get?_insert_self _ _ _, hawaited decode hget hkey hrunning⟩
    · rw [KeyedMap.get?_insert_ne _ hid]
      exact h.awaited other decode (hdecodes other decode hget hrunning hid) hkey hrunning

omit [DecidableEq κ] in
/-- A request ends that has no running decode. -/
theorem erase (h : Followed key state) {id : ℕ}
    (hrequests : after.requests = state.requests.erase id)
    (hdecodes : ∀ other decode, after.decodes.get? other = some decode →
      state.decodes.get? other = some decode)
    (hnone : ∀ decode, after.decodes.get? id = some decode → decode.key = key →
      decode.running = false) :
    Followed key after := by
  constructor
  · intro other found hget hkey
    rw [hrequests] at hget
    exact h.locked other found (KeyedMap.get?_of_erase hget) hkey
  · intro other decode hget hkey hrunning
    have hid : other ≠ id := by
      rintro rfl
      rw [hnone decode hget hkey] at hrunning
      cases hrunning
    rw [hrequests, KeyedMap.get?_erase_ne _ hid]
    exact h.awaited other decode (hdecodes other decode hget) hkey hrunning

omit [DecidableEq κ] in
/-- A request that awaits no decode has none running. -/
theorem not_running (h : Followed key state) {id : ℕ} {request : Request κ}
    (hrequest : state.requests.get? id = some request) (hphase : request.phase ≠ .decoding)
    {decode : Decode κ} (hdecode : state.decodes.get? id = some decode) (hkey : decode.key = key) :
    decode.running = false := by
  by_contra hrunning
  obtain ⟨found, hfound, -, hdecoding⟩ := h.awaited id decode hdecode hkey (by simpa using hrunning)
  rw [hrequest] at hfound
  obtain rfl := Option.some.inj hfound
  exact hphase hdecoding

omit [DecidableEq κ] in
/-- A request without a running decode goes on. -/
theorem advance (h : Followed key state) {id : ℕ} {request : Request κ}
    (hrequest : state.requests.get? id = some request) {phase : Phase}
    (hnone : ∀ decode, state.decodes.get? id = some decode → decode.key = key →
      decode.running = false) :
    Followed key (state.advance id request phase) := by
  refine h.insert rfl (fun _ _ hget _ _ => hget) (h.locked id request hrequest) ?_
  intro decode hget hkey hrunning
  rw [hnone decode hget hkey] at hrunning
  cases hrunning

omit [DecidableEq κ] in
theorem part (h : Followed key state) {id : ℕ} {request : Request κ}
    (hrequest : state.requests.get? id = some request) {phase : Phase}
    (hnone : ∀ decode, state.decodes.get? id = some decode → decode.key = key →
      decode.running = false) :
    Followed key (state.part id request phase) := by
  unfold State.part
  split
  · exact h.advance hrequest hnone
  · exact h.erase rfl (fun _ _ hget => hget) hnone

omit [DecidableEq κ] in
theorem settle (h : Followed key state) (id : ℕ) : Followed key (state.settle id) := by
  constructor
  · rw [State.settle_requests]
    exact h.locked
  · intro other decode hget hkey hrunning
    rw [State.settle_requests]
    exact h.awaited other decode (State.get?_of_settle hget) hkey hrunning

end Followed

/-- While no request leaves its decode behind, every decode of the key has its request. -/
theorem followed_step {service : ThumbnailService} {state after : State κ} {action : Action κ}
    {key : κ} (h : step service true state action = some after) (hkeeps : KeepsDecode key state action)
    (hfollowed : Followed key state) : Followed key after := by
  have hnone : ∀ id request, state.requests.get? id = some request → request.phase ≠ .decoding →
      ∀ decode, state.decodes.get? id = some decode → decode.key = key → decode.running = false :=
    fun id request hrequest hphase decode => hfollowed.not_running hrequest hphase
  cases action with
  | arrive id other estimate cacheable =>
    obtain ⟨⟨-, -, hfresh⟩, hafter⟩ := Option.ite_none_right_eq_some.mp h
    obtain rfl := Option.some.inj hafter
    have hrunning : ∀ {request : Request κ} decode, state.decodes.get? id = some decode →
        decode.key = key → decode.running = true → request.key = key ∧ request.phase = .decoding :=
      fun decode hdecode => by
        rw [hfresh] at hdecode
        cases hdecode
    split
    · unfold State.enter
      split
      · exact hfollowed.insert rfl (fun _ _ hget _ _ => hget) (fun _ => rfl) hrunning
      · exact hfollowed.insert rfl (fun _ _ hget _ _ => hget) (fun _ => rfl) hrunning
    · rename_i hcache
      refine hfollowed.insert rfl (fun _ _ hget _ _ => hget) (fun hkey => ?_) hrunning
      rw [hkeeps hkey] at hcache
      exact absurd rfl hcache
  | acquire id =>
    obtain ⟨request, hrequest, hguard, rfl⟩ := State.onRequest_eq_some.mp h
    simp only [Bool.and_eq_true, decide_eq_true_eq] at hguard
    exact hfollowed.advance hrequest (hnone id request hrequest (by simp [hguard.1]))
  | lockTimeout id =>
    obtain ⟨request, hrequest, hguard, rfl⟩ := State.onRequest_eq_some.mp h
    exact hfollowed.advance hrequest
      (hnone id request hrequest (by simp [of_decide_eq_true hguard]))
  | lookup id done =>
    obtain ⟨request, hrequest, hguard, rfl⟩ := State.onRequest_eq_some.mp h
    exact hfollowed.advance hrequest
      (hnone id request hrequest (by simp [of_decide_eq_true hguard]))
  | reserve id =>
    obtain ⟨request, hrequest, -, rfl⟩ := State.onRequest_eq_some.mp h
    refine hfollowed.insert rfl (fun other decode hget _ hne => ?_)
      (hfollowed.locked id request hrequest) fun decode hget hkey _ => ?_
    · rw [State.spawn, KeyedMap.get?_insert_ne _ hne] at hget
      exact hget
    · rw [State.spawn, KeyedMap.get?_insert_self] at hget
      obtain rfl := Option.some.inj hget
      exact ⟨hkey, rfl⟩
  | reserveTimeout id =>
    obtain ⟨request, hrequest, hguard, rfl⟩ := State.onRequest_eq_some.mp h
    exact hfollowed.advance hrequest
      (hnone id request hrequest (by simp [of_decide_eq_true hguard]))
  | decodeEnds id panics =>
    simp only [step] at h
    split at h
    · obtain ⟨-, hafter⟩ := Option.ite_none_right_eq_some.mp h
      obtain rfl := Option.some.inj hafter
      constructor
      · rw [State.endDecode_requests]
        exact hfollowed.locked
      · intro other decode hget hkey hrunning
        rw [State.endDecode_requests]
        exact hfollowed.awaited other decode (State.get?_of_endDecode hget hrunning).1 hkey hrunning
    · cases h
  | resume id =>
    obtain ⟨request, hrequest, hguard, rfl⟩ := State.onRequest_eq_some.mp h
    refine (hfollowed.settle id).advance (by rwa [State.settle_requests]) fun decode hget _ => ?_
    rw [Bool.and_eq_true, State.get?_of_settle hget] at hguard
    simpa using hguard.2
  | unlock id =>
    obtain ⟨request, hrequest, hguard, rfl⟩ := State.onRequest_eq_some.mp h
    exact hfollowed.part hrequest
      (hnone id request hrequest (by simp [of_decide_eq_true hguard]))
  | release id =>
    obtain ⟨request, hrequest, hguard, rfl⟩ := State.onRequest_eq_some.mp h
    have hleft : Followed key (state.advance id request .leaving) :=
      hfollowed.advance hrequest (hnone id request hrequest (by simp [of_decide_eq_true hguard]))
    split
    · unfold State.releaseInFlight
      dsimp only
      split
      · exact ⟨hleft.locked, hleft.awaited⟩
      · exact hleft
    · exact hfollowed
  | leave id =>
    obtain ⟨request, hrequest, hguard, rfl⟩ := State.onRequest_eq_some.mp h
    exact hfollowed.erase rfl (fun _ _ hget => hget)
      (hnone id request hrequest (by simp [of_decide_eq_true hguard]))
  | cancel id =>
    obtain ⟨request, hrequest, -, rfl⟩ := State.onRequest_eq_some.mp h
    refine (hfollowed.settle id).part (by rwa [State.settle_requests]) fun decode hget hkey => ?_
    have hold := State.get?_of_settle hget
    obtain ⟨found, hfound, hfoundKey, -⟩ :=
      hfollowed.awaited id decode hold hkey (State.running_of_settle hget)
    rw [hrequest] at hfound
    obtain rfl := Option.some.inj hfound
    exact hkeeps request decode hrequest hfoundKey hold

/-- Two decodes of a key that have their requests are one. -/
theorem isSingle_of_followed {state : State κ} {key : κ} (hlocks : state.LocksOk)
    (h : Followed key state) : state.IsSingle key := by
  intro id other decode rival hdecode hrival hkey hrivalKey hrunning hrivalRunning
  obtain ⟨first, hfirst, hfirstKey, hfirstPhase⟩ := h.awaited id decode hdecode hkey hrunning
  obtain ⟨second, hsecond, hsecondKey, hsecondPhase⟩ :=
    h.awaited other rival hrival hrivalKey hrivalRunning
  obtain ⟨lock, hlock⟩ := Option.isSome_iff_exists.mp (h.locked id first hfirst hfirstKey)
  obtain ⟨found, hfound⟩ := Option.isSome_iff_exists.mp (h.locked other second hsecond hsecondKey)
  have hentry := hlocks.held id first lock hfirst (by rw [hfirstPhase]; nofun) hlock
  have hrivalEntry := hlocks.held other second found hsecond (by rw [hsecondPhase]; nofun) hfound
  -- One key, hence one entry and one lock.
  rw [hfirstKey] at hentry
  rw [hsecondKey, hentry] at hrivalEntry
  obtain rfl := Option.some.inj hrivalEntry
  exact hlocks.alone id other first second lock hfirst hsecond hlock hfound
    (by rw [hfirstPhase]; rfl) (by rw [hsecondPhase]; rfl)

namespace Handed

variable {key : κ} {state after : State κ}

/-- A step of one request: it keeps its handle untested, or another has still to test. -/
theorem of_requests (h : Handed key state) (hlocks : state.LocksOk) {id : ℕ}
    (hinFlight : ∀ lock, after.inFlight.get? key = some lock → state.inFlight.get? key = some lock)
    (hother : ∀ other, other ≠ id → after.requests.get? other = state.requests.get? other)
    (hself : ∀ request lock, state.requests.get? id = some request → request.key = key →
      request.flight = some lock → after.inFlight.get? key = some lock →
        (∃ phase, after.requests.get? id = some { request with phase } ∧ phase ≠ .leaving) ∨
          state.IsAwaited id lock) : Handed key after := by
  intro lock hlock
  obtain ⟨holder, request, hrequest, hkey, hflight, hphase⟩ := h lock (hinFlight lock hlock)
  by_cases hid : holder = id
  · subst hid
    rcases hself request lock hrequest hkey hflight hlock with
      ⟨phase, hnext, hnot⟩ | ⟨other, rival, hne, hrival, hsame, hnot⟩
    · exact ⟨holder, _, hnext, hkey, hflight, hnot⟩
    · have hrivalKey : rival.key = key :=
        hlocks.distinct _ _ lock (hlocks.held other rival lock hrival hnot hsame)
          (hinFlight lock hlock)
      exact ⟨other, rival, (hother other hne).trans hrival, hrivalKey, hsame, hnot⟩
  · exact ⟨holder, request, (hother holder hid).trans hrequest, hkey, hflight, hphase⟩

/-- A request goes on that keeps its handle untested. -/
theorem advance (h : Handed key state) (hlocks : state.LocksOk) {id : ℕ} {request : Request κ}
    (hrequest : state.requests.get? id = some request) {phase : Phase} (hphase : phase ≠ .leaving) :
    Handed key (state.advance id request phase) := by
  refine h.of_requests hlocks (fun _ hget => hget)
    (fun other hne => KeyedMap.get?_insert_ne _ hne _) fun found lock hfound _ _ _ => ?_
  rw [hrequest] at hfound
  obtain rfl := Option.some.inj hfound
  exact .inl ⟨phase, KeyedMap.get?_insert_self _ _ _, hphase⟩

/-- A request parts from its lock, and another has still to test. -/
theorem leaving (h : Handed key state) (hlocks : state.LocksOk) {id : ℕ} {request : Request κ}
    (hrequest : state.requests.get? id = some request)
    (hawaited : ∀ lock, request.key = key → request.flight = some lock →
      state.inFlight.get? key = some lock → state.IsAwaited id lock) :
    Handed key (state.advance id request .leaving) := by
  refine h.of_requests hlocks (fun _ hget => hget)
    (fun other hne => KeyedMap.get?_insert_ne _ hne _) fun found lock hfound hkey hflight hget => ?_
  rw [hrequest] at hfound
  obtain rfl := Option.some.inj hfound
  exact .inr (hawaited lock hkey hflight hget)

/-- A request ends that has no handle. -/
theorem erase (h : Handed key state) (hlocks : state.LocksOk) {id : ℕ} {request : Request κ}
    (hrequest : state.requests.get? id = some request) (hnone : request.flight = none) :
    Handed key { state with requests := state.requests.erase id } := by
  refine h.of_requests hlocks (fun _ hget => hget)
    (fun other hne => KeyedMap.get?_erase_ne _ hne) fun found lock hfound _ hflight _ => ?_
  rw [hrequest] at hfound
  obtain rfl := Option.some.inj hfound
  rw [hnone] at hflight
  cases hflight

/-- Dropping an output concerns no lock. -/
theorem settle (h : Handed key state) (id : ℕ) : Handed key (state.settle id) := by
  unfold Handed
  rw [State.settle_inFlight, State.settle_requests]
  exact h

/-- A new request has still to test. -/
theorem enter (h : Handed key state) (hlocks : state.LocksOk) {id : ℕ}
    (hfresh : state.requests.get? id = none) (other : κ) (estimate : ℕ) :
    Handed key (state.enter id other estimate) := by
  have hnot : ∀ request, state.requests.get? id ≠ some request := fun request => by
    rw [hfresh]
    nofun
  unfold State.enter
  split
  · exact h.of_requests hlocks (fun _ hget => hget)
      (fun other hne => KeyedMap.get?_insert_ne _ hne _)
      fun request _ hrequest => absurd hrequest (hnot request)
  · by_cases hkey : key = other
    · subst hkey
      intro lock hlock
      rw [KeyedMap.get?_insert_self] at hlock
      obtain rfl := Option.some.inj hlock
      exact ⟨id, _, KeyedMap.get?_insert_self _ _ _, rfl, rfl, nofun⟩
    · refine h.of_requests hlocks (fun lock hget => ?_)
        (fun other hne => KeyedMap.get?_insert_ne _ hne _)
        fun request _ hrequest => absurd hrequest (hnot request)
      exact (KeyedMap.get?_insert_ne _ hkey _).symm.trans hget

/-- The test removes the entry, or finds another request on the lock. -/
theorem releaseInFlight (h : Handed key state) (hlocks : state.LocksOk) {id lock : ℕ}
    {request : Request κ} (hrequest : state.requests.get? id = some request)
    (hphase : request.phase = .releasing) (hflight : request.flight = some lock)
    (hhands : request.key = key → state.IsShared id lock → state.IsAwaited id lock) :
    Handed key (state.releaseInFlight id request lock) := by
  have hentry := hlocks.held id request lock hrequest (by rw [hphase]; nofun) hflight
  unfold State.releaseInFlight
  dsimp only
  split
  · refine h.of_requests hlocks (fun _ hget => KeyedMap.get?_of_erase hget)
      (fun other hne => KeyedMap.get?_insert_ne _ hne _) fun found found' hfound hkey _ hget => ?_
    rw [hrequest] at hfound
    obtain rfl := Option.some.inj hfound
    have hgone : (state.inFlight.erase request.key).get? key = none := by
      rw [hkey, KeyedMap.get?_erase_self]
    rw [State.advance, hgone] at hget
    cases hget
  · rename_i hcount
    refine h.leaving hlocks hrequest fun other hkey hother _ => ?_
    rw [hflight] at hother
    obtain rfl := Option.some.inj hother
    refine hhands hkey ?_
    by_contra hshared
    exact hcount (State.strongCount_le hlocks hentry hrequest hphase fun other rival hne hrival hsame =>
      hshared ⟨other, rival, hne, hrival, hsame⟩)

end Handed

/-- While every handle given up without its entry leaves a request that has still to test, every
entry has one. -/
theorem handed_step {service : ThumbnailService} {hasCache : Bool} {state after : State κ}
    {action : Action κ} {key : κ} (h : step service hasCache state action = some after)
    (hhands : HandsOver key state action) (hlocks : state.LocksOk) (hhanded : Handed key state) :
    Handed key after := by
  cases action with
  | arrive id other estimate cacheable =>
    obtain ⟨⟨-, hfresh, -⟩, hafter⟩ := Option.ite_none_right_eq_some.mp h
    obtain rfl := Option.some.inj hafter
    split
    · exact hhanded.enter hlocks hfresh other estimate
    · refine hhanded.of_requests hlocks (fun _ hget => hget)
        (fun other hne => KeyedMap.get?_insert_ne _ hne _) fun request _ hrequest => ?_
      rw [hfresh] at hrequest
      cases hrequest
  | acquire id =>
    obtain ⟨request, hrequest, -, rfl⟩ := State.onRequest_eq_some.mp h
    exact hhanded.advance hlocks hrequest (by simp)
  | lockTimeout id =>
    obtain ⟨request, hrequest, -, rfl⟩ := State.onRequest_eq_some.mp h
    exact hhanded.leaving hlocks hrequest fun lock hkey hflight _ =>
      hhands request lock hrequest hkey hflight
  | lookup id done =>
    obtain ⟨request, hrequest, -, rfl⟩ := State.onRequest_eq_some.mp h
    exact hhanded.advance hlocks hrequest (by split <;> simp)
  | reserve id =>
    obtain ⟨request, hrequest, -, rfl⟩ := State.onRequest_eq_some.mp h
    have hnext : Handed key (state.advance id request .decoding) :=
      hhanded.advance hlocks hrequest (by simp)
    exact hnext
  | reserveTimeout id =>
    obtain ⟨request, hrequest, -, rfl⟩ := State.onRequest_eq_some.mp h
    exact hhanded.advance hlocks hrequest (by simp)
  | decodeEnds id panics =>
    simp only [step] at h
    split at h
    · obtain ⟨-, hafter⟩ := Option.ite_none_right_eq_some.mp h
      obtain rfl := Option.some.inj hafter
      unfold Handed
      rw [State.endDecode_inFlight, State.endDecode_requests]
      exact hhanded
    · cases h
  | resume id =>
    obtain ⟨request, hrequest, -, rfl⟩ := State.onRequest_eq_some.mp h
    exact (hhanded.settle id).advance (hlocks.settle id) (by rwa [State.settle_requests])
      (by simp)
  | unlock id =>
    obtain ⟨request, hrequest, -, rfl⟩ := State.onRequest_eq_some.mp h
    unfold State.part
    split
    · exact hhanded.advance hlocks hrequest (by simp)
    · exact hhanded.erase hlocks hrequest (by assumption)
  | release id =>
    obtain ⟨request, hrequest, hguard, rfl⟩ := State.onRequest_eq_some.mp h
    split
    · rename_i lock hflight
      exact hhanded.releaseInFlight hlocks hrequest (of_decide_eq_true hguard) hflight
        fun hkey => hhands request lock hrequest hkey hflight
    · exact hhanded
  | leave id =>
    obtain ⟨request, hrequest, hguard, rfl⟩ := State.onRequest_eq_some.mp h
    intro lock hlock
    obtain ⟨holder, found, hfound, hkey, hflight, hphase⟩ := hhanded lock hlock
    have hid : holder ≠ id := by
      rintro rfl
      rw [hrequest] at hfound
      obtain rfl := Option.some.inj hfound
      exact hphase (of_decide_eq_true hguard)
    exact ⟨holder, found, (KeyedMap.get?_erase_ne _ hid).trans hfound, hkey, hflight, hphase⟩
  | cancel id =>
    obtain ⟨request, hrequest, -, rfl⟩ := State.onRequest_eq_some.mp h
    have hsettled : (state.settle id).requests.get? id = some request := by
      rwa [State.settle_requests]
    unfold State.part
    split
    · refine (hhanded.settle id).leaving (hlocks.settle id) hsettled fun lock hkey hflight _ => ?_
      unfold State.IsAwaited
      rw [State.settle_requests]
      exact hhands request lock hrequest hkey hflight
    · exact (hhanded.settle id).erase (hlocks.settle id) hsettled (by assumption)

omit [DecidableEq κ] in
/-- Reservations within the budget cover the estimates of the running decodes. -/
theorem withinBudget_of_budgeted {maxDecodeMemory : ℕ} {service : ThumbnailService}
    (hnew : ThumbnailService.new maxDecodeMemory = .ok service) {state : State κ}
    (h : Budgeted service state) : WithinBudget service maxDecodeMemory state where
  running_le := by
    have hcovered : (state.decodes.total fun _ decode => if decode.running then decode.estimate else 0) ≤
        (state.decodes.total fun _ decode => permits decode.estimate) * budgetUnit := by
      refine KeyedMap.total_le_mul fun _ decode => ?_
      split
      · exact le_permits_mul decode.estimate
      · exact Nat.zero_le _
    have hunits : (state.decodes.total fun _ decode => permits decode.estimate) * budgetUnit ≤
        service.capacity := by
      rw [service.capacity_eq]
      exact Nat.mul_le_mul_right _ (h.conserved ▸ Nat.le_add_left _ _)
    exact (hcovered.trans hunits).trans (capacity_le hnew)
  conserved := h.conserved
  returned id decode hdecode hended := State.awaitsDecode_iff.mp (h.parked id decode hdecode hended)

omit [DecidableEq κ] in
theorem budgeted_initial (service : ThumbnailService) :
    Budgeted service (State.initial service : State κ) := by
  constructor
  · simp [State.initial, KeyedMap.total, KeyedMap.empty]
  · intro _ _ h
    cases h
  · intro _ _ h
    cases h

theorem locksOk_initial (service : ThumbnailService) :
    (State.initial service : State κ).LocksOk := by
  constructor
  · exact fun _ _ h => nomatch h
  · exact fun _ _ _ h => nomatch h
  · exact fun _ _ _ h => nomatch h
  · exact fun _ _ _ _ _ h => nomatch h

/-- In every run the memory stays within the budget and comes back. A key has one decode at a
time while none of its requests is dropped during its decode, and an entry in `in_flight` only
with a request while none gives up the last handle that has still to be tested. -/
theorem renders_bounded {maxDecodeMemory : ℕ} {service : ThumbnailService}
    (hnew : ThumbnailService.new maxDecodeMemory = .ok service) {hasCache : Bool}
    {actions : List (Action κ)} {last : State κ}
    (hrun : run (step service hasCache) (State.initial service) actions = some last) :
    WithinBudget service maxDecodeMemory last ∧
      (∀ key, hasCache = true →
        Along (step service hasCache) (KeepsDecode key) (State.initial service) actions →
          last.IsSingle key) ∧
      ∀ key, Along (step service hasCache) (HandsOver key) (State.initial service) actions →
        last.IsTracked key := by
  have hbudget : Budgeted service last :=
    run_invariant (fun _ _ _ => budgeted_step) hrun (budgeted_initial service)
  have hlocks : last.LocksOk :=
    run_invariant (fun _ _ _ => locksOk_step) hrun (locksOk_initial service)
  refine ⟨withinBudget_of_budgeted hnew hbudget, fun key hcache hkeeps => ?_, fun key hhands => ?_⟩
  · subst hcache
    have hstep : ∀ (state : State κ) action next, step service true state action = some next →
        KeepsDecode key state action → Followed key state → Followed key next :=
      fun _ _ _ => followed_step
    refine isSingle_of_followed hlocks (run_invariant_along hstep hrun hkeeps ?_)
    exact ⟨fun _ _ h => (nomatch h), fun _ _ h => (nomatch h)⟩
  · have hstep : ∀ (state : State κ) action next, step service hasCache state action = some next →
        HandsOver key state action → state.LocksOk ∧ Handed key state →
          next.LocksOk ∧ Handed key next :=
      fun _ _ _ hnext hmeets hinv =>
        ⟨locksOk_step hnext hinv.1, handed_step hnext hmeets hinv.1 hinv.2⟩
    have hhanded : last.LocksOk ∧ Handed key last :=
      run_invariant_along hstep hrun hhands ⟨locksOk_initial service, fun _ h => (nomatch h)⟩
    intro hentry
    obtain ⟨lock, hlock⟩ := Option.isSome_iff_exists.mp hentry
    obtain ⟨id, request, hrequest, hkey, -⟩ := hhanded.2 lock hlock
    exact ⟨id, request, hrequest, hkey⟩

/-- A request alone, while its decode is running. -/
theorem renders_bounded_alone :
    ∃ service last, ThumbnailService.new 4096 = .ok service ∧
      run (step service true) (State.initial service)
        [.arrive 0 7 1000 true, .acquire 0, .lookup 0 false, .reserve 0] = some last ∧
      WithinBudget service 4096 last ∧ last.IsSingle 7 ∧ last.IsTracked 7 := by
  have hruns : ∃ service last, ThumbnailService.new 4096 = .ok service ∧
      run (step service true) (State.initial service)
        [.arrive 0 7 1000 true, .acquire 0, .lookup 0 false, .reserve 0] = some last :=
    ⟨_, _, rfl, rfl⟩
  obtain ⟨service, last, hnew, hlast⟩ := hruns
  obtain ⟨hbudget, hsingle, htracked⟩ := renders_bounded hnew hlast
  refine ⟨service, last, hnew, hlast, hbudget, hsingle 7 rfl ?_, htracked 7 ?_⟩
  · exact ⟨fun _ => rfl, fun _ _ => ⟨trivial, fun _ _ => ⟨trivial, fun _ _ =>
      ⟨trivial, fun _ _ => trivial⟩⟩⟩⟩
  · exact ⟨trivial, fun _ _ => ⟨trivial, fun _ _ => ⟨trivial, fun _ _ =>
      ⟨trivial, fun _ _ => trivial⟩⟩⟩⟩

/-- Two decodes of one key run after the first request was dropped; an entry without a request
stays after a request was dropped, and after two requests tested the count at the same time. -/
theorem decodes_of_one_key_overlap :
    ∃ service, ThumbnailService.new 4096 = .ok service ∧
      (∃ last, run (step service true) (State.initial service)
        [.arrive 0 7 1000 true, .acquire 0, .lookup 0 false, .reserve 0, .cancel 0, .leave 0,
          .arrive 1 7 1000 true, .acquire 1, .lookup 1 false, .reserve 1] = some last ∧
        ¬ last.IsSingle 7) ∧
      (∃ last, run (step service true) (State.initial service)
        [.arrive 0 7 1000 true, .acquire 0, .cancel 0, .leave 0] = some last ∧
        ¬ last.IsTracked 7) ∧
      ∃ last, run (step service true) (State.initial service)
        [.arrive 0 7 1000 true, .acquire 0, .arrive 1 7 1000 true, .lookup 0 true, .unlock 0,
          .acquire 1, .lookup 1 true, .unlock 1, .release 0, .release 1, .leave 0, .leave 1] =
          some last ∧
        ¬ last.IsTracked 7 := by
  refine ⟨_, rfl, ⟨_, rfl, fun h => ?_⟩, ⟨_, rfl, fun h => ?_⟩, ⟨_, rfl, fun h => ?_⟩⟩
  · exact absurd (h 0 1 _ _ rfl rfl rfl rfl rfl rfl) (by decide)
  · obtain ⟨_, _, hrequest, -⟩ := h rfl
    cases hrequest
  · obtain ⟨_, _, hrequest, -⟩ := h rfl
    cases hrequest

end Crabinet.Thumbnail
