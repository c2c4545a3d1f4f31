import Crabinet.Thumbnail.Render

/-!
# The locks of the keys in flight

Requests for a key share the lock of its entry in `in_flight`. The entry is removed by a request
that counts no other handle, so that a request which may still wait for the lock never finds it
replaced.
-/

namespace Crabinet.Thumbnail

open Library

variable {κ : Type} [DecidableEq κ]

/-- Every request that has still to test its handles has the lock that `in_flight` has for its
key, and one request at most has the guard of a lock. -/
structure Locked (inFlight : KeyedMap κ ℕ) (requests : KeyedMap ℕ (Request κ)) (nextLock : ℕ) :
    Prop where
  fresh : ∀ key lock, inFlight.get? key = some lock → lock < nextLock
  distinct : ∀ key other lock, inFlight.get? key = some lock → inFlight.get? other = some lock →
    key = other
  held : ∀ id request lock, requests.get? id = some request → request.phase ≠ .leaving →
    request.flight = some lock → inFlight.get? request.key = some lock
  alone : ∀ id other request rival lock, requests.get? id = some request →
    requests.get? other = some rival → request.flight = some lock → rival.flight = some lock →
    request.phase.hasGuard = true → rival.phase.hasGuard = true → id = other

namespace Locked

variable {inFlight : KeyedMap κ ℕ} {requests : KeyedMap ℕ (Request κ)} {nextLock : ℕ}

theorem erase (h : Locked inFlight requests nextLock) (id : ℕ) :
    Locked inFlight (requests.erase id) nextLock where
  fresh := h.fresh
  distinct := h.distinct
  held other request lock hget := h.held other request lock (KeyedMap.get?_of_erase hget)
  alone first second request rival lock hfirst hsecond :=
    h.alone first second request rival lock (KeyedMap.get?_of_erase hfirst)
      (KeyedMap.get?_of_erase hsecond)

theorem insert (h : Locked inFlight requests nextLock) {id : ℕ} {request : Request κ}
    (hheld : request.phase ≠ .leaving → ∀ lock, request.flight = some lock →
      inFlight.get? request.key = some lock)
    (halone : ∀ lock, request.flight = some lock → request.phase.hasGuard = true →
      ∀ other rival, other ≠ id → requests.get? other = some rival → rival.flight = some lock →
        rival.phase.hasGuard = false) :
    Locked inFlight (requests.insert id request) nextLock where
  fresh := h.fresh
  distinct := h.distinct
  held other found lock hget hphase hflight := by
    by_cases hid : other = id
    · subst hid
      rw [KeyedMap.get?_insert_self] at hget
      obtain rfl := Option.some.inj hget
      exact hheld hphase lock hflight
    · rw [KeyedMap.get?_insert_ne _ hid] at hget
      exact h.held other found lock hget hphase hflight
  alone first second found rival lock hfirst hsecond hflight hrival hguard hother := by
    by_cases hid : first = id
    · subst hid
      rw [KeyedMap.get?_insert_self] at hfirst
      obtain rfl := Option.some.inj hfirst
      by_contra hne
      have hne' : second ≠ first := fun heq => hne heq.symm
      rw [KeyedMap.get?_insert_ne _ hne'] at hsecond
      rw [halone lock hflight hguard second rival hne' hsecond hrival] at hother
      cases hother
    · rw [KeyedMap.get?_insert_ne _ hid] at hfirst
      by_cases hid' : second = id
      · subst hid'
        rw [KeyedMap.get?_insert_self] at hsecond
        obtain rfl := Option.some.inj hsecond
        rw [halone lock hrival hother first found hid hfirst hflight] at hguard
        cases hguard
      · rw [KeyedMap.get?_insert_ne _ hid'] at hsecond
        exact h.alone first second found rival lock hfirst hsecond hflight hrival hguard hother

/-- A request goes on with its lock: it keeps the guard, takes a free one or gives it back. -/
theorem advance (h : Locked inFlight requests nextLock) {id : ℕ} {request : Request κ}
    (hrequest : requests.get? id = some request) {phase : Phase}
    (hphase : phase ≠ .leaving → request.phase ≠ .leaving)
    (hguard : phase.hasGuard = true → request.phase.hasGuard = true ∨
      ∀ lock, request.flight = some lock → ∀ other rival, requests.get? other = some rival →
        rival.flight = some lock → rival.phase.hasGuard = false) :
    Locked inFlight (requests.insert id { request with phase }) nextLock := by
  refine h.insert (fun hnot lock hflight => h.held id request lock hrequest (hphase hnot) hflight) ?_
  intro lock hflight hhas other rival hne hrival hsame
  rcases hguard hhas with hbefore | hfree
  · by_contra hrivalGuard
    exact hne (h.alone other id rival request lock hrival hrequest hsame hflight
      (by simpa using hrivalGuard) hbefore)
  · exact hfree lock hflight other rival hrival hsame

end Locked

/-- The locks are in order. -/
def State.LocksOk (state : State κ) : Prop := Locked state.inFlight state.requests state.nextLock

namespace State

/-- A request parts with its guard, or with its lock. -/
theorem LocksOk.part {state : State κ} (h : state.LocksOk) {id : ℕ} {request : Request κ}
    (hrequest : state.requests.get? id = some request) {phase : Phase}
    (hphase : phase ≠ .leaving → request.phase ≠ .leaving) (hguard : phase.hasGuard = false) :
    (state.part id request phase).LocksOk := by
  unfold State.part
  split
  · exact h.advance hrequest hphase (by rw [hguard]; nofun)
  · exact h.erase id

theorem LocksOk.settle {state : State κ} (h : state.LocksOk) (id : ℕ) :
    (state.settle id).LocksOk := by
  unfold LocksOk
  rw [settle_inFlight, settle_requests, settle_nextLock]
  exact h

/-- A new request shares the lock of its key, or brings a new one. -/
theorem LocksOk.enter {state : State κ} (h : state.LocksOk) (id : ℕ) (key : κ) (estimate : ℕ) :
    (state.enter id key estimate).LocksOk := by
  unfold State.enter
  split
  · rename_i lock hlock
    refine h.insert (fun _ other hother => ?_) nofun
    obtain rfl := Option.some.inj hother
    exact hlock
  · rename_i hnone
    have hnew : Locked (state.inFlight.insert key state.nextLock) state.requests
        (state.nextLock + 1) := by
      have hkey : ∀ other, other ≠ key →
          (state.inFlight.insert key state.nextLock).get? other = state.inFlight.get? other :=
        fun other hne => KeyedMap.get?_insert_ne _ hne _
      constructor
      · intro other lock hget
        by_cases heq : other = key
        · subst heq
          rw [KeyedMap.get?_insert_self] at hget
          have := Option.some.inj hget
          omega
        · exact (h.fresh other lock (hkey other heq ▸ hget)).trans (Nat.lt_succ_self _)
      · intro first second lock hfirst hsecond
        by_cases hone : first = key
        · by_cases htwo : second = key
          · rw [hone, htwo]
          · subst hone
            rw [KeyedMap.get?_insert_self] at hfirst
            have hlt := h.fresh second lock (hkey second htwo ▸ hsecond)
            have := Option.some.inj hfirst
            omega
        · have hold := hkey first hone ▸ hfirst
          by_cases htwo : second = key
          · subst htwo
            rw [KeyedMap.get?_insert_self] at hsecond
            have hlt := h.fresh first lock hold
            have := Option.some.inj hsecond
            omega
          · exact h.distinct first second lock hold (hkey second htwo ▸ hsecond)
      · intro other request lock hget hphase hflight
        have hheld := h.held other request lock hget hphase hflight
        have hne : request.key ≠ key := fun heq => by
          rw [heq, hnone] at hheld
          cases hheld
        rw [hkey _ hne]
        exact hheld
      · exact h.alone
    refine hnew.insert (fun _ other hother => ?_) nofun
    obtain rfl := Option.some.inj hother
    exact KeyedMap.get?_insert_self _ _ _

/-- The count finds a request that is not alone with its lock. -/
theorem lt_strongCount {state : State κ} {id other lock : ℕ} {request rival : Request κ}
    (hentry : state.inFlight.get? request.key = some lock)
    (hrequest : state.requests.get? id = some request) (hflight : request.flight = some lock)
    (hrival : state.requests.get? other = some rival) (hsame : rival.flight = some lock)
    (hne : other ≠ id) : 2 < state.strongCount lock := by
  have hone : 1 ≤ state.inFlight.total fun _ found => if found = lock then 1 else 0 := by
    simpa using KeyedMap.le_total hentry fun _ found => if found = lock then 1 else 0
  have hhandles : ∀ request : Request κ, 1 ≤ request.handles := fun request => by
    unfold Request.handles
    split <;> omega
  have htwo := KeyedMap.add_le_total hrequest hrival hne fun _ request =>
    if request.flight = some lock then request.handles else 0
  simp only [hflight, hsame, if_true] at htwo
  have := hhandles request
  have := hhandles rival
  unfold strongCount
  omega

/-- The count finds a request that is alone with its lock. -/
theorem strongCount_le {state : State κ} (h : state.LocksOk) {id lock : ℕ} {request : Request κ}
    (hentry : state.inFlight.get? request.key = some lock)
    (hrequest : state.requests.get? id = some request) (hphase : request.phase = .releasing)
    (halone : ∀ other rival, other ≠ id → state.requests.get? other = some rival →
      rival.flight ≠ some lock) : state.strongCount lock ≤ 2 := by
  have hone : (state.inFlight.total fun _ found => if found = lock then 1 else 0) ≤ 1 := by
    have hle := KeyedMap.total_le_of_forall_ne hentry
      (fun _ found => if found = lock then 1 else 0) fun other found hne hget => by
        refine if_neg fun heq => hne ?_
        subst heq
        exact h.distinct other request.key found hget hentry
    simpa using hle
  have htwo := KeyedMap.total_le_of_forall_ne hrequest
    (fun _ request => if request.flight = some lock then request.handles else 0)
    fun other rival hne hget => if_neg (halone other rival hne hget)
  have hhandles : request.handles = 1 := if_pos (.inl hphase)
  rw [hhandles] at htwo
  have : (if request.flight = some lock then 1 else 0) ≤ 1 := by split <;> omega
  unfold strongCount
  omega

/-- An entry is removed only by a request that is alone with its lock. -/
theorem LocksOk.releaseInFlight {state : State κ} (h : state.LocksOk) {id lock : ℕ}
    {request : Request κ} (hrequest : state.requests.get? id = some request)
    (hphase : request.phase = .releasing) (hflight : request.flight = some lock) :
    (state.releaseInFlight id request lock).LocksOk := by
  have hleft : (state.advance id request .leaving).LocksOk :=
    h.advance hrequest (absurd rfl) nofun
  have hentry := h.held id request lock hrequest (by rw [hphase]; nofun) hflight
  unfold State.releaseInFlight
  dsimp only
  split
  · rename_i hcount
    constructor
    · exact fun key other hget => h.fresh key other (KeyedMap.get?_of_erase hget)
    · exact fun first second other hfirst hsecond => h.distinct first second other
        (KeyedMap.get?_of_erase hfirst) (KeyedMap.get?_of_erase hsecond)
    · intro other rival otherLock hget hnot hother
      have hne : other ≠ id := by
        rintro rfl
        rw [State.advance, KeyedMap.get?_insert_self] at hget
        obtain rfl := Option.some.inj hget
        exact hnot rfl
      have hold : state.requests.get? other = some rival := KeyedMap.get?_insert_ne _ hne _ ▸ hget
      have hheld := h.held other rival otherLock hold hnot hother
      have hkey : rival.key ≠ request.key := fun heq => by
        rw [heq, hentry] at hheld
        obtain rfl := Option.some.inj hheld
        exact absurd hcount
          (not_le.mpr (lt_strongCount hentry hrequest hflight hold hother hne))
      exact (KeyedMap.get?_erase_ne _ hkey).trans hheld
    · exact hleft.alone
  · exact hleft

end State

/-- Every step keeps the locks in order. -/
theorem locksOk_step {service : ThumbnailService} {hasCache : Bool} {state after : State κ}
    {action : Action κ} (h : step service hasCache state action = some after)
    (hlocks : state.LocksOk) : after.LocksOk := by
  cases action with
  | arrive id key estimate cacheable =>
    obtain ⟨-, hafter⟩ := Option.ite_none_right_eq_some.mp h
    obtain rfl := Option.some.inj hafter
    split
    · exact hlocks.enter id key estimate
    · exact hlocks.insert (fun _ _ hflight => nomatch hflight) fun _ hflight => nomatch hflight
  | acquire id =>
    obtain ⟨request, hrequest, hguard, rfl⟩ := State.onRequest_eq_some.mp h
    simp only [Bool.and_eq_true, decide_eq_true_eq] at hguard
    refine hlocks.advance hrequest (fun _ => by rw [hguard.1]; nofun) fun _ => .inr ?_
    intro lock hflight
    have hfree := hguard.2
    rw [hflight] at hfree
    exact State.isLocked_eq_false.mp (by simpa using hfree)
  | lockTimeout id =>
    obtain ⟨request, hrequest, -, rfl⟩ := State.onRequest_eq_some.mp h
    exact hlocks.advance hrequest (absurd rfl) nofun
  | lookup id done =>
    obtain ⟨request, hrequest, hguard, rfl⟩ := State.onRequest_eq_some.mp h
    have hphase := of_decide_eq_true hguard
    exact hlocks.advance hrequest (fun _ => by rw [hphase]; nofun)
      fun _ => .inl (by rw [hphase]; rfl)
  | reserve id =>
    obtain ⟨request, hrequest, hguard, rfl⟩ := State.onRequest_eq_some.mp h
    simp only [Bool.and_eq_true, decide_eq_true_eq] at hguard
    exact hlocks.advance hrequest (fun _ => by rw [hguard.1]; nofun)
      fun _ => .inl (by rw [hguard.1]; rfl)
  | reserveTimeout id =>
    obtain ⟨request, hrequest, hguard, rfl⟩ := State.onRequest_eq_some.mp h
    have hphase := of_decide_eq_true hguard
    exact hlocks.advance hrequest (fun _ => by rw [hphase]; nofun)
      fun _ => .inl (by rw [hphase]; rfl)
  | decodeEnds id panics =>
    simp only [step] at h
    split at h
    · obtain ⟨-, hafter⟩ := Option.ite_none_right_eq_some.mp h
      obtain rfl := Option.some.inj hafter
      unfold State.LocksOk
      rw [State.endDecode_inFlight, State.endDecode_requests, State.endDecode_nextLock]
      exact hlocks
    · cases h
  | resume id =>
    obtain ⟨request, hrequest, hguard, rfl⟩ := State.onRequest_eq_some.mp h
    simp only [Bool.and_eq_true, decide_eq_true_eq] at hguard
    refine (hlocks.settle id).advance (by rwa [State.settle_requests])
      (fun _ => by rw [hguard.1]; nofun) fun _ => .inl (by rw [hguard.1]; rfl)
  | unlock id =>
    obtain ⟨request, hrequest, hguard, rfl⟩ := State.onRequest_eq_some.mp h
    exact hlocks.part hrequest (fun _ => by rw [of_decide_eq_true hguard]; nofun) rfl
  | release id =>
    obtain ⟨request, hrequest, hguard, rfl⟩ := State.onRequest_eq_some.mp h
    split
    · exact hlocks.releaseInFlight hrequest (of_decide_eq_true hguard) (by assumption)
    · exact hlocks
  | leave id =>
    obtain ⟨request, -, -, rfl⟩ := State.onRequest_eq_some.mp h
    exact hlocks.erase id
  | cancel id =>
    obtain ⟨request, hrequest, -, rfl⟩ := State.onRequest_eq_some.mp h
    exact (hlocks.settle id).part (by rwa [State.settle_requests]) (absurd rfl) rfl

end Crabinet.Thumbnail
