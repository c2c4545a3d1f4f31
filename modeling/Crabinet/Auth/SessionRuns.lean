import Crabinet.Auth.SessionStore
import Crabinet.Library.Transition

/-!
# Runs of the authentication service

A request reads the clock, looks its session up, and records its time of use, in three
steps; an expired session is deleted in a step of its own. Steps of other requests,
sign-ins and sign-outs come in between. Whether a request is accepted is decided by the
lookup and answered after the last step, whatever that step finds.
-/

namespace Crabinet.Auth

open Crabinet.Library

variable {κ : Type}

/-- The configuration of `AuthService` that sessions depend on, with the bounds it is checked for. -/
structure AuthService where
  /-- Whether a user is configured and not disabled. -/
  isActive : String → Bool
  idleTimeout : ℤ
  absoluteTimeout : ℤ
  maxSessionsPerUser : ℕ
  maxSessionsTotal : ℕ
  perUser : 1 ≤ maxSessionsPerUser
  total : 1 ≤ maxSessionsTotal

/-- What happened, for the record. -/
inductive Event (κ : Type) where
  /-- A request was answered, with its clock reading and the row that its lookup found. -/
  | accepted (key : κ) (now : ℤ) (row : Session κ)
  /-- Sessions were refused or removed as idle, at a clock reading. -/
  | idle (keys : List κ) (now : ℤ)
  /-- Sessions were deleted. -/
  | ended (keys : List κ)

/-- The service and its requests. -/
structure AuthState (κ : Type) where
  clock : ℤ
  store : SessionStore κ
  /-- Requests that have read the clock. -/
  reading : List (κ × ℤ)
  /-- Refused requests with the clock reading and the row, which they have yet to delete. -/
  refusing : List (κ × ℤ × Session κ)
  /-- Requests with the clock reading and the row of an accepted lookup. -/
  touching : List (κ × ℤ × Session κ)
  /-- The keys of all sessions so far. -/
  issued : List κ
  /-- Latest first. -/
  history : List (Event κ)

/-- A step. -/
inductive AuthAction (κ : Type) where
  | tick (clock : ℤ)
  /-- `issue_session`, with the clock reading it has made. -/
  | signIn (oldKey : Option κ) (newKey : κ) (username : String) (now : ℤ)
  /-- `validate_session` reads the clock. -/
  | request (key : κ)
  | lookup (key : κ) (now : ℤ)
  | delete (key : κ) (now : ℤ) (row : Session κ)
  | touch (key : κ) (now : ℤ) (row : Session κ)
  /-- `logout`. -/
  | signOut (key : κ)

namespace AuthService

variable (service : AuthService)

/-- Whether `validate_session` refuses a row as idle. -/
def isIdle (row : Session κ) (now : ℤ) : Bool := now - row.lastSeenAt ≥ service.idleTimeout

/-- Whether `validate_session` accepts a row. -/
def isValid (row : Session κ) (now : ℤ) : Bool :=
  !(now ≥ row.expiresAt || service.isIdle row now || now < row.createdAt) &&
    service.isActive row.username

/-- An empty store at some time. -/
def initial (clock : ℤ) : AuthState κ := ⟨clock, .empty, [], [], [], [], []⟩

/-- What every state that is reached satisfies. -/
structure Sound (state : AuthState κ) : Prop where
  caps : state.store.WithinCaps service.maxSessionsPerUser service.maxSessionsTotal
  issued : ∀ row ∈ state.store.rows, row.key ∈ state.issued
  touching : ∀ key now row, (key, now, row) ∈ state.touching →
    service.isValid row now = true ∧ key ∈ state.issued
  accepted : ∀ key now row, .accepted key now row ∈ state.history →
    service.isValid row now = true ∧ key ∈ state.issued
  ended : ∀ keys, .ended keys ∈ state.history → ∀ key ∈ keys,
    key ∈ state.issued ∧ ∀ row ∈ state.store.rows, row.key ≠ key

/-- What an event must be after others: no request is answered for a deleted session, and no session
is idle sooner after an accepted request than the timeout. -/
def Good (event : Event κ) (earlier : List (Event κ)) : Prop :=
  match event with
  | .accepted key _ _ => ∀ keys, .ended keys ∈ earlier → key ∉ keys
  | .idle keys now => ∀ key ∈ keys, ∀ seen row, .accepted key seen row ∈ earlier →
    seen + service.idleTimeout ≤ now
  | .ended _ => True

/-- Every event is as it must be, and each row has been used no later than it says. -/
structure InOrder (state : AuthState κ) : Prop where
  good : ∀ event earlier, (event :: earlier) <:+ state.history → service.Good event earlier
  seen : ∀ key seen found, .accepted key seen found ∈ state.history →
    ∀ row ∈ state.store.rows, row.key = key → seen ≤ row.lastSeenAt

variable {service} {state next : AuthState κ}

theorem sound_initial (clock : ℤ) : service.Sound (initial clock : AuthState κ) where
  caps := ⟨fun _ => Nat.zero_le _, Nat.zero_le _⟩
  issued := fun _ hrow => (List.not_mem_nil hrow).elim
  touching := fun _ _ _ hmem => (List.not_mem_nil hmem).elim
  accepted := fun _ _ _ hmem => (List.not_mem_nil hmem).elim
  ended := fun _ hmem => (List.not_mem_nil hmem).elim

theorem inOrder_initial (clock : ℤ) : service.InOrder (initial clock : AuthState κ) where
  good := fun _ _ hsuffix => by simpa [initial] using hsuffix.length_le
  seen := fun _ _ _ hmem => (List.not_mem_nil hmem).elim

/-- A new event is judged by what came before. -/
theorem InOrder.cons (h : service.InOrder state) {event : Event κ}
    (hgood : service.Good event state.history) (event' : Event κ) (earlier : List (Event κ))
    (hsuffix : (event' :: earlier) <:+ (event :: state.history)) : service.Good event' earlier := by
  rcases List.suffix_cons_iff.mp hsuffix with heq | hsuffix
  · obtain ⟨rfl, rfl⟩ := List.cons.inj heq
    exact hgood
  · exact h.good event' earlier hsuffix

variable [LinearOrder κ] (service)

/-- The rotation of a sign-in. -/
def rotation (oldKey : Option κ) (newKey : κ) (username : String) (now : ℤ) : SessionRotation κ :=
  { oldKey, newKey, username, now
    expiresAt := now + service.absoluteTimeout
    idleCutoff := now - service.idleTimeout
    maxSessionsPerUser := service.maxSessionsPerUser
    maxSessionsTotal := service.maxSessionsTotal }

/-- The keys of rows. -/
def keysOf (rows : List (Session κ)) : List κ := rows.map Session.key

/-- A session is deleted, if it is there. -/
def remove (state : AuthState κ) (key : κ) : AuthState κ :=
  { state with
    store := state.store.delete key
    history :=
      if (state.store.lookup key).isSome then .ended [key] :: state.history else state.history }

/-- One step; none where it is not possible. -/
def step (state : AuthState κ) : AuthAction κ → Option (AuthState κ)
  | .tick clock => if state.clock ≤ clock then some { state with clock } else none
  | .signIn oldKey newKey username now =>
    -- The random keys never repeat.
    if state.clock < now ∨ newKey ∈ state.issued then none
    else do
      let store ← state.store.rotate (service.rotation oldKey newKey username now)
      let gone := state.store.rows.filter fun row => row.key ∉ keysOf store.rows
      let idle := gone.filter fun row => row.lastSeenAt ≤ now - service.idleTimeout
      return { state with
        store, issued := newKey :: state.issued
        history := .ended (keysOf gone) :: .idle (keysOf idle) now :: state.history }
  | .request key => some { state with reading := (key, state.clock) :: state.reading }
  | .lookup key now =>
    if (key, now) ∈ state.reading then
      let state := { state with reading := state.reading.erase (key, now) }
      match state.store.lookup key with
      | none => some state
      | some row =>
        if service.isValid row now then
          some { state with touching := (key, now, row) :: state.touching }
        else
          some { state with
            refusing := (key, now, row) :: state.refusing
            history := if service.isIdle row now then .idle [key] now :: state.history else state.history }
    else none
  | .delete key now row =>
    if (key, now, row) ∈ state.refusing then
      let next := remove { state with refusing := state.refusing.erase (key, now, row) } key
      if service.isIdle row now && (state.store.lookup key).isSome then
        some { next with history := .idle [key] now :: next.history }
      else some next
    else none
  | .touch key now row =>
    if (key, now, row) ∈ state.touching then
      some { state with
        store := state.store.touch key now
        touching := state.touching.erase (key, now, row)
        history := .accepted key now row :: state.history }
    else none
  | .signOut key => some (remove state key)

/-- A request that records its time of use finds its session, last used no later; one that deletes
its session finds it last used no later than when it was looked up. -/
def Undisturbed (state : AuthState κ) : AuthAction κ → Prop
  | .touch key now _ => ∃ row, state.store.lookup key = some row ∧ row.lastSeenAt ≤ now
  | .delete key _ found => ∀ row, state.store.lookup key = some row → row.lastSeenAt ≤ found.lastSeenAt
  | _ => True

instance (state : AuthState κ) (action : AuthAction κ) : Decidable (Undisturbed state action) :=
  match action with
  | .touch key now _ =>
    match hlookup : state.store.lookup key with
    | some row => decidable_of_iff (row.lastSeenAt ≤ now) (by simp [Undisturbed, hlookup])
    | none => isFalse (by simp [Undisturbed, hlookup])
  | .delete key _ found =>
    match hlookup : state.store.lookup key with
    | some row => decidable_of_iff (row.lastSeenAt ≤ found.lastSeenAt) (by simp [Undisturbed, hlookup])
    | none => isTrue (by simp [Undisturbed, hlookup])
  | .tick _ | .signIn _ _ _ _ | .request _ | .lookup _ _ | .signOut _ => isTrue trivial

variable {service}

/-! ### Deletion -/

theorem Sound.remove (h : service.Sound state) (key : κ) : service.Sound (remove state key) := by
  have hsubset : ∀ row ∈ (state.store.delete key).rows, row ∈ state.store.rows :=
    fun row hrow => (SessionStore.mem_delete.mp hrow).1
  refine ⟨h.caps.delete key, fun row hrow => h.issued row (hsubset row hrow), h.touching, ?_, ?_⟩
  · intro other now row hmem
    simp only [AuthService.remove] at hmem
    split at hmem
    · exact h.accepted other now row (by simpa using hmem)
    · exact h.accepted other now row hmem
  · intro keys hmem other hother
    simp only [AuthService.remove] at hmem
    split at hmem
    · rename_i hsome
      rcases List.mem_cons.mp hmem with hhead | hmem
      · obtain rfl : keys = [key] := by simpa using hhead
        obtain rfl := List.mem_singleton.mp hother
        obtain ⟨row, hrow⟩ := Option.isSome_iff_exists.mp hsome
        obtain ⟨hrow, hkey⟩ := SessionStore.lookup_eq_some.mp hrow
        exact ⟨hkey ▸ h.issued row hrow, fun found hfound => (SessionStore.mem_delete.mp hfound).2⟩
      · obtain ⟨hissued, hnone⟩ := h.ended keys hmem other hother
        exact ⟨hissued, fun row hrow => hnone row (hsubset row hrow)⟩
    · obtain ⟨hissued, hnone⟩ := h.ended keys hmem other hother
      exact ⟨hissued, fun row hrow => hnone row (hsubset row hrow)⟩

theorem InOrder.remove (h : service.InOrder state) (key : κ) : service.InOrder (remove state key) := by
  have hseen : ∀ other seen found, .accepted other seen found ∈ state.history →
      ∀ row ∈ (state.store.delete key).rows, row.key = other → seen ≤ row.lastSeenAt :=
    fun other seen found hmem row hrow hkey =>
      h.seen other seen found hmem row (SessionStore.mem_delete.mp hrow).1 hkey
  unfold AuthService.remove
  split
  · refine ⟨h.cons trivial, fun other seen found hmem => ?_⟩
    exact hseen other seen found (by simpa using hmem)
  · exact ⟨h.good, hseen⟩

/-- The deletion by a refused request is a deletion, perhaps of an idle session. -/
theorem delete_eq_some {key : κ} {now : ℤ} {row : Session κ}
    (h : service.step state (.delete key now row) = some next) :
    ∃ middle, middle = remove { state with refusing := state.refusing.erase (key, now, row) } key ∧
      ((service.isIdle row now = true ∧ (∃ found, state.store.lookup key = some found) ∧
          next = { middle with history := .idle [key] now :: middle.history }) ∨ next = middle) := by
  simp only [step] at h
  split at h
  · refine ⟨_, rfl, ?_⟩
    split at h
    · rename_i hidle
      rw [Bool.and_eq_true, Option.isSome_iff_exists] at hidle
      exact .inl ⟨hidle.1, hidle.2, (Option.some.inj h).symm⟩
    · exact .inr (Option.some.inj h).symm
  · cases h

theorem Sound.delete (h : service.Sound state) {key : κ} {now : ℤ} {row : Session κ}
    (hstep : service.step state (.delete key now row) = some next) : service.Sound next := by
  obtain ⟨middle, hmiddle, hnext⟩ := delete_eq_some hstep
  have hsound : service.Sound middle := by
    have hrest : service.Sound { state with refusing := state.refusing.erase (key, now, row) } :=
      ⟨h.caps, h.issued, h.touching, h.accepted, h.ended⟩
    exact hmiddle ▸ hrest.remove key
  rcases hnext with ⟨-, -, rfl⟩ | rfl
  · refine ⟨hsound.caps, hsound.issued, hsound.touching, fun other seen found hmem => ?_,
      fun keys hmem => ?_⟩
    · exact hsound.accepted other seen found (by simpa using hmem)
    · exact hsound.ended keys (by simpa using hmem)
  · exact hsound

/-- No deletion adds an accepted request. -/
theorem mem_remove {key other : κ} {seen : ℤ} {found : Session κ}
    (h : .accepted other seen found ∈ (remove state key).history) :
    .accepted other seen found ∈ state.history := by
  simp only [AuthService.remove] at h
  split at h
  · simpa using h
  · exact h

theorem InOrder.delete (h : service.InOrder state) {key : κ} {now : ℤ} {row : Session κ}
    (hmeets : Undisturbed state (.delete key now row))
    (hstep : service.step state (.delete key now row) = some next) : service.InOrder next := by
  obtain ⟨middle, hmiddle, hnext⟩ := delete_eq_some hstep
  have horder : service.InOrder middle := by
    have hrest : service.InOrder { state with refusing := state.refusing.erase (key, now, row) } :=
      ⟨h.good, h.seen⟩
    exact hmiddle ▸ hrest.remove key
  rcases hnext with ⟨hidle, ⟨found, hfound⟩, rfl⟩ | rfl
  · have hgood : service.Good (.idle [key] now) middle.history := by
      intro other hother seen accepted haccepted
      obtain rfl := List.mem_singleton.mp hother
      rw [hmiddle] at haccepted
      obtain ⟨hmem, hkey⟩ := SessionStore.lookup_eq_some.mp hfound
      have hseen := h.seen other seen accepted (mem_remove haccepted) found hmem hkey
      have hsame := hmeets found hfound
      simp only [isIdle, ge_iff_le, decide_eq_true_eq] at hidle
      omega
    exact ⟨horder.cons hgood, fun other seen accepted haccepted =>
      horder.seen other seen accepted (by simpa using haccepted)⟩
  · exact horder

/-! ### Sign-ins -/

section SignIn

variable {oldKey : Option κ} {newKey : κ} {username : String} {now : ℤ}

/-- What a sign-in does. -/
theorem signIn_eq_some (h : service.step state (.signIn oldKey newKey username now) = some next) :
    newKey ∉ state.issued ∧
      ∃ store, state.store.rotate (service.rotation oldKey newKey username now) = some store ∧
        ∃ gone idle, (∀ row ∈ gone, row ∈ state.store.rows ∧ row.key ∉ keysOf store.rows) ∧
          (∀ row ∈ idle, row ∈ state.store.rows ∧ row.lastSeenAt ≤ now - service.idleTimeout) ∧
          next = { state with
            store, issued := newKey :: state.issued
            history := .ended (keysOf gone) :: .idle (keysOf idle) now :: state.history } := by
  simp only [step] at h
  split at h
  · cases h
  · rename_i hguard
    obtain ⟨store, hstore, h⟩ := Option.bind_eq_some_iff.mp h
    obtain rfl := Option.some.inj h
    refine ⟨fun hmem => hguard (.inr hmem), store, hstore, _, _, fun row hrow => ?_, fun row hrow => ?_,
      rfl⟩
    · simpa using List.mem_filter.mp hrow
    · obtain ⟨hgone, hidle⟩ := List.mem_filter.mp hrow
      exact ⟨(List.mem_filter.mp hgone).1, by simpa using hidle⟩

/-- A row after a rotation is the new one or was there before. -/
theorem mem_of_rotate {store : SessionStore κ} {rotation : SessionRotation κ} {row : Session κ}
    (h : state.store.rotate rotation = some store) (hrow : row ∈ store.rows) :
    row = rotation.session ∨ row ∈ state.store.rows := by
  rw [SessionStore.rotate_eq_some h] at hrow
  rcases List.mem_cons.mp hrow with heq | hmem
  · exact .inl heq
  · exact .inr ((rotation.underBothCaps_sublist state.store.rows).subset hmem)

theorem Sound.signIn (h : service.Sound state)
    (hstep : service.step state (.signIn oldKey newKey username now) = some next) :
    service.Sound next := by
  obtain ⟨hfresh, store, hstore, gone, idle, hgone, hidle, rfl⟩ := signIn_eq_some hstep
  refine ⟨h.caps.rotate service.perUser service.total rfl rfl hstore, fun row hrow => ?_,
    fun key seen row hmem => ?_, fun key seen row hmem => ?_, fun keys hmem key hkey => ?_⟩
  · rcases mem_of_rotate hstore hrow with rfl | hrow
    · exact List.mem_cons_self
    · exact List.mem_cons_of_mem _ (h.issued row hrow)
  · obtain ⟨hvalid, hissued⟩ := h.touching key seen row hmem
    exact ⟨hvalid, List.mem_cons_of_mem _ hissued⟩
  · obtain ⟨hvalid, hissued⟩ := h.accepted key seen row (by simpa using hmem)
    exact ⟨hvalid, List.mem_cons_of_mem _ hissued⟩
  · rcases List.mem_cons.mp hmem with hhead | hmem
    · obtain rfl : keys = keysOf gone := by simpa using hhead
      obtain ⟨row, hrow, rfl⟩ := List.mem_map.mp hkey
      obtain ⟨hold, hnone⟩ := hgone row hrow
      refine ⟨List.mem_cons_of_mem _ (h.issued row hold), fun found hfound hsame => hnone ?_⟩
      exact hsame ▸ List.mem_map_of_mem hfound
    · obtain ⟨hissued, hnone⟩ := h.ended keys (by simpa using hmem) key hkey
      refine ⟨List.mem_cons_of_mem _ hissued, fun row hrow hsame => ?_⟩
      rcases mem_of_rotate hstore hrow with rfl | hrow
      · -- The new session's key was not issued before.
        have hkey : newKey = key := hsame
        exact hfresh (hkey ▸ hissued)
      · exact hnone row hrow hsame

theorem InOrder.signIn (h : service.InOrder state) (hsound : service.Sound state)
    (hstep : service.step state (.signIn oldKey newKey username now) = some next) :
    service.InOrder next := by
  obtain ⟨hfresh, store, hstore, gone, idle, hgone, hidle, rfl⟩ := signIn_eq_some hstep
  have hgood : service.Good (.idle (keysOf idle) now) state.history := by
    intro key hkey seen found hmem
    obtain ⟨row, hrow, rfl⟩ := List.mem_map.mp hkey
    obtain ⟨hold, hcutoff⟩ := hidle row hrow
    have hseen := h.seen row.key seen found hmem row hold rfl
    omega
  refine ⟨fun event earlier hsuffix => ?_, fun key seen found hmem row hrow hkey => ?_⟩
  · rcases List.suffix_cons_iff.mp hsuffix with heq | hsuffix
    · obtain ⟨rfl, -⟩ := List.cons.inj heq
      trivial
    · exact h.cons hgood event earlier hsuffix
  · have hmem : .accepted key seen found ∈ state.history := by simpa using hmem
    rcases mem_of_rotate hstore hrow with rfl | hrow
    · have hkey : newKey = key := hkey
      exact absurd (hkey ▸ (hsound.accepted key seen found hmem).2) hfresh
    · exact h.seen key seen found hmem row hrow hkey

end SignIn

/-! ### Requests -/

section Requests

variable {key : κ} {now : ℤ} {row : Session κ}

theorem Sound.lookup (h : service.Sound state)
    (hstep : service.step state (.lookup key now) = some next) : service.Sound next := by
  simp only [step] at hstep
  split at hstep
  · split at hstep
    · obtain rfl := Option.some.inj hstep
      exact ⟨h.caps, h.issued, h.touching, h.accepted, h.ended⟩
    · rename_i found hfound
      obtain ⟨hmem, hkey⟩ := SessionStore.lookup_eq_some.mp hfound
      split at hstep
      · rename_i hvalid
        obtain rfl := Option.some.inj hstep
        refine ⟨h.caps, h.issued, fun other seen row htouching => ?_, h.accepted, h.ended⟩
        rcases List.mem_cons.mp htouching with heq | htouching
        · simp only [Prod.mk.injEq] at heq
          obtain ⟨rfl, rfl, rfl⟩ := heq
          exact ⟨hvalid, hkey ▸ h.issued row hmem⟩
        · exact h.touching other seen row htouching
      · obtain rfl := Option.some.inj hstep
        refine ⟨h.caps, h.issued, h.touching, fun other seen row haccepted => ?_,
          fun keys hended => ?_⟩
        · dsimp only at haccepted
          split at haccepted
          · exact h.accepted other seen row (by simpa using haccepted)
          · exact h.accepted other seen row haccepted
        · dsimp only at hended
          split at hended
          · exact h.ended keys (by simpa using hended)
          · exact h.ended keys hended
  · cases hstep

theorem InOrder.lookup (h : service.InOrder state)
    (hstep : service.step state (.lookup key now) = some next) : service.InOrder next := by
  simp only [step] at hstep
  split at hstep
  · split at hstep
    · obtain rfl := Option.some.inj hstep
      exact ⟨h.good, h.seen⟩
    · rename_i found hfound
      obtain ⟨hmem, hkey⟩ := SessionStore.lookup_eq_some.mp hfound
      split at hstep
      · obtain rfl := Option.some.inj hstep
        exact ⟨h.good, h.seen⟩
      · obtain rfl := Option.some.inj hstep
        by_cases hidle : service.isIdle found now = true
        · have hgood : service.Good (.idle [key] now) state.history := by
            intro other hother seen row haccepted
            obtain rfl := List.mem_singleton.mp hother
            have hseen := h.seen other seen row haccepted found hmem hkey
            simp only [isIdle, ge_iff_le, decide_eq_true_eq] at hidle
            omega
          rw [if_pos hidle]
          exact ⟨h.cons hgood, fun other seen row haccepted => h.seen other seen row (by simpa using haccepted)⟩
        · rw [if_neg hidle]
          exact ⟨h.good, h.seen⟩
  · cases hstep

theorem touch_eq_some (h : service.step state (.touch key now row) = some next) :
    (key, now, row) ∈ state.touching ∧
      next = { state with
        store := state.store.touch key now
        touching := state.touching.erase (key, now, row)
        history := .accepted key now row :: state.history } := by
  simp only [step] at h
  split at h
  · rename_i hmem
    exact ⟨hmem, (Option.some.inj h).symm⟩
  · cases h

theorem Sound.touch (h : service.Sound state)
    (hstep : service.step state (.touch key now row) = some next) : service.Sound next := by
  obtain ⟨hmem, rfl⟩ := touch_eq_some hstep
  refine ⟨h.caps.touch key now, fun found hfound => ?_, fun other seen found htouching => ?_,
    fun other seen found haccepted => ?_, fun keys hended other hother => ?_⟩
  · obtain ⟨old, hold, rfl⟩ := List.mem_map.mp hfound
    rw [SessionStore.key_seen]
    exact h.issued old hold
  · exact h.touching other seen found (List.mem_of_mem_erase htouching)
  · rcases List.mem_cons.mp haccepted with heq | haccepted
    · obtain ⟨rfl, rfl, rfl⟩ := Event.accepted.inj heq
      exact h.touching other seen found hmem
    · exact h.accepted other seen found haccepted
  · obtain ⟨hissued, hnone⟩ := h.ended keys (by simpa using hended) other hother
    refine ⟨hissued, fun found hfound => ?_⟩
    obtain ⟨old, hold, rfl⟩ := List.mem_map.mp hfound
    rw [SessionStore.key_seen]
    exact hnone old hold

theorem InOrder.touch (h : service.InOrder state) (hsound : service.Sound state)
    (hmeets : Undisturbed state (.touch key now row))
    (hstep : service.step state (.touch key now row) = some next) : service.InOrder next := by
  obtain ⟨-, rfl⟩ := touch_eq_some hstep
  obtain ⟨current, hcurrent, hlater⟩ := hmeets
  obtain ⟨hmem, hkey⟩ := SessionStore.lookup_eq_some.mp hcurrent
  have hgood : service.Good (.accepted key now row) state.history :=
    fun keys hended hkeys => (hsound.ended keys hended key hkeys).2 current hmem hkey
  refine ⟨h.cons hgood, fun other seen found haccepted touched htouched hother => ?_⟩
  obtain ⟨old, hold, rfl⟩ := List.mem_map.mp htouched
  rw [SessionStore.key_seen] at hother
  unfold SessionStore.seen
  by_cases hsame : old.key = key
  · obtain rfl := SessionStore.eq_of_key hold hmem (hsame.trans hkey.symm)
    rw [if_pos hsame]
    rcases List.mem_cons.mp haccepted with heq | haccepted
    · obtain ⟨-, rfl, -⟩ := Event.accepted.inj heq
      exact le_refl _
    · exact (h.seen other seen found haccepted old hold hother).trans hlater
  · rw [if_neg hsame]
    rcases List.mem_cons.mp haccepted with heq | haccepted
    · obtain ⟨rfl, -, -⟩ := Event.accepted.inj heq
      exact absurd hother hsame
    · exact h.seen other seen found haccepted old hold hother

end Requests

/-! ### Runs -/

/-- Every step keeps what every state satisfies. -/
theorem Sound.step (h : service.Sound state) {action : AuthAction κ}
    (hstep : service.step state action = some next) : service.Sound next := by
  cases action with
  | tick clock =>
    simp only [AuthService.step] at hstep
    split at hstep
    · obtain rfl := Option.some.inj hstep
      exact ⟨h.caps, h.issued, h.touching, h.accepted, h.ended⟩
    · cases hstep
  | signIn oldKey newKey username now => exact h.signIn hstep
  | request key =>
    obtain rfl := Option.some.inj hstep
    exact ⟨h.caps, h.issued, h.touching, h.accepted, h.ended⟩
  | lookup key now => exact h.lookup hstep
  | delete key now row => exact h.delete hstep
  | touch key now row => exact h.touch hstep
  | signOut key =>
    obtain rfl := Option.some.inj hstep
    exact h.remove key

/-- A step keeps the order of events where times of use are recorded in order. -/
theorem InOrder.step (h : service.InOrder state) (hsound : service.Sound state) {action : AuthAction κ}
    (hmeets : Undisturbed state action) (hstep : service.step state action = some next) :
    service.InOrder next := by
  cases action with
  | tick clock =>
    simp only [AuthService.step] at hstep
    split at hstep
    · obtain rfl := Option.some.inj hstep
      exact ⟨h.good, h.seen⟩
    · cases hstep
  | signIn oldKey newKey username now => exact h.signIn hsound hstep
  | request key =>
    obtain rfl := Option.some.inj hstep
    exact ⟨h.good, h.seen⟩
  | lookup key now => exact h.lookup hstep
  | delete key now row => exact h.delete hmeets hstep
  | touch key now row => exact h.touch hsound hmeets hstep
  | signOut key =>
    obtain rfl := Option.some.inj hstep
    exact h.remove key

/-- A rotation removes the session it replaces, the expired ones, and those least recently seen
beyond the caps, and nothing else. -/
def EvictsLeastRecentlySeen (service : AuthService) (state : AuthState κ) : Prop :=
  ∀ oldKey newKey username now next,
    service.step state (.signIn oldKey newKey username now) = some next →
      ∀ row ∈ state.store.rows, row ∉ next.store.rows ↔
        some row.key = oldKey ∨ row.expiresAt ≤ now ∨ row.lastSeenAt ≤ now - service.idleTimeout ∨
          SessionStore.LeastRecentlySeen (service.maxSessionsPerUser - 1)
            ((service.rotation oldKey newKey username now).ofUser state.store.rows) row ∨
          SessionStore.LeastRecentlySeen (service.maxSessionsTotal - 1)
            ((service.rotation oldKey newKey username now).underUserCap state.store.rows) row

theorem Sound.evictsLeastRecentlySeen (h : service.Sound state) :
    service.EvictsLeastRecentlySeen state := by
  intro oldKey newKey username now next hstep row hrow
  obtain ⟨hfresh, store, hstore, gone, idle, -, -, rfl⟩ := signIn_eq_some hstep
  have hnew : row ≠ (service.rotation oldKey newKey username now).session := by
    rintro rfl
    exact hfresh (h.issued _ hrow)
  have hexpired : (service.rotation oldKey newKey username now).isExpired row = false ↔
      ¬(row.expiresAt ≤ now ∨ row.lastSeenAt ≤ now - service.idleTimeout) := by
    simp only [SessionRotation.isExpired, Bool.or_eq_false_iff, decide_eq_false_iff_not, not_or]
    rfl
  rw [SessionStore.rotate_eq_some hstore, List.mem_cons, or_iff_right hnew,
    SessionStore.mem_underBothCaps, SessionStore.mem_remaining, hexpired]
  simp only [hrow, true_and, ne_eq, not_and_or, not_not, or_assoc]
  rfl

/-- The life of sessions in a state. -/
structure Lifecycle (service : AuthService) (state : AuthState κ) : Prop where
  user : ∀ username, SessionStore.countOf username state.store.rows ≤ service.maxSessionsPerUser
  all : state.store.rows.length ≤ service.maxSessionsTotal
  evicts : service.EvictsLeastRecentlySeen state
  accepted : ∀ key now row, .accepted key now row ∈ state.history →
    row.createdAt ≤ now ∧ now < row.expiresAt ∧ now - row.lastSeenAt < service.idleTimeout ∧
      service.isActive row.username = true
  ended : ∀ keys, .ended keys ∈ state.history → ∀ key ∈ keys, state.store.lookup key = none
  good : ∀ event earlier, (event :: earlier) <:+ state.history → service.Good event earlier

omit [LinearOrder κ] in
theorem isValid_iff {row : Session κ} {now : ℤ} : service.isValid row now = true ↔
    row.createdAt ≤ now ∧ now < row.expiresAt ∧ now - row.lastSeenAt < service.idleTimeout ∧
      service.isActive row.username = true := by
  simp only [isValid, isIdle, Bool.and_eq_true, Bool.not_eq_true', Bool.or_eq_false_iff,
    decide_eq_false_iff_not, ge_iff_le, not_le, not_lt]
  constructor
  · rintro ⟨⟨⟨hexpires, hidle⟩, hcreated⟩, hactive⟩
    exact ⟨hcreated, hexpires, hidle, hactive⟩
  · rintro ⟨hcreated, hexpires, hidle, hactive⟩
    exact ⟨⟨⟨hexpires, hidle⟩, hcreated⟩, hactive⟩

/-- In every run in which requests record their times of use in order, on sessions that are still
there, sessions live as they should. -/
theorem lifecycle_of_undisturbed {clock : ℤ} {actions : List (AuthAction κ)}
    (hrun : run service.step (initial clock) actions = some state)
    (hmeets : Along service.step Undisturbed (initial clock) actions) :
    service.Lifecycle state := by
  have hstep : ∀ (state : AuthState κ) action next, service.step state action = some next →
      Undisturbed state action → service.Sound state ∧ service.InOrder state →
        service.Sound next ∧ service.InOrder next :=
    fun _ _ _ hstep hmeets hinv => ⟨hinv.1.step hstep, hinv.2.step hinv.1 hmeets hstep⟩
  obtain ⟨hsound, horder⟩ :=
    run_invariant_along hstep hrun hmeets ⟨sound_initial clock, inOrder_initial clock⟩
  refine ⟨hsound.caps.user, hsound.caps.all, hsound.evictsLeastRecentlySeen,
    fun key now row hmem => isValid_iff.mp (hsound.accepted key now row hmem).1,
    fun keys hmem key hkey => ?_, horder.good⟩
  by_contra hsome
  obtain ⟨row, hrow⟩ := Option.ne_none_iff_exists'.mp hsome
  obtain ⟨hmem', hkey'⟩ := SessionStore.lookup_eq_some.mp hrow
  exact (hsound.ended keys hmem key hkey).2 row hmem' hkey'

/-! ### Two overlapping requests -/

/-- One minute of idle time, and two sessions for each user. -/
def minuteService : AuthService := ⟨fun _ => true, 60, 1000, 2, 4, by decide, by decide⟩

/-- The row of a session that was made at the start. -/
def startRow (lastSeenAt : ℤ) : Session ℕ := ⟨1, "user", 0, lastSeenAt, 1000⟩

/-- A request that started at 10 records its time of use after one that started at 50. -/
def overtaken : List (AuthAction ℕ) :=
  [.signIn none 1 "user" 0, .tick 10, .request 1, .tick 50, .request 1, .lookup 1 10, .lookup 1 50,
    .touch 1 50 (startRow 0), .touch 1 10 (startRow 0), .tick 75, .request 1, .lookup 1 75]

/-- The session is refused as idle 25 seconds after it was accepted. -/
theorem overtaken_idle :
    ∃ last, run minuteService.step (initial 0) overtaken = some last ∧ ¬minuteService.Lifecycle last := by
  have hhistory : (run minuteService.step (initial 0) overtaken).map AuthState.history =
      some [.idle [1] 75, .accepted 1 10 (startRow 0), .accepted 1 50 (startRow 0), .ended [],
        .idle [] 0] := rfl
  obtain ⟨last, hlast, hhistory⟩ := Option.map_eq_some_iff.mp hhistory
  refine ⟨last, hlast, fun hlife => ?_⟩
  have hgood : minuteService.Good (.idle [1] 75) [.accepted 1 10 (startRow 0),
      .accepted 1 50 (startRow 0), .ended [], .idle [] 0] :=
    hlife.good _ _ (hhistory.symm ▸ List.suffix_refl _)
  have hsooner := hgood 1 (List.mem_singleton_self 1) 50 (startRow 0) (by simp)
  exact absurd hsooner (by decide)

/-- The same requests one after the other. -/
def inTurn : List (AuthAction ℕ) :=
  [.signIn none 1 "user" 0, .tick 10, .request 1, .lookup 1 10, .touch 1 10 (startRow 0), .tick 50,
    .request 1, .lookup 1 50, .touch 1 50 (startRow 10), .tick 75, .request 1, .lookup 1 75,
    .touch 1 75 (startRow 50), .signOut 1]

theorem lifecycle_of_undisturbed_inTurn :
    ∃ last, run minuteService.step (initial 0) inTurn = some last ∧ minuteService.Lifecycle last := by
  have hhistory : (run minuteService.step (initial 0) inTurn).map AuthState.history =
      some [.ended [1], .accepted 1 75 (startRow 50), .accepted 1 50 (startRow 10),
        .accepted 1 10 (startRow 0), .ended [], .idle [] 0] := rfl
  obtain ⟨last, hlast, -⟩ := Option.map_eq_some_iff.mp hhistory
  refine ⟨last, hlast, lifecycle_of_undisturbed hlast (by decide)⟩

end AuthService

end Crabinet.Auth
