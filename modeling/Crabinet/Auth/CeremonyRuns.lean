import Crabinet.Auth.Ceremonies

/-!
# Passkey ceremonies are bound, single use and bounded

The history of every run is in order: a ceremony is consumed once and before it expires, a
passkey is stored for the session that started its ceremony, and a session follows the
recorded use of a passkey. What a step may add to the history is decided by the phase of its
request, and the phase by what is in the history already.
-/

namespace Crabinet.Auth

open Crabinet.Library

variable {κ ρ α π β : Type}

/-! ### Bounds -/

/-- The caps on pending ceremonies and on passkeys. -/
structure Capped (state : Passkeys κ ρ α π β) : Prop where
  registrations : ∀ username, countPending
    (fun flow : Pending (Registration κ ρ) => flow.state.username == username)
    state.registrations ≤ maxPendingRegistrationsPerUser
  logins : countPending (fun _ => true) state.logins ≤ maxPendingLogins
  store : state.store.WithinCap

namespace Capped

variable {state : Passkeys κ ρ α π β}

theorem beginRegistration (h : Capped state) (registration : Registration κ ρ) (now : ℕ)
    (random : Option (Vector UInt8 32)) :
    Capped (state.beginRegistration registration now random) := by
  have hcount : ∀ username, countPending
      (fun flow : Pending (Registration κ ρ) => flow.state.username == username)
      (insertRegistration state.registrations registration now random).2 ≤
        maxPendingRegistrationsPerUser := by
    intro username
    by_cases hsame : username = registration.username
    · subst hsame
      exact countPending_insertPending_le (by decide) (h.registrations _)
    · refine Nat.le_trans (countPending_insertPending_of_not ?_) (h.registrations username)
      simpa using fun heq => hsame heq.symm
  unfold Passkeys.beginRegistration
  dsimp only
  split
  · exact ⟨hcount, h.logins, h.store⟩
  · exact ⟨hcount, h.logins, h.store⟩

theorem beginLogin (h : Capped state) (authentication : α) (now : ℕ)
    (random : Option (Vector UInt8 32)) : Capped (state.beginLogin authentication now random) := by
  have hcount : countPending (fun _ => true) (insertLogin state.logins authentication now random).2 ≤
      maxPendingLogins := countPending_insertPending_le (by decide) h.logins
  unfold Passkeys.beginLogin
  dsimp only
  split
  · exact ⟨h.registrations, hcount, h.store⟩
  · exact ⟨h.registrations, hcount, h.store⟩

theorem takeRegistration [DecidableEq κ] (h : Capped state) (webauthn : Webauthn ρ α π β)
    (request : ℕ) (session : Session κ) (flow : String) (response : List UInt8) (now : ℕ) :
    Capped (state.takeRegistration webauthn request session flow response now) := by
  have hcount : ∀ username, countPending
      (fun flow : Pending (Registration κ ρ) => flow.state.username == username)
      (take state.registrations flow now).2 ≤ maxPendingRegistrationsPerUser :=
    fun username => Nat.le_trans (countPending_le_of_sublist take_sublist) (h.registrations username)
  have hcapped : ∀ {next : Passkeys κ ρ α π β},
      next.registrations = (take state.registrations flow now).2 → next.logins = state.logins →
        next.store = state.store → Capped next := fun hregistrations hlogins hstore =>
    ⟨hregistrations ▸ hcount, hlogins ▸ h.logins, hstore ▸ h.store⟩
  unfold Passkeys.takeRegistration
  dsimp only
  split
  · exact hcapped rfl rfl rfl
  · split
    · exact hcapped rfl rfl rfl
    · split
      · exact hcapped rfl rfl rfl
      · exact hcapped rfl rfl rfl

theorem takeLogin (h : Capped state) (webauthn : Webauthn ρ α π β) (request : ℕ) (flow : String)
    (response : List UInt8) (now : ℕ) :
    Capped (state.takeLogin webauthn request flow response now) := by
  have hcount : countPending (fun _ => true) (take state.logins flow now).2 ≤ maxPendingLogins :=
    Nat.le_trans (countPending_le_of_sublist take_sublist) h.logins
  unfold Passkeys.takeLogin
  dsimp only
  split
  · exact ⟨h.registrations, hcount, h.store⟩
  · split
    · exact ⟨h.registrations, hcount, h.store⟩
    · exact ⟨h.registrations, hcount, h.store⟩

theorem verifyLogin (h : Capped state) (service : AuthService) (webauthn : Webauthn ρ α π β)
    (request : ℕ) (flow : String) (authentication : α) (response handle credentialId : List UInt8) :
    Capped (state.verifyLogin service webauthn request flow authentication response handle
      credentialId) := by
  unfold Passkeys.verifyLogin
  split
  · exact ⟨h.registrations, h.logins, h.store⟩
  · split
    · split
      · exact ⟨h.registrations, h.logins, h.store⟩
      · exact ⟨h.registrations, h.logins, h.store⟩
    · exact ⟨h.registrations, h.logins, h.store⟩

end Capped

/-- Every step keeps the caps. -/
theorem capped_step [LinearOrder κ] {service : AuthService} {webauthn : Webauthn ρ α π β}
    {state next : Passkeys κ ρ α π β} {action : PasskeyAction κ ρ α}
    (h : passkeyStep service webauthn state action = some next) (hcapped : Capped state) :
    Capped next := by
  have hstore : ∀ {next : Passkeys κ ρ α π β}, next.registrations = state.registrations →
      next.logins = state.logins → next.store.WithinCap → Capped next :=
    fun hregistrations hlogins hnext =>
      ⟨hregistrations ▸ hcapped.registrations, hlogins ▸ hcapped.logins, hnext⟩
  cases action with
  | auth action =>
    obtain ⟨auth, -, rfl⟩ := Option.map_eq_some_iff.mp h
    exact hstore rfl rfl hcapped.store
  | startRegistration request session name now =>
    obtain ⟨-, h⟩ := Option.ite_none_right_eq_some.mp h
    split at h
    · exact Option.some.inj h ▸ hcapped
    · split at h
      · exact Option.some.inj h ▸ hcapped
      · obtain rfl := Option.some.inj h
        exact hstore rfl rfl hcapped.store
  | passkeysFor request =>
    simp only [passkeyStep] at h
    split at h
    · split at h
      · obtain rfl := Option.some.inj h
        exact hstore rfl rfl hcapped.store
      · obtain rfl := Option.some.inj h
        exact hstore rfl rfl hcapped.store
    · cases h
  | passkeyUserHandle request candidate =>
    simp only [passkeyStep] at h
    split at h
    · split at h
      · obtain rfl := Option.some.inj h
        exact hstore rfl rfl (hcapped.store.passkeyUserHandle _ _)
      · obtain rfl := Option.some.inj h
        exact hstore rfl rfl (hcapped.store.passkeyUserHandle _ _)
    · cases h
  | insertRegistration request registration now random =>
    simp only [passkeyStep] at h
    split at h
    · rename_i session name _
      obtain ⟨-, h⟩ := Option.ite_none_left_eq_some.mp h
      obtain rfl := Option.some.inj h
      have hbegun := hcapped.beginRegistration ⟨session.username, session.key, name, registration⟩
        now random
      exact ⟨hbegun.registrations, hbegun.logins, hbegun.store⟩
    · cases h
  | finishRegistration request session flow response now =>
    obtain ⟨-, h⟩ := Option.ite_none_right_eq_some.mp h
    exact Option.some.inj h ▸ hcapped.takeRegistration webauthn request session flow response now
  | addPasskey request id now =>
    simp only [passkeyStep] at h
    split at h
    · split at h
      · obtain rfl := Option.some.inj h
        exact hstore rfl rfl hcapped.store
      · rename_i hadd
        obtain rfl := Option.some.inj h
        exact hstore rfl rfl (hcapped.store.addPasskey hadd)
    · cases h
  | startLogin authentication now random =>
    obtain ⟨-, h⟩ := Option.ite_none_left_eq_some.mp h
    exact Option.some.inj h ▸ hcapped.beginLogin _ _ _
  | finishLogin request flow response now =>
    obtain ⟨-, h⟩ := Option.ite_none_right_eq_some.mp h
    exact Option.some.inj h ▸ hcapped.takeLogin webauthn request flow response now
  | passkeyForDiscoverableLogin request =>
    simp only [passkeyStep] at h
    split at h
    · exact Option.some.inj h ▸ hcapped.verifyLogin _ _ _ _ _ _ _ _
    · cases h
  | updatePasskeyAfterLogin request now =>
    simp only [passkeyStep] at h
    split at h
    · split at h
      · obtain rfl := Option.some.inj h
        exact hstore rfl rfl hcapped.store
      · rename_i hupdate
        obtain rfl := Option.some.inj h
        exact hstore rfl rfl (hcapped.store.updatePasskeyAfterLogin hupdate)
    · cases h
  | issueSession request oldKey newKey now =>
    simp only [passkeyStep] at h
    split at h
    · obtain ⟨auth, -, rfl⟩ := Option.map_eq_some_iff.mp h
      exact hstore rfl rfl hcapped.store
    · cases h
  | renamePasskey session id name =>
    obtain ⟨-, h⟩ := Option.ite_none_right_eq_some.mp h
    split at h
    · exact Option.some.inj h ▸ hcapped
    · split at h
      · obtain rfl := Option.some.inj h
        exact hstore rfl rfl (hcapped.store.renamePasskey _ _ _)
      · exact Option.some.inj h ▸ hcapped
  | removePasskey session id =>
    obtain ⟨-, h⟩ := Option.ite_none_right_eq_some.mp h
    split at h
    · obtain rfl := Option.some.inj h
      exact hstore rfl rfl (hcapped.store.removePasskey _ _)
    · exact Option.some.inj h ▸ hcapped
  | abandon request =>
    obtain rfl := Option.some.inj h
    exact hstore rfl rfl hcapped.store

/-! ### The history -/

section History

variable (service : AuthService) (webauthn : Webauthn ρ α π β)

/-- What a request must have in the history for the phase it is in. -/
def Ceremony.Backed (history : List (CeremonyEvent κ ρ α π)) : Ceremony κ α π β → Prop
  | .authorized _ _ | .counted _ _ | .handled _ _ => True
  | .registered flow session username _ credential =>
    session.username = username ∧ (∃ now, .registrationConsumed flow now ∈ history) ∧
      ∃ registration expires response,
        .registrationStarted flow username session.key registration expires ∈ history ∧
          webauthn.finishPasskeyRegistration response registration = some credential
  | .identified flow authentication _ _ _ =>
    (∃ now, .loginConsumed flow now ∈ history) ∧
      ∃ expires, .loginStarted flow authentication expires ∈ history
  | .verified flow username result =>
    service.isActive username = true ∧ (∃ now, .loginConsumed flow now ∈ history) ∧
      ∃ authentication expires response credential,
        .loginStarted flow authentication expires ∈ history ∧
          webauthn.finishDiscoverableAuthentication response authentication credential = some result
  | .recorded flow username =>
    service.isActive username = true ∧ ∃ credentialId, .useRecorded flow username credentialId ∈ history

/-- What an event must be after others: a ceremony is consumed once and before it expires, what
follows is for the user and the session of its start and what the library has verified against its
challenge, and a session is issued after the use of a passkey of the user was recorded. -/
def Follows (earlier : List (CeremonyEvent κ ρ α π)) : CeremonyEvent κ ρ α π → Prop
  | .registrationStarted _ _ _ _ _ | .loginStarted _ _ _ => True
  | .registrationConsumed flow now =>
    (∃ username sessionKey registration expires,
      .registrationStarted flow username sessionKey registration expires ∈ earlier ∧ now < expires) ∧
      ∀ other, .registrationConsumed flow other ∉ earlier
  | .loginConsumed flow now =>
    (∃ authentication expires, .loginStarted flow authentication expires ∈ earlier ∧ now < expires) ∧
      ∀ other, .loginConsumed flow other ∉ earlier
  | .passkeyStored flow username session credential =>
    session.username = username ∧ (∃ now, .registrationConsumed flow now ∈ earlier) ∧
      ∃ registration expires response,
        .registrationStarted flow username session.key registration expires ∈ earlier ∧
          webauthn.finishPasskeyRegistration response registration = some credential
  | .useRecorded flow username credentialId =>
    service.isActive username = true ∧ (∃ now, .loginConsumed flow now ∈ earlier) ∧
      ∃ authentication expires response credential result,
        .loginStarted flow authentication expires ∈ earlier ∧
          webauthn.finishDiscoverableAuthentication response authentication credential = some result ∧
          webauthn.resultCredId result = credentialId
  | .sessionIssued flow username =>
    service.isActive username = true ∧ ∃ credentialId, .useRecorded flow username credentialId ∈ earlier

/-- The pending ceremonies are started and not consumed. -/
structure Ordered (state : Passkeys κ ρ α π β) : Prop where
  follows : ∀ event earlier, (event :: earlier) <:+ state.history →
    Follows service webauthn earlier event
  drawn : ∀ flow now, .registrationConsumed flow now ∈ state.history ∨
    .loginConsumed flow now ∈ state.history → flow ∈ state.drawn
  registrations : ∀ flow pending, state.registrations.get? flow = some pending →
    flow ∈ state.drawn ∧
      .registrationStarted flow pending.state.username pending.state.sessionKey pending.state.state
        pending.expires ∈ state.history ∧
      ∀ now, .registrationConsumed flow now ∉ state.history
  logins : ∀ flow pending, state.logins.get? flow = some pending →
    flow ∈ state.drawn ∧ .loginStarted flow pending.state pending.expires ∈ state.history ∧
      ∀ now, .loginConsumed flow now ∉ state.history
  requests : ∀ request ceremony, state.requests.get? request = some ceremony →
    ceremony.Backed service webauthn state.history

variable {service webauthn}

/-- What backs a request goes on backing it. -/
theorem Ceremony.Backed.mono {history more : List (CeremonyEvent κ ρ α π)}
    {ceremony : Ceremony κ α π β} (h : ceremony.Backed service webauthn history)
    (hmore : history ⊆ more) : ceremony.Backed service webauthn more := by
  cases ceremony with
  | authorized _ _ => trivial
  | counted _ _ => trivial
  | handled _ _ => trivial
  | registered flow session username name credential =>
    obtain ⟨hsame, ⟨now, hnow⟩, registration, expires, response, hstarted, hfinish⟩ := h
    exact ⟨hsame, ⟨now, hmore hnow⟩, registration, expires, response, hmore hstarted, hfinish⟩
  | identified flow authentication _ _ _ =>
    obtain ⟨⟨now, hnow⟩, expires, hstarted⟩ := h
    exact ⟨⟨now, hmore hnow⟩, expires, hmore hstarted⟩
  | verified flow username result =>
    obtain ⟨hactive, ⟨now, hnow⟩, authentication, expires, response, credential, hstarted, hfinish⟩ := h
    exact ⟨hactive, ⟨now, hmore hnow⟩, authentication, expires, response, credential,
      hmore hstarted, hfinish⟩
  | recorded flow username =>
    obtain ⟨hactive, credentialId, hrecorded⟩ := h
    exact ⟨hactive, credentialId, hmore hrecorded⟩

namespace Ordered

variable {state next : Passkeys κ ρ α π β}

theorem initial (clock : ℤ) (store : PasskeyStore π) :
    Ordered service webauthn (Passkeys.initial clock store : Passkeys κ ρ α π β) where
  follows _ _ hsuffix := by simpa [Passkeys.initial] using hsuffix.length_le
  drawn _ _ h := by simp [Passkeys.initial] at h
  registrations _ _ h := nomatch h
  logins _ _ h := nomatch h
  requests _ _ h := nomatch h

/-- The order does not depend on the sessions or the table. -/
theorem congr (h : Ordered service webauthn state) (hregistrations : next.registrations = state.registrations)
    (hlogins : next.logins = state.logins) (hrequests : next.requests = state.requests)
    (hdrawn : next.drawn = state.drawn) (hhistory : next.history = state.history) :
    Ordered service webauthn next := by
  constructor
  · rw [hhistory]
    exact h.follows
  · rw [hhistory, hdrawn]
    exact h.drawn
  · rw [hregistrations, hhistory, hdrawn]
    exact h.registrations
  · rw [hlogins, hhistory, hdrawn]
    exact h.logins
  · rw [hrequests, hhistory]
    exact h.requests

theorem proceed (h : Ordered service webauthn state) {request : ℕ} {ceremony : Ceremony κ α π β}
    (hbacked : ceremony.Backed service webauthn state.history) :
    Ordered service webauthn (state.proceed request ceremony) := by
  refine ⟨h.follows, h.drawn, h.registrations, h.logins, fun other found hget => ?_⟩
  by_cases hid : other = request
  · subst hid
    rw [Passkeys.proceed, KeyedMap.get?_insert_self] at hget
    exact Option.some.inj hget ▸ hbacked
  · rw [Passkeys.proceed, KeyedMap.get?_insert_ne _ hid] at hget
    exact h.requests other found hget

theorem close (h : Ordered service webauthn state) (request : ℕ) :
    Ordered service webauthn (state.close request) :=
  ⟨h.follows, h.drawn, h.registrations, h.logins,
    fun other found hget => h.requests other found (KeyedMap.get?_of_erase hget)⟩

/-- Something happens that follows from the history, and no pending ceremony is consumed. -/
theorem record (h : Ordered service webauthn state) {event : CeremonyEvent κ ρ α π}
    (hfollows : Follows service webauthn state.history event)
    (hdrawn : ∀ flow now, event = .registrationConsumed flow now ∨ event = .loginConsumed flow now →
      flow ∈ state.drawn)
    (hregistrations : ∀ flow now, event = .registrationConsumed flow now →
      state.registrations.get? flow = none)
    (hlogins : ∀ flow now, event = .loginConsumed flow now → state.logins.get? flow = none) :
    Ordered service webauthn (state.record event) := by
  constructor
  · intro found earlier hsuffix
    rcases List.suffix_cons_iff.mp hsuffix with heq | hsuffix
    · obtain ⟨rfl, rfl⟩ := List.cons.inj heq
      exact hfollows
    · exact h.follows found earlier hsuffix
  · rintro flow now (hmem | hmem)
    · rcases List.mem_cons.mp hmem with heq | hmem
      · exact hdrawn flow now (.inl heq.symm)
      · exact h.drawn flow now (.inl hmem)
    · rcases List.mem_cons.mp hmem with heq | hmem
      · exact hdrawn flow now (.inr heq.symm)
      · exact h.drawn flow now (.inr hmem)
  · intro flow pending hget
    obtain ⟨hmem, hstarted, hnone⟩ := h.registrations flow pending hget
    refine ⟨hmem, List.mem_cons_of_mem _ hstarted, fun now hconsumed => ?_⟩
    rcases List.mem_cons.mp hconsumed with heq | hconsumed
    · cases (hregistrations flow now heq.symm).symm.trans hget
    · exact hnone now hconsumed
  · intro flow pending hget
    obtain ⟨hmem, hstarted, hnone⟩ := h.logins flow pending hget
    refine ⟨hmem, List.mem_cons_of_mem _ hstarted, fun now hconsumed => ?_⟩
    rcases List.mem_cons.mp hconsumed with heq | hconsumed
    · cases (hlogins flow now heq.symm).symm.trans hget
    · exact hnone now hconsumed
  · exact fun request ceremony hget => (h.requests request ceremony hget).mono
      (List.subset_cons_self _ _)

/-- Something happens that follows from the history and consumes nothing. -/
theorem note (h : Ordered service webauthn state) {event : CeremonyEvent κ ρ α π}
    (hfollows : Follows service webauthn state.history event)
    (hregistration : ∀ flow now, event ≠ .registrationConsumed flow now)
    (hlogin : ∀ flow now, event ≠ .loginConsumed flow now) :
    Ordered service webauthn (state.record event) :=
  h.record hfollows
    (fun flow now heq => heq.elim (fun heq => absurd heq (hregistration flow now))
      fun heq => absurd heq (hlogin flow now))
    (fun flow now heq => absurd heq (hregistration flow now))
    fun flow now heq => absurd heq (hlogin flow now)

/-- The pending registrations are fewer, or a new one is not consumed. -/
theorem withRegistrations (h : Ordered service webauthn state)
    {registrations : KeyedMap String (Pending (Registration κ ρ))}
    (hpending : ∀ flow pending, registrations.get? flow = some pending →
      state.registrations.get? flow = some pending ∨
        (flow ∈ state.drawn ∧
          .registrationStarted flow pending.state.username pending.state.sessionKey
            pending.state.state pending.expires ∈ state.history ∧
          ∀ now, .registrationConsumed flow now ∉ state.history)) :
    Ordered service webauthn { state with registrations } :=
  ⟨h.follows, h.drawn,
    fun flow pending hget => (hpending flow pending hget).elim (h.registrations flow pending) id,
    h.logins, h.requests⟩

theorem withLogins (h : Ordered service webauthn state) {logins : KeyedMap String (Pending α)}
    (hpending : ∀ flow pending, logins.get? flow = some pending →
      state.logins.get? flow = some pending ∨
        (flow ∈ state.drawn ∧ .loginStarted flow pending.state pending.expires ∈ state.history ∧
          ∀ now, .loginConsumed flow now ∉ state.history)) :
    Ordered service webauthn { state with logins } :=
  ⟨h.follows, h.drawn, h.registrations,
    fun flow pending hget => (hpending flow pending hget).elim (h.logins flow pending) id, h.requests⟩

/-- More identifiers are drawn. -/
theorem draw (h : Ordered service webauthn state) (flow : String) :
    Ordered service webauthn { state with drawn := flow :: state.drawn } where
  follows := h.follows
  drawn other now hmem := List.mem_cons_of_mem _ (h.drawn other now hmem)
  registrations other pending hget := by
    obtain ⟨hmem, hrest⟩ := h.registrations other pending hget
    exact ⟨List.mem_cons_of_mem _ hmem, hrest⟩
  logins other pending hget := by
    obtain ⟨hmem, hrest⟩ := h.logins other pending hget
    exact ⟨List.mem_cons_of_mem _ hmem, hrest⟩
  requests := h.requests

/-- An identifier that was not drawn before is new. -/
theorem notMem_of_repeats {random : Option (Vector UInt8 32)} (h : ¬state.repeats random = true)
    {flow : String} (hflow : random.map flowId = some flow) : flow ∉ state.drawn := by
  obtain ⟨bytes, rfl, rfl⟩ := Option.map_eq_some_iff.mp hflow
  simpa [Passkeys.repeats] using h

theorem beginRegistration (h : Ordered service webauthn state) {registration : Registration κ ρ}
    {now : ℕ} {random : Option (Vector UInt8 32)} (hnew : ¬state.repeats random = true) :
    Ordered service webauthn (state.beginRegistration registration now random) := by
  unfold Passkeys.beginRegistration
  dsimp only
  split
  · rename_i hnone
    refine h.withRegistrations fun flow pending hget => .inl ?_
    rcases get?_of_insertPending hget with ⟨hsome, -⟩ | hold
    · cases hnone.symm.trans hsome
    · exact hold
  · rename_i id hid
    have hfresh : id ∉ state.drawn := notMem_of_repeats hnew (insertPending_fst.symm.trans hid)
    have hstarted : Ordered service webauthn
        (Passkeys.record { state with drawn := id :: state.drawn }
          (.registrationStarted id registration.username registration.sessionKey
            registration.state (now + registrationLifetime))) :=
      (h.draw id).note trivial nofun nofun
    refine hstarted.withRegistrations fun flow pending hget => ?_
    rcases get?_of_insertPending hget with ⟨hsome, rfl⟩ | hold
    · obtain rfl : id = flow := Option.some.inj (hid.symm.trans hsome)
      refine .inr ⟨List.mem_cons_self, List.mem_cons_self, fun other hconsumed => hfresh ?_⟩
      exact h.drawn id other (.inl (by simpa using List.mem_cons.mp hconsumed))
    · exact .inl hold

theorem beginLogin (h : Ordered service webauthn state) {authentication : α} {now : ℕ}
    {random : Option (Vector UInt8 32)} (hnew : ¬state.repeats random = true) :
    Ordered service webauthn (state.beginLogin authentication now random) := by
  unfold Passkeys.beginLogin
  dsimp only
  split
  · rename_i hnone
    refine h.withLogins fun flow pending hget => .inl ?_
    rcases get?_of_insertPending hget with ⟨hsome, -⟩ | hold
    · cases hnone.symm.trans hsome
    · exact hold
  · rename_i id hid
    have hfresh : id ∉ state.drawn := notMem_of_repeats hnew (insertPending_fst.symm.trans hid)
    have hstarted : Ordered service webauthn
        (Passkeys.record { state with drawn := id :: state.drawn }
          (.loginStarted id authentication (now + loginLifetime))) :=
      (h.draw id).note trivial nofun nofun
    refine hstarted.withLogins fun flow pending hget => ?_
    rcases get?_of_insertPending hget with ⟨hsome, rfl⟩ | hold
    · obtain rfl : id = flow := Option.some.inj (hid.symm.trans hsome)
      refine .inr ⟨List.mem_cons_self, List.mem_cons_self, fun other hconsumed => hfresh ?_⟩
      exact h.drawn id other (.inr (by simpa using List.mem_cons.mp hconsumed))
    · exact .inl hold

/-- Taking a ceremony leaves ceremonies that were pending. -/
theorem get?_of_take {τ : Type} {pending : KeyedMap String (Pending τ)} {id other : String}
    {now : ℕ} {flow : Pending τ} (h : (take pending id now).2.get? other = some flow) :
    pending.get? other = some flow :=
  KeyedMap.get?_eq_some.mpr (take_sublist.subset (KeyedMap.get?_eq_some.mp h))

theorem takeRegistration [DecidableEq κ] (h : Ordered service webauthn state) (request : ℕ)
    (session : Session κ) (flow : String) (response : List UInt8) (now : ℕ) :
    Ordered service webauthn
      (state.takeRegistration webauthn request session flow response now) := by
  have hremoved : Ordered service webauthn
      { state with registrations := (take state.registrations flow now).2 } :=
    h.withRegistrations fun other pending hget => .inl (get?_of_take hget)
  unfold Passkeys.takeRegistration
  dsimp only
  split
  · exact hremoved
  · rename_i registration htaken
    obtain ⟨pending, hpending, rfl, hexpires, herase⟩ := take_eq_some htaken
    obtain ⟨hdrawn, hstarted, hnone⟩ := h.registrations flow pending hpending
    have hconsumed : Ordered service webauthn
        (Passkeys.record { state with registrations := (take state.registrations flow now).2 }
          (.registrationConsumed flow now)) := by
      refine hremoved.record ⟨⟨_, _, _, _, hstarted, hexpires⟩, hnone⟩ ?_ ?_
        fun _ _ heq => nomatch heq
      · rintro other _ (heq | heq)
        · cases heq
          exact hdrawn
        · cases heq
      · intro other _ heq
        cases heq
        dsimp only
        rw [herase, KeyedMap.get?_erase_self]
    split
    · exact hconsumed
    · rename_i hsame
      obtain ⟨husername, hkey⟩ := not_or.mp hsame
      split
      · exact hconsumed
      · rename_i credential hfinish
        refine hconsumed.proceed ⟨(not_not.mp husername).symm, ⟨now, List.mem_cons_self⟩,
          pending.state.state, pending.expires, response, List.mem_cons_of_mem _ ?_, hfinish⟩
        rw [← not_not.mp hkey]
        exact hstarted

theorem takeLogin (h : Ordered service webauthn state) (request : ℕ) (flow : String)
    (response : List UInt8) (now : ℕ) :
    Ordered service webauthn (state.takeLogin webauthn request flow response now) := by
  have hremoved : Ordered service webauthn { state with logins := (take state.logins flow now).2 } :=
    h.withLogins fun other pending hget => .inl (get?_of_take hget)
  unfold Passkeys.takeLogin
  dsimp only
  split
  · exact hremoved
  · rename_i authentication htaken
    obtain ⟨pending, hpending, rfl, hexpires, herase⟩ := take_eq_some htaken
    obtain ⟨hdrawn, hstarted, hnone⟩ := h.logins flow pending hpending
    have hconsumed : Ordered service webauthn
        (Passkeys.record { state with logins := (take state.logins flow now).2 }
          (.loginConsumed flow now)) := by
      refine hremoved.record ⟨⟨_, _, hstarted, hexpires⟩, hnone⟩ ?_ (fun _ _ heq => nomatch heq) ?_
      · rintro other _ (heq | heq)
        · cases heq
        · cases heq
          exact hdrawn
      · intro other _ heq
        cases heq
        dsimp only
        rw [herase, KeyedMap.get?_erase_self]
    split
    · exact hconsumed
    · exact hconsumed.proceed ⟨⟨now, List.mem_cons_self⟩, pending.expires,
        List.mem_cons_of_mem _ hstarted⟩

theorem verifyLogin (h : Ordered service webauthn state) {request : ℕ} {flow : String}
    {authentication : α} {response handle credentialId : List UInt8}
    (hrequest : state.requests.get? request =
      some (.identified flow authentication response handle credentialId)) :
    Ordered service webauthn (state.verifyLogin service webauthn request flow authentication response
      handle credentialId) := by
  obtain ⟨hconsumed, expires, hstarted⟩ := h.requests request _ hrequest
  unfold Passkeys.verifyLogin
  split
  · exact h.close request
  · split
    · rename_i hactive
      split
      · exact h.close request
      · rename_i result hfinish
        exact h.proceed ⟨hactive, hconsumed, authentication, expires, response, _, hstarted, hfinish⟩
    · exact h.close request

end Ordered

/-- Every step keeps the history in order. -/
theorem ordered_step [LinearOrder κ] {state next : Passkeys κ ρ α π β} {action : PasskeyAction κ ρ α}
    (h : passkeyStep service webauthn state action = some next)
    (hordered : Ordered service webauthn state) : Ordered service webauthn next := by
  cases action with
  | auth action =>
    obtain ⟨auth, -, rfl⟩ := Option.map_eq_some_iff.mp h
    exact hordered.congr rfl rfl rfl rfl rfl
  | startRegistration request session name now =>
    obtain ⟨-, h⟩ := Option.ite_none_right_eq_some.mp h
    split at h
    · exact Option.some.inj h ▸ hordered
    · split at h
      · exact Option.some.inj h ▸ hordered
      · obtain rfl := Option.some.inj h
        exact hordered.proceed trivial
  | passkeysFor request =>
    simp only [passkeyStep] at h
    split at h
    · split at h
      · exact Option.some.inj h ▸ hordered.close request
      · obtain rfl := Option.some.inj h
        exact hordered.proceed trivial
    · cases h
  | passkeyUserHandle request candidate =>
    simp only [passkeyStep] at h
    split at h
    · rename_i session name _
      have hread : Ordered service webauthn
          { state with store := (state.store.passkeyUserHandle session.username candidate).2 } :=
        hordered.congr rfl rfl rfl rfl rfl
      split at h
      · exact Option.some.inj h ▸ hread.close request
      · obtain rfl := Option.some.inj h
        exact hread.proceed trivial
    · cases h
  | insertRegistration request registration now random =>
    simp only [passkeyStep] at h
    split at h
    · obtain ⟨hnew, h⟩ := Option.ite_none_left_eq_some.mp h
      obtain rfl := Option.some.inj h
      exact (hordered.beginRegistration hnew).close request
    · cases h
  | finishRegistration request session flow response now =>
    obtain ⟨-, h⟩ := Option.ite_none_right_eq_some.mp h
    exact Option.some.inj h ▸ hordered.takeRegistration request session flow response now
  | addPasskey request id now =>
    simp only [passkeyStep] at h
    split at h
    · rename_i flow session username name credential hrequest
      split at h
      · exact Option.some.inj h ▸ hordered.close request
      · rename_i store _
        obtain rfl := Option.some.inj h
        have hadded : Ordered service webauthn { state with store } :=
          hordered.congr rfl rfl rfl rfl rfl
        have hstored : Ordered service webauthn (Passkeys.record { state with store }
            (.passkeyStored flow username session credential)) :=
          hadded.note (hordered.requests request _ hrequest) (fun _ _ heq => by cases heq)
            fun _ _ heq => by cases heq
        exact hstored.close request
    · cases h
  | startLogin authentication now random =>
    obtain ⟨hnew, h⟩ := Option.ite_none_left_eq_some.mp h
    exact Option.some.inj h ▸ hordered.beginLogin hnew
  | finishLogin request flow response now =>
    obtain ⟨-, h⟩ := Option.ite_none_right_eq_some.mp h
    exact Option.some.inj h ▸ hordered.takeLogin request flow response now
  | passkeyForDiscoverableLogin request =>
    simp only [passkeyStep] at h
    split at h
    · exact Option.some.inj h ▸ hordered.verifyLogin (by assumption)
    · cases h
  | updatePasskeyAfterLogin request now =>
    simp only [passkeyStep] at h
    split at h
    · rename_i flow username result hrequest
      obtain ⟨hactive, hconsumed, authentication, expires, response, credential, hstarted, hfinish⟩ :=
        hordered.requests request _ hrequest
      split at h
      · exact Option.some.inj h ▸ hordered.close request
      · rename_i store _
        obtain rfl := Option.some.inj h
        have hupdated : Ordered service webauthn { state with store } :=
          hordered.congr rfl rfl rfl rfl rfl
        have hrecorded : Ordered service webauthn (Passkeys.record { state with store }
            (.useRecorded flow username (webauthn.resultCredId result))) :=
          hupdated.note
            ⟨hactive, hconsumed, authentication, expires, response, credential, result, hstarted,
              hfinish, rfl⟩
            (fun _ _ heq => by cases heq) fun _ _ heq => by cases heq
        exact hrecorded.proceed ⟨hactive, _, List.mem_cons_self⟩
    · cases h
  | issueSession request oldKey newKey now =>
    simp only [passkeyStep] at h
    split at h
    · rename_i flow username hrequest
      obtain ⟨auth, -, rfl⟩ := Option.map_eq_some_iff.mp h
      have hsigned : Ordered service webauthn { state with auth } :=
        hordered.congr rfl rfl rfl rfl rfl
      have hissued : Ordered service webauthn (Passkeys.record { state with auth }
          (.sessionIssued flow username)) :=
        hsigned.note (hordered.requests request _ hrequest) (fun _ _ heq => by cases heq)
          fun _ _ heq => by cases heq
      exact hissued.close request
    · cases h
  | renamePasskey session id name =>
    obtain ⟨-, h⟩ := Option.ite_none_right_eq_some.mp h
    split at h
    · exact Option.some.inj h ▸ hordered
    · split at h
      · obtain rfl := Option.some.inj h
        exact hordered.congr rfl rfl rfl rfl rfl
      · exact Option.some.inj h ▸ hordered
  | removePasskey session id =>
    obtain ⟨-, h⟩ := Option.ite_none_right_eq_some.mp h
    split at h
    · obtain rfl := Option.some.inj h
      exact hordered.congr rfl rfl rfl rfl rfl
    · exact Option.some.inj h ▸ hordered
  | abandon request =>
    exact Option.some.inj h ▸ hordered.close request

end History

/-! ### Changes of the history and of the table -/

/-- What a step does to the history and to the owners of passkeys: a passkey has an owner from the
step that says so in the history, and a use is recorded by the request that has verified the
response, in a store with the row of the user's credential. -/
inductive Change (webauthn : Webauthn ρ α π β) (state next : Passkeys κ ρ α π β)
    (action : PasskeyAction κ ρ α) : Prop where
  | quiet (hhistory : next.history = state.history) (howners : next.store.owners ⊆ state.store.owners)
  | noted (event : CeremonyEvent κ ρ α π) (hhistory : next.history = event :: state.history)
      (hstore : next.store = state.store)
      (hevent : ∀ flow username credentialId, event ≠ .useRecorded flow username credentialId)
  | stored (flow username : String) (session : Session κ) (credential : π)
      (hhistory : next.history = .passkeyStored flow username session credential :: state.history)
      (howners : next.store.owners = (username, webauthn.credId credential) :: state.store.owners)
  | used (request : ℕ) (now : ℤ) (flow username : String) (result : β)
      (haction : action = .updatePasskeyAfterLogin request now)
      (hhistory : next.history =
        .useRecorded flow username (webauthn.resultCredId result) :: state.history)
      (howners : next.store.owners = state.store.owners)
      (hrow : ∃ row ∈ state.store.rows, row.username = username ∧
        row.credentialId = webauthn.resultCredId result)

namespace Change

variable {service : AuthService} {webauthn : Webauthn ρ α π β} {state next : Passkeys κ ρ α π β}
  {action : PasskeyAction κ ρ α}

/-- A change that leaves the history and the table. -/
theorem same (hhistory : next.history = state.history) (hstore : next.store = state.store) :
    Change webauthn state next action :=
  .quiet hhistory (hstore ▸ List.Subset.refl _)

theorem beginRegistration (request : ℕ) (registration : Registration κ ρ) (now : ℕ)
    (random : Option (Vector UInt8 32)) :
    Change webauthn state ((state.beginRegistration registration now random).close request) action := by
  unfold Passkeys.beginRegistration
  dsimp only
  split
  · exact same rfl rfl
  · exact .noted _ rfl rfl nofun

theorem beginLogin (authentication : α) (now : ℕ) (random : Option (Vector UInt8 32)) :
    Change webauthn state (state.beginLogin authentication now random) action := by
  unfold Passkeys.beginLogin
  dsimp only
  split
  · exact same rfl rfl
  · exact .noted _ rfl rfl nofun

theorem takeRegistration [DecidableEq κ] (request : ℕ) (session : Session κ) (flow : String)
    (response : List UInt8) (now : ℕ) :
    Change webauthn state (state.takeRegistration webauthn request session flow response now)
      action := by
  unfold Passkeys.takeRegistration
  dsimp only
  split
  · exact same rfl rfl
  · split
    · exact .noted _ rfl rfl nofun
    · split
      · exact .noted _ rfl rfl nofun
      · exact .noted _ rfl rfl nofun

theorem takeLogin (request : ℕ) (flow : String) (response : List UInt8) (now : ℕ) :
    Change webauthn state (state.takeLogin webauthn request flow response now) action := by
  unfold Passkeys.takeLogin
  dsimp only
  split
  · exact same rfl rfl
  · split
    · exact .noted _ rfl rfl nofun
    · exact .noted _ rfl rfl nofun

theorem verifyLogin (request : ℕ) (flow : String) (authentication : α)
    (response handle credentialId : List UInt8) :
    Change webauthn state (state.verifyLogin service webauthn request flow authentication response
      handle credentialId) action := by
  unfold Passkeys.verifyLogin
  split
  · exact same rfl rfl
  · split
    · split
      · exact same rfl rfl
      · exact same rfl rfl
    · exact same rfl rfl

/-- Every step is one of these changes. -/
theorem of_step [LinearOrder κ] (h : passkeyStep service webauthn state action = some next) :
    Change webauthn state next action := by
  cases action with
  | auth action =>
    obtain ⟨auth, -, rfl⟩ := Option.map_eq_some_iff.mp h
    exact same rfl rfl
  | startRegistration request session name now =>
    obtain ⟨-, h⟩ := Option.ite_none_right_eq_some.mp h
    split at h
    · exact Option.some.inj h ▸ same rfl rfl
    · split at h
      · exact Option.some.inj h ▸ same rfl rfl
      · exact Option.some.inj h ▸ same rfl rfl
  | passkeysFor request =>
    simp only [passkeyStep] at h
    split at h
    · split at h
      · exact Option.some.inj h ▸ same rfl rfl
      · exact Option.some.inj h ▸ same rfl rfl
    · cases h
  | passkeyUserHandle request candidate =>
    simp only [passkeyStep] at h
    split at h
    · rename_i session name _
      have howners : (state.store.passkeyUserHandle session.username candidate).2.owners ⊆
          state.store.owners := by
        rw [PasskeyStore.owners_passkeyUserHandle]
        exact List.Subset.refl _
      split at h
      · exact Option.some.inj h ▸ .quiet rfl howners
      · exact Option.some.inj h ▸ .quiet rfl howners
    · cases h
  | insertRegistration request registration now random =>
    simp only [passkeyStep] at h
    split at h
    · obtain ⟨-, h⟩ := Option.ite_none_left_eq_some.mp h
      exact Option.some.inj h ▸ beginRegistration _ _ _ _
    · cases h
  | finishRegistration request session flow response now =>
    obtain ⟨-, h⟩ := Option.ite_none_right_eq_some.mp h
    exact Option.some.inj h ▸ takeRegistration _ _ _ _ _
  | addPasskey request id now =>
    simp only [passkeyStep] at h
    split at h
    · split at h
      · exact Option.some.inj h ▸ same rfl rfl
      · rename_i hadd
        exact Option.some.inj h ▸ .stored _ _ _ _ rfl (PasskeyStore.owners_addPasskey hadd)
    · cases h
  | startLogin authentication now random =>
    obtain ⟨-, h⟩ := Option.ite_none_left_eq_some.mp h
    exact Option.some.inj h ▸ beginLogin _ _ _
  | finishLogin request flow response now =>
    obtain ⟨-, h⟩ := Option.ite_none_right_eq_some.mp h
    exact Option.some.inj h ▸ takeLogin _ _ _ _
  | passkeyForDiscoverableLogin request =>
    simp only [passkeyStep] at h
    split at h
    · exact Option.some.inj h ▸ verifyLogin _ _ _ _ _ _
    · cases h
  | updatePasskeyAfterLogin request now =>
    simp only [passkeyStep] at h
    split at h
    · rename_i flow username result _
      split at h
      · exact Option.some.inj h ▸ same rfl rfl
      · rename_i hupdate
        exact Option.some.inj h ▸ .used request now flow username result rfl rfl
          (PasskeyStore.owners_updatePasskeyAfterLogin hupdate)
          (PasskeyStore.exists_row_of_update hupdate)
    · cases h
  | issueSession request oldKey newKey now =>
    simp only [passkeyStep] at h
    split at h
    · obtain ⟨auth, -, rfl⟩ := Option.map_eq_some_iff.mp h
      exact .noted _ rfl rfl fun _ _ _ heq => by cases heq
    · cases h
  | renamePasskey session id name =>
    obtain ⟨-, h⟩ := Option.ite_none_right_eq_some.mp h
    split at h
    · exact Option.some.inj h ▸ same rfl rfl
    · rename_i name _
      split at h
      · have howners : (state.store.renamePasskey session.username id name).owners ⊆
            state.store.owners := by
          rw [PasskeyStore.owners_renamePasskey]
          exact List.Subset.refl _
        exact Option.some.inj h ▸ .quiet rfl howners
      · exact Option.some.inj h ▸ same rfl rfl
  | removePasskey session id =>
    obtain ⟨-, h⟩ := Option.ite_none_right_eq_some.mp h
    split at h
    · exact Option.some.inj h ▸ .quiet rfl (PasskeyStore.owners_removePasskey_subset _ _ _)
    · exact Option.some.inj h ▸ same rfl rfl
  | abandon request =>
    exact Option.some.inj h ▸ same rfl rfl

end Change

/-- Every owner of a passkey was one at first, or has it from a ceremony in the history. -/
def Owned (webauthn : Webauthn ρ α π β) (first : PasskeyStore π) (state : Passkeys κ ρ α π β) : Prop :=
  ∀ owner ∈ state.store.owners, owner ∈ first.owners ∨
    ∃ flow session credential, .passkeyStored flow owner.1 session credential ∈ state.history ∧
      webauthn.credId credential = owner.2

theorem owned_step [LinearOrder κ] {service : AuthService} {webauthn : Webauthn ρ α π β}
    {first : PasskeyStore π} {state next : Passkeys κ ρ α π β} {action : PasskeyAction κ ρ α}
    (h : passkeyStep service webauthn state action = some next)
    (howned : Owned webauthn first state) : Owned webauthn first next := by
  -- An owner from before, whatever else is in the history now.
  have hold : ∀ {owner}, owner ∈ state.store.owners → state.history ⊆ next.history →
      owner ∈ first.owners ∨ ∃ flow session credential,
        .passkeyStored flow owner.1 session credential ∈ next.history ∧
          webauthn.credId credential = owner.2 := fun howner hmore =>
    (howned _ howner).imp id fun ⟨flow, session, credential, hmem, hcredential⟩ =>
      ⟨flow, session, credential, hmore hmem, hcredential⟩
  intro owner howner
  cases Change.of_step h with
  | quiet hhistory howners =>
    exact hold (howners howner) (hhistory ▸ List.Subset.refl _)
  | noted event hhistory hstore _ =>
    exact hold (hstore ▸ howner) (hhistory ▸ List.subset_cons_self _ _)
  | stored flow username session credential hhistory howners =>
    rw [howners] at howner
    rcases List.mem_cons.mp howner with rfl | howner
    · exact .inr ⟨flow, session, credential, hhistory ▸ List.mem_cons_self, rfl⟩
    · exact hold howner (hhistory ▸ List.subset_cons_self _ _)
  | used _ _ _ _ _ _ hhistory howners _ =>
    exact hold (howners ▸ howner) (hhistory ▸ List.subset_cons_self _ _)

/-! ### Runs -/

/-- What holds of the ceremonies in every state that is reached. -/
structure CeremoniesSafe (service : AuthService) (webauthn : Webauthn ρ α π β)
    (state : Passkeys κ ρ α π β) : Prop where
  follows : ∀ event earlier, (event :: earlier) <:+ state.history →
    Follows service webauthn earlier event
  registrations : ∀ username, countPending
    (fun flow : Pending (Registration κ ρ) => flow.state.username == username)
    state.registrations ≤ maxPendingRegistrationsPerUser
  logins : state.logins.size ≤ maxPendingLogins
  passkeys : ∀ username, state.store.countOf username ≤ maxPasskeysPerUser
  credentials : (state.store.rows.map PasskeyRow.credentialId).Nodup

/-- Whatever random bytes and challenge a start draws, registrations of other users that have not
expired stay pending. -/
def SparesOthers [LinearOrder κ] (service : AuthService) (webauthn : Webauthn ρ α π β)
    (state : Passkeys κ ρ α π β) : Prop :=
  ∀ request registration now random next session name,
    passkeyStep service webauthn state (.insertRegistration request registration now random) =
      some next →
    state.requests.get? request = some (.handled session name) →
    ∀ flow pending, state.registrations.get? flow = some pending →
      pending.state.username ≠ session.username → now < pending.expires →
        next.registrations.get? flow = some pending

theorem registrations_beginRegistration {state : Passkeys κ ρ α π β}
    {registration : Registration κ ρ} {now : ℕ} {random : Option (Vector UInt8 32)} :
    (state.beginRegistration registration now random).registrations =
      (insertRegistration state.registrations registration now random).2 := by
  unfold Passkeys.beginRegistration
  dsimp only
  split <;> rfl

theorem sparesOthers_of_ordered [LinearOrder κ] {service : AuthService} {webauthn : Webauthn ρ α π β}
    {state : Passkeys κ ρ α π β} (h : Ordered service webauthn state) :
    SparesOthers service webauthn state := by
  intro request registration now random next session name hstep hrequest flow pending hpending hother
    hexpires
  simp only [passkeyStep, hrequest] at hstep
  obtain ⟨hnew, hstep⟩ := Option.ite_none_left_eq_some.mp hstep
  obtain rfl := Option.some.inj hstep
  have hdrawn := (h.registrations flow pending hpending).1
  rw [Passkeys.close, registrations_beginRegistration]
  refine get?_insertPending_of_not hpending (by simpa using hother) hexpires fun hid => ?_
  exact Ordered.notMem_of_repeats hnew (insertPending_fst.symm.trans hid) hdrawn

theorem one_le_cap : 1 ≤ 2 := by decide

/-- A service with one user. -/
def onlyAda : AuthService := ⟨fun username => username == "ada", 100, 1000, 2, 2, one_le_cap, one_le_cap⟩

/-- A library whose responses name the challenge, and whose credential is its identifier. -/
def namedChallenges : Webauthn ℕ ℕ (List UInt8) ℕ where
  credId credential := credential
  finishPasskeyRegistration response challenge :=
    if response = [UInt8.ofNat challenge] then some [7] else none
  identifyDiscoverableAuthentication response := some (response.take 1, response.drop 1)
  finishDiscoverableAuthentication response challenge credential :=
    if response.drop 1 = credential then some challenge else none
  resultCredId _ := [7]
  updateCredential credential _ := some credential

/-- The session that registers. -/
def adaRow : Session ℕ := ⟨5, "ada", 0, 0, 1000⟩

/-- A user signs in, registers a passkey and signs in with it. -/
def registerAndSignIn : List (PasskeyAction ℕ ℕ ℕ) :=
  let first := Vector.replicate 32 0
  let second := Vector.replicate 32 1
  [.auth (.signIn none 5 "ada" 0), .auth (.request 5), .auth (.lookup 5 0), .auth (.touch 5 0 adaRow),
    .startRegistration 1 adaRow "key" 0, .passkeysFor 1, .passkeyUserHandle 1 [9],
    .insertRegistration 1 3 10 (some first), .finishRegistration 2 adaRow (flowId first) [3] 20,
    .addPasskey 2 "id" 0, .startLogin 4 30 (some second), .finishLogin 3 (flowId second) [9, 7] 40,
    .passkeyForDiscoverableLogin 3, .updatePasskeyAfterLogin 3 0, .issueSession 3 none 6 0]

end Crabinet.Auth
