import Crabinet.Auth.Passkeys
import Crabinet.Auth.SessionRuns

/-!
# Passkey ceremonies in steps

Each request takes its steps between those of others: the store is read and written in
separate transactions, and a pending ceremony is taken in a step of its own. What a request has
learned is in its phase, what has happened is in the history.
-/

namespace Crabinet.Auth

open Crabinet.Library

/-- The library: what it verifies of a response, against the state it was given. -/
structure Webauthn (ρ α π β : Type) where
  credId : π → List UInt8
  finishPasskeyRegistration : List UInt8 → ρ → Option π
  /-- The handle of a user and a credential. -/
  identifyDiscoverableAuthentication : List UInt8 → Option (List UInt8 × List UInt8)
  finishDiscoverableAuthentication : List UInt8 → α → π → Option β
  resultCredId : β → List UInt8
  updateCredential : π → β → Option π

/-- A request between its steps. -/
inductive Ceremony (κ α π β : Type) where
  /-- `start_registration` before `passkeys_for`. -/
  | authorized (session : Session κ) (name : String)
  /-- `start_registration` before `passkey_user_handle`. -/
  | counted (session : Session κ) (name : String)
  /-- `start_registration` before `insert_registration`. -/
  | handled (session : Session κ) (name : String)
  /-- `finish_registration` before `add_passkey`. -/
  | registered (flow : String) (session : Session κ) (username name : String) (credential : π)
  /-- `verify_login` before `passkey_for_discoverable_login`. -/
  | identified (flow : String) (authentication : α) (response handle credentialId : List UInt8)
  /-- `verify_login` before `update_passkey_after_login`. -/
  | verified (flow username : String) (result : β)
  /-- `verify_login` before `issue_session`. -/
  | recorded (flow username : String)

/-- What happened, for the record. -/
inductive CeremonyEvent (κ ρ α π : Type) where
  | registrationStarted (flow username : String) (sessionKey : κ) (registration : ρ) (expires : ℕ)
  /-- A finish has the ceremony, whether it succeeds or not. -/
  | registrationConsumed (flow : String) (now : ℕ)
  | passkeyStored (flow username : String) (session : Session κ) (credential : π)
  | loginStarted (flow : String) (authentication : α) (expires : ℕ)
  | loginConsumed (flow : String) (now : ℕ)
  | useRecorded (flow username : String) (credentialId : List UInt8)
  | sessionIssued (flow username : String)

/-- The service with its sessions, its ceremonies and its requests. -/
structure Passkeys (κ ρ α π β : Type) where
  auth : AuthState κ
  registrations : KeyedMap String (Pending (Registration κ ρ))
  logins : KeyedMap String (Pending α)
  store : PasskeyStore π
  requests : KeyedMap ℕ (Ceremony κ α π β)
  /-- The identifiers of all ceremonies so far. -/
  drawn : List String
  /-- Latest first. -/
  history : List (CeremonyEvent κ ρ α π)

/-- A step. -/
inductive PasskeyAction (κ ρ α : Type) where
  /-- Sessions are looked up, issued and ended by other requests. -/
  | auth (action : AuthAction κ)
  | startRegistration (request : ℕ) (session : Session κ) (name : String) (now : ℤ)
  | passkeysFor (request : ℕ)
  | passkeyUserHandle (request : ℕ) (candidate : List UInt8)
  | insertRegistration (request : ℕ) (registration : ρ) (now : ℕ) (random : Option (Vector UInt8 32))
  | finishRegistration (request : ℕ) (session : Session κ) (flow : String) (response : List UInt8)
      (now : ℕ)
  | addPasskey (request : ℕ) (id : String) (now : ℤ)
  | startLogin (authentication : α) (now : ℕ) (random : Option (Vector UInt8 32))
  | finishLogin (request : ℕ) (flow : String) (response : List UInt8) (now : ℕ)
  | passkeyForDiscoverableLogin (request : ℕ)
  | updatePasskeyAfterLogin (request : ℕ) (now : ℤ)
  | issueSession (request : ℕ) (oldKey : Option κ) (newKey : κ) (now : ℤ)
  | renamePasskey (session : Session κ) (id name : String)
  | removePasskey (session : Session κ) (id : String)
  /-- The client is gone, or a step of the store failed. -/
  | abandon (request : ℕ)

variable {κ ρ α π β : Type}

namespace Passkeys

/-- No ceremonies and no requests. -/
def initial (clock : ℤ) (store : PasskeyStore π) : Passkeys κ ρ α π β :=
  ⟨AuthService.initial clock, .empty, .empty, store, .empty, [], []⟩

variable (state : Passkeys κ ρ α π β)

/-- A request goes on. -/
def proceed (request : ℕ) (ceremony : Ceremony κ α π β) : Passkeys κ ρ α π β :=
  { state with requests := state.requests.insert request ceremony }

/-- A request ends. -/
def close (request : ℕ) : Passkeys κ ρ α π β :=
  { state with requests := state.requests.erase request }

/-- Something happened. -/
def record (event : CeremonyEvent κ ρ α π) : Passkeys κ ρ α π β :=
  { state with history := event :: state.history }

/-- Whether new random bytes give an identifier that was drawn before. -/
def repeats (random : Option (Vector UInt8 32)) : Bool :=
  random.any fun random => state.drawn.contains (flowId random)

/-- Whether `authenticate` has found the session for a request. -/
def isAuthenticated [DecidableEq κ] (session : Session κ) : Bool :=
  state.auth.history.any fun event =>
    match event with
    | .accepted _ _ row => decide (row = session)
    | .idle _ _ | .ended _ => false

/-- A registration becomes pending. -/
def beginRegistration (registration : Registration κ ρ) (now : ℕ)
    (random : Option (Vector UInt8 32)) : Passkeys κ ρ α π β :=
  let inserted := insertRegistration state.registrations registration now random
  match inserted.1 with
  | none => { state with registrations := inserted.2 }
  | some id =>
    { state with
      registrations := inserted.2
      drawn := id :: state.drawn
      history := .registrationStarted id registration.username registration.sessionKey
        registration.state (now + registrationLifetime) :: state.history }

/-- A sign-in becomes pending. -/
def beginLogin (authentication : α) (now : ℕ) (random : Option (Vector UInt8 32)) :
    Passkeys κ ρ α π β :=
  let inserted := insertLogin state.logins authentication now random
  match inserted.1 with
  | none => { state with logins := inserted.2 }
  | some id =>
    { state with
      logins := inserted.2
      drawn := id :: state.drawn
      history := .loginStarted id authentication (now + loginLifetime) :: state.history }

/-- `finish_registration` up to the library's verdict. -/
def takeRegistration [DecidableEq κ] (webauthn : Webauthn ρ α π β) (request : ℕ)
    (session : Session κ) (flow : String) (response : List UInt8) (now : ℕ) : Passkeys κ ρ α π β :=
  let taken := take state.registrations flow now
  let removed := { state with registrations := taken.2 }
  match taken.1 with
  | none => removed
  | some registration =>
    let consumed := removed.record (.registrationConsumed flow now)
    if registration.username ≠ session.username ∨ registration.sessionKey ≠ session.key then consumed
    else
      match webauthn.finishPasskeyRegistration response registration.state with
      | none => consumed
      | some credential => consumed.proceed request
          (.registered flow session registration.username registration.name credential)

/-- `verify_login` up to the names in the response. -/
def takeLogin (webauthn : Webauthn ρ α π β) (request : ℕ) (flow : String) (response : List UInt8)
    (now : ℕ) : Passkeys κ ρ α π β :=
  let taken := take state.logins flow now
  let removed := { state with logins := taken.2 }
  match taken.1 with
  | none => removed
  | some authentication =>
    let consumed := removed.record (.loginConsumed flow now)
    match webauthn.identifyDiscoverableAuthentication response with
    | none => consumed
    | some (handle, credentialId) =>
      consumed.proceed request (.identified flow authentication response handle credentialId)

/-- `verify_login` from the row of the credential to the library's verdict. -/
def verifyLogin (service : AuthService) (webauthn : Webauthn ρ α π β) (request : ℕ) (flow : String)
    (authentication : α) (response handle credentialId : List UInt8) : Passkeys κ ρ α π β :=
  match state.store.passkeyForDiscoverableLogin handle credentialId with
  | none => state.close request
  | some (username, credential) =>
    if service.isActive username then
      match webauthn.finishDiscoverableAuthentication response authentication credential with
      | none => state.close request
      | some result => state.proceed request (.verified flow username result)
    else state.close request

end Passkeys

/-- One step; none where it is not possible. -/
def passkeyStep [LinearOrder κ] (service : AuthService) (webauthn : Webauthn ρ α π β)
    (state : Passkeys κ ρ α π β) : PasskeyAction κ ρ α → Option (Passkeys κ ρ α π β)
  | .auth action => (service.step state.auth action).map fun auth => { state with auth }
  | .startRegistration request session name now =>
    if state.requests.get? request = none ∧ state.isAuthenticated session then
      if now - session.createdAt > registrationMaxSessionAgeSeconds then some state
      else
        match validatedName name with
        | none => some state
        | some name => some (state.proceed request (.authorized session name))
    else none
  | .passkeysFor request =>
    match state.requests.get? request with
    | some (.authorized session name) =>
      if maxPasskeysPerUser ≤ (state.store.passkeysFor session.username).length then
        some (state.close request)
      else some (state.proceed request (.counted session name))
    | _ => none
  | .passkeyUserHandle request candidate =>
    match state.requests.get? request with
    | some (.counted session name) =>
      let found := state.store.passkeyUserHandle session.username candidate
      let read := { state with store := found.2 }
      match found.1 with
      | none => some (read.close request)
      | some _ => some (read.proceed request (.handled session name))
    | _ => none
  | .insertRegistration request registration now random =>
    match state.requests.get? request with
    | some (.handled session name) =>
      -- The random identifiers never repeat.
      if state.repeats random then none
      else
        some ((state.beginRegistration ⟨session.username, session.key, name, registration⟩ now
          random).close request)
    | _ => none
  | .finishRegistration request session flow response now =>
    if state.requests.get? request = none ∧ state.isAuthenticated session then
      some (state.takeRegistration webauthn request session flow response now)
    else none
  | .addPasskey request id now =>
    match state.requests.get? request with
    | some (.registered flow session username name credential) =>
      match state.store.addPasskey
        ⟨id, username, webauthn.credId credential, name, credential, now, none⟩ with
      | none => some (state.close request)
      | some store =>
        some (({ state with store }.record (.passkeyStored flow username session credential)).close
          request)
    | _ => none
  | .startLogin authentication now random =>
    if state.repeats random then none else some (state.beginLogin authentication now random)
  | .finishLogin request flow response now =>
    if state.requests.get? request = none then
      some (state.takeLogin webauthn request flow response now)
    else none
  | .passkeyForDiscoverableLogin request =>
    match state.requests.get? request with
    | some (.identified flow authentication response handle credentialId) =>
      some (state.verifyLogin service webauthn request flow authentication response handle credentialId)
    | _ => none
  | .updatePasskeyAfterLogin request now =>
    match state.requests.get? request with
    | some (.verified flow username result) =>
      match state.store.updatePasskeyAfterLogin username (webauthn.resultCredId result)
        (webauthn.updateCredential · result) now with
      | none => some (state.close request)
      | some store =>
        some (({ state with store }.record
          (.useRecorded flow username (webauthn.resultCredId result))).proceed request
            (.recorded flow username))
    | _ => none
  | .issueSession request oldKey newKey now =>
    match state.requests.get? request with
    | some (.recorded flow username) =>
      (service.step state.auth (.signIn oldKey newKey username now)).map fun auth =>
        ({ state with auth }.record (.sessionIssued flow username)).close request
    | _ => none
  | .renamePasskey session id name =>
    if state.isAuthenticated session then
      match validatedName name with
      | none => some state
      | some name =>
        if isPasskeyId id then
          some { state with store := state.store.renamePasskey session.username id name }
        else some state
    else none
  | .removePasskey session id =>
    if state.isAuthenticated session then
      if isPasskeyId id then
        some { state with store := state.store.removePasskey session.username id }
      else some state
    else none
  | .abandon request => some (state.close request)

end Crabinet.Auth
