import Crabinet.Library.Transition
import Crabinet.Oidc.Binding

/-!
# Runs of sign-ins

Sign-ins begin and are completed in any order, with clock readings that do not go back.
Whoever completes one chooses the headers and the state; a tag that verifies was issued by
the server, and the keyed hash function does not give it to another message.
-/

namespace Crabinet.Oidc

open Crabinet.Library Crabinet.Tokens

/-- A call, with its clock reading. -/
inductive Action where
  | begin (random : Vector UInt8 32) (now : UnixTime) (previous : Option (Vector UInt8 32))
      (returnPath : Option (List Char))
  | consume (headers : List HeaderValue) (state : List Char) (now : UnixTime)

/-- What happened, for the record. -/
inductive Event where
  | begun (bound : Bound)
  | accepted (headers : List HeaderValue) (state : List Char) (now : ℕ) (transaction : Transaction)

/-- The consumed states, the latest clock reading, and what has happened, latest first. -/
structure OidcState where
  clock : ℕ
  consumed : KeyedMap (List Char) ℕ
  history : List Event

/-- A service that has just started. -/
def initial (clock : ℕ) : OidcState := ⟨clock, .empty, []⟩

/-- The state of an acceptance. -/
def Event.acceptedState : Event → Option (List Char)
  | .begun _ => none
  | .accepted _ state _ _ => some state

namespace OidcState

/-- The states that were accepted. -/
def accepted (state : OidcState) : List (List Char) := state.history.filterMap Event.acceptedState

end OidcState

/-- What the server has authenticated when a sign-in began. -/
def Event.messages : Event → List (List UInt8)
  | .begun bound =>
    [cookieMessage bound.state bound.expiresAt bound.previousText bound.returnText,
      deriveMessage "oidc-nonce\x00" bound.state, deriveMessage "oidc-verifier\x00" bound.state]
  | .accepted _ _ _ _ => []

/-- The fields of the transaction cookie in some headers. -/
def cookieOf (headers : List HeaderValue) : Option CookieFields :=
  (cookieValue headers transactionCookie).bind cookieFields

/-- The message and the tag that `consume` compares. -/
def presented (headers : List HeaderValue) (state : List Char) : Option (List UInt8 × List UInt8) := do
  let fields ← cookieOf headers
  let expiresAt ← parseU64 fields.expiresAt
  return (cookieMessage state expiresAt fields.previous fields.returnPath, ← Base64.decode fields.tag)

namespace OidcService

variable (service : OidcService)

/-- One call. -/
def step (state : OidcState) : Action → Option OidcState
  | .begin random now previous returnPath =>
    if now.seconds < state.clock then none
    else
      some { state with
        clock := now.seconds
        history := .begun (bind random now previous returnPath) :: state.history }
  | .consume headers callback now =>
    if now.seconds < state.clock then none
    else
      match service.consume state.consumed headers callback now with
      | (.error _, consumed) => some { state with clock := now.seconds, consumed }
      | (.ok transaction, consumed) =>
        some { clock := now.seconds, consumed
               history := .accepted headers callback now.seconds transaction :: state.history }

/-- A tag that verifies was issued, and for this message. -/
def Unforged (state : OidcState) : Action → Prop
  | .begin _ _ _ _ => True
  | .consume headers callback _ =>
    ∀ message tag, presented headers callback = some (message, tag) →
      tag = (service.mac message).toList →
        (∃ made ∈ state.history.flatMap Event.messages, tag = (service.mac made).toList) ∧
          ∀ made ∈ state.history.flatMap Event.messages, service.mac made = service.mac message →
            made = message

end OidcService

/-- The condition on the calls: random bytes are not drawn again, and a completion finds room among the
states that have not expired. -/
def HasRoom (state : OidcState) : Action → Prop
  | .begin random _ _ _ => ∀ bound, .begun bound ∈ state.history → bound.random ≠ random
  | .consume _ _ now => (unexpired state.consumed now.seconds).size < maxConsumedStates

/-! ### One call -/

/-- What the checks of an accepted cookie have found. -/
structure Accepts (service : OidcService) (headers : List HeaderValue) (state : List Char) (now : ℕ)
    (fields : CookieFields) (expiresAt : ℕ) (transaction : Transaction) : Prop where
  cookie : cookieOf headers = some fields
  state_eq : fields.state = state
  expiry : parseU64 fields.expiresAt = some expiresAt
  tag : Base64.decode fields.tag =
    some (service.mac (cookieMessage state expiresAt fields.previous fields.returnPath)).toList
  live : now < expiresAt
  previous : previousSessionKey fields.previous = some transaction.previousSessionKey
  nonce : transaction.nonce = service.nonce state
  verifier : transaction.verifier = service.verifier state
  returnPath : transaction.returnPath =
    (do safeReturnPath (← textOf (← Base64.decode fields.returnPath)))

/-- The checks accept only what they have found to be in order. -/
theorem accepts_of_check {service : OidcService} {headers : List HeaderValue} {state : List Char}
    {now expiresAt : ℕ} {transaction : Transaction}
    (h : service.check headers state now = some (expiresAt, transaction)) :
    ∃ fields, Accepts service headers state now fields expiresAt transaction := by
  obtain ⟨value, hvalue, h⟩ := Option.bind_eq_some_iff.mp h
  obtain ⟨fields, hfields, h⟩ := Option.bind_eq_some_iff.mp h
  split at h
  · cases h
  · rename_i hstate
    obtain ⟨expiresAt', hexpiry, h⟩ := Option.bind_eq_some_iff.mp h
    obtain ⟨tag, htag, h⟩ := Option.bind_eq_some_iff.mp h
    split at h
    · cases h
    · rename_i hverified
      split at h
      · cases h
      · rename_i hlive
        obtain ⟨previous, hprevious, h⟩ := Option.bind_eq_some_iff.mp h
        obtain ⟨rfl, rfl⟩ := Prod.mk.inj (Option.some.inj h)
        obtain ⟨-, hsame⟩ := not_or.mp hstate
        exact ⟨fields,
          { cookie := Option.bind_eq_some_iff.mpr ⟨value, hvalue, hfields⟩
            state_eq := not_not.mp hsame
            expiry := hexpiry
            tag := htag.trans (congrArg some (not_not.mp hverified))
            live := Nat.lt_of_not_le hlive
            previous := hprevious
            nonce := rfl
            verifier := rfl
            returnPath := rfl }⟩

/-- The fields of a sign-in's cookie are read back. -/
theorem cookieFields_fields (service : OidcService) (bound : Bound) :
    cookieFields (service.fields bound).text = some (service.fields bound) :=
  cookieFields_text fun field hfield hdot => nomatch service.fields_token bound field hfield '.' hdot

/-- What is compared for a sign-in's own header is its message and the tag of it. -/
theorem presented_header (service : OidcService) (bound : Bound) :
    presented [service.header bound] bound.state =
      some (cookieMessage bound.state bound.expiresAt bound.previousText bound.returnText,
        (service.mac (cookieMessage bound.state bound.expiresAt bound.previousText
          bound.returnText)).toList) := by
  have hcookie : cookieOf [service.header bound] = some (service.fields bound) := by
    rw [cookieOf, service.cookieValue_header, Option.bind_some, cookieFields_fields]
  have hexpiry : parseU64 (service.fields bound).expiresAt = some bound.expiresAt :=
    parseU64_toDigits bound.expiresAt_lt
  have htag : Base64.decode (service.fields bound).tag = some (service.mac (cookieMessage bound.state
      bound.expiresAt bound.previousText bound.returnText)).toList := Base64.decode_encode _
  simp only [presented, hcookie, hexpiry, htag, Option.bind_eq_bind, Option.bind_some, Option.pure_def]
  rfl

/-- A sign-in's own cookie passes the checks until it expires. -/
theorem check_own (service : OidcService) (bound : Bound) {headers : List HeaderValue} {now : ℕ}
    (hcookie : cookieValue headers transactionCookie = some (service.fields bound).text)
    (hlive : now < bound.expiresAt) :
    service.check headers bound.state now = some (bound.expiresAt, service.transaction bound) := by
  have hfields := cookieFields_fields service bound
  have hlength : ¬((bytesOf bound.state).length > 128 ∨ (service.fields bound).state ≠ bound.state) := by
    rw [length_bytesOf bound.state_token, bound.length_state]
    exact not_or.mpr ⟨by decide, not_not.mpr rfl⟩
  have hexpiry : parseU64 (service.fields bound).expiresAt = some bound.expiresAt :=
    parseU64_toDigits bound.expiresAt_lt
  have htag : Base64.decode (service.fields bound).tag = some (service.mac (cookieMessage bound.state
      bound.expiresAt bound.previousText bound.returnText)).toList := Base64.decode_encode _
  have hprevious : previousSessionKey (service.fields bound).previous =
      some (bound.previous.map (·.toList)) := previousSessionKey_previousText bound
  simp only [OidcService.check, hcookie, hfields, hexpiry, htag, Option.bind_eq_bind, Option.bind_some,
    if_neg hlength, if_neg (Nat.not_le.mpr hlive)]
  refine (if_neg (not_not.mpr rfl)).trans ?_
  rw [hprevious, Option.bind_some]
  exact congrArg (fun path => some (bound.expiresAt, Transaction.mk _ _ _ path))
    (returnPath_returnText bound)

/-- The state of a cookie has no byte that is zero, and neither has the key in it. -/
theorem zero_notMem_of_cookieOf {headers : List HeaderValue} {fields : CookieFields}
    (h : cookieOf headers = some fields) :
    0 ∉ bytesOf fields.state ∧ 0 ∉ bytesOf fields.previous := by
  obtain ⟨value, hvalue, hfields⟩ := Option.bind_eq_some_iff.mp h
  obtain ⟨header, -, hheader⟩ := mem_header_of_cookieValue hvalue
  have hclean : (0 : UInt8) ∉ header.bytes := fun hzero =>
    nomatch List.all_eq_true.mp header.valid 0 hzero
  have hpart : ∀ field ∈ [fields.state, fields.expiresAt, fields.previous, fields.returnPath, fields.tag],
      0 ∉ bytesOf field := fun field hfield hzero => by
    refine hclean (hheader 0 ?_)
    rw [text_of_cookieFields hfields]
    exact mem_bytesOf_of_subset (fun c hc => mem_text_of_mem_field hfield hc) hzero
  exact ⟨hpart _ (by simp), hpart _ (by simp)⟩

/-- A cookie is a sign-in's own, up to how its expiry is written. -/
def IsCookieOf (service : OidcService) (headers : List HeaderValue) (bound : Bound) : Prop :=
  ∃ expiresAt, parseU64 expiresAt = some bound.expiresAt ∧
    cookieOf headers = some { service.fields bound with expiresAt }

/-- What is accepted without a forged tag is a sign-in that has begun. -/
theorem bound_of_check {service : OidcService} {state : OidcState} {headers : List HeaderValue}
    {callback : List Char} {now : UnixTime} {expiresAt : ℕ} {transaction : Transaction}
    (hunforged : service.Unforged state (.consume headers callback now))
    (h : service.check headers callback now.seconds = some (expiresAt, transaction)) :
    ∃ bound, .begun bound ∈ state.history ∧ bound.state = callback ∧ bound.expiresAt = expiresAt ∧
      now.seconds < expiresAt ∧ transaction = service.transaction bound ∧
      IsCookieOf service headers bound := by
  obtain ⟨fields, haccepts⟩ := accepts_of_check h
  have hpresented : presented headers callback = some (cookieMessage callback expiresAt fields.previous
      fields.returnPath, (service.mac (cookieMessage callback expiresAt fields.previous
        fields.returnPath)).toList) := by
    simp only [presented, haccepts.cookie, haccepts.expiry, haccepts.tag, Option.bind_eq_bind,
      Option.bind_some, Option.pure_def]
  obtain ⟨⟨made, hmade, htag⟩, hdistinct⟩ := hunforged _ _ hpresented rfl
  have hsame := hdistinct made hmade (Vector.toList_inj.mp htag.symm)
  obtain ⟨event, hevent, hmessage⟩ := List.mem_flatMap.mp hmade
  cases event with
  | accepted => cases hmessage
  | begun bound =>
    obtain ⟨hstate, hprevious⟩ := zero_notMem_of_cookieOf haccepts.cookie
    rw [haccepts.state_eq] at hstate
    simp only [Event.messages, List.mem_cons, List.not_mem_nil, or_false] at hmessage
    rcases hmessage with rfl | rfl | rfl
    · obtain ⟨rfl, rfl, hkey, hpath⟩ := (cookieMessage_inj (zero_notMem_bytesOf bound.state_token) hstate
        (zero_notMem_bytesOf bound.previousText_token) hprevious).mp hsame
      have hkeys : some transaction.previousSessionKey = some (bound.previous.map (·.toList)) := by
        rw [← haccepts.previous, ← hkey, previousSessionKey_previousText]
      have hpaths : transaction.returnPath = bound.returnPath := by
        rw [haccepts.returnPath, ← hpath, returnPath_returnText]
      refine ⟨bound, hevent, rfl, rfl, haccepts.live, ?_, fields.expiresAt, haccepts.expiry, ?_⟩
      · obtain ⟨nonce, verifier, key, path⟩ := transaction
        obtain rfl : nonce = _ := haccepts.nonce
        obtain rfl : verifier = _ := haccepts.verifier
        obtain rfl : key = _ := Option.some.inj hkeys
        obtain rfl : path = _ := hpaths
        rfl
      · have htext : fields.tag = (service.fields bound).tag := by
          rw [← Base64.encode_of_decode haccepts.tag, ← hkey, ← hpath]
          rfl
        rw [haccepts.cookie]
        obtain ⟨state, expiry, previous, path, tag⟩ := fields
        obtain rfl : state = _ := haccepts.state_eq
        obtain rfl : _ = previous := hkey
        obtain rfl : _ = path := hpath
        obtain rfl : tag = _ := htext
        rfl
    · exact absurd hsame.symm (cookieMessage_ne_deriveMessage (.inl rfl))
    · exact absurd hsame.symm (cookieMessage_ne_deriveMessage (.inr rfl))

/-! ### The consumed states -/

/-- Where there is room, nothing is evicted. -/
theorem makeRoom_of_lt {consumed : KeyedMap (List Char) ℕ} (h : consumed.size < maxConsumedStates) :
    makeRoom consumed = consumed := if_neg (Nat.not_le.mpr h)

/-- An eviction adds nothing. -/
theorem keys_makeRoom_subset {consumed : KeyedMap (List Char) ℕ} {key : List Char} {expiry : ℕ}
    (h : (makeRoom consumed).get? key = some expiry) : consumed.get? key = some expiry := by
  unfold makeRoom at h
  split at h
  · split at h
    · exact KeyedMap.get?_of_erase h
    · exact h
  · exact h

theorem get?_of_unexpired {consumed : KeyedMap (List Char) ℕ} {now : ℕ} {key : List Char} {expiry : ℕ}
    (h : (unexpired consumed now).get? key = some expiry) : consumed.get? key = some expiry :=
  (KeyedMap.get?_of_retain h).1

theorem get?_unexpired {consumed : KeyedMap (List Char) ℕ} {now : ℕ} {key : List Char} {expiry : ℕ}
    (h : consumed.get? key = some expiry) (hlive : now < expiry) :
    (unexpired consumed now).get? key = some expiry := by
  rw [unexpired, KeyedMap.get?_retain, h]
  simp [hlive]

/-! ### Runs -/

/-- An acceptance is of a sign-in that has begun, with its values and before its expiry. -/
def Event.Bound (service : OidcService) (history : List Event) : Event → Prop
  | .begun _ => True
  | .accepted headers callback now transaction =>
    ∃ bound, .begun bound ∈ history ∧ bound.state = callback ∧ now < bound.expiresAt ∧
      transaction = service.transaction bound ∧ IsCookieOf service headers bound

/-- What holds in every state that is reached without a forged tag. -/
structure Sound (service : OidcService) (state : OidcState) : Prop where
  bound : ∀ event ∈ state.history, event.Bound service state.history
  recorded : ∀ key expiry, state.consumed.get? key = some expiry → key ∈ state.accepted

/-- What holds besides where every completion finds room and no random bytes are drawn again. -/
structure Single (state : OidcState) : Prop where
  distinct : ∀ bound other, .begun bound ∈ state.history → .begun other ∈ state.history →
    bound.state = other.state → bound = other
  kept : ∀ bound, .begun bound ∈ state.history → bound.state ∈ state.accepted →
    state.clock < bound.expiresAt → state.consumed.get? bound.state = some bound.expiresAt
  once : state.accepted.Nodup

variable {service : OidcService} {state next : OidcState} {action : Action}

/-- What a call does: it begins a sign-in, refuses a completion or accepts one. -/
theorem step_cases (h : service.step state action = some next) :
    (∃ random now previous returnPath, action = .begin random now previous returnPath ∧
      state.clock ≤ now.seconds ∧
      next = ⟨now.seconds, state.consumed, .begun (bind random now previous returnPath) :: state.history⟩) ∨
    (∃ headers callback now consumed, action = .consume headers callback now ∧
      state.clock ≤ now.seconds ∧ (consumed = state.consumed ∨ consumed = unexpired state.consumed now.seconds) ∧
      next = ⟨now.seconds, consumed, state.history⟩) ∨
    ∃ headers callback now expiresAt transaction, action = .consume headers callback now ∧
      state.clock ≤ now.seconds ∧ service.check headers callback now.seconds = some (expiresAt, transaction) ∧
      (unexpired state.consumed now.seconds).get? callback = none ∧
      next = ⟨now.seconds, (makeRoom (unexpired state.consumed now.seconds)).insert callback expiresAt,
        .accepted headers callback now.seconds transaction :: state.history⟩ := by
  cases action with
  | begin random now previous returnPath =>
    simp only [OidcService.step] at h
    split at h
    · cases h
    · rename_i hclock
      exact .inl ⟨random, now, previous, returnPath, rfl, Nat.le_of_not_lt hclock,
        (Option.some.inj h).symm⟩
  | consume headers callback now =>
    simp only [OidcService.step] at h
    split at h
    · cases h
    · rename_i hclock
      have hclock := Nat.le_of_not_lt hclock
      cases hcheck : service.check headers callback now.seconds with
      | none =>
        simp only [OidcService.consume, hcheck] at h
        exact .inr (.inl ⟨headers, callback, now, _, rfl, hclock, .inl rfl, (Option.some.inj h).symm⟩)
      | some accepted =>
        obtain ⟨expiresAt, transaction⟩ := accepted
        cases hfound : (unexpired state.consumed now.seconds).get? callback with
        | some expiry =>
          simp only [OidcService.consume, hcheck, hfound, Option.isSome_some, if_true] at h
          exact .inr (.inl ⟨headers, callback, now, _, rfl, hclock, .inr rfl, (Option.some.inj h).symm⟩)
        | none =>
          simp only [OidcService.consume, hcheck, hfound, Option.isSome_none] at h
          exact .inr (.inr ⟨headers, callback, now, expiresAt, transaction, rfl, hclock, hcheck, hfound,
            (Option.some.inj h).symm⟩)

/-- A completion whose cookie passes the checks, and whose state is not recorded, is accepted. -/
theorem step_consume {headers : List HeaderValue} {callback : List Char} {now : UnixTime} {expiresAt : ℕ}
    {transaction : Transaction} (hclock : state.clock ≤ now.seconds)
    (hcheck : service.check headers callback now.seconds = some (expiresAt, transaction))
    (hnew : (unexpired state.consumed now.seconds).get? callback = none) :
    service.step state (.consume headers callback now) =
      some ⟨now.seconds, (makeRoom (unexpired state.consumed now.seconds)).insert callback expiresAt,
        .accepted headers callback now.seconds transaction :: state.history⟩ := by
  simp only [OidcService.step, OidcService.consume, hcheck, hnew, if_neg (Nat.not_lt.mpr hclock),
    Option.isSome_none, Bool.false_eq_true, if_false]

/-- A record stays what it is when more happens. -/
theorem Event.Bound.mono {history later : List Event} {event : Event}
    (h : event.Bound service history) (hsubset : ∀ other ∈ history, other ∈ later) :
    event.Bound service later := by
  cases event with
  | begun => trivial
  | accepted headers callback now transaction =>
    obtain ⟨bound, hbegun, hbound⟩ := h
    exact ⟨bound, hsubset _ hbegun, hbound⟩

theorem sound_initial (clock : ℕ) : Sound service (initial clock) where
  bound := nofun
  recorded := nofun

/-- One call that is not forged keeps the records sound. -/
theorem Sound.step (h : Sound service state) (hstep : service.step state action = some next)
    (hunforged : service.Unforged state action) : Sound service next := by
  have hcons : ∀ {event other : Event}, other ∈ state.history → other ∈ event :: state.history :=
    fun hother => List.mem_cons_of_mem _ hother
  rcases step_cases hstep with ⟨random, now, previous, returnPath, rfl, -, rfl⟩ |
    ⟨headers, callback, now, consumed, rfl, -, hconsumed, rfl⟩ |
    ⟨headers, callback, now, expiresAt, transaction, rfl, -, hcheck, -, rfl⟩
  · refine ⟨fun event hevent => ?_, h.recorded⟩
    rcases List.mem_cons.mp hevent with rfl | hevent
    · trivial
    · exact (h.bound event hevent).mono fun _ => hcons
  · refine ⟨h.bound, fun key expiry hkey => ?_⟩
    rcases hconsumed with rfl | rfl
    · exact h.recorded key expiry hkey
    · exact h.recorded key expiry (get?_of_unexpired hkey)
  · obtain ⟨bound, hbegun, hstate, hexpiry, hlive, htransaction, hcookie⟩ := bound_of_check hunforged hcheck
    refine ⟨fun event hevent => ?_, fun key expiry hkey => ?_⟩
    · rcases List.mem_cons.mp hevent with rfl | hevent
      · exact ⟨bound, hcons hbegun, hstate, hexpiry ▸ hlive, htransaction, hcookie⟩
      · exact (h.bound event hevent).mono fun _ => hcons
    · by_cases heq : key = callback
      · subst heq
        exact List.mem_cons_self
      · rw [KeyedMap.get?_insert_ne _ heq] at hkey
        exact List.mem_cons_of_mem _ (h.recorded key expiry (get?_of_unexpired (keys_makeRoom_subset hkey)))

theorem single_initial (clock : ℕ) : Single (initial clock) where
  distinct := nofun
  kept := nofun
  once := List.nodup_nil

/-- An accepted state is the state of a sign-in that has begun. -/
theorem Sound.begun_of_accepted (h : Sound service state) {callback : List Char}
    (haccepted : callback ∈ state.accepted) :
    ∃ bound, .begun bound ∈ state.history ∧ bound.state = callback := by
  obtain ⟨event, hevent, hstate⟩ := List.mem_filterMap.mp haccepted
  cases event with
  | begun => cases hstate
  | accepted headers other now transaction =>
    obtain rfl : other = callback := Option.some.inj hstate
    obtain ⟨bound, hbegun, hsame, -⟩ := h.bound _ hevent
    exact ⟨bound, hbegun, hsame⟩

/-- One call that finds room accepts no state again. -/
theorem Single.step (h : Single state) (hsound : Sound service state)
    (hstep : service.step state action = some next) (hunforged : service.Unforged state action)
    (hroom : HasRoom state action) : Single next := by
  rcases step_cases hstep with ⟨random, now, previous, returnPath, rfl, hclock, rfl⟩ |
    ⟨headers, callback, now, consumed, rfl, hclock, hconsumed, rfl⟩ |
    ⟨headers, callback, now, expiresAt, transaction, rfl, hclock, hcheck, hfound, rfl⟩
  · have hfresh : ∀ bound, .begun bound ∈ state.history →
        bound.state ≠ (bind random now previous returnPath).state := fun bound hbegun hsame =>
      hroom bound hbegun (Vector.toList_inj.mp (Base64.encode_injective hsame))
    refine ⟨fun bound other hbound hother hsame => ?_, fun bound hbegun haccepted hlive => ?_, h.once⟩
    · rcases List.mem_cons.mp hbound with hbound | hbound
      · rcases List.mem_cons.mp hother with hother | hother
        · rw [Event.begun.inj hbound, Event.begun.inj hother]
        · exact absurd (hsame.symm.trans (congrArg Bound.state (Event.begun.inj hbound)))
            (hfresh other hother)
      · rcases List.mem_cons.mp hother with hother | hother
        · exact absurd (hsame.trans (congrArg Bound.state (Event.begun.inj hother))) (hfresh bound hbound)
        · exact h.distinct bound other hbound hother hsame
    · rcases List.mem_cons.mp hbegun with hbegun | hbegun
      · obtain ⟨earlier, hearlier, hsame⟩ := hsound.begun_of_accepted haccepted
        exact absurd (hsame.trans (congrArg Bound.state (Event.begun.inj hbegun))) (hfresh earlier hearlier)
      · exact h.kept bound hbegun haccepted (Nat.lt_of_le_of_lt hclock hlive)
  · refine ⟨h.distinct, fun bound hbegun haccepted hlive => ?_, h.once⟩
    have hkept := h.kept bound hbegun haccepted (Nat.lt_of_le_of_lt hclock hlive)
    rcases hconsumed with rfl | rfl
    · exact hkept
    · exact get?_unexpired hkept hlive
  · obtain ⟨bound, hbegun, rfl, rfl, hlive, -, -⟩ := bound_of_check hunforged hcheck
    have hnew : bound.state ∉ state.accepted := fun haccepted => by
      have hkept := h.kept bound hbegun haccepted (Nat.lt_of_le_of_lt hclock hlive)
      rw [get?_unexpired hkept hlive] at hfound
      cases hfound
    have hold : ∀ other, .begun other ∈ Event.accepted headers bound.state now.seconds transaction ::
        state.history → .begun other ∈ state.history := fun other hother =>
      (List.mem_cons.mp hother).resolve_left nofun
    refine ⟨fun first second hfirst hsecond => h.distinct first second (hold _ hfirst) (hold _ hsecond),
      fun other hother haccepted hlater => ?_, List.nodup_cons.mpr ⟨hnew, h.once⟩⟩
    rw [makeRoom_of_lt hroom]
    by_cases hsame : other.state = bound.state
    · rw [h.distinct other bound (hold _ hother) hbegun hsame]
      exact KeyedMap.get?_insert_self _ _ _
    · rw [KeyedMap.get?_insert_ne _ hsame]
      have haccepted := (List.mem_cons.mp haccepted).resolve_left hsame
      exact get?_unexpired (h.kept other (hold _ hother) haccepted (Nat.lt_of_le_of_lt hclock hlater)) hlater

/-- Sign-ins are bound and single use. In every run without a forged tag: the cookie of a sign-in that
was not completed is accepted until its expiry, with the values it was begun with; what was accepted
was a sign-in that had begun, before its expiry; the message of a tag determines the fields of a
cookie; and no state is accepted again where every completion finds room. -/
theorem sign_ins_bound {clock : ℕ} {actions : List Action} {last : OidcState}
    (hrun : run service.step (initial clock) actions = some last)
    (hunforged : Along service.step service.Unforged (initial clock) actions) :
    (∀ bound, .begun bound ∈ last.history → bound.state ∉ last.accepted →
      ∀ (headers : List HeaderValue) (now : UnixTime),
        cookieValue headers transactionCookie = some (service.fields bound).text →
          now.seconds < bound.expiresAt →
            (service.consume last.consumed headers bound.state now).1 = .ok (service.transaction bound)) ∧
      (∀ event ∈ last.history, event.Bound service last.history) ∧
      (∀ (headers headers' : List HeaderValue) (fields fields' : CookieFields) (expiresAt expiresAt' : ℕ),
        cookieOf headers = some fields → cookieOf headers' = some fields' →
          cookieMessage fields.state expiresAt fields.previous fields.returnPath =
            cookieMessage fields'.state expiresAt' fields'.previous fields'.returnPath →
          fields.state = fields'.state ∧ expiresAt = expiresAt' ∧ fields.previous = fields'.previous ∧
            fields.returnPath = fields'.returnPath) ∧
      (Along service.step HasRoom (initial clock) actions → last.accepted.Nodup) := by
  have hsound : Sound service last :=
    run_invariant_along (fun _ _ _ hstep hmeets hinv => Sound.step hinv hstep hmeets) hrun hunforged
      (sound_initial clock)
  refine ⟨fun bound hbegun hunused headers now hcookie hlive => ?_, hsound.bound,
    fun headers headers' fields fields' expiresAt expiresAt' hfields hfields' hsame => ?_, fun hroom => ?_⟩
  · have hnone : (unexpired last.consumed now.seconds).get? bound.state = none := by
      cases hfound : (unexpired last.consumed now.seconds).get? bound.state with
      | none => rfl
      | some expiry => exact absurd (hsound.recorded _ _ (get?_of_unexpired hfound)) hunused
    rw [OidcService.consume, check_own service bound hcookie hlive]
    simp only [hnone, Option.isSome_none, Bool.false_eq_true, if_false]
  · obtain ⟨hstate, hprevious⟩ := zero_notMem_of_cookieOf hfields
    obtain ⟨hstate', hprevious'⟩ := zero_notMem_of_cookieOf hfields'
    exact (cookieMessage_inj hstate hstate' hprevious hprevious').mp hsame
  · have hstep : ∀ state action next, service.step state action = some next →
        service.Unforged state action ∧ HasRoom state action → Sound service state ∧ Single state →
          Sound service next ∧ Single next := fun _ _ _ hstep hmeets hinv =>
      ⟨hinv.1.step hstep hmeets.1, hinv.2.step hinv.1 hstep hmeets.1 hmeets.2⟩
    exact (run_invariant_along hstep hrun (hunforged.and hroom)
      ⟨sound_initial clock, single_initial clock⟩).2.once

/-! ### A full set -/

/-- A full set loses the state that expires first. -/
theorem makeRoom_of_full {consumed : KeyedMap (List Char) ℕ} {key : List Char} {expiry : ℕ}
    (hfull : maxConsumedStates ≤ consumed.size) (hkey : (key, expiry) ∈ consumed.entries)
    (hleast : ∀ entry ∈ consumed.entries, entry.1 ≠ key → expiry < entry.2) :
    makeRoom consumed = consumed.erase key := by
  rw [makeRoom, if_pos hfull]
  cases holdest : consumed.entries.argmin Prod.snd with
  | none => exact absurd (List.argmin_eq_none.mp holdest) (List.ne_nil_of_mem hkey)
  | some oldest =>
    have hle : oldest.2 ≤ expiry := List.le_of_mem_argmin hkey holdest
    have hsame : oldest.1 = key := by
      by_contra hne
      exact absurd (hleast oldest (List.argmin_mem holdest) hne) (Nat.not_lt.mpr hle)
    rw [← hsame]

/-- Random bytes that count. -/
def randomOf (index : ℕ) : Vector UInt8 32 := ⟨(beBytes 32 index).toArray, by simp⟩

/-- The first of many sign-ins begins a second before the others. -/
def timeOf (index : ℕ) : UnixTime := ⟨if index = 0 then 0 else 1, by split <;> decide⟩

/-- A sign-in of many. -/
def nth (index : ℕ) : Bound := bind (randomOf index) (timeOf index) none none

/-- The messages of their cookies. -/
def nthMessages : List (List UInt8) :=
  (List.range 4097).map fun index =>
    cookieMessage (nth index).state (nth index).expiresAt (nth index).previousText (nth index).returnText

/-- A keyed hash function that numbers the messages of these cookies. -/
def countingService : OidcService := ⟨fun message => randomOf (nthMessages.idxOf message), fun _ => randomOf 0⟩

/-- A sign-in begins and is completed at once. -/
def completed (index : ℕ) : List Action :=
  [.begin (randomOf index) (timeOf index) none none,
    .consume [countingService.header (nth index)] (nth index).state (timeOf index)]

/-- The first sign-ins, one after the other. -/
def rounds (count : ℕ) : List Action := (List.range count).flatMap completed

theorem randomOf_inj {index other : ℕ} (hindex : index < 256 ^ 32) (hother : other < 256 ^ 32)
    (h : randomOf index = randomOf other) : index = other := by
  have hbytes : beBytes 32 index = beBytes 32 other := by
    have := congrArg Vector.toList h
    simpa [randomOf] using this
  exact (beBytes_inj hindex hother).mp hbytes

theorem nth_state_inj {index other : ℕ} (hindex : index < 4098) (hother : other < 4098)
    (h : (nth index).state = (nth other).state) : index = other :=
  randomOf_inj (by omega) (by omega) (Vector.toList_inj.mp (Base64.encode_injective h))

theorem nth_expiresAt (index : ℕ) : (nth index).expiresAt = if index = 0 then 300 else 301 := by
  change (if index = 0 then 0 else 1) + 300 = _
  split <;> rfl

/-- The completion of a sign-in of these is not forged once it has begun. -/
theorem unforged_nth {state : OidcState} {index : ℕ} (hindex : index < 4097) (now : UnixTime)
    (hbegun : .begun (nth index) ∈ state.history) :
    countingService.Unforged state
      (.consume [countingService.header (nth index)] (nth index).state now) := by
  have hmember : cookieMessage (nth index).state (nth index).expiresAt (nth index).previousText
      (nth index).returnText ∈ nthMessages := List.mem_map.mpr ⟨index, List.mem_range.mpr hindex, rfl⟩
  have hnumber : ∀ message, nthMessages.idxOf message < 256 ^ 32 := fun message => by
    have hle : nthMessages.idxOf message ≤ nthMessages.length := List.idxOf_le_length
    rw [nthMessages, List.length_map, List.length_range] at hle
    exact Nat.lt_of_le_of_lt hle (by decide)
  intro message tag hpresented htag
  rw [presented_header] at hpresented
  obtain ⟨rfl, -⟩ := Prod.mk.inj (Option.some.inj hpresented)
  refine ⟨⟨_, List.mem_flatMap.mpr ⟨_, hbegun, List.mem_cons_self⟩, htag⟩, fun made _ hsame => ?_⟩
  exact ((List.idxOf_inj hmember).mp (randomOf_inj (hnumber _) (hnumber _) hsame).symm).symm

/-- What the states are after the first sign-ins: the set has recorded each of them. -/
structure Filled (count : ℕ) (state : OidcState) : Prop where
  clock : state.clock ≤ (timeOf count).seconds
  size : state.consumed.size = count
  entries : ∀ key expiry, state.consumed.get? key = some expiry →
    ∃ index < count, key = (nth index).state ∧ expiry = (nth index).expiresAt
  first : 0 < count → state.consumed.get? (nth 0).state = some 300 ∧
    .begun (nth 0) ∈ state.history ∧ (nth 0).state ∈ state.accepted

theorem timeOf_le (index : ℕ) : (timeOf index).seconds ≤ 1 := by
  change (if index = 0 then 0 else 1) ≤ 1
  split <;> decide

/-- Nothing that is recorded has expired. -/
theorem Filled.unexpired_eq {count : ℕ} {state : OidcState} (h : Filled count state) {now : ℕ}
    (hnow : now ≤ 1) : unexpired state.consumed now = state.consumed := by
  refine KeyedMap.retain_eq_self fun entry hentry => decide_eq_true ?_
  obtain ⟨index, -, -, hexpiry⟩ := h.entries entry.1 entry.2 (KeyedMap.get?_eq_some.mpr hentry)
  rw [hexpiry, nth_expiresAt]
  split <;> omega

/-- What a state is when one more sign-in is completed. -/
def afterCompleted (count : ℕ) (state : OidcState) : OidcState where
  clock := (timeOf count).seconds
  consumed := (makeRoom state.consumed).insert (nth count).state (nth count).expiresAt
  history := .accepted [countingService.header (nth count)] (nth count).state (timeOf count).seconds
    (countingService.transaction (nth count)) :: .begun (nth count) :: state.history

/-- One more sign-in is completed, and no tag is forged. -/
theorem Filled.completed {count : ℕ} {state : OidcState} (h : Filled count state) (hcount : count < 4097) :
    run countingService.step state (completed count) = some (afterCompleted count state) ∧
      Along countingService.step countingService.Unforged state (Oidc.completed count) := by
  have hbegin : countingService.step state (.begin (randomOf count) (timeOf count) none none) =
      some ⟨(timeOf count).seconds, state.consumed, .begun (nth count) :: state.history⟩ :=
    if_neg (Nat.not_lt.mpr h.clock)
  have hlive : (timeOf count).seconds < (nth count).expiresAt := by
    have := timeOf_le count
    rw [nth_expiresAt]
    split <;> omega
  have hnew : state.consumed.get? (nth count).state = none := by
    cases hfound : state.consumed.get? (nth count).state with
    | none => rfl
    | some expiry =>
      obtain ⟨index, hindex, hsame, -⟩ := h.entries _ _ hfound
      have := nth_state_inj (by omega) (by omega) hsame
      omega
  have hcheck := check_own countingService (nth count) (countingService.cookieValue_header (nth count)) hlive
  have hconsume : countingService.step
      ⟨(timeOf count).seconds, state.consumed, .begun (nth count) :: state.history⟩
      (.consume [countingService.header (nth count)] (nth count).state (timeOf count)) =
        some (afterCompleted count state) := by
    have hkept := h.unexpired_eq (timeOf_le count)
    have hlater : countingService.step
        ⟨(timeOf count).seconds, state.consumed, .begun (nth count) :: state.history⟩
        (.consume [countingService.header (nth count)] (nth count).state (timeOf count)) = some _ :=
      step_consume (Nat.le_refl _) hcheck (by rw [hkept, hnew])
    rw [hlater, hkept]
    rfl
  constructor
  · rw [Oidc.completed, run, hbegin, Option.bind_some, run, hconsume]
    rfl
  · refine ⟨trivial, fun next hnext => ?_⟩
    obtain rfl := Option.some.inj (hbegin.symm.trans hnext)
    exact ⟨unforged_nth hcount _ List.mem_cons_self, fun _ _ => trivial⟩

/-- Below its bound the set records one more state. -/
theorem Filled.succ {count : ℕ} {state : OidcState} (h : Filled count state) (hcount : count < 4096) :
    Filled (count + 1) (afterCompleted count state) := by
  have hroom : makeRoom state.consumed = state.consumed := makeRoom_of_lt (h.size ▸ hcount)
  have hother : ∀ index, index < count → (nth index).state ≠ (nth count).state := fun index hindex hsame => by
    have := nth_state_inj (by omega) (by omega) hsame
    omega
  have hnew : state.consumed.get? (nth count).state = none := by
    cases hfound : state.consumed.get? (nth count).state with
    | none => rfl
    | some expiry =>
      obtain ⟨index, hindex, hsame, -⟩ := h.entries _ _ hfound
      exact absurd hsame.symm (hother index hindex)
  refine ⟨timeOf_le count, ?_, fun key expiry hkey => ?_, fun _ => ?_⟩
  · rw [afterCompleted, hroom, KeyedMap.size_insert_of_none hnew, h.size]
  · rw [afterCompleted, hroom] at hkey
    by_cases heq : key = (nth count).state
    · subst heq
      rw [KeyedMap.get?_insert_self] at hkey
      exact ⟨count, Nat.lt_succ_self _, rfl, (Option.some.inj hkey).symm⟩
    · rw [KeyedMap.get?_insert_ne _ heq] at hkey
      obtain ⟨index, hindex, hentry⟩ := h.entries key expiry hkey
      exact ⟨index, Nat.lt_succ_of_lt hindex, hentry⟩
  · rcases Nat.eq_zero_or_pos count with rfl | hpos
    · refine ⟨?_, List.mem_cons_of_mem _ List.mem_cons_self, List.mem_cons_self⟩
      exact KeyedMap.get?_insert_self _ _ _
    · obtain ⟨hfound, hbegun, haccepted⟩ := h.first hpos
      refine ⟨?_, List.mem_cons_of_mem _ (List.mem_cons_of_mem _ hbegun), List.mem_cons_of_mem _ haccepted⟩
      rw [afterCompleted, hroom, KeyedMap.get?_insert_ne _ (hother 0 hpos)]
      exact hfound

/-- Up to the bound, every sign-in is recorded. -/
theorem filled_rounds {count : ℕ} (hcount : count ≤ 4096) :
    ∃ state, run countingService.step (initial 0) (rounds count) = some state ∧
      Along countingService.step countingService.Unforged (initial 0) (rounds count) ∧
        Filled count state := by
  induction count with
  | zero => exact ⟨initial 0, rfl, trivial, ⟨Nat.zero_le _, rfl, nofun, nofun⟩⟩
  | succ count ih =>
    obtain ⟨state, hrun, hunforged, hfilled⟩ := ih (by omega)
    have hrounds : rounds (count + 1) = rounds count ++ completed count := by
      rw [rounds, List.range_succ, List.flatMap_append, List.flatMap_singleton, rounds]
    obtain ⟨hcompleted, hgenuine⟩ := hfilled.completed (by omega)
    refine ⟨afterCompleted count state, ?_, ?_, hfilled.succ (by omega)⟩
    · rw [hrounds]
      exact run_append.mpr ⟨state, hrun, hcompleted⟩
    · rw [hrounds]
      exact along_append hunforged fun middle hmiddle =>
        Option.some.inj (hrun.symm.trans hmiddle) ▸ hgenuine

/-- One sign-in, which is accepted once. -/
theorem sign_ins_bound_one : (afterCompleted 0 (initial 0)).accepted.Nodup := by
  have hfilled : Filled 0 (initial 0) := ⟨Nat.le_refl _, rfl, nofun, nofun⟩
  obtain ⟨hrun, hunforged⟩ := hfilled.completed (by decide)
  refine (sign_ins_bound hrun hunforged).2.2.2 ⟨nofun, fun next hnext => ⟨?_, fun _ _ => trivial⟩⟩
  obtain rfl := Option.some.inj hnext
  exact (by decide : 0 < 4096)

/-- When 4,096 more sign-ins are completed in time, the first is accepted again. -/
theorem state_accepted_again : ¬∀ (service : OidcService) (clock : ℕ) (actions : List Action)
    (last : OidcState), run service.step (initial clock) actions = some last →
      Along service.step service.Unforged (initial clock) actions → last.accepted.Nodup := by
  intro h
  -- The number stays a variable, so that nothing computes with lists of its length.
  obtain ⟨count, hcount⟩ : ∃ count, count = 4096 := ⟨_, rfl⟩
  obtain ⟨full, hrun, hunforged, hfilled⟩ := filled_rounds (Nat.le_of_eq hcount)
  obtain ⟨hfirst, hbegun, haccepted⟩ := hfilled.first (by omega)
  obtain ⟨hcompleted, hgenuine⟩ := hfilled.completed (by omega)
  have hevicted : makeRoom full.consumed = full.consumed.erase (nth 0).state := by
    refine makeRoom_of_full (Nat.le_of_eq (hfilled.size.trans hcount).symm) (KeyedMap.get?_eq_some.mp hfirst)
      fun entry hentry hne => ?_
    obtain ⟨index, -, hkey, hexpiry⟩ := hfilled.entries entry.1 entry.2 (KeyedMap.get?_eq_some.mpr hentry)
    have hindex : index ≠ 0 := fun hzero => hne (hzero ▸ hkey)
    rw [hexpiry, nth_expiresAt, if_neg hindex]
    decide
  have hne : (nth 0).state ≠ (nth count).state := fun hsame => by
    have := nth_state_inj (by decide) (by omega) hsame
    omega
  have hforgotten : (unexpired (afterCompleted count full).consumed (timeOf 1).seconds).get? (nth 0).state =
      none := by
    rw [unexpired, KeyedMap.get?_retain, afterCompleted, hevicted, KeyedMap.get?_insert_ne _ hne,
      KeyedMap.get?_erase_self]
    rfl
  have hlive : (timeOf 1).seconds < (nth 0).expiresAt := by
    rw [nth_expiresAt]
    decide
  have hclock : (afterCompleted count full).clock ≤ (timeOf 1).seconds := timeOf_le count
  obtain ⟨last, hreplayed, hhistory⟩ : ∃ last, countingService.step (afterCompleted count full)
      (.consume [countingService.header (nth 0)] (nth 0).state (timeOf 1)) = some last ∧
        last.history = .accepted [countingService.header (nth 0)] (nth 0).state (timeOf 1).seconds
          (countingService.transaction (nth 0)) :: (afterCompleted count full).history :=
    ⟨_, step_consume hclock
      (check_own countingService (nth 0) (countingService.cookieValue_header (nth 0)) hlive) hforgotten, rfl⟩
  have hend : run countingService.step (afterCompleted count full)
      [.consume [countingService.header (nth 0)] (nth 0).state (timeOf 1)] = some last := by
    rw [run, hreplayed, Option.bind_some, run]
  have hwhole := h countingService 0 (rounds count ++ (completed count ++
    [.consume [countingService.header (nth 0)] (nth 0).state (timeOf 1)])) last
    (run_append.mpr ⟨full, hrun, run_append.mpr ⟨_, hcompleted, hend⟩⟩)
    (along_append hunforged fun middle hmiddle => by
      obtain rfl := Option.some.inj (hrun.symm.trans hmiddle)
      refine along_append hgenuine fun later hlater => ?_
      obtain rfl := Option.some.inj (hcompleted.symm.trans hlater)
      exact ⟨unforged_nth (by decide) _ (List.mem_cons_of_mem _ (List.mem_cons_of_mem _ hbegun)),
        fun _ _ => trivial⟩)
  rw [OidcState.accepted, hhistory, List.filterMap_cons] at hwhole
  exact (List.nodup_cons.mp hwhole).1 (List.mem_cons_of_mem _ haccepted)

end Crabinet.Oidc
