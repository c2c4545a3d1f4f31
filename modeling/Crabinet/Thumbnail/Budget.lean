import Crabinet.Thumbnail.Render

/-!
# Reservations of the decode budget

A permit is free, or in a reservation. The reservation belongs to the blocking work, and after
that to its output, whoever has it: no request can return it early, and none can lose it.
-/

namespace Crabinet.Thumbnail

open Library ThumbnailService

variable {κ : Type}

/-- The permits are free or in a reservation; a request that has not come to its decode has no
reservation; and the reservation of an ended decode belongs to a request that awaits it. -/
structure Budgeted (service : ThumbnailService) (state : State κ) : Prop where
  conserved : state.available + state.decodes.total (fun _ decode => permits decode.estimate) =
    service.units
  unstarted : ∀ id request, state.requests.get? id = some request →
    request.phase.isEarly = true → state.decodes.get? id = none
  parked : ∀ id decode, state.decodes.get? id = some decode → decode.running = false →
    state.awaitsDecode id = true

namespace Budgeted

variable {service : ThumbnailService} {state after : State κ}

/-- The decode of a request that does not await one is running. -/
theorem running_of_ne (h : Budgeted service state) {id : ℕ} {request : Request κ}
    (hrequest : state.requests.get? id = some request) (hphase : request.phase ≠ .decoding)
    {decode : Decode κ} (hdecode : state.decodes.get? id = some decode) :
    decode.running = true := by
  by_contra hnot
  obtain ⟨found, hfound, hawaits⟩ :=
    State.awaitsDecode_iff.mp (h.parked id decode hdecode (by simpa using hnot))
  rw [hrequest] at hfound
  obtain rfl := Option.some.inj hfound
  exact hphase hawaits

/-- A request whose decode is not over is set. -/
theorem insert (h : Budgeted service state) (havailable : after.available = state.available)
    (hdecodes : after.decodes = state.decodes) {id : ℕ} {request : Request κ}
    (hrequests : after.requests = state.requests.insert id request)
    (hearly : request.phase.isEarly = true → state.decodes.get? id = none)
    (hrunning : ∀ decode, state.decodes.get? id = some decode → decode.running = true) :
    Budgeted service after := by
  constructor
  · rw [havailable, hdecodes]
    exact h.conserved
  · intro other found hget hphase
    rw [hrequests] at hget
    rw [hdecodes]
    by_cases hid : other = id
    · subst hid
      rw [KeyedMap.get?_insert_self] at hget
      exact hearly (Option.some.inj hget ▸ hphase)
    · rw [KeyedMap.get?_insert_ne _ hid] at hget
      exact h.unstarted other found hget hphase
  · intro other decode hdecode hended
    rw [hdecodes] at hdecode
    have hid : other ≠ id := by
      rintro rfl
      rw [hrunning decode hdecode] at hended
      cases hended
    have hawaits := h.parked other decode hdecode hended
    rw [State.awaitsDecode, hrequests, KeyedMap.get?_insert_ne _ hid]
    exact hawaits

/-- A request whose decode is not over ends. -/
theorem erase (h : Budgeted service state) (havailable : after.available = state.available)
    (hdecodes : after.decodes = state.decodes) {id : ℕ}
    (hrequests : after.requests = state.requests.erase id)
    (hrunning : ∀ decode, state.decodes.get? id = some decode → decode.running = true) :
    Budgeted service after := by
  constructor
  · rw [havailable, hdecodes]
    exact h.conserved
  · intro other found hget hphase
    rw [hrequests] at hget
    rw [hdecodes]
    exact h.unstarted other found (KeyedMap.get?_of_erase hget) hphase
  · intro other decode hdecode hended
    rw [hdecodes] at hdecode
    have hid : other ≠ id := by
      rintro rfl
      rw [hrunning decode hdecode] at hended
      cases hended
    have hawaits := h.parked other decode hdecode hended
    rw [State.awaitsDecode, hrequests, KeyedMap.get?_erase_ne _ hid]
    exact hawaits

/-- A request without a running decode to leave behind goes on. -/
theorem advance (h : Budgeted service state) {id : ℕ} {request : Request κ} {phase : Phase}
    (hearly : phase.isEarly = true → state.decodes.get? id = none)
    (hrunning : ∀ decode, state.decodes.get? id = some decode → decode.running = true) :
    Budgeted service (state.advance id request phase) :=
  h.insert rfl rfl rfl hearly hrunning

theorem part (h : Budgeted service state) {id : ℕ} {request : Request κ} {phase : Phase}
    (hearly : phase.isEarly = false)
    (hrunning : ∀ decode, state.decodes.get? id = some decode → decode.running = true) :
    Budgeted service (state.part id request phase) := by
  unfold State.part
  split
  · exact h.advance (by rw [hearly]; nofun) hrunning
  · exact h.erase rfl rfl rfl hrunning

/-- A dropped output returns its permits. -/
theorem conserved_settle {units : ℕ} (id : ℕ)
    (h : state.available + state.decodes.total (fun _ decode => permits decode.estimate) = units) :
    (state.settle id).available +
      (state.settle id).decodes.total (fun _ decode => permits decode.estimate) = units := by
  unfold State.settle
  split
  · rename_i decode hdecode
    split
    · exact h
    · rw [KeyedMap.total_of_get? hdecode] at h
      dsimp only
      omega
  · exact h

theorem settle (h : Budgeted service state) (id : ℕ) : Budgeted service (state.settle id) := by
  constructor
  · exact conserved_settle id h.conserved
  · intro other request hget hphase
    rw [State.settle_requests] at hget
    have hnone := h.unstarted other request hget hphase
    cases hfound : (state.settle id).decodes.get? other with
    | none => rfl
    | some decode =>
      rw [State.get?_of_settle hfound] at hnone
      cases hnone
  · intro other decode hget hended
    rw [State.awaitsDecode, State.settle_requests]
    exact h.parked other decode (State.get?_of_settle hget) hended

/-- The reservation of a new decode is taken from the free permits. -/
theorem spawn (h : Budgeted service state) {id : ℕ} {request : Request κ}
    (hrequest : state.requests.get? id = some request) (hphase : request.phase = .reserving)
    (hpermits : permits request.estimate ≤ state.available) :
    Budgeted service (state.spawn id request) := by
  have hnone : state.decodes.get? id = none :=
    h.unstarted id request hrequest (by rw [hphase]; rfl)
  constructor
  · have hconserved := h.conserved
    rw [State.spawn, KeyedMap.total_insert_of_none hnone]
    dsimp only
    omega
  · intro other found hget hearly
    have hid : other ≠ id := by
      rintro rfl
      rw [State.spawn, State.advance, KeyedMap.get?_insert_self] at hget
      obtain rfl := Option.some.inj hget
      cases hearly
    rw [State.spawn, KeyedMap.get?_insert_ne _ hid]
    refine h.unstarted other found ?_ hearly
    exact (KeyedMap.get?_insert_ne _ hid _).symm.trans hget
  · intro other decode hget hended
    have hid : other ≠ id := by
      rintro rfl
      rw [State.spawn, KeyedMap.get?_insert_self] at hget
      obtain rfl := Option.some.inj hget
      cases hended
    rw [State.spawn, KeyedMap.get?_insert_ne _ hid] at hget
    rw [State.awaitsDecode, State.spawn, State.advance, KeyedMap.get?_insert_ne _ hid]
    exact h.parked other decode hget hended

/-- The reservation of an ended decode waits with its output, or is returned. -/
theorem endDecode (h : Budgeted service state) {id : ℕ} {decode : Decode κ}
    (hdecode : state.decodes.get? id = some decode) (panics : Bool) :
    Budgeted service (state.endDecode id decode panics) := by
  have hconserved : state.available + (state.decodes.insert id { decode with running := false }).total
      (fun _ decode => permits decode.estimate) = service.units := by
    rw [KeyedMap.total_insert, ← h.conserved, KeyedMap.total_of_get? hdecode]
  have hdecodes : ∀ other found,
      (state.endDecode id decode panics).decodes.get? other = some found → found.running = false →
        (other = id ∧ state.awaitsDecode id = true) ∨ state.decodes.get? other = some found := by
    intro other found hget hended
    by_cases hid : other = id
    · subst hid
      unfold State.endDecode at hget
      dsimp only at hget
      split at hget
      · rename_i hawaits
        exact .inl ⟨rfl, (Bool.and_eq_true_iff.mp hawaits).1⟩
      · rw [State.running_of_settle hget] at hended
        cases hended
    · refine .inr ?_
      rw [← KeyedMap.get?_insert_ne _ hid { decode with running := false }]
      unfold State.endDecode at hget
      dsimp only at hget
      split at hget
      · exact hget
      · exact State.get?_of_settle hget
  constructor
  · unfold State.endDecode
    dsimp only
    split
    · exact hconserved
    · exact conserved_settle id hconserved
  · intro other request hget hearly
    rw [State.endDecode_requests] at hget
    have hnone := h.unstarted other request hget hearly
    have hid : other ≠ id := by
      rintro rfl
      rw [hdecode] at hnone
      cases hnone
    cases hfound : (state.endDecode id decode panics).decodes.get? other with
    | none => rfl
    | some found =>
      have hold : state.decodes.get? other = some found := by
        by_cases hrunning : found.running = true
        · exact (State.get?_of_endDecode hfound hrunning).1
        · rcases hdecodes other found hfound (by simpa using hrunning) with ⟨heq, -⟩ | hold
          · exact absurd heq hid
          · exact hold
      rw [hold] at hnone
      cases hnone
  · intro other found hget hended
    rw [State.awaitsDecode, State.endDecode_requests]
    rcases hdecodes other found hget hended with ⟨rfl, hawaits⟩ | hold
    · exact hawaits
    · exact h.parked other found hold hended

end Budgeted

variable [DecidableEq κ]

/-- Every step keeps the reservations within the budget. -/
theorem budgeted_step {service : ThumbnailService} {hasCache : Bool} {state after : State κ}
    {action : Action κ} (h : step service hasCache state action = some after)
    (hbudget : Budgeted service state) : Budgeted service after := by
  have hdone : ∀ id request, state.requests.get? id = some request → request.phase ≠ .decoding →
      ∀ decode, state.decodes.get? id = some decode → decode.running = true :=
    fun id request hrequest hphase decode => hbudget.running_of_ne hrequest hphase
  cases action with
  | arrive id key estimate cacheable =>
    obtain ⟨⟨-, -, hnone⟩, hafter⟩ := Option.ite_none_right_eq_some.mp h
    obtain rfl := Option.some.inj hafter
    have hrunning : ∀ decode, state.decodes.get? id = some decode → decode.running = true :=
      fun decode hdecode => by
        rw [hnone] at hdecode
        cases hdecode
    split
    · unfold State.enter
      split
      · exact hbudget.insert rfl rfl rfl (fun _ => hnone) hrunning
      · exact hbudget.insert rfl rfl rfl (fun _ => hnone) hrunning
    · exact hbudget.insert rfl rfl rfl (fun _ => hnone) hrunning
  | acquire id =>
    obtain ⟨request, hrequest, hguard, rfl⟩ := State.onRequest_eq_some.mp h
    simp only [Bool.and_eq_true, decide_eq_true_eq] at hguard
    exact hbudget.advance (fun _ => hbudget.unstarted id request hrequest (by rw [hguard.1]; rfl))
      (hdone id request hrequest (by rw [hguard.1]; nofun))
  | lockTimeout id =>
    obtain ⟨request, hrequest, hguard, rfl⟩ := State.onRequest_eq_some.mp h
    exact hbudget.advance nofun
      (hdone id request hrequest (by rw [of_decide_eq_true hguard]; nofun))
  | lookup id done =>
    obtain ⟨request, hrequest, hguard, rfl⟩ := State.onRequest_eq_some.mp h
    have hphase := of_decide_eq_true hguard
    exact hbudget.advance (fun _ => hbudget.unstarted id request hrequest (by rw [hphase]; rfl))
      (hdone id request hrequest (by rw [hphase]; nofun))
  | reserve id =>
    obtain ⟨request, hrequest, hguard, rfl⟩ := State.onRequest_eq_some.mp h
    simp only [Bool.and_eq_true, decide_eq_true_eq] at hguard
    exact hbudget.spawn hrequest hguard.1 hguard.2
  | reserveTimeout id =>
    obtain ⟨request, hrequest, hguard, rfl⟩ := State.onRequest_eq_some.mp h
    exact hbudget.advance nofun
      (hdone id request hrequest (by rw [of_decide_eq_true hguard]; nofun))
  | decodeEnds id panics =>
    simp only [step] at h
    split at h
    · rename_i decode hdecode
      obtain ⟨-, hafter⟩ := Option.ite_none_right_eq_some.mp h
      obtain rfl := Option.some.inj hafter
      exact hbudget.endDecode hdecode panics
    · cases h
  | resume id =>
    obtain ⟨request, -, -, rfl⟩ := State.onRequest_eq_some.mp h
    exact (hbudget.settle id).advance nofun fun decode => State.running_of_settle
  | unlock id =>
    obtain ⟨request, hrequest, hguard, rfl⟩ := State.onRequest_eq_some.mp h
    exact hbudget.part rfl (hdone id request hrequest (by rw [of_decide_eq_true hguard]; nofun))
  | release id =>
    obtain ⟨request, hrequest, hguard, rfl⟩ := State.onRequest_eq_some.mp h
    have hrunning := hdone id request hrequest (by rw [of_decide_eq_true hguard]; nofun)
    split
    · unfold State.releaseInFlight
      dsimp only
      split
      · exact hbudget.insert rfl rfl rfl nofun hrunning
      · exact hbudget.advance nofun hrunning
    · exact hbudget
  | leave id =>
    obtain ⟨request, hrequest, hguard, rfl⟩ := State.onRequest_eq_some.mp h
    exact hbudget.erase rfl rfl rfl
      (hdone id request hrequest (by rw [of_decide_eq_true hguard]; nofun))
  | cancel id =>
    obtain ⟨request, -, -, rfl⟩ := State.onRequest_eq_some.mp h
    exact (hbudget.settle id).part rfl fun decode => State.running_of_settle

end Crabinet.Thumbnail
