import Crabinet.Requests.Handlers

/-!
# What becomes of every mutation

A mutation that took effect is audited once and the share's caches are invalidated after
it, in every run in which no request is dropped between the two and no closure fails after
it began a mutation.
-/

namespace Crabinet.Requests

open Crabinet.Filesystem Crabinet.Library Crabinet.Share Crabinet.Trash

/-! ### What a closure leaves -/

/-- A purge that does not begin changes nothing and fails. -/
theorem purge_of_not_begins {faults : Faults} {trash : TrashDirectory} {id : TrashId} {limit : ℕ}
    (h : purgeBegins faults trash id = false) :
    (trash.purge faults id limit).1 = trash ∧ ∀ count, (trash.purge faults id limit).2 ≠ .ok count := by
  rw [TrashDirectory.purge]
  split
  · exact ⟨rfl, nofun⟩
  next hread =>
    split
    · exact ⟨rfl, nofun⟩
    next sidecar hsidecar =>
      simp only [purgeBegins, hsidecar, hread, Bool.not_false, Bool.true_and, Bool.and_eq_false_iff,
        bne_eq_false_iff_eq, Bool.or_eq_false_iff, beq_eq_false_iff_ne, Bool.not_eq_false'] at h
      split
      · exact ⟨rfl, nofun⟩
      next hpending =>
        obtain ⟨hstate, hmark⟩ := h.resolve_left hpending
        rw [if_pos ⟨hstate, hmark⟩]
        exact ⟨rfl, nofun⟩

/-- Items none of which is begun leave the share as it was. -/
theorem purgeItems_of_not_begun {share : AuthorizedShare} {items : List (Faults × TrashId × ℕ)}
    (h : (purgeItems share items).2 = false) : (purgeItems share items).1 = share := by
  induction items generalizing share with
  | nil => rfl
  | cons item rest ih =>
    obtain ⟨faults, id, limit⟩ := item
    rw [purgeItems] at h ⊢
    obtain ⟨hbegun, hlater⟩ := Bool.or_eq_false_iff.mp h
    rw [ih hlater, (purge_of_not_begins hbegun).1]

/-- Staged files none of which is published leave the share as it was. -/
theorem publishFiles_of_none {share : AuthorizedShare} {files : List (Bool × Operation)}
    (h : (publishFiles share files).2.filter Prod.snd = []) : (publishFiles share files).1 = share := by
  induction files generalizing share with
  | nil => rfl
  | cons file rest ih =>
    obtain ⟨overQuota, operation⟩ := file
    rw [publishFiles] at h ⊢
    cases hnext : if overQuota then none else share.step operation with
    | none =>
      rw [hnext] at h
      exact ih h
    | some next =>
      rw [hnext] at h
      cases h

/-- A closure that applied no mutation, and goes on with none, leaves the share as it was. -/
theorem Work.share_of_not_changes {share : AuthorizedShare} {work : Work}
    (h : work.changes share = false) : (work.run share).share = share := by
  unfold Work.changes at h
  rw [Bool.or_eq_false_iff, Bool.not_eq_false', List.isEmpty_iff] at h
  obtain ⟨happlied, hstep⟩ := h
  cases work with
  | publish overQuota operation =>
    rw [run] at happlied ⊢
    cases hnext : if overQuota then none else share.step operation with
    | none => rfl
    | some next =>
      rw [hnext] at happlied
      cases happlied
  | publishStaged files => exact publishFiles_of_none (List.map_eq_nil_iff.mp happlied)
  | forget => rfl
  | purgeTrashStep faults id limit => cases hstep
  | purgeTrash faults id limit =>
    rw [run] at happlied ⊢
    split at happlied
    next hrefused => rw [if_pos hrefused]
    next hrefused =>
      have hbegins : purgeBegins faults share.trash id = false := by
        by_contra h
        simp [h] at happlied
      rw [if_neg hrefused]
      dsimp only
      rw [(purge_of_not_begins hbegins).1]
  | emptyTrashBatch items unreadable finished =>
    rw [run] at happlied ⊢
    split at happlied
    next hrefused => rw [if_pos hrefused]
    next hrefused =>
      rw [if_neg hrefused]
      have hbegun : (purgeItems share items).2 = false := by
        by_contra h
        simp [h] at happlied
      exact purgeItems_of_not_begun hbegun

/-- The mutations that a closure reports are those that took effect. -/
theorem Work.applied_of_published {share : AuthorizedShare} {work : Work}
    {outcomes : List (Option VirtualPath × Bool)} (h : (work.run share).report = .published outcomes) :
    (work.run share).applied = (outcomes.filter Prod.snd).map Prod.fst := by
  cases work with
  | publish overQuota operation =>
    rw [run] at h ⊢
    cases hnext : if overQuota then none else share.step operation with
    | none =>
      rw [hnext] at h
      cases h
    | some next =>
      rw [hnext] at h
      obtain rfl := Report.published.inj h
      rfl
  | publishStaged files =>
    obtain rfl := Report.published.inj h
    rfl
  | forget => cases h
  | purgeTrashStep faults id limit =>
    rw [run] at h
    split at h <;> cases h
  | purgeTrash faults id limit =>
    rw [run] at h ⊢
    split at h
    · cases h
    next hwrite =>
      rw [if_neg hwrite]
      dsimp only at h
      split at h
      next count hok =>
        obtain rfl := Report.published.inj h
        have hbegins : purgeBegins faults share.trash id = true := by
          by_contra hnot
          exact (purge_of_not_begins (Bool.not_eq_true _ ▸ hnot)).2 count hok
        rw [if_pos hbegins]
        rfl
      next => cases h
  | emptyTrashBatch items unreadable finished =>
    rw [run] at h
    split at h <;> cases h

/-- The reports that the work of a closure leads to. -/
def Work.returns : Work → Report → Bool
  | publish _ _, .refused | publish _ _, .published _ | publishStaged _, .published _ => true
  | forget, .forgotten | purgeTrashStep _ _ _, .stepped _ => true
  | purgeTrash _ _ _, .refused | purgeTrash _ _ _, .published _ => true
  | emptyTrashBatch _ _ _, .refused | emptyTrashBatch _ _ _, .emptied _ => true
  | _, _ => false

theorem Work.returns_run (share : AuthorizedShare) (work : Work) :
    work.returns (work.run share).report = true := by
  cases work with
  | publish overQuota operation =>
    rw [run]
    split <;> rfl
  | publishStaged files | forget => rfl
  | purgeTrashStep faults id limit =>
    rw [run]
    split <;> rfl
  | purgeTrash faults id limit =>
    rw [run]
    split
    · rfl
    · dsimp only
      split <;> rfl
  | emptyTrashBatch items unreadable finished =>
    rw [run]
    split <;> rfl

/-! ### What a handler spawns -/

/-- A handler that runs several closures has begun: a permanent delete has taken its entry out. -/
def Request.Begun (request : Request) : Prop :=
  (∃ path, request.handler = .deletePermanently path ∧ request.applied ≠ []) ∨
    request.handler = .emptyTrash

/-- A handler that has begun goes on with the same mutation. -/
theorem spawns_begun {handler : Handler} {work : Work} (h : handler.spawns true work = true) :
    (∃ path, handler = .deletePermanently path ∧
      (work = .forget ∨ ∃ faults id limit, work = .purgeTrashStep faults id limit)) ∨
    handler = .emptyTrash := by
  cases handler with
  | deletePermanently path =>
    refine .inl ⟨path, rfl, ?_⟩
    cases work with
    | forget => exact .inl rfl
    | purgeTrashStep faults id limit => exact .inr ⟨faults, id, limit, rfl⟩
    | _ => cases h
  | emptyTrash => exact .inr rfl
  | _ => cases work <;> cases h

theorem spawns_emptyTrash {begun : Bool} {work : Work} (h : Handler.emptyTrash.spawns begun work = true) :
    ∃ items unreadable finished, work = .emptyTrashBatch items unreadable finished := by
  cases work with
  | emptyTrashBatch items unreadable finished => exact ⟨items, unreadable, finished, rfl⟩
  | _ => cases begun <;> cases h

/-- A batch of Empty Trash is one mutation, or none. -/
theorem applied_emptyTrashBatch {share : AuthorizedShare} {items : List (Faults × TrashId × ℕ)}
    {unreadable finished : Bool} :
    (Work.run share (.emptyTrashBatch items unreadable finished)).applied = [] ∨
      (Work.run share (.emptyTrashBatch items unreadable finished)).applied = [none] := by
  rw [Work.run]
  split
  · exact .inl rfl
  · dsimp only
    split
    · exact .inr rfl
    · exact .inl rfl

theorem spawns_emptyTrashBatch {handler : Handler} {begun : Bool}
    {items : List (Faults × TrashId × ℕ)} {unreadable finished : Bool}
    (h : handler.spawns begun (.emptyTrashBatch items unreadable finished) = true) :
    handler = .emptyTrash := by
  cases handler with
  | emptyTrash => rfl
  | _ => cases begun <;> cases h

/-- The first closure of a permanent delete takes the entry out or is refused. -/
theorem spawns_deletePermanently {path : VirtualPath} {work : Work}
    (h : (Handler.deletePermanently path).spawns false work = true) :
    ∃ operation, work = .publish false operation := by
  cases work with
  | publish overQuota operation =>
    cases overQuota with
    | false => exact ⟨operation, rfl⟩
    | true => cases operation <;> cases h
  | _ => cases h

/-! ### The invariant -/

/-- The success events among some events. -/
def successes (events : List Event) : List Event :=
  events.filter fun
    | .success _ _ _ _ => true
    | _ => false

/-- A request has come to its end. -/
def Phase.ended : Phase → Bool
  | accepted | refused | dropped => true
  | _ => false

namespace Request

/-- The report of a closure belongs to the request. -/
def Fits (request : Request) : Report → Prop
  | .refused => request.applied = []
  | .published outcomes => request.applied = (outcomes.filter Prod.snd).map Prod.fst ∧
      ∀ path, request.handler = .deletePermanently path → request.applied ≠ []
  | .forgotten | .stepped _ => request.Begun
  | .emptied _ => request.handler = .emptyTrash

/-- The events before the handler ends: nothing but changes, by a mutation that took effect. -/
structure Quiet (request : Request) (events : List Event) : Prop where
  quiet : ∀ event ∈ events, event = .changed
  changed : .changed ∈ events → request.applied ≠ []
  emptyTrash : request.handler = .emptyTrash → request.applied = [] ∨ request.applied = [none]

/-- Nothing took effect. -/
def Idle (request : Request) (events : List Event) : Prop :=
  request.applied = [] ∧ .changed ∉ events

/-- Every mutation that took effect is audited, and the caches are invalidated at the end. -/
structure Audited (request : Request) (events : List Event) : Prop where
  changed : .changed ∈ events → request.applied ≠ []
  successes : request.applied ≠ [] → successes events = request.applied.map request.success
  invalidated : events.getLast? = some (.invalidated request.share)

/-- What holds of a request and its events. -/
def Inv (request : Request) (events : List Event) : Prop :=
  match request.phase with
  | .received => events = [] ∧ request.applied = []
  | .running work orphaned => request.Quiet events ∧ (orphaned = true → request.applied = []) ∧
      (request.handler.spawns false work = true ∧ request.applied = [] ∨
        request.handler.spawns true work = true ∧ request.Begun)
  | .ran report => request.Quiet events ∧ request.Fits report
  | .between => request.Quiet events ∧ request.Begun
  | .accepted => request.Audited events
  | .refused | .dropped => request.Idle events

variable {request : Request} {events added : List Event}

theorem Quiet.successes_eq (h : request.Quiet events) : successes events = [] := by
  rw [successes, List.filter_eq_nil_iff]
  intro event hevent
  rw [h.quiet event hevent]
  exact Bool.false_ne_true

theorem successes_append (first second : List Event) :
    successes (first ++ second) = successes first ++ successes second := List.filter_append ..

theorem successes_map_success (paths : List (Option VirtualPath)) :
    successes (paths.map request.success) = paths.map request.success := by
  rw [successes, List.filter_eq_self]
  intro event hevent
  obtain ⟨path, -, rfl⟩ := List.mem_map.mp hevent
  rfl

theorem successes_outcomes (outcomes : List (Option VirtualPath × Bool)) :
    successes (outcomes.map request.outcomeEvent) =
      ((outcomes.filter Prod.snd).map Prod.fst).map request.success := by
  induction outcomes with
  | nil => rfl
  | cons outcome rest ih =>
    obtain ⟨path, succeeded⟩ := outcome
    cases succeeded with
    | true =>
      calc successes (request.success path :: rest.map request.outcomeEvent)
          = request.success path :: successes (rest.map request.outcomeEvent) := rfl
        _ = _ := by rw [ih]; rfl
    | false => exact ih

/-- A handler that ends well with the success events of its mutations has them all audited. -/
theorem Quiet.accept (h : request.Quiet events) (hadded : .changed ∉ added)
    (hsuccesses : request.applied ≠ [] → successes added = request.applied.map request.success) :
    (request.accept added).1.Inv (events ++ (request.accept added).2) := by
  have haudited : (request.accept added).1.Audited (events ++ (added ++ [.invalidated request.share])) := by
    refine ⟨fun hmem => ?_, fun happlied => ?_, ?_⟩
    · rcases List.mem_append.mp hmem with hmem | hmem
      · exact h.changed hmem
      · rcases List.mem_append.mp hmem with hmem | hmem
        · exact absurd hmem hadded
        · cases List.mem_singleton.mp hmem
    · rw [successes_append, h.successes_eq, successes_append, hsuccesses happlied]
      exact List.append_nil _
    · rw [← List.append_assoc, List.getLast?_append]
      rfl
  exact haudited

theorem Quiet.reject (h : request.Quiet events) (happlied : request.applied = []) :
    request.reject.1.Inv (events ++ request.reject.2) := by
  refine ⟨happlied, fun hmem => ?_⟩
  rcases List.mem_append.mp hmem with hmem | hmem
  · exact h.changed hmem happlied
  · cases List.mem_singleton.mp hmem

/-- The handler goes on with its report. -/
theorem Inv.resume {report : Report} {elapsed : Bool} (h : request.Quiet events)
    (hfits : request.Fits report) :
    (request.resume elapsed report).1.Inv (events ++ (request.resume elapsed report).2) := by
  have hbetween (hbegun : request.Begun) :
      Request.Inv { request with phase := .between } (events ++ []) := by
    rw [List.append_nil]
    exact ⟨⟨h.quiet, h.changed, h.emptyTrash⟩, hbegun⟩
  have haccept : (request.accept (request.applied.map request.success)).1.Inv
      (events ++ (request.accept (request.applied.map request.success)).2) :=
    h.accept (by simp [success]) fun _ => successes_map_success _
  cases report with
  | refused => exact h.reject hfits
  | published outcomes =>
    rw [Request.resume]
    split
    next path hhandler => exact hbetween (.inl ⟨path, hhandler, hfits.2 path hhandler⟩)
    next =>
      refine h.accept (fun hmem => ?_) fun _ => ?_
      · obtain ⟨outcome, -, hevent⟩ := List.mem_map.mp hmem
        rw [outcomeEvent] at hevent
        split at hevent <;> cases hevent
      · rw [successes_outcomes, hfits.1]
  | forgotten => exact hbetween hfits
  | stepped gone =>
    cases gone with
    | none => exact haccept
    | some gone =>
      cases gone with
      | true => exact haccept
      | false =>
        rw [Request.resume]
        split
        · exact haccept
        · exact hbetween hfits
  | emptied finished =>
    rw [Request.resume]
    split
    · refine h.accept (by simp [success]) fun happlied => ?_
      rw [(h.emptyTrash hfits).resolve_left happlied]
      rfl
    · exact hbetween (.inr hfits)

/-- Only a mutation that took effect changes anything. -/
theorem Inv.applied_of_changed (h : request.Inv events) (hchanged : .changed ∈ events) :
    request.applied ≠ [] := by
  unfold Inv at h
  split at h
  · rw [h.1] at hchanged
    cases hchanged
  · exact h.1.changed hchanged
  · exact h.1.changed hchanged
  · exact h.1.changed hchanged
  · exact h.changed hchanged
  · exact absurd hchanged h.2
  · exact absurd hchanged h.2

theorem share_resume (request : Request) (elapsed : Bool) (report : Report) :
    (request.resume elapsed report).1.share = request.share := by
  unfold resume
  split
  · rfl
  · split <;> rfl
  · rfl
  · split <;> rfl
  · rfl
  · split <;> rfl

theorem apply_of_nil (h : request.applied = []) (applied : List (Option VirtualPath)) :
    request.apply applied = applied := by
  rw [apply, h]
  rfl

theorem apply_of_ne (h : request.applied ≠ []) (applied : List (Option VirtualPath)) :
    request.apply applied = request.applied := by
  rw [apply, if_neg (by simpa using h)]

/-- A closure that changes the share belongs to a mutation that took effect. -/
theorem apply_ne_nil {work : Work} {share : AuthorizedShare}
    (hspawned : request.handler.spawns false work = true ∧ request.applied = [] ∨
      request.handler.spawns true work = true ∧ request.Begun)
    (hchanges : work.changes share = true) : request.apply (work.run share).applied ≠ [] := by
  by_cases happlied : request.applied = []
  · rw [apply_of_nil happlied]
    intro hnone
    unfold Work.changes at hchanges
    rw [hnone] at hchanges
    cases work with
    | purgeTrashStep faults id limit =>
      rcases hspawned with ⟨hspawns, -⟩ | ⟨hspawns, hbegun⟩
      · cases hhandler : request.handler <;> rw [hhandler] at hspawns <;> cases hspawns
      · rcases hbegun with ⟨path, -, hne⟩ | hempty
        · exact hne happlied
        · rw [hempty] at hspawns
          cases hspawns
    | _ => cases hchanges
  · rwa [apply_of_ne happlied]

/-- The request of a closure that ran is quiet still. -/
theorem Quiet.run {work : Work} {share : AuthorizedShare} {phase : Phase} (h : request.Quiet events)
    (hspawned : request.handler.spawns false work = true ∧ request.applied = [] ∨
      request.handler.spawns true work = true ∧ request.Begun) :
    Quiet { request with phase, applied := request.apply (work.run share).applied }
      (events ++ if work.changes share then [.changed] else []) := by
  refine ⟨fun event hevent => ?_, fun hmem => ?_, fun hempty => ?_⟩
  · rcases List.mem_append.mp hevent with hevent | hevent
    · exact h.quiet event hevent
    · split at hevent
      · exact List.mem_singleton.mp hevent
      · cases hevent
  · rcases List.mem_append.mp hmem with hmem | hmem
    · have happlied := h.changed hmem
      dsimp only
      rwa [apply_of_ne happlied]
    · split at hmem
      next hchanges => exact apply_ne_nil hspawned hchanges
      next => cases hmem
  · have hbatch : (work.run share).applied = [] ∨ (work.run share).applied = [none] := by
      obtain ⟨items, unreadable, finished, rfl⟩ : ∃ items unreadable finished,
          work = .emptyTrashBatch items unreadable finished := by
        rcases hspawned with ⟨hspawns, -⟩ | ⟨hspawns, -⟩ <;>
        · rw [show request.handler = .emptyTrash from hempty] at hspawns
          exact spawns_emptyTrash hspawns
      exact applied_emptyTrashBatch
    by_cases happlied : request.applied = []
    · dsimp only
      rwa [apply_of_nil happlied]
    · dsimp only
      rw [apply_of_ne happlied]
      exact h.emptyTrash hempty

/-- What a first closure reports belongs to its request. -/
theorem fits_first {work : Work} {share : AuthorizedShare} {phase : Phase}
    (hspawns : request.handler.spawns false work = true) (happlied : request.applied = [])
    (hrefused : (work.run share).report = .refused → (work.run share).applied = []) :
    Fits { request with phase, applied := request.apply (work.run share).applied }
      (work.run share).report := by
  have hsame := apply_of_nil happlied (work.run share).applied
  have hreturns := work.returns_run share
  cases hreport : (work.run share).report with
  | refused => exact hsame.trans (hrefused hreport)
  | published outcomes =>
    refine ⟨hsame.trans (Work.applied_of_published hreport), fun path hhandler => ?_⟩
    dsimp only at hhandler ⊢
    rw [hsame]
    rw [hhandler] at hspawns
    obtain ⟨operation, rfl⟩ := spawns_deletePermanently hspawns
    rw [Work.run] at hreport ⊢
    split at hreport
    next => cases hreport
    next next hnext => exact List.cons_ne_nil _ _
  | forgotten =>
    rw [hreport] at hreturns
    cases work with
    | forget => cases hhandler : request.handler <;> rw [hhandler] at hspawns <;> cases hspawns
    | _ => cases hreturns
  | stepped gone =>
    rw [hreport] at hreturns
    cases work with
    | purgeTrashStep faults id limit =>
      cases hhandler : request.handler <;> rw [hhandler] at hspawns <;> cases hspawns
    | _ => cases hreturns
  | emptied finished =>
    rw [hreport] at hreturns
    cases work with
    | emptyTrashBatch items unreadable ended => exact spawns_emptyTrashBatch hspawns
    | _ => cases hreturns

/-- What a later closure reports belongs to its request. -/
theorem fits_later {work : Work} {share : AuthorizedShare} {phase : Phase}
    (hspawns : request.handler.spawns true work = true) (hbegun : request.Begun)
    (hrefused : (work.run share).report = .refused →
      request.applied = [] ∧ (work.run share).applied = []) :
    Fits { request with phase, applied := request.apply (work.run share).applied }
      (work.run share).report := by
  rcases spawns_begun hspawns with ⟨path, hhandler, hwork⟩ | hhandler
  · have happlied : request.applied ≠ [] := by
      rcases hbegun with ⟨-, -, hne⟩ | hempty
      · exact hne
      · rw [hempty] at hhandler
        cases hhandler
    have hbegun : Begun { request with phase, applied := request.apply (work.run share).applied } := by
      refine .inl ⟨path, hhandler, ?_⟩
      dsimp only
      rwa [apply_of_ne happlied]
    rcases hwork with rfl | ⟨faults, id, limit, rfl⟩
    · exact hbegun
    · have hreturns := Work.returns_run share (.purgeTrashStep faults id limit)
      cases hreport : (Work.run share (.purgeTrashStep faults id limit)).report with
      | stepped gone => exact hbegun
      | _ =>
        rw [hreport] at hreturns
        cases hreturns
  · rw [hhandler] at hspawns
    obtain ⟨items, unreadable, finished, rfl⟩ := spawns_emptyTrash hspawns
    cases hreport : (Work.run share (.emptyTrashBatch items unreadable finished)).report with
    | refused =>
      obtain ⟨hnone, happlied⟩ := hrefused hreport
      rw [Fits, apply_of_nil hnone, happlied]
    | emptied ended => exact hhandler
    | _ =>
      have hreturns := Work.returns_run share (.emptyTrashBatch items unreadable finished)
      rw [hreport] at hreturns
      cases hreturns

/-- A closure runs, of a request that has not been dropped or that it changes nothing for. -/
theorem Inv.run {work : Work} {orphaned : Bool} {share : AuthorizedShare}
    (h : request.Quiet events) (horphaned : orphaned = true → request.applied = [])
    (hspawned : request.handler.spawns false work = true ∧ request.applied = [] ∨
      request.handler.spawns true work = true ∧ request.Begun)
    (hdropped : orphaned = true → (work.run share).applied = [])
    (hrefused : (work.run share).report = .refused →
      request.applied = [] ∧ (work.run share).applied = []) :
    Request.Inv { request with
        phase := if orphaned then .dropped else .ran (work.run share).report
        applied := request.apply (work.run share).applied }
      (events ++ if work.changes share then [.changed] else []) := by
  cases orphaned with
  | true =>
    have hnone : request.apply (work.run share).applied = [] :=
      (apply_of_nil (horphaned rfl) _).trans (hdropped rfl)
    have hquiet : Quiet { request with phase := .dropped, applied := request.apply (work.run share).applied }
        (events ++ if work.changes share then [.changed] else []) := h.run hspawned
    exact ⟨hnone, fun hmem => hquiet.changed hmem hnone⟩
  | false =>
    refine ⟨h.run hspawned, ?_⟩
    rcases hspawned with ⟨hspawns, happlied⟩ | ⟨hspawns, hbegun⟩
    · exact fits_first hspawns happlied fun hreport => (hrefused hreport).2
    · exact fits_later hspawns hbegun hrefused

end Request

namespace Service

/-- What holds of a service that began with some shares. -/
structure Inv (shares : ShareId → AuthorizedShare) (service : Service) : Prop where
  requests : ∀ id (request : Request), service.requests[id]? = some request →
    request.Inv (service.events id)
  logged : ∀ event ∈ service.log, event.1 < service.requests.length
  shares : ∀ share, service.shares share ≠ shares share → ∃ id request,
    service.requests[id]? = some request ∧ request.share = share ∧ .changed ∈ service.events id

variable {shares : ShareId → AuthorizedShare}
variable {service next : Service} {id : ℕ} {request changed : Request} {added : List Event}

theorem events_update_self : (service.update id changed added).events id = service.events id ++ added := by
  have hadded : ((added.map fun event => (id, event)).filter fun event => event.1 == id) =
      added.map fun event => (id, event) := by
    rw [List.filter_eq_self]
    intro event hevent
    obtain ⟨inner, -, rfl⟩ := List.mem_map.mp hevent
    exact beq_self_eq_true id
  rw [events, update, List.filter_append, List.map_append, hadded, List.map_map]
  exact congrArg _ (List.map_id added)

theorem events_update_ne {other : ℕ} (h : other ≠ id) :
    (service.update id changed added).events other = service.events other := by
  have hadded : ((added.map fun event => (id, event)).filter fun event => event.1 == other) = [] := by
    rw [List.filter_eq_nil_iff]
    intro event hevent
    obtain ⟨inner, -, rfl⟩ := List.mem_map.mp hevent
    simpa using Ne.symm h
  rw [events, update, List.filter_append, List.map_append, hadded]
  exact List.append_nil _

theorem update_self (hid : service.requests[id]? = some request) :
    (service.update id changed added).requests[id]? = some changed := by
  rw [update, List.getElem?_set_self (List.getElem?_eq_some_iff.mp hid).1]

/-- A step of one request. -/
theorem Inv.update (h : service.Inv shares) (hid : service.requests[id]? = some request)
    (hshare : changed.share = request.share)
    (hchanged : changed.Inv (service.events id ++ added)) :
    (service.update id changed added).Inv shares := by
  have hlength : id < service.requests.length := (List.getElem?_eq_some_iff.mp hid).1
  have hself : (service.update id changed added).requests[id]? = some changed := update_self hid
  have hother {other : ℕ} (hne : other ≠ id) :
      (service.update id changed added).requests[other]? = service.requests[other]? := by
    rw [Service.update, List.getElem?_set_ne hne.symm]
  refine ⟨fun other found hfound => ?_, fun event hevent => ?_, fun share hdiffers => ?_⟩
  · by_cases hne : other = id
    · subst hne
      obtain rfl := Option.some.inj (hself.symm.trans hfound)
      rwa [events_update_self]
    · rw [events_update_ne hne]
      exact h.requests other found ((hother hne).symm.trans hfound)
  · rw [Service.update, List.length_set]
    rcases List.mem_append.mp hevent with hevent | hevent
    · exact h.logged event hevent
    · obtain ⟨inner, -, rfl⟩ := List.mem_map.mp hevent
      exact hlength
  · obtain ⟨other, found, hfound, hfoundShare, hevent⟩ := h.shares share hdiffers
    by_cases hne : other = id
    · subst hne
      obtain rfl := Option.some.inj (hid.symm.trans hfound)
      refine ⟨other, changed, hself, hshare.trans hfoundShare, ?_⟩
      rw [events_update_self]
      exact List.mem_append_left _ hevent
    · refine ⟨other, found, (hother hne).trans hfound, hfoundShare, ?_⟩
      rwa [events_update_ne hne]

/-- A request that has just arrived has no events. -/
theorem Inv.arrive (h : service.Inv shares) (subject : String) (share : ShareId) (handler : Handler) :
    Inv shares { service with
      requests := service.requests ++ [⟨subject, share, handler, .received, []⟩] } := by
  refine ⟨fun id found hfound => ?_, fun event hevent => ?_, fun share hdiffers => ?_⟩
  · dsimp only at hfound
    rw [List.getElem?_append] at hfound
    split at hfound
    · exact h.requests id found hfound
    next hlength =>
      rw [List.getElem?_singleton] at hfound
      split at hfound
      · obtain rfl := Option.some.inj hfound
        refine ⟨?_, rfl⟩
        rw [events, List.map_eq_nil_iff, List.filter_eq_nil_iff]
        intro event hevent hid
        exact hlength (beq_iff_eq.mp hid ▸ h.logged event hevent)
      · cases hfound
  · rw [List.length_append]
    exact Nat.lt_add_right _ (h.logged event hevent)
  · obtain ⟨id, found, hfound, hrest⟩ := h.shares share hdiffers
    refine ⟨id, found, ?_, hrest⟩
    dsimp only
    rwa [List.getElem?_append_left (List.getElem?_eq_some_iff.mp hfound).1]

/-- A share changes only with an event that says so. -/
theorem Inv.withShares (h : service.Inv shares) (hid : service.requests[id]? = some request)
    {share : AuthorizedShare}
    (hshare : share ≠ service.shares request.share → .changed ∈ service.events id) :
    Inv shares { service with shares := Function.update service.shares request.share share } := by
  refine ⟨h.requests, h.logged, fun other hdiffers => ?_⟩
  dsimp only at hdiffers
  by_cases hother : other = request.share
  · subst hother
    rw [Function.update_self] at hdiffers
    by_cases hsame : share = service.shares request.share
    · exact h.shares request.share (hsame ▸ hdiffers)
    · exact ⟨id, request, hid, rfl, hshare hsame⟩
  · rw [Function.update_of_ne hother] at hdiffers
    exact h.shares other hdiffers

/-- Nothing comes between a mutation and its audit: no request is dropped once it has changed
its share, no closure that has outlived its request changes the share, and none fails after
it did, or its request before it. -/
def Undisturbed (service : Service) : Action → Prop
  | .run id => ∀ request work orphaned, service.requests[id]? = some request →
      request.phase = .running work orphaned →
      let effect := work.run (service.shares request.share)
      (orphaned = true → effect.applied = []) ∧
        (effect.report = .refused → request.applied = [] ∧ effect.applied = [])
  | .drop id => ∀ request, service.requests[id]? = some request → request.applied = []
  | _ => True

/-- A step keeps the invariant. -/
theorem Inv.step {action : Action} (hstep : service.step action = some next)
    (hundisturbed : service.Undisturbed action) (h : service.Inv shares) : next.Inv shares := by
  cases action with
  | arrive subject share handler =>
    obtain rfl := Option.some.inj hstep
    exact h.arrive subject share handler
  | refuse id =>
    obtain ⟨request, hid, hstep⟩ := Option.bind_eq_some_iff.mp hstep
    have hinv := h.requests id request hid
    unfold Request.Inv at hinv
    split at hstep
    next hphase =>
      rw [hphase] at hinv
      obtain rfl := Option.some.inj hstep
      have hquiet : request.Quiet (service.events id) := by
        rw [hinv.1]
        exact ⟨nofun, nofun, fun _ => .inl hinv.2⟩
      exact h.update hid rfl (hquiet.reject hinv.2)
    next => cases hstep
  | spawn id work =>
    obtain ⟨request, hid, hstep⟩ := Option.bind_eq_some_iff.mp hstep
    have hinv := h.requests id request hid
    unfold Request.Inv at hinv
    split at hstep
    · cases hstep
    · split at hstep
      next hphase =>
        rw [hphase] at hinv
        split at hstep
        next hspawns =>
          obtain rfl := Option.some.inj hstep
          refine h.update hid rfl ?_
          rw [List.append_nil, hinv.1]
          exact ⟨⟨nofun, nofun, fun _ => .inl hinv.2⟩, nofun, .inl ⟨hspawns, hinv.2⟩⟩
        next => cases hstep
      next hphase =>
        rw [hphase] at hinv
        split at hstep
        next hspawns =>
          obtain rfl := Option.some.inj hstep
          refine h.update hid rfl ?_
          rw [List.append_nil]
          exact ⟨⟨hinv.1.quiet, hinv.1.changed, hinv.1.emptyTrash⟩, nofun, .inr ⟨hspawns, hinv.2⟩⟩
        next => cases hstep
      next => cases hstep
  | run id =>
    obtain ⟨request, hid, hstep⟩ := Option.bind_eq_some_iff.mp hstep
    have hinv := h.requests id request hid
    unfold Request.Inv at hinv
    split at hstep
    next work orphaned hphase =>
      rw [hphase] at hinv
      obtain ⟨hquiet, horphaned, hspawned⟩ := hinv
      obtain ⟨hdropped, hrefused⟩ := hundisturbed request work orphaned hid hphase
      obtain rfl := Option.some.inj hstep
      have hran := Request.Inv.run hquiet horphaned hspawned hdropped hrefused
      have hupdated := h.update hid (by rfl) hran
      refine hupdated.withShares (update_self hid) fun hdiffers => ?_
      rw [events_update_self]
      refine List.mem_append_right _ ?_
      split
      · exact List.mem_singleton_self _
      next hchanges =>
        exact absurd (Work.share_of_not_changes (Bool.not_eq_true _ ▸ hchanges)) hdiffers
    next => cases hstep
  | resume id elapsed =>
    obtain ⟨request, hid, hstep⟩ := Option.bind_eq_some_iff.mp hstep
    have hinv := h.requests id request hid
    unfold Request.Inv at hinv
    split at hstep
    next report hphase =>
      rw [hphase] at hinv
      obtain rfl := Option.some.inj hstep
      exact h.update hid (Request.share_resume ..) (Request.Inv.resume hinv.1 hinv.2)
    next => cases hstep
  | drop id =>
    obtain ⟨request, hid, hstep⟩ := Option.bind_eq_some_iff.mp hstep
    have happlied := hundisturbed request hid
    have hdropped : Request.Inv { request with phase := .dropped } (service.events id ++ []) := by
      rw [List.append_nil]
      exact ⟨happlied, fun hmem => (h.requests id request hid).applied_of_changed hmem happlied⟩
    split at hstep
    next =>
      obtain rfl := Option.some.inj hstep
      exact h.update hid rfl hdropped
    next =>
      obtain rfl := Option.some.inj hstep
      exact h.update hid rfl hdropped
    next =>
      obtain rfl := Option.some.inj hstep
      exact h.update hid rfl hdropped
    next work hphase =>
      obtain rfl := Option.some.inj hstep
      have hinv := h.requests id request hid
      unfold Request.Inv at hinv
      rw [hphase] at hinv
      refine h.update hid rfl ?_
      rw [List.append_nil]
      exact ⟨⟨hinv.1.quiet, hinv.1.changed, hinv.1.emptyTrash⟩, fun _ => happlied, hinv.2.2⟩
    next => cases hstep

/-- The service as it starts. -/
def start (shares : ShareId → AuthorizedShare) : Service := ⟨shares, [], []⟩

theorem Inv.start (shares : ShareId → AuthorizedShare) : Inv shares (start shares) := by
  refine ⟨fun id request hid => ?_, fun event hevent => ?_, fun share hdiffers => ?_⟩
  · cases List.getElem?_nil.symm.trans hid
  · exact absurd hevent List.not_mem_nil
  · exact absurd rfl hdiffers

/-- A directory is created, and nothing else happens. -/
def sampleWork : Work := .publish false (.createDirectory ⟨[⟨"d"⟩]⟩ ⟨0, none, 1, 1⟩)

theorem isShareId_sample : isShareId "media" = true := by decide

def sampleArrival : List Action :=
  [.arrive "user" ⟨"media", isShareId_sample⟩ (.createDirectory ⟨[⟨"d"⟩]⟩), .spawn 0 sampleWork]

def sampleStart : Service := start fun _ => AuthorizedShare.withRoot .empty

end Service

end Crabinet.Requests
