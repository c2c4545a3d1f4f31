import Crabinet.Auth.RateLimiter
import Crabinet.Library.Transition

/-!
# Guesses per key

Calls of the rate limiter in order of time, with the order in which the map is visited chosen
anew before each. An exhausted window refuses its key until it is over. The attempts in a minute
are those of two windows, and of one attempt less than a window for each time the key was dropped
to make room.
-/

namespace Crabinet.Auth

open Crabinet.Library

variable {κ : Type}

/-- What happened, for the record. -/
inductive LimiterEvent (κ : Type) where
  /-- `allow` answered, and dropped a key. -/
  | called (key : κ) (now : ℤ) (allowed : Bool) (evicted : Option κ)
  | cleared (key : κ)

/-- The limiter, the time of its last call, and what happened, latest first. -/
structure LimiterState (κ : Type) where
  limiter : RateLimiter κ
  clock : ℤ
  history : List (LimiterEvent κ)

/-- A call. -/
inductive LimiterAction (κ : Type) where
  /-- `allow`, with the order in which the map is visited. -/
  | allow (key : κ) (now : ℤ) (order : List (κ × AttemptWindow))
  | clear (key : κ)

/-- The same limiter, with its map visited in another order. -/
def RateLimiter.visited (self : RateLimiter κ) (order : List (κ × AttemptWindow))
    (h : order.Perm self.entries.entries) : RateLimiter κ :=
  { self with entries := ⟨order, (h.map Prod.fst).nodup_iff.mpr self.entries.nodup⟩ }

variable [DecidableEq κ]

namespace LimiterState

/-- A limiter that has not been called. -/
def initial (attemptsPerWindow : UInt32) (clock : ℤ) : LimiterState κ :=
  ⟨⟨.empty, attemptsPerWindow⟩, clock, []⟩

/-- One call; none where time would go back or the map holds other entries. -/
def step (state : LimiterState κ) : LimiterAction κ → Option (LimiterState κ)
  | .allow key now order =>
    if h : state.clock ≤ now ∧ order.Perm state.limiter.entries.entries then
      let limiter := state.limiter.visited order h.2
      some ⟨(limiter.allow key now).1, now,
        .called key now (limiter.allow key now).2 (limiter.evicted key now) :: state.history⟩
    else none
  | .clear key => some ⟨state.limiter.clear key, state.clock, .cleared key :: state.history⟩

end LimiterState

/-- A call for the key was allowed. -/
def LimiterEvent.allows (key : κ) : LimiterEvent κ → Bool
  | .called other _ allowed _ => decide (other = key) && allowed
  | .cleared _ => false

/-- The key was dropped to make room. -/
def LimiterEvent.drops (key : κ) : LimiterEvent κ → Bool
  | .called _ _ _ evicted => decide (evicted = some key)
  | .cleared _ => false

/-- The calls for a key that were allowed. -/
def allowedCalls (key : κ) (history : List (LimiterEvent κ)) : ℕ :=
  history.countP (LimiterEvent.allows key)

/-- How often a key was dropped to make room. -/
def evictions (key : κ) (history : List (LimiterEvent κ)) : ℕ :=
  history.countP (LimiterEvent.drops key)

/-- What every state that is reached satisfies. -/
structure LimiterState.Sound (limit : UInt32) (state : LimiterState κ) : Prop where
  limit_eq : state.limiter.attemptsPerWindow = limit
  size_le : state.limiter.entries.size ≤ maxRateLimitKeys
  window : ∀ key window, state.limiter.entries.get? key = some window →
    window.startedAt ≤ window.lastSeenAt ∧ window.lastSeenAt ≤ state.clock ∧
      window.attempts ≤ limit

/-- An action does not clear the key. -/
def Keeps (key : κ) : LimiterAction κ → Prop
  | .clear other => other ≠ key
  | .allow _ _ _ => True

variable {limit : UInt32} {state next last : LimiterState κ} {key other : κ} {now : ℤ}

/-! ### One call -/

/-- A call of `allow` is one of a limiter with the same windows. -/
theorem step_allow {order : List (κ × AttemptWindow)}
    (h : state.step (.allow key now order) = some next) :
    ∃ limiter : RateLimiter κ, state.clock ≤ now ∧
      limiter.attemptsPerWindow = state.limiter.attemptsPerWindow ∧
      limiter.entries.size = state.limiter.entries.size ∧
      (∀ other, limiter.entries.get? other = state.limiter.entries.get? other) ∧
      next = ⟨(limiter.allow key now).1, now,
        .called key now (limiter.allow key now).2 (limiter.evicted key now) :: state.history⟩ := by
  unfold LimiterState.step at h
  dsimp only at h
  split at h
  · rename_i hcall
    exact ⟨state.limiter.visited order hcall.2, hcall.1, rfl, hcall.2.length_eq,
      fun other => KeyedMap.get?_perm hcall.2 other, (Option.some.inj h).symm⟩
  · cases h

/-- The window that a call counts in: the key's own, or one that starts. -/
theorem windowOf_cases (limiter : RateLimiter κ) (key : κ) (now : ℤ) :
    (limiter.expire now).windowOf key now = .start now ∧
        (∀ window, limiter.entries.get? key = some window →
          window.isStale now = true ∨ window.isOver now = true) ∨
      limiter.entries.get? key = some ((limiter.expire now).windowOf key now) := by
  unfold RateLimiter.windowOf
  dsimp only
  cases hexpire : (limiter.expire now).entries.get? key with
  | none =>
    refine .inl ⟨?_, fun window hwindow => .inl ?_⟩
    · rw [Option.getD_none, ite_self]
    · by_contra hstale
      rw [RateLimiter.get?_expire_of_not_stale hwindow (Bool.eq_false_of_not_eq_true hstale)] at hexpire
      cases hexpire
  | some window =>
    rw [Option.getD_some]
    have hget := RateLimiter.get?_of_expire hexpire
    by_cases hover : window.isOver now = true
    · rw [if_pos hover]
      refine .inl ⟨rfl, fun found hfound => .inr ?_⟩
      rw [hget] at hfound
      rwa [← Option.some.inj hfound]
    · rw [if_neg hover]
      exact .inr hget

theorem sound_initial {clock : ℤ} :
    (LimiterState.initial limit clock : LimiterState κ).Sound limit where
  limit_eq := rfl
  size_le := Nat.zero_le _
  window := fun key window h => by
    rw [show (LimiterState.initial limit clock).limiter.entries.get? key = none from rfl] at h
    cases h

theorem sound_step {action : LimiterAction κ} (hstep : state.step action = some next)
    (h : state.Sound limit) : next.Sound limit := by
  cases action with
  | clear key =>
    obtain rfl := Option.some.inj hstep
    exact ⟨h.limit_eq, (KeyedMap.size_erase_le _ _).trans h.size_le,
      fun other window hget => h.window other window (KeyedMap.get?_of_erase hget)⟩
  | allow key now order =>
    obtain ⟨limiter, hclock, hlimit, hsize, hget, rfl⟩ := step_allow hstep
    rw [h.limit_eq] at hlimit
    refine ⟨RateLimiter.allow_attemptsPerWindow.trans hlimit,
      RateLimiter.size_allow_le (hsize.trans_le h.size_le), fun other window hwindow => ?_⟩
    dsimp only at hwindow ⊢
    by_cases hother : other = key
    · subst hother
      rcases RateLimiter.allow_self limiter other now with ⟨-, hnone, -⟩ | ⟨found, hfound, hstart, hseen, hcount⟩
      · rw [hnone] at hwindow
        cases hwindow
      · rw [hfound] at hwindow
        obtain rfl := Option.some.inj hwindow
        have hwindowOf : ((limiter.expire now).windowOf other now).startedAt ≤ now ∧
            ((limiter.expire now).windowOf other now).attempts ≤ limit := by
          rcases windowOf_cases limiter other now with ⟨hstarted, -⟩ | hkept
          · rw [hstarted]
            exact ⟨le_rfl, UInt32.zero_le⟩
          · rw [hget other] at hkept
            obtain ⟨hle, hclock', hattempts⟩ := h.window other _ hkept
            exact ⟨(hle.trans hclock').trans hclock, hattempts⟩
        rw [hstart, hseen]
        refine ⟨hwindowOf.1, le_rfl, ?_⟩
        rcases hcount with ⟨-, -, hattempts⟩ | ⟨-, hlt, hattempts⟩
        · rw [hattempts]
          exact hwindowOf.2
        · rw [UInt32.le_iff_toNat_le, hattempts]
          rw [hlimit] at hlt
          exact UInt32.lt_iff_toNat_lt.mp hlt
    · rw [RateLimiter.get?_allow_ne hother] at hwindow
      split at hwindow
      · cases hwindow
      · have := RateLimiter.get?_of_expire hwindow
        rw [hget other] at this
        obtain ⟨hle, hclock', hattempts⟩ := h.window other _ this
        exact ⟨hle, hclock'.trans hclock, hattempts⟩

/-! ### The attempts of a minute -/

/-- A call within a minute. -/
def Within (first : ℤ) : LimiterAction κ → Prop
  | .allow _ now _ => first ≤ now ∧ now < first + rateLimitWindowSeconds
  | .clear _ => True

/-- The attempts of a minute so far: those of a window that started before it, or those of one such
window, of the windows that were dropped, and of the window there is now. -/
structure Budget (limit : UInt32) (key : κ) (first : ℤ) (span : List (LimiterEvent κ))
    (state : LimiterState κ) : Prop where
  absent : state.limiter.entries.get? key = none →
    allowedCalls key span ≤ limit.toNat + (limit.toNat - 1) * evictions key span
  present : ∀ window, state.limiter.entries.get? key = some window →
    window.startedAt < first ∧ evictions key span = 0 ∧
        allowedCalls key span ≤ window.attempts.toNat ∨
      first ≤ window.startedAt ∧ allowedCalls key span ≤
        limit.toNat + (limit.toNat - 1) * evictions key span + window.attempts.toNat

section Counting

variable {span : List (LimiterEvent κ)} {allowed : Bool} {evicted : Option κ}

theorem allowedCalls_called_ne (h : other ≠ key) :
    allowedCalls key (.called other now allowed evicted :: span) = allowedCalls key span :=
  List.countP_cons_of_neg (by simp [LimiterEvent.allows, h])

theorem allowedCalls_called_self : allowedCalls key (.called key now allowed evicted :: span) =
    allowedCalls key span + if allowed = true then 1 else 0 := by
  rw [allowedCalls, List.countP_cons, LimiterEvent.allows, decide_eq_true rfl, Bool.true_and]
  rfl

theorem evictions_called : evictions key (.called other now allowed evicted :: span) =
    evictions key span + if evicted = some key then 1 else 0 := by
  rw [evictions, List.countP_cons, LimiterEvent.drops]
  simp only [decide_eq_true_eq]
  rfl

end Counting

theorem budget_start (first : ℤ) : Budget limit key first [] state where
  absent := fun _ => Nat.zero_le _
  present := fun window _ => by
    rcases lt_or_ge window.startedAt first with hlt | hle
    · exact .inl ⟨hlt, rfl, Nat.zero_le _⟩
    · exact .inr ⟨hle, Nat.zero_le _⟩

section Span

variable {first : ℤ} {span : List (LimiterEvent κ)}

/-- A window that a call of the minute finds stale or over started before the minute. -/
theorem Budget.of_gone (h : Budget limit key first span state) (hsound : state.Sound limit)
    (hclock : state.clock ≤ now) (hnow : now < first + rateLimitWindowSeconds)
    (hgone : ∀ window, state.limiter.entries.get? key = some window →
      window.isStale now = true ∨ window.isOver now = true) :
    allowedCalls key span ≤ limit.toNat + (limit.toNat - 1) * evictions key span := by
  cases hget : state.limiter.entries.get? key with
  | none => exact h.absent hget
  | some window =>
    obtain ⟨hseen, hclock', hattempts⟩ := hsound.window key window hget
    rcases h.present window hget with ⟨-, -, hle⟩ | ⟨hstart, -⟩
    · exact (hle.trans (UInt32.le_iff_toNat_le.mp hattempts)).trans (Nat.le_add_right _ _)
    · have hstale : window.isStale now = false := AttemptWindow.isStale_eq_false (by omega)
      have hover : window.isOver now = false := AttemptWindow.isOver_eq_false (by omega) (by omega)
      rcases hgone window hget with hgone | hgone
      · rw [hstale] at hgone
        cases hgone
      · rw [hover] at hgone
        cases hgone

/-- Another key is called. -/
theorem Budget.called_ne (h : Budget limit key first span state) (hsound : state.Sound limit)
    {limiter : RateLimiter κ} (hlimit : limiter.attemptsPerWindow = limit)
    (hget : ∀ other, limiter.entries.get? other = state.limiter.entries.get? other)
    (hclock : state.clock ≤ now) (hnow : now < first + rateLimitWindowSeconds) (hne : other ≠ key) :
    Budget limit key first
      (.called other now (limiter.allow other now).2 (limiter.evicted other now) :: span)
      ⟨(limiter.allow other now).1, now,
        .called other now (limiter.allow other now).2 (limiter.evicted other now) ::
          state.history⟩ := by
  have hafter : (limiter.allow other now).1.entries.get? key =
      if limiter.evicted other now = some key then none else (limiter.expire now).entries.get? key :=
    RateLimiter.get?_allow_ne hne.symm
  by_cases hevicted : limiter.evicted other now = some key
  · rw [if_pos hevicted] at hafter
    constructor
    · intro _
      rw [allowedCalls_called_ne hne, evictions_called, if_pos hevicted, Nat.mul_succ]
      obtain ⟨window, hwindow, hleft, -⟩ := RateLimiter.evicted_eq_some hevicted
      have hfound := RateLimiter.get?_of_expire hwindow
      rw [hget key] at hfound
      rw [hlimit] at hleft
      have hlt := UInt32.lt_iff_toNat_lt.mp hleft
      rcases h.present window hfound with ⟨-, hnone, hle⟩ | ⟨-, hle⟩
      · rw [hnone]
        omega
      · omega
    · intro window hwindow
      dsimp only at hwindow
      rw [hafter] at hwindow
      cases hwindow
  · rw [if_neg hevicted] at hafter
    constructor
    · intro hnone
      rw [allowedCalls_called_ne hne, evictions_called, if_neg hevicted, Nat.add_zero]
      dsimp only at hnone
      refine h.of_gone hsound hclock hnow fun window hwindow => .inl ?_
      by_contra hstale
      rw [← hget key] at hwindow
      rw [hafter, RateLimiter.get?_expire_of_not_stale hwindow
        (Bool.eq_false_of_not_eq_true hstale)] at hnone
      cases hnone
    · intro window hwindow
      rw [allowedCalls_called_ne hne, evictions_called, if_neg hevicted, Nat.add_zero]
      dsimp only at hwindow
      rw [hafter] at hwindow
      have hfound := RateLimiter.get?_of_expire hwindow
      rw [hget key] at hfound
      exact h.present window hfound

/-- The key is called. -/
theorem Budget.called_self (h : Budget limit key first span state) (hsound : state.Sound limit)
    {limiter : RateLimiter κ} (hget : limiter.entries.get? key = state.limiter.entries.get? key)
    (hclock : state.clock ≤ now) (hfirst : first ≤ now)
    (hnow : now < first + rateLimitWindowSeconds) :
    Budget limit key first
      (.called key now (limiter.allow key now).2 (limiter.evicted key now) :: span)
      ⟨(limiter.allow key now).1, now,
        .called key now (limiter.allow key now).2 (limiter.evicted key now) :: state.history⟩ := by
  have hevictions : evictions key
      (.called key now (limiter.allow key now).2 (limiter.evicted key now) :: span) =
        evictions key span := by
    rw [evictions_called, if_neg RateLimiter.evicted_ne_self, Nat.add_zero]
  rcases RateLimiter.allow_self limiter key now with
    ⟨hrefused, hnone, hexpire⟩ | ⟨window, hwindow, hstart, -, hcount⟩
  · have hallowed : allowedCalls key
        (.called key now (limiter.allow key now).2 (limiter.evicted key now) :: span) =
          allowedCalls key span := by
      rw [allowedCalls_called_self, hrefused]
      rfl
    constructor
    · intro _
      rw [hallowed, hevictions]
      refine h.of_gone hsound hclock hnow fun found hfound => .inl ?_
      by_contra hstale
      rw [← hget] at hfound
      rw [RateLimiter.get?_expire_of_not_stale hfound (Bool.eq_false_of_not_eq_true hstale)] at hexpire
      cases hexpire
    · intro found hfound
      dsimp only at hfound
      rw [hnone] at hfound
      cases hfound
  · constructor
    · intro hnone
      dsimp only at hnone
      rw [hwindow] at hnone
      cases hnone
    · intro found hfound
      dsimp only at hfound
      rw [hwindow] at hfound
      obtain rfl := Option.some.inj hfound
      rw [hevictions, hstart]
      -- An allowed call adds one to both the calls and the attempts of the window.
      obtain ⟨count, hallowed, hattempts⟩ : ∃ count, allowedCalls key
          (.called key now (limiter.allow key now).2 (limiter.evicted key now) :: span) =
            allowedCalls key span + count ∧
          window.attempts.toNat = ((limiter.expire now).windowOf key now).attempts.toNat + count := by
        rcases hcount with ⟨hresult, -, hattempts⟩ | ⟨hresult, -, hattempts⟩
        · refine ⟨0, ?_, by rw [hattempts, Nat.add_zero]⟩
          rw [allowedCalls_called_self, hresult]
          rfl
        · refine ⟨1, ?_, hattempts⟩
          rw [allowedCalls_called_self, hresult, if_pos rfl]
      rw [hallowed, hattempts]
      rcases windowOf_cases limiter key now with ⟨hstarted, hgone⟩ | hkept
      · rw [hget] at hgone
        have hbefore := h.of_gone hsound hclock hnow hgone
        rw [hstarted]
        exact .inr ⟨hfirst, by omega⟩
      · rw [hget] at hkept
        rcases h.present _ hkept with ⟨hbefore, hnone, hle⟩ | ⟨hafter, hle⟩
        · exact .inl ⟨hbefore, hnone, by omega⟩
        · exact .inr ⟨hafter, by omega⟩

end Span

/-! ### Runs -/

/-- The attempts of a run within a minute. -/
theorem budget_run {first : ℤ} {actions : List (LimiterAction κ)} (hsound : state.Sound limit)
    (hrun : run LimiterState.step state actions = some last)
    (hkeeps : ∀ action ∈ actions, Keeps key action) (hwithin : ∀ action ∈ actions, Within first action) :
    ∃ span, last.history = span ++ state.history ∧ Budget limit key first span last := by
  have hinv : ∀ reached action next, LimiterState.step reached action = some next →
      Keeps key action ∧ Within first action →
      (reached.Sound limit ∧
        ∃ span, reached.history = span ++ state.history ∧ Budget limit key first span reached) →
      next.Sound limit ∧
        ∃ span, next.history = span ++ state.history ∧ Budget limit key first span next := by
    rintro reached action next hstep ⟨hkeep, htime⟩ ⟨hsound, span, hspan, hbudget⟩
    refine ⟨sound_step hstep hsound, ?_⟩
    cases action with
    | clear other =>
      obtain rfl := Option.some.inj hstep
      have hother : (reached.limiter.clear other).entries.get? key =
          reached.limiter.entries.get? key := KeyedMap.get?_erase_ne _ (Ne.symm hkeep)
      refine ⟨.cleared other :: span, congrArg _ hspan, ?_⟩
      exact ⟨fun hnone => hbudget.absent (hother.symm.trans hnone),
        fun window hwindow => hbudget.present window (hother.symm.trans hwindow)⟩
    | allow other now order =>
      obtain ⟨limiter, hclock, hlimit, -, hget, rfl⟩ := step_allow hstep
      rw [hsound.limit_eq] at hlimit
      refine ⟨_ :: span, congrArg _ hspan, ?_⟩
      by_cases hother : other = key
      · subst hother
        exact hbudget.called_self hsound (hget other) hclock htime.1 htime.2
      · exact hbudget.called_ne hsound hlimit hget hclock htime.2 hother
  exact (run_invariant_along hinv hrun
    (along_of_forall fun action haction => ⟨hkeeps action haction, hwithin action haction⟩)
    ⟨hsound, [], rfl, budget_start first⟩).2

/-- A window without attempts left stays until it is over. -/
theorem exhausted_run {window : AttemptWindow} {actions : List (LimiterAction κ)}
    (hsound : state.Sound limit) (hwindow : state.limiter.entries.get? key = some window)
    (hattempts : limit ≤ window.attempts)
    (hrun : run LimiterState.step state actions = some last)
    (hkeeps : ∀ action ∈ actions, Keeps key action)
    (hclock : last.clock < window.startedAt + rateLimitWindowSeconds) :
    ∃ found, last.limiter.entries.get? key = some found ∧ limit ≤ found.attempts ∧
      found.startedAt = window.startedAt := by
  have hinv : ∀ reached action next, LimiterState.step reached action = some next →
      Keeps key action →
      (reached.Sound limit ∧ (reached.clock < window.startedAt + rateLimitWindowSeconds →
        ∃ found, reached.limiter.entries.get? key = some found ∧ limit ≤ found.attempts ∧
          found.startedAt = window.startedAt)) →
      next.Sound limit ∧ (next.clock < window.startedAt + rateLimitWindowSeconds →
        ∃ found, next.limiter.entries.get? key = some found ∧ limit ≤ found.attempts ∧
          found.startedAt = window.startedAt) := by
    rintro reached action next hstep hkeep ⟨hsound, hexhausted⟩
    refine ⟨sound_step hstep hsound, ?_⟩
    cases action with
    | clear other =>
      obtain rfl := Option.some.inj hstep
      intro hlate
      obtain ⟨found, hfound, hrest⟩ := hexhausted hlate
      exact ⟨found, (KeyedMap.get?_erase_ne _ (Ne.symm hkeep)).trans hfound, hrest⟩
    | allow other now order =>
      obtain ⟨limiter, hclock, hlimit, -, hget, rfl⟩ := step_allow hstep
      rw [hsound.limit_eq] at hlimit
      intro hlate
      dsimp only at hlate ⊢
      obtain ⟨found, hfound, hleft, hstart⟩ := hexhausted (hclock.trans_lt hlate)
      obtain ⟨hseen, hbefore, -⟩ := hsound.window key found hfound
      rw [← hget key] at hfound
      have hstale : found.isStale now = false := AttemptWindow.isStale_eq_false (by omega)
      have hkept := RateLimiter.get?_expire_of_not_stale hfound hstale
      by_cases hother : other = key
      · subst hother
        have hover : found.isOver now = false :=
          AttemptWindow.isOver_eq_false (by omega) (by omega)
        have hwindowOf : (limiter.expire now).windowOf other now = found := by
          rw [RateLimiter.windowOf, hkept, Option.getD_some, hover]
          rfl
        rcases RateLimiter.allow_self limiter other now with
          ⟨-, -, hnone⟩ | ⟨counted, hcounted, hstarted, -, ⟨-, hfull, -⟩ | ⟨-, hlt, -⟩⟩
        · rw [hkept] at hnone
          cases hnone
        · rw [hwindowOf] at hstarted
          rw [hlimit] at hfull
          exact ⟨counted, hcounted, hfull, hstarted.trans hstart⟩
        · rw [hwindowOf, hlimit] at hlt
          exact absurd hlt (UInt32.not_lt.mpr hleft)
      · refine ⟨found, ?_, hleft, hstart⟩
        rw [RateLimiter.get?_allow_ne (Ne.symm hother), if_neg, hkept]
        intro hevicted
        obtain ⟨dropped, hdropped, hlt, -⟩ := RateLimiter.evicted_eq_some hevicted
        rw [hkept] at hdropped
        rw [hlimit, ← Option.some.inj hdropped] at hlt
        exact absurd hlt (UInt32.not_lt.mpr hleft)
  exact (run_invariant_along hinv hrun (along_of_forall hkeeps)
    ⟨hsound, fun _ => ⟨window, hwindow, hattempts, rfl⟩⟩).2 hclock

/-- A key whose window has no attempts left is refused. -/
theorem refused_of_exhausted {window : AttemptWindow} {order : List (κ × AttemptWindow)}
    (hsound : state.Sound limit) (hwindow : state.limiter.entries.get? key = some window)
    (hattempts : limit ≤ window.attempts)
    (hnow : now < window.startedAt + rateLimitWindowSeconds)
    (hstep : state.step (.allow key now order) = some next) :
    ∃ evicted, next.history = .called key now false evicted :: state.history := by
  obtain ⟨limiter, hclock, hlimit, -, hget, rfl⟩ := step_allow hstep
  rw [hsound.limit_eq] at hlimit
  obtain ⟨hseen, hbefore, -⟩ := hsound.window key window hwindow
  rw [← hget key] at hwindow
  have hstale : window.isStale now = false := AttemptWindow.isStale_eq_false (by omega)
  have hover : window.isOver now = false := AttemptWindow.isOver_eq_false (by omega) (by omega)
  have hkept := RateLimiter.get?_expire_of_not_stale hwindow hstale
  have hwindowOf : (limiter.expire now).windowOf key now = window := by
    rw [RateLimiter.windowOf, hkept, Option.getD_some, hover]
    rfl
  rcases RateLimiter.allow_self limiter key now with
    ⟨hrefused, -⟩ | ⟨counted, -, -, -, ⟨hrefused, -⟩ | ⟨-, hlt, -⟩⟩
  · exact ⟨_, by rw [hrefused]⟩
  · exact ⟨_, by rw [hrefused]⟩
  · rw [hwindowOf, hlimit] at hlt
    exact absurd hlt (UInt32.not_lt.mpr hattempts)

/-- A call that was refused although its key has a window found no attempts left in it. -/
theorem exhausted_of_refused {window : AttemptWindow} {order : List (κ × AttemptWindow)}
    {evicted : Option κ} (hsound : state.Sound limit)
    (hstep : state.step (.allow key now order) = some next)
    (hrefused : next.history = .called key now false evicted :: state.history)
    (hwindow : next.limiter.entries.get? key = some window) : limit ≤ window.attempts := by
  obtain ⟨limiter, -, hlimit, -, -, rfl⟩ := step_allow hstep
  rw [hsound.limit_eq] at hlimit
  have hresult : (limiter.allow key now).2 = false :=
    (LimiterEvent.called.inj (List.cons.inj hrefused).1).2.2.1
  dsimp only at hwindow
  rcases RateLimiter.allow_self limiter key now with
    ⟨-, hnone, -⟩ | ⟨counted, hcounted, -, -, ⟨-, hfull, -⟩ | ⟨hallowed, -⟩⟩
  · rw [hwindow] at hnone
    cases hnone
  · rw [hwindow] at hcounted
    rwa [hlimit, ← Option.some.inj hcounted] at hfull
  · rw [hresult] at hallowed
    cases hallowed

theorem sound_run {actions : List (LimiterAction κ)} (hsound : state.Sound limit)
    (hrun : run LimiterState.step state actions = some last) : last.Sound limit :=
  run_invariant (fun _ _ _ hstep h => sound_step hstep h) hrun hsound

/-- The map stays within its bound. In a minute without a clear of a key, the calls for it that are
allowed are at most those of two windows, and one less than a window for each time the key was
dropped to make room. A key that was refused because its window was exhausted is refused until a
minute after the start of the window, unless it is cleared. -/
theorem rate_limit_bounds {clock : ℤ} {before : List (LimiterAction κ)} {middle : LimiterState κ}
    (hbefore : run LimiterState.step (.initial limit clock) before = some middle) :
    middle.limiter.entries.size ≤ maxRateLimitKeys ∧
    (∀ key first actions last, run LimiterState.step middle actions = some last →
      (∀ action ∈ actions, Keeps key action) → (∀ action ∈ actions, Within first action) →
      ∃ span, last.history = span ++ middle.history ∧ allowedCalls key span ≤
        2 * limit.toNat + (limit.toNat - 1) * evictions key span) ∧
    (∀ key now order refused evicted window, middle.step (.allow key now order) = some refused →
      refused.history = .called key now false evicted :: middle.history →
      refused.limiter.entries.get? key = some window →
      ∀ actions later again order' last, run LimiterState.step refused actions = some later →
        (∀ action ∈ actions, Keeps key action) →
        again < window.startedAt + rateLimitWindowSeconds →
        later.step (.allow key again order') = some last →
        ∃ evicted', last.history = .called key again false evicted' :: later.history) := by
  have hsound := sound_run sound_initial hbefore
  refine ⟨hsound.size_le, fun key first actions last hrun hkeeps hwithin => ?_, ?_⟩
  · obtain ⟨span, hspan, hbudget⟩ := budget_run hsound hrun hkeeps hwithin
    refine ⟨span, hspan, ?_⟩
    have hlast := sound_run hsound hrun
    cases hget : last.limiter.entries.get? key with
    | none =>
      have := hbudget.absent hget
      omega
    | some window =>
      have hattempts := UInt32.le_iff_toNat_le.mp (hlast.window key window hget).2.2
      rcases hbudget.present window hget with ⟨-, -, hle⟩ | ⟨-, hle⟩ <;> omega
  · intro key now order refused evicted window hstep hhistory hwindow actions later again order' last
      hrun hkeeps hagain hlater
    have hrefused := sound_step hstep hsound
    have hattempts := exhausted_of_refused hsound hstep hhistory hwindow
    have hclock : later.clock ≤ again := (step_allow hlater).choose_spec.1
    obtain ⟨found, hfound, hfull, hstart⟩ :=
      exhausted_run hrefused hwindow hattempts hrun hkeeps (hclock.trans_lt hagain)
    exact refused_of_exhausted (sound_run hrefused hrun) hfound hfull (hstart ▸ hagain) hlater

/-- A key that is tried twice and may be tried once. -/
theorem rate_limit_bounds_twice :
    ∃ last span : _, run LimiterState.step (.initial 1 0 : LimiterState ℕ)
        [.allow 7 0 [], .allow 7 1 [(7, ⟨0, 1, 0⟩)]] = some last ∧
      last.history = span ++ [] ∧
      allowedCalls 7 span ≤ 2 * (1 : UInt32).toNat + ((1 : UInt32).toNat - 1) * evictions 7 span := by
  have hbefore : run LimiterState.step (.initial 1 0 : LimiterState ℕ) [] = some (.initial 1 0) := rfl
  obtain ⟨-, hminute, -⟩ := rate_limit_bounds hbefore
  obtain ⟨span, hspan⟩ := hminute 7 0 [.allow 7 0 [], .allow 7 1 [(7, ⟨0, 1, 0⟩)]] _ rfl
    (by simp [Keeps]) (by simp [Within, rateLimitWindowSeconds])
  exact ⟨_, span, rfl, hspan⟩

end Crabinet.Auth
