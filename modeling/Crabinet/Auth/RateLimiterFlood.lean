import Crabinet.Auth.RateLimiterRuns

/-!
# Flooding the rate limiter

As many other keys as the map holds, each tried once, push out any key that has attempts left. A
key that is tried again after each such flood is allowed more often than two windows would allow.
-/

namespace Crabinet.Auth

open Crabinet.Library

variable {limit : UInt32} {state next last : LimiterState ℕ} {key other bound : ℕ} {now : ℤ}

/-- No key has been tried twice, and the keys are bounded. -/
structure Light (bound : ℕ) (state : LimiterState ℕ) : Prop where
  attempts_le : ∀ key window, state.limiter.entries.get? key = some window →
    window.attempts.toNat ≤ 1
  key_le : ∀ key window, state.limiter.entries.get? key = some window → key ≤ bound

/-- A new key is allowed, and takes the place of the key that was seen longest ago. -/
theorem exists_step_fresh (hsound : state.Sound limit) (hlimit : 1 < limit.toNat)
    (hlight : Light bound state) (hclock : state.clock ≤ now)
    (hkey : state.limiter.entries.get? key = none) :
    ∃ order next window evicted, state.step (.allow key now order) = some next ∧
      next.clock = now ∧ Light (max bound key) next ∧
      next.history = .called key now true evicted :: state.history ∧
      next.limiter.entries.get? key = some window ∧ window.lastSeenAt = now ∧
      (∀ other, other ≠ key → next.limiter.entries.get? other =
        if evicted = some other then none else (state.limiter.expire now).entries.get? other) ∧
      ∀ dropped, evicted = some dropped → ∀ other found,
        (state.limiter.expire now).entries.get? other = some found →
        ∃ window, (state.limiter.expire now).entries.get? dropped = some window ∧
          window.lastSeenAt ≤ found.lastSeenAt := by
  have hleft (other : ℕ) (found : AttemptWindow)
      (hfound : (state.limiter.expire now).entries.get? other = some found) :
      found.attempts < state.limiter.attemptsPerWindow := by
    have hattempts := hlight.attempts_le other found (RateLimiter.get?_of_expire hfound)
    rw [hsound.limit_eq, UInt32.lt_iff_toNat_lt]
    omega
  have hgone : (state.limiter.expire now).entries.get? key = none := by
    rw [RateLimiter.get?_expire, hkey, Option.filter_none]
  have hwindowOf : (state.limiter.expire now).windowOf key now = .start now := by
    rw [RateLimiter.windowOf, hgone, Option.getD_none, ite_self]
  have hstep : state.step (.allow key now state.limiter.entries.entries) =
      some ⟨(state.limiter.allow key now).1, now, .called key now (state.limiter.allow key now).2
        (state.limiter.evicted key now) :: state.history⟩ :=
    dif_pos ⟨hclock, .refl _⟩
  have hcounted : ∃ window, (state.limiter.allow key now).1.entries.get? key = some window ∧
      window.lastSeenAt = now ∧ (state.limiter.allow key now).2 = true ∧
      window.attempts.toNat = 1 := by
    rcases RateLimiter.allow_self state.limiter key now with
      ⟨-, hnone, -⟩ | ⟨window, hwindow, -, hseen, ⟨-, hfull, hattempts⟩ | ⟨hallowed, -, hattempts⟩⟩
    · obtain ⟨hsize, hexhausted⟩ := RateLimiter.exhausted_of_allow_eq_none hnone
      obtain ⟨entry, hentry⟩ : ∃ entry, entry ∈ (state.limiter.expire now).entries.entries :=
        List.exists_mem_of_length_pos (Nat.lt_of_lt_of_le (by decide) hsize)
      have hget : (state.limiter.expire now).entries.get? entry.1 = some entry.2 :=
        KeyedMap.get?_eq_some.mpr hentry
      exact absurd (hleft _ _ hget) (hexhausted _ _ hget)
    · rw [hattempts, hwindowOf, hsound.limit_eq] at hfull
      exact absurd (UInt32.le_iff_toNat_le.mp hfull)
        (Nat.not_le.mpr (Nat.lt_trans (show (0 : UInt32).toNat < 1 by decide) hlimit))
    · rw [hwindowOf] at hattempts
      exact ⟨window, hwindow, hseen, hallowed, hattempts⟩
  obtain ⟨window, hwindow, hseen, hallowed, hattempts⟩ := hcounted
  rw [hallowed] at hstep
  refine ⟨_, _, window, _, hstep, rfl, ⟨?_, ?_⟩, rfl, hwindow, hseen,
    fun other hother => RateLimiter.get?_allow_ne hother, fun dropped hdropped other found hfound => ?_⟩
  · intro other found hfound
    dsimp only at hfound
    by_cases hother : other = key
    · rw [hother, hwindow] at hfound
      rw [← Option.some.inj hfound, hattempts]
    · rw [RateLimiter.get?_allow_ne hother] at hfound
      split at hfound
      · cases hfound
      · exact hlight.attempts_le other found (RateLimiter.get?_of_expire hfound)
  · intro other found hfound
    dsimp only at hfound
    by_cases hother : other = key
    · exact hother ▸ le_max_right _ _
    · rw [RateLimiter.get?_allow_ne hother] at hfound
      split at hfound
      · cases hfound
      · exact (hlight.key_le other found (RateLimiter.get?_of_expire hfound)).trans (le_max_left _ _)
  · obtain ⟨window, hdropped, -, holdest⟩ := RateLimiter.evicted_eq_some hdropped
    exact ⟨window, hdropped, holdest other found hfound (hleft other found hfound)⟩

/-- A flood of so many new keys is under way, and the victim was seen before it. As long as the
victim is there, so is every key of the flood. -/
structure Flooding (limit : UInt32) (victim bound : ℕ) (now : ℤ) (count : ℕ)
    (state : LimiterState ℕ) : Prop where
  sound : state.Sound limit
  light : Light (bound + count) state
  clock_le : state.clock ≤ now
  seen : ∀ window, state.limiter.entries.get? victim = some window → window.lastSeenAt < now
  flood : ∀ window, state.limiter.entries.get? victim = some window → ∀ index < count,
    ∃ found, state.limiter.entries.get? (bound + 1 + index) = some found ∧ found.lastSeenAt = now

theorem Flooding.step {victim count : ℕ} (h : Flooding limit victim bound now count state)
    (hlimit : 1 < limit.toNat) (hvictim : victim ≤ bound) :
    ∃ order next evicted, state.step (.allow (bound + 1 + count) now order) = some next ∧
      next.history = .called (bound + 1 + count) now true evicted :: state.history ∧
      next.clock = now ∧ Flooding limit victim bound now (count + 1) next := by
  have hkey : state.limiter.entries.get? (bound + 1 + count) = none := by
    by_contra hsome
    obtain ⟨window, hwindow⟩ := Option.ne_none_iff_exists'.mp hsome
    have := h.light.key_le _ window hwindow
    omega
  obtain ⟨order, next, window, evicted, hstep, hclock, hlight, hhistory, hwindow, hseen, hothers,
    holdest⟩ := exists_step_fresh h.sound hlimit h.light h.clock_le hkey
  have hbefore (found : AttemptWindow) (hfound : next.limiter.entries.get? victim = some found) :
      evicted ≠ some victim ∧
        (state.limiter.expire now).entries.get? victim = some found := by
    rw [hothers victim (by omega)] at hfound
    split at hfound
    · cases hfound
    · rename_i hne
      exact ⟨hne, hfound⟩
  refine ⟨order, next, evicted, hstep, hhistory, hclock, sound_step hstep h.sound, ?_, hclock.le, ?_, ?_⟩
  · rwa [show max (bound + count) (bound + 1 + count) = bound + (count + 1) by omega] at hlight
  · intro found hfound
    exact h.seen found (RateLimiter.get?_of_expire (hbefore found hfound).2)
  · intro found hfound index hindex
    obtain ⟨hkept, hexpired⟩ := hbefore found hfound
    have hvictimBefore := RateLimiter.get?_of_expire hexpired
    rcases Nat.lt_succ_iff_lt_or_eq.mp hindex with hlt | rfl
    · obtain ⟨flooded, hflooded, htime⟩ := h.flood found hvictimBefore index hlt
      have hfresh : flooded.isStale now = false := by
        refine AttemptWindow.isStale_eq_false ?_
        rw [htime, rateLimitWindowSeconds]
        omega
      have hstays := RateLimiter.get?_expire_of_not_stale hflooded hfresh
      refine ⟨flooded, ?_, htime⟩
      rw [hothers _ (by omega), if_neg, hstays]
      -- The victim was seen before the keys of the flood, so that none of them is the oldest.
      intro hevicted
      obtain ⟨dropped, hdropped, hle⟩ := holdest _ hevicted victim found hexpired
      rw [hstays] at hdropped
      have := h.seen found hvictimBefore
      rw [← Option.some.inj hdropped, htime] at hle
      omega
    · exact ⟨window, hwindow, hseen⟩

/-- A call of another key than the victim. -/
def Floods (victim : ℕ) (now : ℤ) : LimiterAction ℕ → Prop
  | .allow key time _ => key ≠ victim ∧ time = now
  | .clear _ => False

theorem exists_flood {victim : ℕ} (h : Flooding limit victim bound now 0 state)
    (hlimit : 1 < limit.toNat) (hvictim : victim ≤ bound) (count : ℕ) :
    ∃ actions last, run LimiterState.step state actions = some last ∧
      (∀ action ∈ actions, Floods victim now action) ∧
      allowedCalls victim last.history = allowedCalls victim state.history ∧
      Flooding limit victim bound now count last := by
  induction count with
  | zero => exact ⟨[], state, rfl, fun action haction => absurd haction List.not_mem_nil, rfl, h⟩
  | succ count ih =>
    obtain ⟨actions, middle, hrun, hfloods, hallowed, hmiddle⟩ := ih
    obtain ⟨order, next, evicted, hstep, hhistory, -, hnext⟩ := hmiddle.step hlimit hvictim
    refine ⟨actions ++ [.allow (bound + 1 + count) now order], next,
      run_append.mpr ⟨middle, hrun, run_cons_eq_some.mpr ⟨next, hstep, rfl⟩⟩, ?_, ?_, hnext⟩
    · intro action haction
      rcases List.mem_append.mp haction with hmem | hmem
      · exact hfloods action hmem
      · obtain rfl := List.mem_singleton.mp hmem
        exact ⟨by omega, rfl⟩
    · rw [hhistory, allowedCalls_called_ne (by omega), hallowed]

/-- A flood of as many keys as the map holds pushes the victim out. -/
theorem Flooding.drops {victim : ℕ}
    (h : Flooding limit victim bound now maxRateLimitKeys state) (hvictim : victim ≤ bound) :
    state.limiter.entries.get? victim = none := by
  by_contra hsome
  obtain ⟨window, hwindow⟩ := Option.ne_none_iff_exists'.mp hsome
  have hmem (key : ℕ) (found : AttemptWindow)
      (hfound : state.limiter.entries.get? key = some found) : key ∈ state.limiter.entries.keys :=
    KeyedMap.get?_isSome.mp (Option.isSome_of_eq_some hfound)
  have hnodup : (victim :: (List.range maxRateLimitKeys).map (bound + 1 + ·)).Nodup := by
    refine List.nodup_cons.mpr ⟨fun hin => ?_, List.nodup_range.map fun first second heq => ?_⟩
    · obtain ⟨index, -, heq⟩ := List.mem_map.mp hin
      omega
    · exact Nat.add_left_cancel heq
  have hsubset : (victim :: (List.range maxRateLimitKeys).map (bound + 1 + ·)) ⊆
      state.limiter.entries.keys := by
    refine List.cons_subset.mpr ⟨hmem _ _ hwindow, fun key hin => ?_⟩
    obtain ⟨index, hindex, rfl⟩ := List.mem_map.mp hin
    obtain ⟨found, hfound, -⟩ := h.flood window hwindow index (List.mem_range.mp hindex)
    exact hmem _ _ hfound
  have hlength := (List.subperm_of_subset hnodup hsubset).length_le
  rw [List.length_cons, List.length_map, List.length_range, KeyedMap.keys, List.length_map] at hlength
  exact absurd hlength (Nat.not_le.mpr (Nat.lt_succ_of_le h.sound.size_le))

/-- The victim may be tried again. -/
structure Open (limit : UInt32) (victim bound : ℕ) (state : LimiterState ℕ) : Prop where
  sound : state.Sound limit
  light : Light bound state
  gone : state.limiter.entries.get? victim = none

/-- A call for the victim and a flood, and the victim may be tried again. -/
theorem Open.round {victim : ℕ} (h : Open limit victim bound state) (hlimit : 1 < limit.toNat)
    (hvictim : victim ≤ bound) (hclock : state.clock ≤ now) :
    ∃ actions last, run LimiterState.step state actions = some last ∧
      (∀ action ∈ actions, Keeps victim action ∧ ∃ key time order,
        action = .allow key time order ∧ now ≤ time ∧ time ≤ now + 1) ∧
      allowedCalls victim last.history = allowedCalls victim state.history + 1 ∧
      last.clock ≤ now + 1 ∧ Open limit victim (bound + maxRateLimitKeys) last := by
  obtain ⟨order, tried, window, evicted, hstep, htime, hlight, hhistory, hwindow, hseen, -⟩ :=
    exists_step_fresh h.sound hlimit h.light hclock h.gone
  rw [max_eq_left hvictim] at hlight
  have hflooding : Flooding limit victim bound (now + 1) 0 tried := by
    refine ⟨sound_step hstep h.sound, hlight, by omega, fun found hfound => ?_,
      fun _ _ _ hindex => absurd hindex (Nat.not_lt_zero _)⟩
    rw [hwindow] at hfound
    rw [← Option.some.inj hfound, hseen]
    omega
  obtain ⟨actions, last, hrun, hfloods, hallowed, hlast⟩ :=
    exists_flood hflooding hlimit hvictim maxRateLimitKeys
  refine ⟨.allow victim now order :: actions, last, run_cons_eq_some.mpr ⟨tried, hstep, hrun⟩, ?_, ?_,
    hlast.clock_le, hlast.sound, hlast.light, hlast.drops hvictim⟩
  · intro action haction
    rcases List.mem_cons.mp haction with rfl | hmem
    · exact ⟨trivial, _, _, _, rfl, le_rfl, by omega⟩
    · have hflood := hfloods action hmem
      cases action with
      | allow key time order => exact ⟨trivial, _, _, _, rfl, by have := hflood.2; omega, hflood.2.le⟩
      | clear key => exact hflood.elim
  · rw [hallowed, hhistory, allowedCalls_called_self, if_pos rfl]

/-- Rounds of floods, two seconds each, allow the victim once a round. -/
theorem Open.rounds {victim : ℕ} (h : Open limit victim bound state) (hlimit : 1 < limit.toNat)
    (hvictim : victim ≤ bound) (hclock : state.clock ≤ 0) (rounds : ℕ) :
    ∃ actions last, run LimiterState.step state actions = some last ∧
      (∀ action ∈ actions, Keeps victim action ∧ ∃ key time order,
        action = .allow key time order ∧ 0 ≤ time ∧ time < 2 * rounds) ∧
      allowedCalls victim last.history = allowedCalls victim state.history + rounds ∧
      last.clock ≤ 2 * rounds ∧ Open limit victim (bound + rounds * maxRateLimitKeys) last := by
  induction rounds with
  | zero =>
    rw [Nat.zero_mul]
    exact ⟨[], state, rfl, fun action haction => absurd haction List.not_mem_nil, rfl, hclock, h⟩
  | succ rounds ih =>
    obtain ⟨actions, middle, hrun, htimes, hallowed, htime, hmiddle⟩ := ih
    obtain ⟨more, last, hmore, hmoreTimes, hmoreAllowed, hlastTime, hlast⟩ :=
      hmiddle.round hlimit (hvictim.trans (Nat.le_add_right _ _)) htime
    refine ⟨actions ++ more, last, run_append.mpr ⟨middle, hrun, hmore⟩, ?_, ?_, ?_, ?_⟩
    · intro action haction
      rcases List.mem_append.mp haction with hmem | hmem
      · obtain ⟨hkeeps, key, time, order, rfl, hle, hlt⟩ := htimes action hmem
        exact ⟨hkeeps, key, time, order, rfl, hle, by push_cast; omega⟩
      · obtain ⟨hkeeps, key, time, order, rfl, hle, hlt⟩ := hmoreTimes action hmem
        exact ⟨hkeeps, key, time, order, rfl, by omega, by push_cast; omega⟩
    · rw [hmoreAllowed, hallowed, Nat.add_assoc]
    · push_cast
      omega
    · rwa [Nat.succ_mul, ← Nat.add_assoc]

/-- With two attempts a window, a key can be tried more than four times within a minute without
being cleared. -/
theorem rate_limit_flooded : ∃ actions last, run LimiterState.step
      (.initial 2 0 : LimiterState ℕ) actions = some last ∧
    (∀ action ∈ actions, Keeps 0 action) ∧ (∀ action ∈ actions, Within 0 action) ∧
    2 * (2 : UInt32).toNat < allowedCalls 0 last.history := by
  have hempty (key : ℕ) :
      (LimiterState.initial 2 0 : LimiterState ℕ).limiter.entries.get? key = none := rfl
  have hopen : Open 2 0 0 (.initial 2 0) := by
    refine ⟨sound_initial, ⟨fun key window h => ?_, fun key window h => ?_⟩, hempty 0⟩
    · rw [hempty key] at h
      cases h
    · rw [hempty key] at h
      cases h
  obtain ⟨actions, last, hrun, htimes, hallowed, -⟩ := hopen.rounds (by decide) le_rfl le_rfl 5
  refine ⟨actions, last, hrun, fun action haction => (htimes action haction).1,
    fun action haction => ?_, ?_⟩
  · obtain ⟨-, key, time, order, rfl, hle, hlt⟩ := htimes action haction
    refine ⟨hle, ?_⟩
    rw [rateLimitWindowSeconds]
    push_cast at hlt
    omega
  · rw [hallowed]
    decide

end Crabinet.Auth
