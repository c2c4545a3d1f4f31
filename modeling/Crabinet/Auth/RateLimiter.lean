import Crabinet.Library.Checked
import Crabinet.Library.KeyedMap
import Mathlib.Data.List.MinMax

/-!
# The sign-in rate limiter

A bounded map from keys to windows of one minute. A key that a full map does not hold takes the
place of the key that was seen longest ago among those that have attempts left; where none has,
it is refused.
-/

namespace Crabinet.Auth

open Crabinet.Library

/-- `AttemptWindow`. -/
structure AttemptWindow where
  startedAt : ℤ
  attempts : UInt32
  lastSeenAt : ℤ
deriving DecidableEq

/-- `RateLimiter`. -/
structure RateLimiter (κ : Type) where
  entries : KeyedMap κ AttemptWindow
  attemptsPerWindow : UInt32

/-- `RATE_LIMIT_WINDOW_SECONDS`. -/
def rateLimitWindowSeconds : ℤ := 60

/-- `MAX_RATE_LIMIT_KEYS`. -/
def maxRateLimitKeys : ℕ := 4096

/-- `i64::saturating_sub`. -/
def saturatingSub (first second : ℤ) : ℤ := max (-2 ^ 63) (min (2 ^ 63 - 1) (first - second))

/-- The attempts and one more, as `u32::saturating_add`. -/
def nextAttempts (attempts : UInt32) : UInt32 :=
  if attempts.toNat < maxOfBits 32 then UInt32.ofNat (attempts.toNat + 1) else attempts

namespace AttemptWindow

/-- A window that starts. -/
def start (now : ℤ) : AttemptWindow := ⟨now, 0, now⟩

/-- The window has not been used for its length. -/
def isStale (window : AttemptWindow) (now : ℤ) : Bool :=
  decide (rateLimitWindowSeconds ≤ saturatingSub now window.lastSeenAt)

/-- The window started its length ago, or later than now. -/
def isOver (window : AttemptWindow) (now : ℤ) : Bool :=
  decide (rateLimitWindowSeconds ≤ saturatingSub now window.startedAt) || decide (now < window.startedAt)

end AttemptWindow

namespace RateLimiter

variable {κ : Type} [DecidableEq κ] (self : RateLimiter κ) (key : κ) (now : ℤ)

omit [DecidableEq κ] in
/-- Forget the windows that are stale. -/
def expire : RateLimiter κ :=
  { self with entries := self.entries.retain fun _ window => !window.isStale now }

omit [DecidableEq κ] in
/-- The key seen longest ago among those with attempts left. -/
def oldest : Option κ :=
  -- the order is named, since the one that is found may be that of a complete lattice
  (@List.argmin _ ℤ Int.instLinearOrder.toPreorder (fun first second => Int.decLt first second)
    (fun entry => entry.2.lastSeenAt)
    (self.entries.entries.filter fun entry => decide (entry.2.attempts < self.attemptsPerWindow))).map
      Prod.fst

/-- There is no room for the key. -/
def isFullFor : Bool :=
  decide (maxRateLimitKeys ≤ self.entries.size) && decide (key ∉ self.entries.keys)

/-- The key that a call drops. -/
def evicted : Option κ := if (self.expire now).isFullFor key then (self.expire now).oldest else none

/-- Drop a key. -/
def remove : RateLimiter κ := { self with entries := self.entries.erase key }

/-- The window of a key, started if there is none or it is over. -/
def windowOf : AttemptWindow :=
  let window := (self.entries.get? key).getD (.start now)
  if window.isOver now then .start now else window

/-- Count an attempt of a key that is in the map or has room. -/
def attempt : RateLimiter κ × Bool :=
  let window := { self.windowOf key now with lastSeenAt := now }
  if self.attemptsPerWindow ≤ window.attempts then
    ({ self with entries := self.entries.insert key window }, false)
  else
    ({ self with entries :=
        self.entries.insert key { window with attempts := nextAttempts window.attempts } }, true)

/-- `allow`. -/
def allow : RateLimiter κ × Bool :=
  if (self.expire now).isFullFor key then
    match (self.expire now).oldest with
    | none => (self.expire now, false)
    | some oldest => ((self.expire now).remove oldest).attempt key now
  else (self.expire now).attempt key now

/-- `clear`. -/
def clear : RateLimiter κ := self.remove key

end RateLimiter

/-! ### Windows -/

theorem toNat_nextAttempts {attempts limit : UInt32} (h : attempts < limit) :
    (nextAttempts attempts).toNat = attempts.toNat + 1 := by
  have hmax : maxOfBits 32 = 4294967295 := rfl
  have hlt := UInt32.lt_iff_toNat_lt.mp h
  have hlimit := limit.toNat_lt
  have hsize : UInt32.size = 4294967296 := rfl
  rw [nextAttempts, if_pos (by omega)]
  exact UInt32.toNat_ofNat_of_lt (by omega)

namespace AttemptWindow

variable {window : AttemptWindow} {now : ℤ}

theorem isStale_eq_false (h : now < window.lastSeenAt + rateLimitWindowSeconds) :
    window.isStale now = false := by
  rw [isStale, decide_eq_false_iff_not, saturatingSub, rateLimitWindowSeconds]
  rw [rateLimitWindowSeconds] at h
  omega

theorem isOver_eq_false (hstart : window.startedAt ≤ now)
    (h : now < window.startedAt + rateLimitWindowSeconds) : window.isOver now = false := by
  rw [isOver, Bool.or_eq_false_iff, decide_eq_false_iff_not, decide_eq_false_iff_not, saturatingSub,
    rateLimitWindowSeconds]
  rw [rateLimitWindowSeconds] at h
  omega

end AttemptWindow

/-! ### A call -/

namespace RateLimiter

variable {κ : Type} [DecidableEq κ] {self : RateLimiter κ} {key other : κ} {now : ℤ}
  {window : AttemptWindow}

theorem get?_expire : (self.expire now).entries.get? key =
    (self.entries.get? key).filter fun window => !window.isStale now :=
  KeyedMap.get?_retain _ _ _

theorem get?_of_expire (h : (self.expire now).entries.get? key = some window) :
    self.entries.get? key = some window :=
  (KeyedMap.get?_of_retain h).1

/-- A window that is not stale stays. -/
theorem get?_expire_of_not_stale (h : self.entries.get? key = some window)
    (hstale : window.isStale now = false) : (self.expire now).entries.get? key = some window := by
  rw [get?_expire, h, Option.filter_some, hstale]
  rfl

/-- What is dropped has attempts left, and no such key was seen before it. -/
theorem oldest_eq_some (h : self.oldest = some key) :
    ∃ window, self.entries.get? key = some window ∧ window.attempts < self.attemptsPerWindow ∧
      ∀ other found, self.entries.get? other = some found → found.attempts < self.attemptsPerWindow →
        window.lastSeenAt ≤ found.lastSeenAt := by
  obtain ⟨⟨_, window⟩, hmin, rfl⟩ := Option.map_eq_some_iff.mp h
  obtain ⟨hmem, hattempts⟩ := List.mem_filter.mp (List.argmin_mem hmin)
  refine ⟨window, KeyedMap.get?_eq_some.mpr hmem, of_decide_eq_true hattempts,
    fun other found hfound hleft => ?_⟩
  exact List.le_of_mem_argmin (f := fun entry : κ × AttemptWindow => entry.2.lastSeenAt)
    (List.mem_filter.mpr ⟨KeyedMap.get?_eq_some.mp hfound, decide_eq_true hleft⟩) hmin

/-- Nothing can be dropped when no key has attempts left. -/
theorem oldest_eq_none (h : self.oldest = none) (hget : self.entries.get? key = some window) :
    ¬window.attempts < self.attemptsPerWindow := fun hleft => by
  have hempty := List.argmin_eq_none.mp (Option.map_eq_none_iff.mp h)
  have hmem : (key, window) ∈ self.entries.entries.filter fun entry =>
      decide (entry.2.attempts < self.attemptsPerWindow) :=
    List.mem_filter.mpr ⟨KeyedMap.get?_eq_some.mp hget, decide_eq_true hleft⟩
  rw [hempty] at hmem
  cases hmem

theorem isFullFor_eq_true (h : self.isFullFor key = true) :
    maxRateLimitKeys ≤ self.entries.size ∧ self.entries.get? key = none := by
  obtain ⟨hsize, hkey⟩ := (Bool.and_eq_true _ _).mp h
  exact ⟨of_decide_eq_true hsize, KeyedMap.get?_eq_none.mpr (of_decide_eq_true hkey)⟩

theorem attempt_attemptsPerWindow : (self.attempt key now).1.attemptsPerWindow =
    self.attemptsPerWindow := by
  unfold attempt
  dsimp only
  split <;> rfl

/-- A call leaves the windows of other keys. -/
theorem get?_attempt_ne (h : other ≠ key) :
    (self.attempt key now).1.entries.get? other = self.entries.get? other := by
  unfold attempt
  dsimp only
  split <;> exact KeyedMap.get?_insert_ne _ h _

/-- A call counts in the window of its key, or is refused. -/
theorem attempt_self (self : RateLimiter κ) (key : κ) (now : ℤ) :
    ∃ window, (self.attempt key now).1.entries.get? key = some window ∧
      window.startedAt = (self.windowOf key now).startedAt ∧ window.lastSeenAt = now ∧
      ((self.attempt key now).2 = false ∧
          self.attemptsPerWindow ≤ window.attempts ∧
          window.attempts = (self.windowOf key now).attempts ∨
        (self.attempt key now).2 = true ∧
          (self.windowOf key now).attempts < self.attemptsPerWindow ∧
          window.attempts.toNat = (self.windowOf key now).attempts.toNat + 1) := by
  unfold attempt
  dsimp only
  by_cases hlimit : self.attemptsPerWindow ≤ (self.windowOf key now).attempts
  · rw [if_pos hlimit]
    exact ⟨_, KeyedMap.get?_insert_self _ _ _, rfl, rfl, .inl ⟨rfl, hlimit, rfl⟩⟩
  · rw [if_neg hlimit]
    exact ⟨_, KeyedMap.get?_insert_self _ _ _, rfl, rfl,
      .inr ⟨rfl, UInt32.not_le.mp hlimit, toNat_nextAttempts (UInt32.not_le.mp hlimit)⟩⟩

/-- A call is refused by a full map, which it leaves as it is, or it is counted once there is room,
made by dropping the evicted key. -/
theorem allow_cases (self : RateLimiter κ) (key : κ) (now : ℤ) :
    (self.allow key now = (self.expire now, false) ∧ self.evicted key now = none ∧
      (self.expire now).entries.get? key = none) ∨
    ∃ room : RateLimiter κ, self.allow key now = room.attempt key now ∧
      room.attemptsPerWindow = self.attemptsPerWindow ∧
      room.entries.get? key = (self.expire now).entries.get? key ∧
      ∀ other, room.entries.get? other =
        if self.evicted key now = some other then none else (self.expire now).entries.get? other := by
  unfold allow evicted
  by_cases hfull : (self.expire now).isFullFor key = true
  · rw [if_pos hfull, if_pos hfull]
    have hkey := (isFullFor_eq_true hfull).2
    cases holdest : (self.expire now).oldest with
    | none => exact .inl ⟨rfl, rfl, hkey⟩
    | some oldest =>
      obtain ⟨window, hwindow, -⟩ := oldest_eq_some holdest
      have hne : key ≠ oldest := fun heq => by
        rw [heq, hwindow] at hkey
        cases hkey
      refine .inr ⟨_, rfl, rfl, KeyedMap.get?_erase_ne _ hne, fun other => ?_⟩
      by_cases hother : oldest = other
      · rw [if_pos (congrArg some hother), ← hother]
        exact KeyedMap.get?_erase_self _ _
      · rw [if_neg fun heq => hother (Option.some.inj heq)]
        exact KeyedMap.get?_erase_ne _ (Ne.symm hother)
  · rw [if_neg hfull, if_neg hfull]
    exact .inr ⟨_, rfl, rfl, rfl, fun other => (if_neg (Option.some_ne_none other).symm).symm⟩

/-- A key that is dropped had attempts left, and no such key was seen before it. -/
theorem evicted_eq_some (h : self.evicted key now = some other) :
    ∃ window, (self.expire now).entries.get? other = some window ∧
      window.attempts < self.attemptsPerWindow ∧
      ∀ third found, (self.expire now).entries.get? third = some found →
        found.attempts < self.attemptsPerWindow → window.lastSeenAt ≤ found.lastSeenAt := by
  unfold evicted at h
  split at h
  · exact oldest_eq_some h
  · cases h

/-- A key is turned away without a window only by a full map of exhausted windows. -/
theorem exhausted_of_allow_eq_none (h : (self.allow key now).1.entries.get? key = none) :
    maxRateLimitKeys ≤ (self.expire now).entries.size ∧
      ∀ other window, (self.expire now).entries.get? other = some window →
        ¬window.attempts < self.attemptsPerWindow := by
  have hattempt (room : RateLimiter κ) : (room.attempt key now).1.entries.get? key ≠ none := by
    obtain ⟨window, hwindow, -⟩ := attempt_self room key now
    rw [hwindow]
    exact Option.some_ne_none window
  unfold allow at h
  by_cases hfull : (self.expire now).isFullFor key = true
  · rw [if_pos hfull] at h
    cases holdest : (self.expire now).oldest with
    | none => exact ⟨(isFullFor_eq_true hfull).1, fun other window => oldest_eq_none holdest⟩
    | some oldest =>
      rw [holdest] at h
      exact absurd h (hattempt _)
  · rw [if_neg hfull] at h
    exact absurd h (hattempt _)

theorem allow_attemptsPerWindow :
    (self.allow key now).1.attemptsPerWindow = self.attemptsPerWindow := by
  rcases allow_cases self key now with ⟨heq, -⟩ | ⟨room, heq, hlimit, -⟩
  · rw [heq]
    rfl
  · rw [heq, attempt_attemptsPerWindow, hlimit]

/-- What a call does to the windows of other keys. -/
theorem get?_allow_ne (h : other ≠ key) : (self.allow key now).1.entries.get? other =
    if self.evicted key now = some other then none else (self.expire now).entries.get? other := by
  rcases allow_cases self key now with ⟨heq, hevicted, -⟩ | ⟨room, heq, -, -, hroom⟩
  · rw [heq, hevicted, if_neg (Option.some_ne_none other).symm]
  · rw [heq, get?_attempt_ne h, hroom other]

/-- A call does not drop its own key. -/
theorem evicted_ne_self : self.evicted key now ≠ some key := fun h => by
  rcases allow_cases self key now with ⟨-, hevicted, -⟩ | ⟨room, -, -, hkey, hroom⟩
  · rw [hevicted] at h
    cases h
  · obtain ⟨window, hwindow, -⟩ := evicted_eq_some h
    have hnone := hroom key
    rw [hkey, if_pos h, hwindow] at hnone
    cases hnone

/-- What a call does to the window of its key. -/
theorem allow_self (self : RateLimiter κ) (key : κ) (now : ℤ) :
    ((self.allow key now).2 = false ∧ (self.allow key now).1.entries.get? key = none ∧
      (self.expire now).entries.get? key = none) ∨
    ∃ window, (self.allow key now).1.entries.get? key = some window ∧
      window.startedAt = ((self.expire now).windowOf key now).startedAt ∧ window.lastSeenAt = now ∧
      ((self.allow key now).2 = false ∧ self.attemptsPerWindow ≤ window.attempts ∧
          window.attempts = ((self.expire now).windowOf key now).attempts ∨
        (self.allow key now).2 = true ∧
          ((self.expire now).windowOf key now).attempts < self.attemptsPerWindow ∧
          window.attempts.toNat = ((self.expire now).windowOf key now).attempts.toNat + 1) := by
  rcases allow_cases self key now with ⟨heq, -, hkey⟩ | ⟨room, heq, hlimit, hkey, -⟩
  · rw [heq]
    exact .inl ⟨rfl, hkey, hkey⟩
  · have hwindow : room.windowOf key now = (self.expire now).windowOf key now := by
      rw [windowOf, windowOf, hkey]
    rw [heq, ← hlimit, ← hwindow]
    exact .inr (attempt_self room key now)

/-- The map never outgrows its bound. -/
theorem size_allow_le (h : self.entries.size ≤ maxRateLimitKeys) :
    (self.allow key now).1.entries.size ≤ maxRateLimitKeys := by
  have hexpire : (self.expire now).entries.size ≤ maxRateLimitKeys :=
    (KeyedMap.size_retain_le _ _).trans h
  have hattempt (room : RateLimiter κ) (hroom : room.entries.size < maxRateLimitKeys ∨
      (room.entries.get? key).isSome = true ∧ room.entries.size ≤ maxRateLimitKeys) :
      (room.attempt key now).1.entries.size ≤ maxRateLimitKeys := by
    have hinsert (window : AttemptWindow) :
        (room.entries.insert key window).size ≤ maxRateLimitKeys := by
      rcases hroom with hlt | ⟨hsome, hle⟩
      · rw [KeyedMap.size_insert]
        exact (Nat.succ_le_succ (KeyedMap.size_erase_le _ _)).trans hlt
      · obtain ⟨found, hfound⟩ := Option.isSome_iff_exists.mp hsome
        rwa [KeyedMap.size_insert_of_some hfound]
    unfold attempt
    dsimp only
    split <;> exact hinsert _
  unfold allow
  split
  · cases holdest : (self.expire now).oldest with
    | none => exact hexpire
    | some oldest =>
      obtain ⟨window, hwindow, -⟩ := oldest_eq_some holdest
      refine hattempt _ (.inl ?_)
      have hmem := KeyedMap.get?_isSome.mp (Option.isSome_of_eq_some hwindow)
      exact (KeyedMap.size_erase_of_mem hmem).trans_le hexpire
  · rename_i hfull
    refine hattempt _ ?_
    rw [isFullFor, Bool.and_eq_true, not_and_or, decide_eq_true_eq, decide_eq_true_eq, not_not,
      Nat.not_le] at hfull
    exact hfull.imp_right fun hkey => ⟨KeyedMap.get?_isSome.mpr hkey, hexpire⟩

end RateLimiter

end Crabinet.Auth
