import Crabinet.Library.Ranking
import Mathlib.Data.Prod.Lex

/-!
# The session store

A table of sessions with unique keys. A sign-in replaces the session it was made from,
cleans up what has expired, and makes room for one more session under both caps. Times are
seconds; clock readings are far from the bounds of their type.
-/

namespace Crabinet.Auth

open Crabinet.Library

/-- A row of the session table. -/
structure Session (κ : Type) where
  key : κ
  username : String
  createdAt : ℤ
  lastSeenAt : ℤ
  expiresAt : ℤ
deriving DecidableEq

variable {κ : Type} [LinearOrder κ]

theorem lawfulBEq_key : LawfulBEq κ := inferInstance

attribute [local instance] lawfulBEq_key

/-- The order of the cleanup: the most recently seen first, then the newest, then by key. -/
def Session.rank (session : Session κ) : ℤ ×ₗ (ℤ ×ₗ κ) :=
  toLex (session.lastSeenAt, toLex (session.createdAt, session.key))

/-- `SessionStore`. -/
structure SessionStore (κ : Type) where
  rows : List (Session κ)
  unique : (rows.map Session.key).Nodup

/-- `SessionRotation`. -/
structure SessionRotation (κ : Type) where
  oldKey : Option κ
  newKey : κ
  username : String
  now : ℤ
  expiresAt : ℤ
  idleCutoff : ℤ
  maxSessionsPerUser : ℕ
  maxSessionsTotal : ℕ

namespace SessionRotation

variable (rotation : SessionRotation κ)

/-- The new row. -/
def session : Session κ :=
  ⟨rotation.newKey, rotation.username, rotation.now, rotation.now, rotation.expiresAt⟩

/-- Whether the expiry cleanup removes a row. -/
def isExpired (row : Session κ) : Bool :=
  row.expiresAt ≤ rotation.now || row.lastSeenAt ≤ rotation.idleCutoff

/-- The rows that are neither rotated away nor expired. -/
def remaining (rows : List (Session κ)) : List (Session κ) :=
  (rows.filter fun row => some row.key != rotation.oldKey).filter fun row => !rotation.isExpired row

/-- The user's rows that remain. -/
def ofUser (rows : List (Session κ)) : List (Session κ) :=
  (rotation.remaining rows).filter fun row => row.username == rotation.username

/-- Delete the rows with the keys of others. -/
def without (rows removed : List (Session κ)) : List (Session κ) :=
  rows.filter fun row => row.key ∉ removed.map Session.key

/-- The rows after the user's own have made room. -/
def underUserCap (rows : List (Session κ)) : List (Session κ) :=
  without (rotation.remaining rows)
    (beyond Session.rank (rotation.maxSessionsPerUser - 1) (rotation.ofUser rows))

/-- The rows after all have made room. -/
def underBothCaps (rows : List (Session κ)) : List (Session κ) :=
  without (rotation.underUserCap rows)
    (beyond Session.rank (rotation.maxSessionsTotal - 1) (rotation.underUserCap rows))

theorem without_sublist (rows removed : List (Session κ)) : (without rows removed).Sublist rows :=
  List.filter_sublist

theorem underBothCaps_sublist (rows : List (Session κ)) : (rotation.underBothCaps rows).Sublist rows :=
  (without_sublist _ _).trans ((without_sublist _ _).trans
    (List.filter_sublist.trans List.filter_sublist))

end SessionRotation

namespace SessionStore

/-- The empty store. -/
def empty : SessionStore κ := ⟨[], List.nodup_nil⟩

/-- `lookup`. -/
def lookup (store : SessionStore κ) (key : κ) : Option (Session κ) :=
  store.rows.find? fun row => row.key = key

/-- `delete`. -/
def delete (store : SessionStore κ) (key : κ) : SessionStore κ where
  rows := store.rows.filter fun row => row.key ≠ key
  unique := store.unique.sublist (List.filter_sublist.map _)

/-- The row with a later time of use, if it is the one of the key. -/
def seen (key : κ) (now : ℤ) (row : Session κ) : Session κ :=
  if row.key = key then { row with lastSeenAt := now } else row

theorem key_seen (key : κ) (now : ℤ) (row : Session κ) : (seen key now row).key = row.key := by
  unfold seen
  split <;> rfl

/-- `touch`. -/
def touch (store : SessionStore κ) (key : κ) (now : ℤ) : SessionStore κ where
  rows := store.rows.map (seen key now)
  unique := by
    rw [List.map_map, show Session.key ∘ seen key now = Session.key from funext (key_seen key now)]
    exact store.unique

/-- `rotate`; none where the new key is in use, and the transaction is rolled back. -/
def rotate (store : SessionStore κ) (rotation : SessionRotation κ) : Option (SessionStore κ) :=
  if h : rotation.newKey ∈ (rotation.underBothCaps store.rows).map Session.key then none
  else
    some
      { rows := rotation.session :: rotation.underBothCaps store.rows
        unique := List.nodup_cons.mpr
          ⟨h, store.unique.sublist ((rotation.underBothCaps_sublist store.rows).map _)⟩ }

/-! ### What the operations do to the rows -/

variable {store next : SessionStore κ} {rotation : SessionRotation κ} {row other : Session κ}
  {key : κ} {now : ℤ}

omit [LinearOrder κ] in
/-- A key has one row. -/
theorem eq_of_key (hrow : row ∈ store.rows) (hother : other ∈ store.rows) (h : row.key = other.key) :
    row = other :=
  List.inj_on_of_nodup_map store.unique hrow hother h

theorem lookup_eq_some : store.lookup key = some row ↔ row ∈ store.rows ∧ row.key = key := by
  unfold lookup
  constructor
  · intro h
    exact ⟨List.mem_of_find?_eq_some h, by simpa using List.find?_some h⟩
  · rintro ⟨hmem, rfl⟩
    obtain ⟨found, hfound⟩ := Option.isSome_iff_exists.mp
      (List.find?_isSome.mpr ⟨row, hmem, by simp⟩ :
        (store.rows.find? fun other => other.key = row.key).isSome = true)
    have hkey : found.key = row.key := by simpa using List.find?_some hfound
    rw [hfound, eq_of_key (List.mem_of_find?_eq_some hfound) hmem hkey]

theorem mem_delete : row ∈ (store.delete key).rows ↔ row ∈ store.rows ∧ row.key ≠ key := by
  simp [delete]

omit [LinearOrder κ] in
/-- The cleanup's order tells the rows of a store apart. -/
theorem nodup_rank {rows : List (Session κ)} (h : rows.Sublist store.rows) :
    (rows.map Session.rank).Nodup := by
  refine (List.nodup_map_iff_inj_on ((store.unique.of_map _).sublist h)).mpr ?_
  intro row hrow other hother hrank
  refine eq_of_key (h.subset hrow) (h.subset hother) ?_
  have hpair := congrArg (fun rank => (ofLex (ofLex rank).2).2) hrank
  exact hpair

/-- Deleting by key deletes the rows themselves. -/
theorem mem_without {rows removed : List (Session κ)} (hrows : rows.Sublist store.rows)
    (hremoved : removed ⊆ rows) : row ∈ SessionRotation.without rows removed ↔
      row ∈ rows ∧ row ∉ removed := by
  unfold SessionRotation.without
  rw [List.mem_filter, decide_eq_true_eq]
  refine and_congr_right fun hrow => not_congr ⟨fun hkey => ?_, fun hmem => List.mem_map_of_mem hmem⟩
  obtain ⟨found, hfound, hkey⟩ := List.mem_map.mp hkey
  rw [eq_of_key (hrows.subset hrow) (hrows.subset (hremoved hfound)) hkey.symm]
  exact hfound

/-- The number of a user's sessions. -/
def countOf (username : String) (rows : List (Session κ)) : ℕ :=
  rows.countP fun row => row.username == username

/-- Enough sessions of a pool were seen after a session of it. -/
def LeastRecentlySeen (kept : ℕ) (pool : List (Session κ)) (row : Session κ) : Prop :=
  row ∈ pool ∧ kept ≤ pool.countP fun other => row.rank < other.rank

theorem remaining_sublist (rotation : SessionRotation κ) (rows : List (Session κ)) :
    (rotation.remaining rows).Sublist rows := List.filter_sublist.trans List.filter_sublist

theorem ofUser_sublist (rotation : SessionRotation κ) (rows : List (Session κ)) :
    (rotation.ofUser rows).Sublist (rotation.remaining rows) := List.filter_sublist

theorem underUserCap_sublist (rotation : SessionRotation κ) (rows : List (Session κ)) :
    (rotation.underUserCap rows).Sublist (rotation.remaining rows) :=
  SessionRotation.without_sublist _ _

/-- What a row must be to remain. -/
theorem mem_remaining : row ∈ rotation.remaining store.rows ↔
    row ∈ store.rows ∧ some row.key ≠ rotation.oldKey ∧ rotation.isExpired row = false := by
  rw [SessionRotation.remaining, List.mem_filter, List.mem_filter, and_assoc]
  simp

/-- A remaining row stays unless it is among the least recently seen of its user or of all. -/
theorem mem_underBothCaps : row ∈ rotation.underBothCaps store.rows ↔
    row ∈ rotation.remaining store.rows ∧
      ¬LeastRecentlySeen (rotation.maxSessionsPerUser - 1) (rotation.ofUser store.rows) row ∧
      ¬LeastRecentlySeen (rotation.maxSessionsTotal - 1) (rotation.underUserCap store.rows) row := by
  have hremaining := remaining_sublist rotation store.rows
  have huser := (ofUser_sublist rotation store.rows).trans hremaining
  have hcap := (underUserCap_sublist rotation store.rows).trans hremaining
  have hbeyond : beyond Session.rank (rotation.maxSessionsPerUser - 1) (rotation.ofUser store.rows) ⊆
      rotation.remaining store.rows :=
    fun found hfound => (ofUser_sublist rotation store.rows).subset (beyond_subset _ _ hfound)
  have hfirst : row ∈ rotation.underUserCap store.rows ↔ row ∈ rotation.remaining store.rows ∧
      ¬LeastRecentlySeen (rotation.maxSessionsPerUser - 1) (rotation.ofUser store.rows) row := by
    rw [SessionRotation.underUserCap, mem_without hremaining hbeyond, mem_beyond (nodup_rank huser),
      LeastRecentlySeen]
  rw [SessionRotation.underBothCaps, mem_without hcap (beyond_subset _ _),
    mem_beyond (nodup_rank hcap), ← LeastRecentlySeen, hfirst, and_assoc]

theorem rotate_eq_some (h : store.rotate rotation = some next) :
    next.rows = rotation.session :: rotation.underBothCaps store.rows := by
  unfold rotate at h
  split at h
  · cases h
  · obtain rfl := Option.some.inj h
    rfl

/-- With distinct keys, deleting by key is deleting. -/
theorem without_eq_filter {rows removed : List (Session κ)} (hrows : rows.Sublist store.rows)
    (hremoved : removed ⊆ rows) :
    SessionRotation.without rows removed = rows.filter fun row => row ∉ removed := by
  refine List.filter_congr fun row hrow => decide_eq_decide.mpr ?_
  have hmem : row ∈ SessionRotation.without rows removed ↔ row ∈ rows ∧ row ∉ removed :=
    mem_without hrows hremoved
  unfold SessionRotation.without at hmem
  rw [List.mem_filter, decide_eq_true_eq] at hmem
  exact ⟨fun h => (hmem.mp ⟨hrow, h⟩).2, fun h => (hmem.mpr ⟨hrow, h⟩).2⟩

theorem length_underBothCaps_le :
    (rotation.underBothCaps store.rows).length ≤ rotation.maxSessionsTotal - 1 := by
  have hcap := (underUserCap_sublist rotation store.rows).trans (remaining_sublist rotation store.rows)
  rw [SessionRotation.underBothCaps, without_eq_filter hcap (beyond_subset _ _)]
  exact length_filter_not_beyond _ _

theorem countOf_underBothCaps_le :
    countOf rotation.username (rotation.underBothCaps store.rows) ≤ rotation.maxSessionsPerUser - 1 := by
  have huser := (ofUser_sublist rotation store.rows).trans (remaining_sublist rotation store.rows)
  refine Nat.le_trans ((SessionRotation.without_sublist _ _).countP_le) ?_
  rw [List.countP_eq_length_filter, SessionRotation.underUserCap, SessionRotation.without,
    List.filter_comm]
  change (SessionRotation.without (rotation.ofUser store.rows) _).length ≤ _
  rw [without_eq_filter huser (beyond_subset _ _)]
  exact length_filter_not_beyond _ _

/-- The caps. -/
structure WithinCaps (perUser total : ℕ) (store : SessionStore κ) : Prop where
  user : ∀ username, countOf username store.rows ≤ perUser
  all : store.rows.length ≤ total

/-- Deleting and touching keep the caps. -/
theorem WithinCaps.delete {perUser total : ℕ} (h : store.WithinCaps perUser total) (key : κ) :
    (store.delete key).WithinCaps perUser total :=
  ⟨fun username => Nat.le_trans (List.filter_sublist.countP_le) (h.user username),
    Nat.le_trans (List.length_filter_le _ _) h.all⟩

theorem WithinCaps.touch {perUser total : ℕ} (h : store.WithinCaps perUser total) (key : κ) (now : ℤ) :
    (store.touch key now).WithinCaps perUser total := by
  refine ⟨fun username => ?_, ?_⟩
  · have husername : ((fun row : Session κ => row.username == username) ∘ seen key now) =
        fun row => row.username == username := by
      funext row
      simp only [Function.comp, seen]
      split <;> rfl
    rw [countOf, SessionStore.touch, List.countP_map, husername]
    exact h.user username
  · rw [SessionStore.touch, List.length_map]
    exact h.all

/-- A rotation makes room for the session that it adds. -/
theorem WithinCaps.rotate {perUser total : ℕ} (h : store.WithinCaps perUser total)
    (hperUser : 1 ≤ perUser) (htotal : 1 ≤ total) (huserCap : rotation.maxSessionsPerUser = perUser)
    (htotalCap : rotation.maxSessionsTotal = total) (hrotate : store.rotate rotation = some next) :
    next.WithinCaps perUser total := by
  have hrows := rotate_eq_some hrotate
  have huser : countOf rotation.username (rotation.underBothCaps store.rows) ≤
      rotation.maxSessionsPerUser - 1 := countOf_underBothCaps_le
  have hall : (rotation.underBothCaps store.rows).length ≤ rotation.maxSessionsTotal - 1 :=
    length_underBothCaps_le
  refine ⟨fun username => ?_, ?_⟩
  · rw [hrows, countOf, List.countP_cons]
    by_cases hsame : rotation.username = username
    · subst hsame
      unfold countOf at huser
      split <;> omega
    · have hother : (rotation.session.username == username) = false := by
        simpa [SessionRotation.session] using hsame
      rw [hother]
      exact Nat.le_trans ((rotation.underBothCaps_sublist store.rows).countP_le) (h.user username)
  · rw [hrows, List.length_cons]
    omega

end SessionStore

end Crabinet.Auth
