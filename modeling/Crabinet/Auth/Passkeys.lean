import Crabinet.Filesystem.PathText
import Crabinet.Library.KeyedMap
import Crabinet.Library.Text
import Crabinet.Tokens.Separation
import Mathlib.Data.List.MinMax

/-!
# Passkeys

Pending ceremonies, each under a random identifier until it is taken or makes room for another,
and the table of credentials. The library that makes and verifies challenges is an argument.
-/

namespace Crabinet.Auth

open Crabinet.Library

/-- `TOKEN_BYTES`. -/
def tokenBytes : ℕ := 32

/-- `REGISTRATION_LIFETIME`, in nanoseconds. -/
def registrationLifetime : ℕ := 300 * 1000000000

/-- `LOGIN_LIFETIME`, in nanoseconds. -/
def loginLifetime : ℕ := 120 * 1000000000

/-- `MAX_PENDING_LOGINS`. -/
def maxPendingLogins : ℕ := 4096

/-- `MAX_PENDING_REGISTRATIONS_PER_USER`. -/
def maxPendingRegistrationsPerUser : ℕ := 4

/-- `REGISTRATION_MAX_SESSION_AGE_SECONDS`. -/
def registrationMaxSessionAgeSeconds : ℤ := 600

/-- `MAX_PASSKEYS_PER_USER`. -/
def maxPasskeysPerUser : ℕ := 20

/-- `MAX_PASSKEY_NAME_BYTES`. -/
def maxPasskeyNameBytes : ℕ := 80

/-! ### Pending ceremonies -/

/-- `Pending`. -/
structure Pending (τ : Type) where
  expires : ℕ
  state : τ

/-- `Registration`. -/
structure Registration (κ ρ : Type) where
  username : String
  sessionKey : κ
  name : String
  state : ρ

/-- `flow_id`, of its random bytes. -/
def flowId (random : Vector UInt8 32) : String := String.ofList (Tokens.hex random.toList)

section Flows

variable {τ : Type}

/-- A full map loses the oldest of its candidates. -/
def makeRoomFor (limit : ℕ) (mine : Pending τ → Bool) (pending : KeyedMap String (Pending τ)) :
    KeyedMap String (Pending τ) :=
  let candidates := pending.entries.filter fun entry => mine entry.2
  if limit ≤ candidates.length then
    match candidates.argmin fun entry => entry.2.expires with
    | some oldest => pending.erase oldest.1
    | none => pending
  else pending

/-- A ceremony becomes pending, where there are random bytes for its identifier. -/
def insertPending (limit : ℕ) (mine : Pending τ → Bool) (lifetime : ℕ)
    (pending : KeyedMap String (Pending τ)) (state : τ) (now : ℕ)
    (random : Option (Vector UInt8 32)) : Option String × KeyedMap String (Pending τ) :=
  let pending := makeRoomFor limit mine (pending.retain fun _ flow => flow.expires > now)
  match random with
  | none => (none, pending)
  | some random => (some (flowId random), pending.insert (flowId random) ⟨now + lifetime, state⟩)

/-- `take`. -/
def take (pending : KeyedMap String (Pending τ)) (id : String) (now : ℕ) :
    Option τ × KeyedMap String (Pending τ) :=
  if id.utf8ByteSize ≠ tokenBytes * 2 ∨ !id.toList.all Filesystem.isAsciiHexdigit then (none, pending)
  else
    match pending.get? id with
    | none => (none, pending)
    | some flow => (if flow.expires ≤ now then none else some flow.state, pending.erase id)

/-- The ceremonies among the candidates. -/
def countPending (mine : Pending τ → Bool) (pending : KeyedMap String (Pending τ)) : ℕ :=
  pending.entries.countP fun entry => mine entry.2

end Flows

/-- `insert_registration`. -/
def insertRegistration {κ ρ : Type} (pending : KeyedMap String (Pending (Registration κ ρ)))
    (registration : Registration κ ρ) (now : ℕ) (random : Option (Vector UInt8 32)) :
    Option String × KeyedMap String (Pending (Registration κ ρ)) :=
  insertPending maxPendingRegistrationsPerUser
    (fun flow => flow.state.username == registration.username) registrationLifetime pending
    registration now random

/-- `insert_login`. -/
def insertLogin {α : Type} (pending : KeyedMap String (Pending α)) (login : α) (now : ℕ)
    (random : Option (Vector UInt8 32)) : Option String × KeyedMap String (Pending α) :=
  insertPending maxPendingLogins (fun _ => true) loginLifetime pending login now random

section Flows

variable {τ : Type} {pending : KeyedMap String (Pending τ)} {limit lifetime now : ℕ}
  {mine : Pending τ → Bool} {state : τ} {random : Option (Vector UInt8 32)} {id : String}
  {flow : Pending τ}

theorem countPending_le_of_sublist {other : KeyedMap String (Pending τ)}
    (h : other.entries.Sublist pending.entries) : countPending mine other ≤ countPending mine pending :=
  h.countP_le

/-- What was the oldest candidate is one. -/
theorem mem_of_oldest {oldest : String × Pending τ}
    (h : (pending.entries.filter fun entry => mine entry.2).argmin (fun entry => entry.2.expires) =
      some oldest) : oldest ∈ pending.entries ∧ mine oldest.2 = true :=
  List.mem_filter.mp (List.argmin_mem h)

/-- Making room removes nothing but candidates. -/
theorem get?_makeRoomFor_of_not (h : pending.get? id = some flow) (hmine : mine flow = false) :
    (makeRoomFor limit mine pending).get? id = some flow := by
  unfold makeRoomFor
  dsimp only
  split
  · split
    · rename_i oldest holdest
      obtain ⟨hmem, htrue⟩ := mem_of_oldest holdest
      have hne : id ≠ oldest.1 := by
        rintro rfl
        rw [KeyedMap.get?_eq_some.mpr hmem] at h
        rw [Option.some.inj h, hmine] at htrue
        cases htrue
      rw [KeyedMap.get?_erase_ne _ hne]
      exact h
    · exact h
  · exact h

theorem makeRoomFor_sublist : (makeRoomFor limit mine pending).entries.Sublist pending.entries := by
  unfold makeRoomFor
  dsimp only
  split
  · split
    · exact List.filter_sublist
    · exact List.Sublist.refl _
  · exact List.Sublist.refl _

/-- After making room there is room for one. -/
theorem countPending_makeRoomFor (hlimit : 0 < limit) (h : countPending mine pending ≤ limit) :
    countPending mine (makeRoomFor limit mine pending) < limit := by
  unfold countPending at h
  rw [List.countP_eq_length_filter] at h
  unfold makeRoomFor
  dsimp only
  split
  · rename_i hfull
    split
    · rename_i oldest holdest
      obtain ⟨hmem, htrue⟩ := mem_of_oldest holdest
      have hperm := KeyedMap.entries_perm_of_get? (KeyedMap.get?_eq_some.mpr hmem)
      have hcount : countPending mine pending =
          countPending mine (pending.erase oldest.1) + 1 := by
        unfold countPending
        rw [← hperm.countP_eq]
        exact List.countP_cons_of_pos htrue
      have hall : countPending mine pending ≤ limit := by
        rwa [countPending, List.countP_eq_length_filter]
      omega
    · rename_i hnone
      rw [List.argmin_eq_none] at hnone
      rw [hnone, List.length_nil] at hfull
      omega
  · rename_i hroom
    rw [countPending, List.countP_eq_length_filter]
    omega

theorem retain_sublist (keep : String → Pending τ → Bool) :
    (pending.retain keep).entries.Sublist pending.entries := List.filter_sublist

/-- A new ceremony keeps within the limit. -/
theorem countPending_insertPending_le (hlimit : 0 < limit) (h : countPending mine pending ≤ limit) :
    countPending mine (insertPending limit mine lifetime pending state now random).2 ≤ limit := by
  have hroom := countPending_makeRoomFor hlimit
    (Nat.le_trans (countPending_le_of_sublist (retain_sublist fun _ flow => flow.expires > now)) h)
  unfold insertPending
  dsimp only
  split
  · exact hroom.le
  · rename_i random
    have herase : countPending mine ((makeRoomFor limit mine (pending.retain fun _ flow =>
        flow.expires > now)).erase (flowId random)) ≤ countPending mine (makeRoomFor limit mine
          (pending.retain fun _ flow => flow.expires > now)) :=
      countPending_le_of_sublist (retain_sublist _)
    unfold countPending at herase hroom ⊢
    rw [KeyedMap.insert, List.countP_cons]
    split <;> omega

/-- A new ceremony does not add to the ceremonies it is not one of. -/
theorem countPending_insertPending_of_not {other : Pending τ → Bool}
    (hother : other ⟨now + lifetime, state⟩ = false) :
    countPending other (insertPending limit mine lifetime pending state now random).2 ≤
      countPending other pending := by
  have hsublist : (makeRoomFor limit mine (pending.retain fun _ flow =>
      flow.expires > now)).entries.Sublist pending.entries :=
    makeRoomFor_sublist.trans (retain_sublist _)
  unfold insertPending
  dsimp only
  split
  · exact countPending_le_of_sublist hsublist
  · rename_i random
    unfold countPending
    rw [KeyedMap.insert, List.countP_cons_of_neg (by simpa using hother)]
    exact (List.filter_sublist.trans hsublist).countP_le

/-- The identifier of a new ceremony is made of its random bytes. -/
theorem insertPending_fst :
    (insertPending limit mine lifetime pending state now random).1 = random.map flowId := by
  cases random <;> rfl

/-- After an insertion a ceremony is the new one, or was there before. -/
theorem get?_of_insertPending
    (h : (insertPending limit mine lifetime pending state now random).2.get? id = some flow) :
    ((insertPending limit mine lifetime pending state now random).1 = some id ∧
        flow = ⟨now + lifetime, state⟩) ∨
      pending.get? id = some flow := by
  have hold : ∀ {id flow}, (makeRoomFor limit mine (pending.retain fun _ flow =>
      flow.expires > now)).get? id = some flow → pending.get? id = some flow := fun hget =>
    KeyedMap.get?_eq_some.mpr
      ((makeRoomFor_sublist.trans (retain_sublist _)).subset (KeyedMap.get?_eq_some.mp hget))
  unfold insertPending at h ⊢
  dsimp only at h ⊢
  split at h
  · exact .inr (hold h)
  · rename_i random
    by_cases hid : id = flowId random
    · subst hid
      rw [KeyedMap.get?_insert_self] at h
      exact .inl ⟨rfl, (Option.some.inj h).symm⟩
    · rw [KeyedMap.get?_insert_ne _ hid] at h
      exact .inr (hold h)

/-- An insertion removes no ceremony that is still good and not a candidate. -/
theorem get?_insertPending_of_not (h : pending.get? id = some flow) (hmine : mine flow = false)
    (hexpires : now < flow.expires)
    (hid : (insertPending limit mine lifetime pending state now random).1 ≠ some id) :
    (insertPending limit mine lifetime pending state now random).2.get? id = some flow := by
  have hkept : (pending.retain fun _ flow => flow.expires > now).get? id = some flow := by
    rw [KeyedMap.get?_retain, h, Option.filter_some, if_pos (by simpa using hexpires)]
  have hroom : (makeRoomFor limit mine (pending.retain fun _ flow => flow.expires > now)).get? id =
      some flow := get?_makeRoomFor_of_not hkept hmine
  unfold insertPending at hid ⊢
  dsimp only at hid ⊢
  split
  · exact hroom
  · rename_i random
    have hne : id ≠ flowId random := fun heq => hid (congrArg some heq.symm)
    rw [KeyedMap.get?_insert_ne _ hne]
    exact hroom

/-- A ceremony that is taken was pending and had not expired, and is gone. -/
theorem take_eq_some (h : (take pending id now).1 = some state) :
    ∃ flow, pending.get? id = some flow ∧ flow.state = state ∧ now < flow.expires ∧
      (take pending id now).2 = pending.erase id := by
  unfold take at h ⊢
  split at h
  · cases h
  · rename_i hvalid
    rw [if_neg hvalid]
    split at h
    · cases h
    · rename_i flow hflow
      obtain ⟨hexpires, hstate⟩ := Option.ite_none_left_eq_some.mp h
      exact ⟨flow, hflow, Option.some.inj hstate, not_le.mp hexpires, rfl⟩

theorem take_sublist : (take pending id now).2.entries.Sublist pending.entries := by
  unfold take
  split
  · exact List.Sublist.refl _
  · split
    · exact List.Sublist.refl _
    · exact List.filter_sublist

end Flows

/-- `validated_name`. -/
def validatedName (value : String) : Option String :=
  let name := trim value.toList
  if name.isEmpty || (String.ofList name).utf8ByteSize > maxPasskeyNameBytes ||
      name.any Filesystem.isControl then none
  else some (String.ofList name)

/-- Whether a path names a passkey by an identifier that it can have. -/
def isPasskeyId (id : String) : Bool :=
  id.utf8ByteSize == 32 && id.toList.all Filesystem.isAsciiHexdigit

/-! ### The table -/

/-- A row of the table of passkeys. -/
structure PasskeyRow (π : Type) where
  id : String
  username : String
  credentialId : List UInt8
  name : String
  credential : π
  createdAt : ℤ
  lastUsedAt : Option ℤ

/-- The passkeys, and the handles of their users. -/
structure PasskeyStore (π : Type) where
  rows : List (PasskeyRow π)
  handles : KeyedMap String (List UInt8)
  uniqueId : (rows.map PasskeyRow.id).Nodup
  uniqueCredential : (rows.map PasskeyRow.credentialId).Nodup

namespace PasskeyStore

variable {π : Type}

/-- The number of a user's passkeys. -/
def countOf (store : PasskeyStore π) (username : String) : ℕ :=
  store.rows.countP fun row => row.username == username

/-- `passkey_user_handle`; none where a new handle is another user's. -/
def passkeyUserHandle (store : PasskeyStore π) (username : String) (candidate : List UInt8) :
    Option (List UInt8) × PasskeyStore π :=
  match store.handles.get? username with
  | some handle => (some handle, store)
  | none =>
    if store.handles.entries.any fun entry => entry.2 == candidate then (none, store)
    else (some candidate, { store with handles := store.handles.insert username candidate })

/-- `passkeys_for`. -/
def passkeysFor (store : PasskeyStore π) (username : String) : List π :=
  (store.rows.filter fun row => row.username == username).map PasskeyRow.credential

/-- `passkey_for_discoverable_login`. -/
def passkeyForDiscoverableLogin (store : PasskeyStore π) (handle credentialId : List UInt8) :
    Option (String × π) :=
  (store.rows.find? fun row =>
    decide (store.handles.get? row.username = some handle) && row.credentialId == credentialId).map
      fun row => (row.username, row.credential)

/-- `add_passkey`; none for a user with all the passkeys that are allowed, or for an identifier or
a credential that has a row. -/
def addPasskey (store : PasskeyStore π) (row : PasskeyRow π) : Option (PasskeyStore π) :=
  if maxPasskeysPerUser ≤ store.countOf row.username then none
  else if h : row.id ∈ store.rows.map PasskeyRow.id ∨
      row.credentialId ∈ store.rows.map PasskeyRow.credentialId then none
  else
    some
      { store with
        rows := row :: store.rows
        uniqueId := List.nodup_cons.mpr ⟨fun hmem => h (.inl hmem), store.uniqueId⟩
        uniqueCredential := List.nodup_cons.mpr ⟨fun hmem => h (.inr hmem), store.uniqueCredential⟩ }

/-- Change rows, but not what tells them apart. -/
def update (store : PasskeyStore π) (change : PasskeyRow π → PasskeyRow π)
    (hid : ∀ row, (change row).id = row.id)
    (hcredential : ∀ row, (change row).credentialId = row.credentialId) : PasskeyStore π where
  rows := store.rows.map change
  handles := store.handles
  uniqueId := by
    rw [List.map_map, show PasskeyRow.id ∘ change = PasskeyRow.id from funext hid]
    exact store.uniqueId
  uniqueCredential := by
    rw [List.map_map, show PasskeyRow.credentialId ∘ change = PasskeyRow.credentialId from
      funext hcredential]
    exact store.uniqueCredential

/-- A row under a new name, if it is the one. -/
def renamed (username id name : String) (row : PasskeyRow π) : PasskeyRow π :=
  { row with name := if row.id = id ∧ row.username = username then name else row.name }

theorem id_renamed (username id name : String) (row : PasskeyRow π) :
    (renamed username id name row).id = row.id := rfl

theorem credentialId_renamed (username id name : String) (row : PasskeyRow π) :
    (renamed username id name row).credentialId = row.credentialId := rfl

theorem username_renamed (username id name : String) (row : PasskeyRow π) :
    (renamed username id name row).username = row.username := rfl

/-- `rename_passkey`. -/
def renamePasskey (store : PasskeyStore π) (username id name : String) : PasskeyStore π :=
  store.update (renamed username id name) (id_renamed username id name)
    (credentialId_renamed username id name)

/-- `remove_passkey`. -/
def removePasskey (store : PasskeyStore π) (username id : String) : PasskeyStore π where
  rows := store.rows.filter fun row => !(row.id == id && row.username == username)
  handles := store.handles
  uniqueId := store.uniqueId.sublist (List.filter_sublist.map _)
  uniqueCredential := store.uniqueCredential.sublist (List.filter_sublist.map _)

/-- The row of a user's credential. -/
def rowOf (store : PasskeyStore π) (username : String) (credentialId : List UInt8) :
    Option (PasskeyRow π) :=
  store.rows.find? fun row => row.credentialId == credentialId && row.username == username

/-- A row with the credential after its use, if it is the one. -/
def used (username : String) (credentialId : List UInt8) (credential : π) (now : ℤ)
    (row : PasskeyRow π) : PasskeyRow π :=
  let isOne := row.credentialId = credentialId ∧ row.username = username
  { row with
    credential := if isOne then credential else row.credential
    lastUsedAt := if isOne then some now else row.lastUsedAt }

theorem id_used (username : String) (credentialId : List UInt8) (credential : π) (now : ℤ)
    (row : PasskeyRow π) : (used username credentialId credential now row).id = row.id := rfl

theorem credentialId_used (username : String) (credentialId : List UInt8) (credential : π) (now : ℤ)
    (row : PasskeyRow π) :
    (used username credentialId credential now row).credentialId = row.credentialId := rfl

theorem username_used (username : String) (credentialId : List UInt8) (credential : π) (now : ℤ)
    (row : PasskeyRow π) : (used username credentialId credential now row).username = row.username :=
  rfl

/-- `update_passkey_after_login`, with the library's `update_credential` for the result; none where
it answers false. -/
def updatePasskeyAfterLogin (store : PasskeyStore π) (username : String) (credentialId : List UInt8)
    (updateCredential : π → Option π) (now : ℤ) : Option (PasskeyStore π) := do
  let row ← store.rowOf username credentialId
  let credential ← updateCredential row.credential
  return store.update (used username credentialId credential now)
    (id_used username credentialId credential now) (credentialId_used username credentialId credential now)

variable {store next : PasskeyStore π}

/-- Changed rows are of the same users. -/
theorem countOf_update {change : PasskeyRow π → PasskeyRow π}
    {hid : ∀ row, (change row).id = row.id}
    {hcredential : ∀ row, (change row).credentialId = row.credentialId}
    (husername : ∀ row, (change row).username = row.username) (username : String) :
    (store.update change hid hcredential).countOf username = store.countOf username := by
  rw [countOf, update, List.countP_map, countOf]
  refine List.countP_congr fun row _ => ?_
  simp [husername]

/-- No operation exceeds the number of passkeys of a user. -/
def WithinCap (store : PasskeyStore π) : Prop := ∀ username, store.countOf username ≤ maxPasskeysPerUser

theorem WithinCap.addPasskey (h : store.WithinCap) {row : PasskeyRow π}
    (hadd : store.addPasskey row = some next) : next.WithinCap := by
  intro username
  unfold PasskeyStore.addPasskey at hadd
  split at hadd
  · cases hadd
  · rename_i hroom
    split at hadd
    · cases hadd
    · obtain rfl := Option.some.inj hadd
      rw [countOf, List.countP_cons]
      have hcap := h username
      unfold countOf at hroom hcap
      split
      · rename_i hsame
        rw [beq_iff_eq.mp hsame] at hroom
        omega
      · exact hcap

theorem WithinCap.removePasskey (h : store.WithinCap) (username id : String) :
    (store.removePasskey username id).WithinCap := fun other =>
  Nat.le_trans (List.filter_sublist.countP_le) (h other)

theorem WithinCap.renamePasskey (h : store.WithinCap) (username id name : String) :
    (store.renamePasskey username id name).WithinCap := fun other => by
  have hcount : (store.renamePasskey username id name).countOf other = store.countOf other :=
    countOf_update (username_renamed username id name) other
  rw [hcount]
  exact h other

theorem WithinCap.updatePasskeyAfterLogin (h : store.WithinCap) {username : String}
    {credentialId : List UInt8} {updateCredential : π → Option π} {now : ℤ}
    (hupdate : store.updatePasskeyAfterLogin username credentialId updateCredential now = some next) :
    next.WithinCap := by
  obtain ⟨row, -, hupdate⟩ := Option.bind_eq_some_iff.mp hupdate
  obtain ⟨credential, -, hupdate⟩ := Option.bind_eq_some_iff.mp hupdate
  obtain rfl := Option.some.inj hupdate
  intro other
  have hcount : (store.update (used username credentialId credential now) (id_used _ _ _ _)
      (credentialId_used _ _ _ _)).countOf other = store.countOf other :=
    countOf_update (username_used username credentialId credential now) other
  rw [hcount]
  exact h other

theorem WithinCap.passkeyUserHandle (h : store.WithinCap) (username : String)
    (candidate : List UInt8) : (store.passkeyUserHandle username candidate).2.WithinCap := by
  unfold PasskeyStore.passkeyUserHandle
  split
  · exact h
  · split
    · exact h
    · exact h

/-- The users with their credentials. -/
def owners (store : PasskeyStore π) : List (String × List UInt8) :=
  store.rows.map fun row => (row.username, row.credentialId)

theorem owners_update {change : PasskeyRow π → PasskeyRow π} {hid : ∀ row, (change row).id = row.id}
    {hcredential : ∀ row, (change row).credentialId = row.credentialId}
    (husername : ∀ row, (change row).username = row.username) :
    (store.update change hid hcredential).owners = store.owners := by
  rw [owners, update, List.map_map, owners]
  refine List.map_congr_left fun row _ => ?_
  simp only [Function.comp_apply, husername, hcredential]

theorem owners_renamePasskey (store : PasskeyStore π) (username id name : String) :
    (store.renamePasskey username id name).owners = store.owners :=
  owners_update (username_renamed username id name)

theorem owners_removePasskey_subset (store : PasskeyStore π) (username id : String) :
    (store.removePasskey username id).owners ⊆ store.owners :=
  (List.filter_sublist.map _).subset

theorem owners_addPasskey {row : PasskeyRow π} (h : store.addPasskey row = some next) :
    next.owners = (row.username, row.credentialId) :: store.owners := by
  unfold addPasskey at h
  split at h
  · cases h
  · split at h
    · cases h
    · obtain rfl := Option.some.inj h
      rfl

theorem owners_updatePasskeyAfterLogin {username : String} {credentialId : List UInt8}
    {updateCredential : π → Option π} {now : ℤ}
    (h : store.updatePasskeyAfterLogin username credentialId updateCredential now = some next) :
    next.owners = store.owners := by
  obtain ⟨row, -, h⟩ := Option.bind_eq_some_iff.mp h
  obtain ⟨credential, -, h⟩ := Option.bind_eq_some_iff.mp h
  obtain rfl := Option.some.inj h
  exact owners_update (username_used username credentialId credential now)

theorem owners_passkeyUserHandle (store : PasskeyStore π) (username : String)
    (candidate : List UInt8) : (store.passkeyUserHandle username candidate).2.owners = store.owners := by
  unfold passkeyUserHandle
  split
  · rfl
  · split <;> rfl

/-- A recorded use is of a row that is there. -/
theorem exists_row_of_update {username : String} {credentialId : List UInt8}
    {updateCredential : π → Option π} {now : ℤ}
    (hupdate : store.updatePasskeyAfterLogin username credentialId updateCredential now = some next) :
    ∃ row ∈ store.rows, row.username = username ∧ row.credentialId = credentialId := by
  obtain ⟨row, hrow, -⟩ := Option.bind_eq_some_iff.mp hupdate
  have hfound := List.find?_some hrow
  simp only [Bool.and_eq_true, beq_iff_eq] at hfound
  exact ⟨row, List.mem_of_find?_eq_some hrow, hfound.2, hfound.1⟩

end PasskeyStore

end Crabinet.Auth
