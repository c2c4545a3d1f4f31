import Crabinet.Auth.Preferences
import Crabinet.Library.SparseMap
import Mathlib.Data.List.Induction

/-!
# The preferences refine a record for each account

Over any sequence of requests the table stands for a total map from accounts to records, which
begins with the defaults: a start folder changes only the start folder, an update the fields that
it names, and neither another account. A row is there just where the record differs from the
defaults.
-/

namespace Crabinet.Auth

open Library Filesystem PreferencesTable

/-- The settings of an account. -/
structure Preferences where
  folder : Option DefaultFolder
  display : DisplayPreferences
  valid : ∀ found ∈ folder, isShareId found.shareId = true
deriving DecidableEq

namespace Preferences

/-- The settings of a new account. -/
def initial : Preferences := ⟨none, .default, nofun⟩

/-- The start folder alone is changed. -/
def withFolder (record : Preferences) (folder : Option DefaultFolder)
    (valid : ∀ found ∈ folder, isShareId found.shareId = true) : Preferences :=
  { record with folder, valid }

/-- The display settings that an update names are changed. -/
def withDisplay (record : Preferences) (update : DisplayPreferencesUpdate) : Preferences :=
  { record with
    display :=
      { showHiddenFiles := update.showHiddenFiles.getD record.display.showHiddenFiles
        theme := update.theme.getD record.display.theme
        autosave := update.autosave.getD record.display.autosave
        wrapLines := update.wrapLines.getD record.display.wrapLines } }

/-- The row of a record. -/
def toRow (record : Preferences) : PreferencesRow where
  defaultShareId := (record.folder.map DefaultFolder.shareId).getD ""
  defaultPath := (record.folder.map DefaultFolder.path).getD ""
  showHiddenFiles := boolColumn record.display.showHiddenFiles
  theme := record.display.theme.asStr
  autosave := boolColumn record.display.autosave
  wrapLines := boolColumn record.display.wrapLines

end Preferences

/-- A folder that is accepted is in a share. -/
theorem isShareId_of_accepted {folder : Option DefaultFolder} {found : Bool}
    (h : folder.all (validDefaultFolder · found) = true) :
    ∀ chosen ∈ folder, isShareId chosen.shareId = true := by
  intro chosen hchosen
  have hvalid := (Option.all_eq_true _ _).mp h chosen hchosen
  rw [validDefaultFolder, Bool.and_eq_true] at hvalid
  exact hvalid.1

/-- A setting of an account. -/
inductive PreferenceField where
  | startFolder | showHiddenFiles | theme | autosave | wrapLines
deriving DecidableEq, Repr

/-- A request for the settings of an account. -/
inductive PreferenceRequest where
  | folder (username : String) (folder : Option DefaultFolder) (found : Bool)
  | display (username : String) (update : DisplayPreferencesUpdate)

namespace PreferenceRequest

/-- The account of a request. -/
def username : PreferenceRequest → String
  | folder username _ _ => username
  | display username _ => username

/-- The settings that a request names. -/
def fields : PreferenceRequest → List PreferenceField
  | folder _ _ _ => [.startFolder]
  | display _ update =>
    (update.showHiddenFiles.map fun _ => PreferenceField.showHiddenFiles).toList ++
      (update.theme.map fun _ => PreferenceField.theme).toList ++
      (update.autosave.map fun _ => PreferenceField.autosave).toList ++
      (update.wrapLines.map fun _ => PreferenceField.wrapLines).toList

/-- Two requests that do not name one field of one account. -/
def Separate (first second : PreferenceRequest) : Prop :=
  first.username ≠ second.username ∨ first.fields.Disjoint second.fields

end PreferenceRequest

/-- What a request does to the table. -/
def applyToTable (table : PreferencesTable) : PreferenceRequest → PreferencesTable
  | .folder username folder found => table.updatePreferences username folder found
  | .display username update => (table.updateDisplayPreferences username update).1

/-- What a request does to the record of its account; a start folder that is refused changes
nothing. -/
def applyToRecord (record : Preferences) : PreferenceRequest → Preferences
  | .folder _ folder found =>
    if h : folder.all (validDefaultFolder · found) = true then
      record.withFolder folder (isShareId_of_accepted h)
    else record
  | .display _ update => record.withDisplay update

/-- What a request does to the records. -/
def applyToRecords (records : String → Preferences) (request : PreferenceRequest) :
    String → Preferences :=
  Function.update records request.username (applyToRecord (records request.username) request)

/-- The table after some requests. -/
def runTable (requests : List PreferenceRequest) : PreferencesTable :=
  requests.foldl applyToTable .empty

/-- The records after some requests. -/
def runRecords (requests : List PreferenceRequest) : String → Preferences :=
  requests.foldl applyToRecords fun _ => .initial

/-- The table stands for the records. -/
def Represents (table : PreferencesTable) (records : String → Preferences) : Prop :=
  Sparse Preferences.toRow Preferences.initial table records

/-! ### Rows and records -/

variable {table : PreferencesTable} {records : String → Preferences} {record : Preferences}
  {username : String}

theorem columnBool_boolColumn (value : Bool) : columnBool (boolColumn value) = value := by
  cases value <;> rfl

theorem boolColumn_eq_zero {value : Bool} : boolColumn value = 0 ↔ value = false := by
  cases value <;> decide

theorem boolColumn_eq_one {value : Bool} : boolColumn value = 1 ↔ value = true := by
  cases value <;> decide

theorem asStr_eq_system {theme : ThemePreference} : theme.asStr = "system" ↔ theme = .system := by
  cases theme <;> decide

/-- A share has a name. -/
theorem ne_empty_of_isShareId {value : String} (h : isShareId value = true) : value ≠ "" := by
  rintro rfl
  revert h
  decide

/-- The row of a record is dropped just where the record is that of a new account. -/
theorem isDefaultRow_toRow (record : Preferences) :
    isDefaultRow record.toRow = true ↔ record = .initial := by
  obtain ⟨folder, ⟨showHiddenFiles, theme, autosave, wrapLines⟩, valid⟩ := record
  cases folder with
  | some folder =>
    have hshare := ne_empty_of_isShareId (valid folder rfl)
    simp [isDefaultRow, Preferences.toRow, Preferences.initial, hshare]
  | none =>
    simp [isDefaultRow, Preferences.toRow, Preferences.initial, DisplayPreferences.default,
      boolColumn_eq_zero, boolColumn_eq_one, asStr_eq_system, and_assoc]

/-- The display settings are read back from a row. -/
theorem readDisplayPreferences_of_get? (h : table.get? username = some record.toRow) :
    table.readDisplayPreferences username = record.display := by
  rw [PreferencesTable.readDisplayPreferences, h]
  simp only [Preferences.toRow, columnBool_boolColumn, ThemePreference.fromColumn_asStr]
  rfl

/-- The start folder is read back from a row. -/
theorem defaultFolder_of_get? (h : table.get? username = some record.toRow) :
    table.defaultFolder username = record.folder := by
  rw [PreferencesTable.defaultFolder, h]
  cases hfolder : record.folder with
  | none => simp [Preferences.toRow, hfolder]
  | some folder =>
    have hshare := ne_empty_of_isShareId (record.valid folder hfolder)
    simp [Preferences.toRow, hfolder, hshare]

theorem Represents.readDisplayPreferences (h : Represents table records) (username : String) :
    table.readDisplayPreferences username = (records username).display := by
  have hrow := h username
  by_cases hinitial : records username = .initial
  · rw [if_pos hinitial] at hrow
    rw [PreferencesTable.readDisplayPreferences, hrow, hinitial]
    rfl
  · rw [if_neg hinitial] at hrow
    exact readDisplayPreferences_of_get? hrow

theorem Represents.defaultFolder (h : Represents table records) (username : String) :
    table.defaultFolder username = (records username).folder := by
  have hrow := h username
  by_cases hinitial : records username = .initial
  · rw [if_pos hinitial] at hrow
    rw [PreferencesTable.defaultFolder, hrow, hinitial]
    rfl
  · rw [if_neg hinitial] at hrow
    exact defaultFolder_of_get? hrow

/-! ### One request -/

/-- The rows of others are left, and the row of the account is dropped if it is the default. -/
theorem get?_deleteDefaultPreferences (table : PreferencesTable) (username other : String) :
    (deleteDefaultPreferences table username).get? other =
      if other = username then (table.get? username).filter fun row => !isDefaultRow row
      else table.get? other := by
  unfold deleteDefaultPreferences
  cases hrow : table.get? username with
  | none =>
    dsimp only
    split
    · rename_i heq
      rw [heq, hrow]
      rfl
    · rfl
  | some row =>
    dsimp only
    cases hdefault : isDefaultRow row with
    | true =>
      rw [if_pos rfl]
      split
      · rename_i heq
        rw [heq, KeyedMap.get?_erase_self]
        simp [Option.filter, hdefault]
      · rename_i hne
        exact KeyedMap.get?_erase_ne _ hne
    | false =>
      rw [if_neg Bool.false_ne_true]
      split
      · rename_i heq
        rw [heq, hrow]
        simp [Option.filter, hdefault]
      · rfl

/-- A row that is written and then dropped if it is the default. -/
theorem Represents.writeRow (h : Represents table records) (username : String) (record : Preferences) :
    Represents (deleteDefaultPreferences (table.insert username record.toRow) username)
      (Function.update records username record) := by
  refine Sparse.write h ?_ fun other hother => ?_
  · rw [get?_deleteDefaultPreferences, if_pos rfl, KeyedMap.get?_insert_self]
    by_cases hdefault : record = .initial
    · have hrow := (isDefaultRow_toRow record).mpr hdefault
      simp only [Option.filter, hrow, if_pos hdefault]
      rfl
    · have hrow : isDefaultRow record.toRow = false :=
        Bool.eq_false_iff.mpr fun hrow => hdefault ((isDefaultRow_toRow record).mp hrow)
      simp [Option.filter, hrow, hdefault]
  · rw [get?_deleteDefaultPreferences, if_neg hother, KeyedMap.get?_insert_ne _ hother]

/-- The row that an update writes is that of the updated record, whether or not the account had one:
a new row takes the defaults of a new account. -/
theorem Represents.updatedRow_eq (h : Represents table records) (username : String)
    (update : DisplayPreferencesUpdate) :
    updatedRow update (table.get? username) = ((records username).withDisplay update).toRow := by
  have hdefaults (row : Option PreferencesRow) :
      updatedRow update row = updatedRow update (some (row.getD Preferences.initial.toRow)) := by
    cases row <;> rfl
  have hupdated (record : Preferences) :
      updatedRow update (some record.toRow) = (record.withDisplay update).toRow := by
    obtain ⟨showHiddenFiles, theme, autosave, wrapLines⟩ := update
    cases showHiddenFiles <;> cases theme <;> cases autosave <;> cases wrapLines <;> rfl
  rw [hdefaults, Sparse.getD_eq h, hupdated]

theorem Represents.updateDisplayPreferences (h : Represents table records) (username : String)
    (update : DisplayPreferencesUpdate) :
    Represents (table.updateDisplayPreferences username update).1
      (Function.update records username ((records username).withDisplay update)) := by
  rw [PreferencesTable.updateDisplayPreferences, h.updatedRow_eq]
  exact h.writeRow username _

/-- A start folder that is set makes the record differ from a new account's. -/
theorem Represents.setFolder (h : Represents table records) (username : String) (folder : DefaultFolder)
    (valid : ∀ found ∈ some folder, isShareId found.shareId = true) :
    Represents (table.setDefaultFolder username (some folder))
      (Function.update records username ((records username).withFolder (some folder) valid)) := by
  have hne : (records username).withFolder (some folder) valid ≠ .initial :=
    fun heq => absurd (congrArg Preferences.folder heq) (by simp [Preferences.withFolder, Preferences.initial])
  have hwritten : table.setDefaultFolder username (some folder) = table.insert username
      { (table.get? username).getD Preferences.initial.toRow with
        defaultShareId := folder.shareId
        defaultPath := folder.path } := by
    rw [PreferencesTable.setDefaultFolder]
    cases table.get? username <;> rfl
  rw [Sparse.getD_eq h] at hwritten
  rw [hwritten]
  refine Sparse.write h ?_ fun other hother => KeyedMap.get?_insert_ne _ hother _
  rw [KeyedMap.get?_insert_self, if_neg hne]
  rfl

/-- A start folder that is cleared leaves the other settings. -/
theorem Represents.clearFolder (h : Represents table records) (username : String)
    (valid : ∀ found ∈ (none : Option DefaultFolder), isShareId found.shareId = true) :
    Represents (table.setDefaultFolder username none)
      (Function.update records username ((records username).withFolder none valid)) := by
  rw [PreferencesTable.setDefaultFolder, h username]
  by_cases hinitial : records username = .initial
  · have hnone : table.get? username = none := by rw [h username, if_pos hinitial]
    have hsame : (records username).withFolder none valid = records username := by
      rw [hinitial]
      rfl
    rw [if_pos hinitial, hsame, Function.update_eq_self]
    dsimp only
    rw [deleteDefaultPreferences, hnone]
    exact h
  · rw [if_neg hinitial]
    exact h.writeRow username ((records username).withFolder none valid)

theorem Represents.setDefaultFolder (h : Represents table records) (username : String)
    (folder : Option DefaultFolder) (valid : ∀ found ∈ folder, isShareId found.shareId = true) :
    Represents (table.setDefaultFolder username folder)
      (Function.update records username ((records username).withFolder folder valid)) := by
  cases folder with
  | some folder => exact h.setFolder username folder valid
  | none => exact h.clearFolder username valid

/-- One request keeps the table at the records. -/
theorem Represents.apply (h : Represents table records) (request : PreferenceRequest) :
    Represents (applyToTable table request) (applyToRecords records request) := by
  cases request with
  | folder username folder found =>
    rw [applyToTable, applyToRecords, applyToRecord, updatePreferences]
    split
    · exact h.setDefaultFolder username folder _
    · rw [Function.update_eq_self]
      exact h
  | display username update => exact h.updateDisplayPreferences username update

/-- A run keeps the table at the records. -/
theorem represents_run (requests : List PreferenceRequest) :
    Represents (runTable requests) (runRecords requests) := by
  induction requests using List.reverseRecOn with
  | nil => exact sparse_empty _ _
  | append_singleton requests request ih =>
    rw [runTable, runRecords, List.foldl_append, List.foldl_append]
    exact ih.apply request

/-! ### Requests for different fields -/

/-- Of two updates of one field one leaves it out. -/
theorem getD_comm {α : Type} {first second : Option α} (h : first = none ∨ second = none) (value : α) :
    second.getD (first.getD value) = first.getD (second.getD value) := by
  rcases h with rfl | rfl <;> rfl

/-- A field that both name is not in disjoint lists. -/
theorem none_of_disjoint {α : Type} {first second : Option α} {field : PreferenceField}
    {firstFields secondFields : List PreferenceField} (h : firstFields.Disjoint secondFields)
    (hfirst : first.isSome → field ∈ firstFields) (hsecond : second.isSome → field ∈ secondFields) :
    first = none ∨ second = none := by
  by_contra hnot
  rw [not_or, ← ne_eq, ← ne_eq, Option.ne_none_iff_isSome, Option.ne_none_iff_isSome] at hnot
  exact h (hfirst hnot.1) (hsecond hnot.2)

/-- Updates of different settings commute. -/
theorem withDisplay_comm {first second : DisplayPreferencesUpdate} {username other : String}
    (h : (PreferenceRequest.display username first).fields.Disjoint
      (PreferenceRequest.display other second).fields) (record : Preferences) :
    (record.withDisplay first).withDisplay second = (record.withDisplay second).withDisplay first := by
  have hnamed (name : String) (update : DisplayPreferencesUpdate) :
      (update.showHiddenFiles.isSome → .showHiddenFiles ∈ (PreferenceRequest.display name update).fields) ∧
      (update.theme.isSome → .theme ∈ (PreferenceRequest.display name update).fields) ∧
      (update.autosave.isSome → .autosave ∈ (PreferenceRequest.display name update).fields) ∧
      (update.wrapLines.isSome → .wrapLines ∈ (PreferenceRequest.display name update).fields) := by
    simp [PreferenceRequest.fields, Option.isSome_iff_exists]
  obtain ⟨hhidden, htheme, hautosave, hwrap⟩ := hnamed username first
  obtain ⟨hhidden', htheme', hautosave', hwrap'⟩ := hnamed other second
  simp only [Preferences.withDisplay, getD_comm (none_of_disjoint h hhidden hhidden'),
    getD_comm (none_of_disjoint h htheme htheme'), getD_comm (none_of_disjoint h hautosave hautosave'),
    getD_comm (none_of_disjoint h hwrap hwrap')]

/-- On one record, requests for different fields commute. -/
theorem applyToRecord_comm {first second : PreferenceRequest} (h : first.fields.Disjoint second.fields)
    (record : Preferences) : applyToRecord (applyToRecord record first) second =
      applyToRecord (applyToRecord record second) first := by
  cases first with
  | folder username folder found =>
    cases second with
    | folder other folder' found' => exact (h List.mem_cons_self List.mem_cons_self).elim
    | display other update =>
      simp only [applyToRecord]
      split <;> rfl
  | display username update =>
    cases second with
    | folder other folder found =>
      simp only [applyToRecord]
      split <;> rfl
    | display other update' => exact withDisplay_comm h record

/-- Requests for different fields commute. -/
theorem applyToRecords_comm {first second : PreferenceRequest} (h : first.Separate second)
    (records : String → Preferences) : applyToRecords (applyToRecords records first) second =
      applyToRecords (applyToRecords records second) first := by
  simp only [applyToRecords]
  by_cases hname : first.username = second.username
  · have hfields := h.resolve_left (not_not_intro hname)
    rw [hname, Function.update_self, Function.update_self, Function.update_idem, Function.update_idem,
      applyToRecord_comm hfields]
  · rw [Function.update_of_ne (Ne.symm hname), Function.update_of_ne hname,
      Function.update_comm hname]

/-- What the table reads back for every account is its record, an update returns the settings that
it leads to, requests for different fields may come in either order, and a row is there just for
the accounts whose record is not that of a new one. -/
theorem preferences_refine_records (requests : List PreferenceRequest) :
    (∀ username, (runTable requests).defaultFolder username = (runRecords requests username).folder ∧
      (runTable requests).readDisplayPreferences username = (runRecords requests username).display ∧
      (((runTable requests).get? username).isSome ↔ runRecords requests username ≠ .initial)) ∧
    (∀ username update, ((runTable requests).updateDisplayPreferences username update).2 =
      (runRecords (requests ++ [.display username update]) username).display) ∧
    (∀ first second : PreferenceRequest, first.Separate second → ∀ username,
      (runTable (requests ++ [first, second])).get? username =
        (runTable (requests ++ [second, first])).get? username) := by
  have hrun := represents_run requests
  refine ⟨fun username => ⟨hrun.defaultFolder username, hrun.readDisplayPreferences username,
    Sparse.isSome_iff hrun username⟩, fun username update => ?_, fun first second h username => ?_⟩
  · have hsaved : (runRecords (requests ++ [.display username update]) username) =
        (runRecords requests username).withDisplay update := by
      rw [runRecords, List.foldl_append]
      exact Function.update_self _ _ _
    rw [hsaved, PreferencesTable.updateDisplayPreferences, hrun.updatedRow_eq]
    exact readDisplayPreferences_of_get? (KeyedMap.get?_insert_self _ _ _)
  · have hrecords : runRecords (requests ++ [first, second]) = runRecords (requests ++ [second, first]) := by
      simp only [runRecords, List.foldl_append, List.foldl_cons, List.foldl_nil]
      exact applyToRecords_comm h _
    rw [represents_run (requests ++ [first, second]) username,
      represents_run (requests ++ [second, first]) username, hrecords]

theorem preferences_of_two_requests :
    (runTable [.folder "alice" (some ⟨"docs", ""⟩) true,
        .display "alice" ⟨none, some .dark, none, some true⟩]).get? "alice" =
      (runTable [.display "alice" ⟨none, some .dark, none, some true⟩,
        .folder "alice" (some ⟨"docs", ""⟩) true]).get? "alice" :=
  (preferences_refine_records []).2.2 _ _ (.inr (by simp [PreferenceRequest.fields])) "alice"

end Crabinet.Auth
