import Crabinet.Filesystem.VirtualPath
import Crabinet.Library.KeyedMap

/-!
# Preferences of the accounts

The table `user_preferences` has a row for an account that set a start folder or changed a display
setting. Either writes the columns of its own and leaves the others; a new row takes the defaults
for what is not given, and a row that no longer differs from them is dropped.
-/

namespace Crabinet.Auth

open Library Filesystem

/-- `DefaultFolder`. -/
structure DefaultFolder where
  shareId : String
  path : String
deriving DecidableEq, Repr

/-- `ThemePreference`. -/
inductive ThemePreference where
  | system | light | dark
deriving DecidableEq, Repr

namespace ThemePreference

def asStr : ThemePreference → String
  | system => "system"
  | light => "light"
  | dark => "dark"

def fromColumn : String → Option ThemePreference
  | "system" => some system
  | "light" => some light
  | "dark" => some dark
  | _ => none

theorem fromColumn_asStr (theme : ThemePreference) : fromColumn theme.asStr = some theme := by
  cases theme <;> rfl

end ThemePreference

/-- `DisplayPreferences`. -/
structure DisplayPreferences where
  showHiddenFiles : Bool
  theme : ThemePreference
  autosave : Bool
  wrapLines : Bool
deriving DecidableEq, Repr

/-- `DisplayPreferences::default`. -/
def DisplayPreferences.default : DisplayPreferences := ⟨false, .system, true, false⟩

/-- `DisplayPreferencesUpdate`; a field that is absent keeps its saved value. -/
structure DisplayPreferencesUpdate where
  showHiddenFiles : Option Bool
  theme : Option ThemePreference
  autosave : Option Bool
  wrapLines : Option Bool
deriving DecidableEq, Repr

/-! ### The table -/

/-- A row of `user_preferences`, without its key. -/
structure PreferencesRow where
  defaultShareId : String
  defaultPath : String
  showHiddenFiles : ℤ
  theme : String
  autosave : ℤ
  wrapLines : ℤ
deriving DecidableEq, Repr

/-- A boolean as it is bound to a statement. -/
def boolColumn (value : Bool) : ℤ := if value then 1 else 0

/-- A boolean as it is read from a column. -/
def columnBool (value : ℤ) : Bool := value ≠ 0

/-- A row of which only the start folder is given: the other columns have the defaults of the
schema. -/
def insertedRow (defaultShareId defaultPath : String) : PreferencesRow :=
  ⟨defaultShareId, defaultPath, 0, "system", 1, 0⟩

/-- The table, by its primary key. -/
abbrev PreferencesTable := KeyedMap String PreferencesRow

namespace PreferencesTable

/-- `read_display_preferences`. -/
def readDisplayPreferences (table : PreferencesTable) (username : String) : DisplayPreferences :=
  match table.get? username with
  | some row => ⟨columnBool row.showHiddenFiles, (ThemePreference.fromColumn row.theme).getD .system,
      columnBool row.autosave, columnBool row.wrapLines⟩
  | none => .default

/-- `SessionStore::default_folder`. -/
def defaultFolder (table : PreferencesTable) (username : String) : Option DefaultFolder :=
  match table.get? username with
  | some row => if row.defaultShareId ≠ "" then some ⟨row.defaultShareId, row.defaultPath⟩ else none
  | none => none

/-- The condition of `delete_default_preferences`. -/
def isDefaultRow (row : PreferencesRow) : Bool :=
  row.defaultShareId = "" && row.showHiddenFiles = 0 && row.theme = "system" && row.autosave = 1 &&
    row.wrapLines = 0

/-- `delete_default_preferences`. -/
def deleteDefaultPreferences (table : PreferencesTable) (username : String) : PreferencesTable :=
  match table.get? username with
  | some row => if isDefaultRow row then table.erase username else table
  | none => table

/-- `SessionStore::set_default_folder`. -/
def setDefaultFolder (table : PreferencesTable) (username : String) :
    Option DefaultFolder → PreferencesTable
  | some folder =>
    match table.get? username with
    | none => table.insert username (insertedRow folder.shareId folder.path)
    | some row =>
      table.insert username { row with defaultShareId := folder.shareId, defaultPath := folder.path }
  | none =>
    -- clearing the start folder keeps the account's other settings
    match table.get? username with
    | none => deleteDefaultPreferences table username
    | some row =>
      deleteDefaultPreferences (table.insert username { row with defaultShareId := "", defaultPath := "" })
        username

/-- The row that an update writes: over the saved one, or with the defaults for the fields that it
leaves out. -/
def updatedRow (update : DisplayPreferencesUpdate) : Option PreferencesRow → PreferencesRow
  | none =>
    { defaultShareId := ""
      defaultPath := ""
      showHiddenFiles := (update.showHiddenFiles.map boolColumn).getD 0
      theme := (update.theme.map ThemePreference.asStr).getD "system"
      autosave := (update.autosave.map boolColumn).getD 1
      wrapLines := (update.wrapLines.map boolColumn).getD 0 }
  | some row =>
    { row with
      showHiddenFiles := (update.showHiddenFiles.map boolColumn).getD row.showHiddenFiles
      theme := (update.theme.map ThemePreference.asStr).getD row.theme
      autosave := (update.autosave.map boolColumn).getD row.autosave
      wrapLines := (update.wrapLines.map boolColumn).getD row.wrapLines }

/-- `SessionStore::update_display_preferences`: the table, and the settings that it returns. -/
def updateDisplayPreferences (table : PreferencesTable) (username : String)
    (update : DisplayPreferencesUpdate) : PreferencesTable × DisplayPreferences :=
  let written := table.insert username (updatedRow update (table.get? username))
  (deleteDefaultPreferences written username, readDisplayPreferences written username)

/-- `valid_default_folder`: the share's id is one, and `found` is whether the account may enter it
and has the directory. -/
def validDefaultFolder (folder : DefaultFolder) (found : Bool) : Bool := isShareId folder.shareId && found

/-- `update_preferences`: a start folder that is not found is refused. -/
def updatePreferences (table : PreferencesTable) (username : String) (folder : Option DefaultFolder)
    (found : Bool) : PreferencesTable :=
  if folder.all (validDefaultFolder · found) then table.setDefaultFolder username folder else table

end PreferencesTable

end Crabinet.Auth
