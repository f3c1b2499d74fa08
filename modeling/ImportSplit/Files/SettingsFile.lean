/-
  ImportSplit.Files.SettingsFile
  ────────────────────────────────
  **SETTINGS IN FILES.**

  Settings are read from a file that is named, or looked for in a directory;
  where a directory has no settings file, the standard settings hold.
-/
import ImportSplit.Files.Tree
import ImportSplit.Settings

namespace ImportSplit.Files

/-- Why a file gives no settings. -/
inductive SettingsFault where
  /-- There is no such file, or its bytes are no text. -/
  | unreadable
  | misread (fault : JsonText.Fault)
  deriving Repr, DecidableEq

/-- The settings in a file. -/
def FileTree.settingsFile (t : FileTree) (path : String) : Except SettingsFault Settings :=
  match t.read? path with
  | none => .error .unreadable
  | some text =>
      match Settings.ofJson text with
      | .ok settings => .ok settings
      | .error fault => .error (.misread fault)

/-- The settings that hold in a directory. -/
def FileTree.settingsOf (t : FileTree) (directory : String) : Except SettingsFault Settings :=
  let path := below directory Settings.fileName
  if t.isFile path then t.settingsFile path else .ok {}

end ImportSplit.Files
