import AtomLogic.Files
import AtomLogic.Toml.Document

/-! Settings. They are read from a file with three sections, in which every setting can
be left out. A section is a table, or an array of its settings in their order, behind
which further elements mean nothing. -/

namespace AtomLogic

structure Settings where
  filter : String := "info"
  preludePaths : List String := []
  maxResults : Nat := 0
  history : Bool := true
deriving DecidableEq, Inhabited, Repr

inductive SettingsError where
  | unreadable (path : String) (fault : FileFault)
  | invalid
deriving DecidableEq, Inhabited, Repr

def SettingsError.message : SettingsError → String
  | unreadable path fault => s!"failed to read config file '{path}': {fault.message}"
  | invalid => "invalid config"

namespace Settings
open Toml (Value Entries)

/-- A change of the settings, if a value is of the right kind. -/
abbrev Change := Value → Settings → Option Settings

def pathsOf (values : List Value) : Option (List String) :=
  values.mapM fun
    | .string path => some path
    | _ => none

def sections : List (String × List (String × Change)) :=
  [("logging",[("filter",fun
      | .string filter, settings => some { settings with filter := filter }
      | _, _ => none)]),
    ("engine",[("prelude",fun
        | .array values, settings => do return { settings with preludePaths := ← pathsOf values }
        | _, _ => none),
      ("max_results",fun
        | .integer value, settings =>
          if value < 0 then none else some { settings with maxResults := value.toNat }
        | _, _ => none)]),
    ("repl",[("history",fun
      | .boolean history, settings => some { settings with history := history }
      | _, _ => none)])]

def readEntries (changes : List (String × Change)) (entries : Entries) (settings : Settings) :
    Option Settings :=
  entries.foldlM (fun settings (key,value) => do (← changes.lookup key) value settings) settings

def readElements : List (String × Change) → List Value → Settings → Option Settings
  | (_,change) :: changes, value :: values, settings => do
    readElements changes values (← change value settings)
  | _, _, settings => some settings

def readSection (changes : List (String × Change)) : Value → Settings → Option Settings
  | .table _ entries, settings => readEntries changes entries settings
  | .array elements, settings => readElements changes elements settings
  | _, _ => none

def parse (text : String) : Except SettingsError Settings :=
  let read := do
    (← Toml.parse text).foldlM (fun settings (key,value) => do
      readSection (← sections.lookup key) value settings) {}
  match read with
  | some settings => .ok settings
  | none => .error .invalid

def load (path : String) (content : Except FileFault ByteArray) : Except SettingsError Settings :=
  match decodeContent content with
  | .error fault => .error (.unreadable path fault)
  | .ok text => parse text

/-- Where the entries of a conversation are kept under the directory of the user's data. -/
def historyPath (settings : Settings) (dataDirectory : Option String) : Option String :=
  if settings.history then dataDirectory.map (· ++ "/atomspace/history.txt") else none

end Settings
end AtomLogic
