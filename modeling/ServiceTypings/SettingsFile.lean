import ServiceTypings.Job
import ServiceTypings.Settings

/-! Where settings come from: the file that is named, or else the usual one if there is such a file, or
else nowhere. -/

namespace ServiceTypings

inductive SettingsError where
  | unreadable (path : String) (cause : DiskError)
  | malformed (path : String)
  deriving DecidableEq, Repr

namespace SettingsError

def message : SettingsError → String
  | unreadable path cause => "failed to read " ++ path ++ ": " ++ cause.message
  | malformed path => "failed to parse " ++ path ++ ": TOML parse error"

/-- The message followed by that of its cause. -/
def fullMessage : SettingsError → String
  | unreadable path cause => (unreadable path cause).message ++ ": " ++ cause.message
  | malformed path => (malformed path).message

end SettingsError

namespace Settings

def usualFile : String :=
  "gas-dts.toml"

def loadFrom (path : String) : Job (Except SettingsError Settings) :=
  .readText path fun
    | .error e => .done (.error (.unreadable path e))
    | .ok text =>
      match ofText? text with
      | some settings => .done (.ok settings)
      | none => .done (.error (.malformed path))

def load : Option String → Job (Except SettingsError Settings)
  | some path => loadFrom path
  | none => .isFile usualFile fun found => if found then loadFrom usualFile else .done (.ok {})

end Settings
end ServiceTypings
