import ServiceTypings.Arguments
import ServiceTypings.Batch
import ServiceTypings.Download
import ServiceTypings.SettingsFile

/-! The commands. Each ends with an exit code, what it prints, and its lines about failures: one for each
input that failed, in order, and then their number; or one for the whole run if it could not begin. -/

namespace ServiceTypings

/-- What a run leaves on the terminal. -/
structure Transcript where
  exit : Nat
  out : String
  errors : List String
  deriving DecidableEq, Repr

namespace Transcript

/-- The run could not begin. -/
def failure (message : String) : Transcript :=
  ⟨1, "", ["Error: " ++ message]⟩

def success (out : String) : Transcript :=
  ⟨0, out, []⟩

/-- Accounts for each of several items by what it prints, or by the line about its failure. -/
def ofItems (items : List (Except String String)) : Transcript :=
  let out := items.filterMap fun
    | .ok text => some text
    | .error _ => none
  let errors := items.filterMap fun
    | .ok _ => none
    | .error line => some ("error: " ++ line)
  if errors.isEmpty then success (String.join out)
  else
    ⟨1, String.join out,
      errors ++ ["error: " ++ toString errors.length ++ " of " ++ toString items.length ++
        " file(s) failed"]⟩

end Transcript

def FileOutcome.item (o : FileOutcome) : Except String String :=
  match o.result with
  | .ok (.text content) => .ok content
  | .ok (.written path) => .ok (o.input ++ " -> " ++ path ++ "\n")
  | .error e => .error (e.report o.input)

def Downloaded.item (d : Downloaded) : Except String String :=
  match d.result with
  | .ok path => .ok (d.id ++ " -> " ++ path ++ "\n")
  | .error e => .error (d.id ++ ": " ++ e.message)

/-- Fills a text up to a width with spaces behind it. -/
def padRight (width : Nat) (text : String) : String :=
  text ++ String.ofList (List.replicate (width - text.length) ' ')

def Definition.row (d : Definition) : String :=
  padRight 22 d.id ++ " " ++ padRight 24 (d.innerName.getD "-") ++ " " ++
    padRight 26 (d.abbreviatedName.getD "-") ++ " " ++ d.url ++ "\n"

namespace Registry

/-- The definitions of the services named, or all if none is; the first unknown name is the error. -/
def select (r : Registry) (services : List String) : Except String (List Definition) :=
  if services.isEmpty then .ok r.definitions
  else
    services.mapM fun id =>
      match r.find? id with
      | some d => .ok d
      | none => .error id

end Registry

namespace Command

/-- Makes the output directory, if there is one. -/
def prepareOutput (output : Option String) : Job (Except String Unit) :=
  match output with
  | none => .done (.ok ())
  | some directory =>
    .createDirectories directory fun
      | .ok () => .done (.ok ())
      | .error e =>
        .done (.error ("failed to create output directory: " ++ directory ++ ": " ++ e.message))

def runConvert (settings : Settings) (files : List String) (output : Option String) :
    Job Transcript :=
  if files.isEmpty then .done (.failure "no input files given")
  else
    match Converter.ofOptions settings.registry settings.options with
    | .error e => .done (.failure e.message)
    | .ok converter => do
      match ← prepareOutput output with
      | .error message => return .failure message
      | .ok () =>
        let outcomes ← converter.convertFiles output files
        return .ofItems (outcomes.map FileOutcome.item)

def runDownload (settings : Settings) (destination : String) (services : List String) :
    Job Transcript :=
  match settings.registry.select services with
  | .error id => .done (.failure ("unknown service `" ++ id ++ "` (see `gas-dts list`)"))
  | .ok definitions =>
    .createDirectories destination fun
      | .error e =>
        .done (.failure
          ("failed to create destination directory: " ++ destination ++ ": " ++ e.message))
      | .ok () => do
        let downloaded ← downloadAll destination definitions
        return .ofItems (downloaded.map Downloaded.item)

def runList (settings : Settings) : Transcript :=
  .success (String.join (settings.registry.definitions.map Definition.row))

def run (settings : Settings) : Command → Job Transcript
  | download destination services => runDownload settings destination services
  | convert files output => runConvert settings files output
  | list => .done (runList settings)

end Command

def Invocation.run (i : Invocation) : Job Transcript := do
  match ← Settings.load i.config with
  | .error e => return .failure e.fullMessage
  | .ok settings => i.command.run settings

namespace CommandLine

def versionLine : String :=
  "gas-dts 0.1.0\n"

def usageText : String :=
  "Usage: gas-dts [-d] [--config PATH] COMMAND\n\n" ++
  "  download [DESTINATION] [--api ID]...  fetch the definition files of services\n" ++
  "  convert FILE... [-o DIR]              print the declarations of definition files, or write them\n" ++
  "  list                                  show the services that are known\n"

def run (arguments : List String) : Job Transcript :=
  match Arguments.parse arguments with
  | .ok invocation => invocation.run
  | .error .version => .done (.success versionLine)
  | .error .help => .done (.success usageText)
  | .error .usage => .done ⟨2, "", [usageText]⟩

end CommandLine
end ServiceTypings
