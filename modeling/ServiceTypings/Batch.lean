import ServiceTypings.Conversion
import ServiceTypings.Job

/-! Converting several files. Each input is read, converted and written on its own, so one that fails
stops no other; the outcomes come in the order of the inputs. -/

namespace ServiceTypings

inductive FileError where
  | read (cause : DiskError)
  | conversion (cause : ConversionError)
  | write (path : String) (cause : DiskError)
  deriving DecidableEq, Repr

namespace FileError

def kind : FileError → String
  | read _ => "ReadError"
  | conversion cause => cause.kind
  | write .. => "WriteError"

def message : FileError → String
  | read cause => "failed to read input: " ++ cause.message
  | conversion cause => cause.message
  | write path cause => "failed to write " ++ path ++ ": " ++ cause.message

/-- The line that tells of a file that failed. -/
def report (input : String) (e : FileError) : String :=
  input ++ ": [" ++ e.kind ++ "] " ++ e.message

end FileError

/-- Where the declarations of an input went. -/
inductive Output where
  | written (path : String)
  | text (content : String)
  deriving DecidableEq, Repr

structure FileOutcome where
  input : String
  result : Except FileError Output

namespace Converter

/-- Without an output directory the declarations are the outcome. -/
def convertFile (c : Converter) (directory : Option String) (input : String) : Job FileOutcome :=
  .readText input fun
    | .error e => .done ⟨input, .error (.read e)⟩
    | .ok source =>
      match c.convert source, directory with
      | .error e, _ => .done ⟨input, .error (.conversion e)⟩
      | .ok content, none => .done ⟨input, .ok (.text content)⟩
      | .ok content, some directory =>
        let path := Path.output input directory
        .writeText path content fun
          | .error e => .done ⟨input, .error (.write path e)⟩
          | .ok () => .done ⟨input, .ok (.written path)⟩

def convertFiles (c : Converter) (directory : Option String) :
    List String → Job (List FileOutcome)
  | [] => .done []
  | input :: inputs => do
    let outcome ← c.convertFile directory input
    let outcomes ← c.convertFiles directory inputs
    return outcome :: outcomes

end Converter
end ServiceTypings
