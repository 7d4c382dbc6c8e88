import ServiceTypings.CommandLine

/-! The program: it runs its job against the machine's own disk. -/

namespace ServiceTypings

/-- A file that cannot be read as text is known by an error without a code of the system. -/
def diskErrorOf : IO.Error → DiskError
  | .noFileOrDirectory .. => .notFound
  | .noSuchThing .. => .notFound
  | .alreadyExists .. => .alreadyExists
  | .inappropriateType _ code _ => if code = 20 then .notADirectory else .isADirectory
  | .userError _ => .notText
  | e => .other (toString e)

def attempt {α : Type} (action : IO α) : IO (Except DiskError α) := do
  try
    return .ok (← action)
  catch e =>
    return .error (diskErrorOf e)

def isFileAt (path : String) : IO Bool := do
  match ← attempt (IO.FS.readFile path) with
  | .ok _ => return true
  | .error .notText => return true
  | .error _ => return false

def Job.perform {α : Type} : Job α → IO α
  | .done a => return a
  | .readText path next => do (next (← attempt (IO.FS.readFile path))).perform
  | .writeText path content next => do (next (← attempt (IO.FS.writeFile path content))).perform
  | .createDirectories path next => do (next (← attempt (IO.FS.createDirAll path))).perform
  | .isFile path next => do (next (← isFileAt path)).perform
  | .fetch address next => do (next (Job.offline address)).perform

end ServiceTypings

open ServiceTypings in
def main (arguments : List String) : IO UInt32 := do
  let transcript ← (CommandLine.run arguments).perform
  IO.print transcript.out
  for line in transcript.errors do
    IO.eprintln line
  return transcript.exit.toUInt32
