import ServiceTypings.Job
import ServiceTypings.Registry

/-! Fetching the definition files of services, each into a file named for the service's id. -/

namespace ServiceTypings

inductive DownloadError where
  | request (address reason : String)
  | status (address : String) (code : Nat)
  | write (path : String) (cause : DiskError)
  deriving DecidableEq, Repr

def DownloadError.message : DownloadError → String
  | request address reason => "request to " ++ address ++ " failed: " ++ reason
  | status address code =>
    "fail to download definition. status=" ++ toString code ++ " url=" ++ address
  | write path cause => "failed to write " ++ path ++ ": " ++ cause.message

structure Downloaded where
  id : String
  result : Except DownloadError String

namespace Definition

def path (directory : String) (d : Definition) : String :=
  Path.definition directory d.id

def download (directory : String) (d : Definition) : Job Downloaded :=
  .fetch d.url fun
    | .error (.unreachable reason) => .done ⟨d.id, .error (.request d.url reason)⟩
    | .error (.status code) => .done ⟨d.id, .error (.status d.url code)⟩
    | .ok content =>
      .writeText (d.path directory) content fun
        | .error e => .done ⟨d.id, .error (.write (d.path directory) e)⟩
        | .ok () => .done ⟨d.id, .ok (d.path directory)⟩

end Definition

def downloadAll (directory : String) : List Definition → Job (List Downloaded)
  | [] => .done []
  | d :: ds => do
    let downloaded ← d.download directory
    let rest ← downloadAll directory ds
    return downloaded :: rest

end ServiceTypings
