import ServiceTypings.Disk

/-! Jobs: what a command asks of the disk and the network, one request after the other, each answer
deciding how it goes on. A job can be run against a disk as a whole, or one request at a time, so that
several jobs may take turns. -/

namespace ServiceTypings

/-- Why nothing came back for an address. -/
inductive FetchError where
  | unreachable (reason : String)
  | status (code : Nat)
  deriving DecidableEq, Repr

/-- What comes back for an address. -/
abbrev Network :=
  String → Except FetchError String

inductive Job (α : Type) where
  | done (result : α)
  | readText (path : String) (next : Except DiskError String → Job α)
  | writeText (path content : String) (next : Except DiskError Unit → Job α)
  | createDirectories (path : String) (next : Except DiskError Unit → Job α)
  | isFile (path : String) (next : Bool → Job α)
  | fetch (address : String) (next : Except FetchError String → Job α)

namespace Job

variable {α β : Type}

def bind (job : Job α) (f : α → Job β) : Job β :=
  match job with
  | done a => f a
  | readText path next => readText path fun r => (next r).bind f
  | writeText path content next => writeText path content fun r => (next r).bind f
  | createDirectories path next => createDirectories path fun r => (next r).bind f
  | isFile path next => isFile path fun r => (next r).bind f
  | fetch address next => fetch address fun r => (next r).bind f

instance : Monad Job where
  pure := done
  bind := bind

/-- Answers the first request of a job. -/
def step (network : Network) : Job α → Disk → Job α × Disk
  | done a, d => (done a, d)
  | readText path next, d => (next (d.readText path), d)
  | writeText path content next, d =>
    match d.writeText path content with
    | .ok d => (next (.ok ()), d)
    | .error e => (next (.error e), d)
  | createDirectories path next, d =>
    (next (d.createDirectories path).1, (d.createDirectories path).2)
  | isFile path next, d => (next (d.isFile path), d)
  | fetch address next, d => (next (network address), d)

def run (network : Network) : Job α → Disk → α × Disk
  | done a, d => (a, d)
  | readText path next, d => (next (d.readText path)).run network d
  | writeText path content next, d =>
    match d.writeText path content with
    | .ok d => (next (.ok ())).run network d
    | .error e => (next (.error e)).run network d
  | createDirectories path next, d =>
    (next (d.createDirectories path).1).run network (d.createDirectories path).2
  | isFile path next, d => (next (d.isFile path)).run network d
  | fetch address next, d => (next (network address)).run network d

/-- The network of a machine that has none. -/
def offline : Network :=
  fun _ => .error (.unreachable "no network")

theorem run_step (network : Network) (job : Job α) (d : Disk) :
    (job.step network d).1.run network (job.step network d).2 = job.run network d := by
  cases job with
  | writeText path content next =>
    simp only [step, run]
    split <;> rfl
  | _ => rfl

theorem run_bind (network : Network) (job : Job α) (f : α → Job β) (d : Disk) :
    (job.bind f).run network d = (f (job.run network d).1).run network (job.run network d).2 := by
  induction job generalizing d with
  | done a => rfl
  | writeText path content next ih =>
    simp only [bind, run]
    split <;> exact ih _ _
  | readText path next ih => exact ih _ _
  | createDirectories path next ih => exact ih _ _
  | isFile path next ih => exact ih _ _
  | fetch address next ih => exact ih _ _

end Job
end ServiceTypings
