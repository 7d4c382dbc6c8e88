import ServiceTypings.Keyed
import ServiceTypings.Path

/-! A disk: what stands at each location, and the location from which relative paths start. A path is
followed piece by piece, and each piece but the last has to lead to a directory. What a request does to
other locations than its own is nothing (`at?_put_of_ne`). -/

namespace ServiceTypings

/-- The names that lead from the root to a place. -/
abbrev Location :=
  List String

inductive Item where
  | directory
  | text (content : String)
  /-- A file whose bytes are no text in UTF-8. -/
  | binary (bytes : List UInt8)
  deriving DecidableEq, Repr

inductive DiskError where
  | notFound
  | alreadyExists
  | notADirectory
  | isADirectory
  | notText
  | nulInName
  /-- Anything else that a machine may report. -/
  | other (text : String)
  deriving DecidableEq, Repr

def DiskError.message : DiskError → String
  | notFound => "No such file or directory (os error 2)"
  | alreadyExists => "File exists (os error 17)"
  | notADirectory => "Not a directory (os error 20)"
  | isADirectory => "Is a directory (os error 21)"
  | notText => "stream did not contain valid UTF-8"
  | nulInName => "file name contained an unexpected NUL byte"
  | other text => text

structure Disk where
  items : List (Location × Item)
  here : Location
  deriving DecidableEq, Repr

namespace Disk

def at? (d : Disk) (place : Location) : Option Item :=
  if place = [] then some .directory else (Keyed.find? Prod.fst place d.items).map Prod.snd

def put (d : Disk) (place : Location) (item : Item) : Disk :=
  { d with items := Keyed.put Prod.fst (place, item) d.items }

/-- Nothing, if a directory stands at the place. -/
def checkDirectory (d : Disk) (place : Location) : Except DiskError Unit :=
  match d.at? place with
  | some .directory => .ok ()
  | some _ => .error .notADirectory
  | none => .error .notFound

/-- Follows pieces of a path from a place. The last one may lead to a place where nothing stands. -/
def follow (d : Disk) : Location → List String → Except DiskError Location
  | place, [] => .ok place
  | place, piece :: pieces => do
    d.checkDirectory place
    if Path.isIdle piece then d.follow place pieces
    else if piece = ".." then d.follow place.dropLast pieces
    else d.follow (place ++ [piece]) pieces

def startOf (d : Disk) (path : String) : Location :=
  if Path.isAbsolute path then [] else d.here

def locate (d : Disk) (path : String) : Except DiskError Location :=
  if path = "" then .error .notFound
  else if '\x00' ∈ path.toList then .error .nulInName
  else d.follow (d.startOf path) (Path.pieces path)

def readText (d : Disk) (path : String) : Except DiskError String := do
  match d.at? (← d.locate path) with
  | none => .error .notFound
  | some .directory => .error .isADirectory
  | some (.text content) => .ok content
  | some (.binary _) => .error .notText

def writeText (d : Disk) (path content : String) : Except DiskError Disk := do
  let place ← d.locate path
  match d.at? place with
  | some .directory => .error .isADirectory
  | _ => .ok (d.put place (.text content))

def isFile (d : Disk) (path : String) : Bool :=
  match d.locate path with
  | .ok place => (d.at? place).any (· ≠ .directory)
  | .error _ => false

def isDirectory (d : Disk) (path : String) : Bool :=
  match d.locate path with
  | .ok place => d.at? place = some .directory
  | .error _ => false

/-- Makes the directory at the end of a path; slashes behind its name do not matter. -/
def createDirectory (d : Disk) (path : String) : Except DiskError Disk := do
  if path = "" then throw .notFound
  if '\x00' ∈ path.toList then throw .nulInName
  let pieces := ((Path.pieces path).reverse.dropWhile (· = "")).reverse
  let place ← d.follow (d.startOf path) pieces.dropLast
  d.checkDirectory place
  match pieces.getLast? with
  | none => .error .alreadyExists
  | some name =>
    if name = "." || name = ".." then .error .alreadyExists
    else
      match d.at? (place ++ [name]) with
      | some _ => .error .alreadyExists
      | none => .ok (d.put (place ++ [name]) .directory)

/-- Makes a directory and those above it that are missing; what was made stays even if a later step
fails. A path has fewer components than characters, which bounds the fuel. -/
def createDirectoriesWith : Nat → String → Disk → Except DiskError Unit × Disk
  | 0, _, d => (.error .notFound, d)
  | fuel + 1, path, d =>
    if path = "" then (.ok (), d)
    else
      match d.createDirectory path with
      | .ok d => (.ok (), d)
      | .error .notFound =>
        match Path.parent? path with
        | none => (.error .notFound, d)
        | some parent =>
          match createDirectoriesWith fuel parent d with
          | (.error e, d) => (.error e, d)
          | (.ok (), d) =>
            match d.createDirectory path with
            | .ok d => (.ok (), d)
            | .error e => (if d.isDirectory path then .ok () else .error e, d)
      | .error e => (if d.isDirectory path then .ok () else .error e, d)

def createDirectories (d : Disk) (path : String) : Except DiskError Unit × Disk :=
  createDirectoriesWith (path.length + 1) path d

theorem at?_put_self (d : Disk) {place : Location} (h : place ≠ []) (item : Item) :
    (d.put place item).at? place = some item := by
  simp only [at?, put, if_neg h, Keyed.put]
  rw [Keyed.find?_alter_self Prod.fst place (fun _ => (place, item)) (fun _ => rfl)]
  rfl

theorem at?_put_of_ne (d : Disk) {place other : Location} (h : other ≠ place) (item : Item) :
    (d.put place item).at? other = d.at? other := by
  simp only [at?, put, Keyed.put]
  rw [Keyed.find?_alter_of_ne Prod.fst (fun _ => (place, item)) (fun _ => rfl) h]

end Disk
end ServiceTypings
