/-! Paths as texts. A path is absolute if it begins with a slash; its components are what stands between
slashes, and empty ones and dots say nothing except at the start. The file that a conversion writes, and
the one a download writes, has its path from here. -/

namespace ServiceTypings.Path

/-- What stands between the slashes. -/
def pieces (path : String) : List String :=
  (path.toList.splitOn '/').map String.ofList

def isAbsolute (path : String) : Bool :=
  path.toList.head? = some '/'

/-- An absolute path takes the place of the one it is joined to. -/
def join (base path : String) : String :=
  if isAbsolute path then path
  else if base = "" || base.toList.getLast? = some '/' then base ++ path
  else base ++ "/" ++ path

/-- A piece that leads nowhere. -/
def isIdle (piece : String) : Bool :=
  piece = "" || piece = "."

def dropIdleEnd (ps : List String) : List String :=
  (ps.reverse.dropWhile isIdle).reverse

/-- The name at the end of a path, if the path ends in one. -/
def fileName? (path : String) : Option String :=
  match (pieces path).filter (!isIdle ·) |>.getLast? with
  | some name => if name = ".." then none else some name
  | none => none

/-- A name without its last dot and what follows it; a dot at the start is part of the name. -/
def stemOf (name : String) : String :=
  let start := ((name.toList.reverse.dropWhile (· ≠ '.')).drop 1).reverse
  if start.isEmpty then name else String.ofList start

def stem? (path : String) : Option String :=
  (fileName? path).map stemOf

/-- The path without its last component. The root and the empty path have none. -/
def parent? (path : String) : Option String :=
  match pieces path with
  | [] => none
  | first :: rest =>
    if isIdle first then
      match dropIdleEnd rest with
      | [] => if first = "." then some "" else none
      | body =>
        match dropIdleEnd body.dropLast with
        | [] => some (if first = "" then "/" else first)
        | kept => some ("/".intercalate (first :: kept))
    else some ("/".intercalate (dropIdleEnd (dropIdleEnd (first :: rest)).dropLast))

/-- Where the declarations of an input go. -/
def output (input directory : String) : String :=
  join directory ((stem? input).getD "output" ++ ".d.ts")

/-- Where the definition file of a service is kept. -/
def definition (directory id : String) : String :=
  join directory (id ++ ".json")

end ServiceTypings.Path
