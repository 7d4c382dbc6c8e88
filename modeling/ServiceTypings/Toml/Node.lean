/-! What a TOML document holds. A table remembers how it came about, for that decides how later lines may
add to it: a header opens a table that is only implied so far, a dotted key goes on in tables that no
header has opened, and an inline table is closed. -/

namespace ServiceTypings.Toml

/-- How a table came about. -/
inductive Form where
  /-- By a header of its own, or as the document itself. -/
  | opened
  /-- As a step in the header of another table. -/
  | implied
  /-- As a step in a dotted key. -/
  | dotted
  | inline
  deriving DecidableEq, Repr

inductive FloatValue where
  | decimal (negative : Bool) (significand : Nat) (exponent : Int)
  | infinity (negative : Bool)
  | notANumber
  deriving DecidableEq, Repr

inductive Node where
  | string (s : String)
  | integer (i : Int)
  | float (f : FloatValue)
  | boolean (b : Bool)
  | dateTime (text : String)
  | array (items : List Node)
  | table (form : Form) (entries : List (String × Node))
  /-- An array of tables; headers add to the current one. -/
  | tables (earlier : List Node) (current : Node)

namespace Node

/-- Replaces the entry of a key by what `change` makes of it; a missing one comes to the end. -/
def alterEntry (key : String) (change : Option Node → Option Node) :
    List (String × Node) → Option (List (String × Node))
  | [] => (change none).map fun n => [(key, n)]
  | (k, n) :: rest =>
    if k = key then (change (some n)).map fun n => (k, n) :: rest
    else (alterEntry key change rest).map ((k, n) :: ·)

/-- Whether a path may lead through a table of the form `there`, where missing tables on it are made in
the form `fresh`. -/
def passes (fresh there : Form) : Bool :=
  there = .implied || there = .dotted || (there = .opened && fresh = .implied)

/-- Changes the table at the end of a path and makes what is missing on the way. Of an array of tables
the path takes the current one. -/
def alterAt (fresh : Form) (change : Node → Option Node) : List String → Node → Option Node
  | [], n => change n
  | key :: path, table form entries =>
    (alterEntry key (fun
      | none => alterAt fresh change path (table fresh [])
      | some (table there es) =>
        if passes fresh there then alterAt fresh change path (table there es) else none
      | some (tables earlier current) => (alterAt fresh change path current).map (tables earlier)
      | some _ => none) entries).map (table form)
  | _ :: _, _ => none

/-- Adds an entry to the table; at the end of a dotted key this has to be a table made by dotted keys. -/
def addEntry (dotted : Bool) (key : String) (value : Node) : Node → Option Node
  | table form entries =>
    if dotted && form ≠ .dotted then none
    else
      (alterEntry key (fun
        | none => some value
        | some _ => none) entries).map (table form)
  | _ => none

/-- The entry at `path` and `key` below a table, given by one line. -/
def assign (path : List String) (key : String) (value n : Node) : Option Node :=
  alterAt .dotted (addEntry (!path.isEmpty) key value) path n

def openEntry (key : String) : Node → Option Node
  | table form entries =>
    (alterEntry key (fun
      | none => some (table .opened [])
      | some (table .implied es) => some (table .opened es)
      | some _ => none) entries).map (table form)
  | _ => none

def extendEntry (key : String) : Node → Option Node
  | table form entries =>
    (alterEntry key (fun
      | none => some (tables [] (table .opened []))
      | some (tables earlier current) => some (tables (earlier ++ [current]) (table .opened []))
      | some _ => none) entries).map (table form)
  | _ => none

/-- Opens the table of a header. -/
def openTable (path : List String) (key : String) (n : Node) : Option Node :=
  alterAt .implied (openEntry key) path n

/-- Adds a table to the array of tables of a header. -/
def extendTables (path : List String) (key : String) (n : Node) : Option Node :=
  alterAt .implied (extendEntry key) path n

end Node
end ServiceTypings.Toml
