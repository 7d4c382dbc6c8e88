import ServiceTypings.Toml.DateTime
import ServiceTypings.Toml.Node
import ServiceTypings.Toml.Numeral
import ServiceTypings.Toml.Quoted

/-! The statements of a TOML document, one for each line that says something: an entry, the header of a
table, or the header of an element of an array of tables. Arrays and inline tables are nested less than 80
levels deep, and a dotted key has fewer than 80 parts. -/

namespace ServiceTypings.Toml

inductive Statement where
  | entry (path : List String) (key : String) (value : Node)
  | header (path : List String) (key : String)
  | element (path : List String) (key : String)

def nestingBound : Nat :=
  80

def skipBlanks (cs : List Char) : List Char :=
  cs.dropWhile isBlank

/-- A line end, or the end of the document. -/
def newline? : List Char → Option (List Char)
  | [] => some []
  | '\n' :: cs => some cs
  | '\r' :: '\n' :: cs => some cs
  | _ => none

def skipComment : List Char → List Char
  | '#' :: cs => cs.dropWhile isPrintable
  | cs => cs

/-- The rest of a line on which nothing but a comment may follow. -/
def lineEnd? (cs : List Char) : Option (List Char) :=
  newline? (skipComment (skipBlanks cs))

/-- Passes over blanks, comments and line ends between the items of an array. -/
def skipLines? : Nat → List Char → Option (List Char)
  | 0, cs => some cs
  | fuel + 1, cs =>
    match skipBlanks cs with
    | '#' :: cs =>
      match cs.dropWhile isPrintable with
      | [] => none
      | rest => (newline? rest).bind (skipLines? fuel)
    | '\n' :: cs => skipLines? fuel cs
    | '\r' :: cs => (newline? ('\r' :: cs)).bind (skipLines? fuel)
    | cs => some cs

def isBareKeyChar (c : Char) : Bool :=
  c.isAlphanum || c == '_' || c == '-'

def simpleKey? : List Char → Option (String × List Char)
  | '"' :: cs => (basic? cs).map fun (s, cs) => (.ofList s, cs)
  | '\'' :: cs => (literal? cs).map fun (s, cs) => (.ofList s, cs)
  | cs =>
    let key := cs.takeWhile isBareKeyChar
    if key.isEmpty then none else some (.ofList key, cs.dropWhile isBareKeyChar)

/-- The parts of a key before its last one, and the last one. -/
def keyParts? : Nat → List Char → Option (List String × String × List Char)
  | 0, _ => none
  | fuel + 1, cs => do
    let (key, cs) ← simpleKey? (skipBlanks cs)
    match skipBlanks cs with
    | '.' :: cs =>
      let (path, last, cs) ← keyParts? fuel cs
      return (key :: path, last, cs)
    | cs => return ([], key, cs)

def key? (cs : List Char) : Option (List String × String × List Char) := do
  let (path, key, cs) ← keyParts? (cs.length + 1) cs
  if path.length + 1 < nestingBound then return (path, key, cs) else none

def number? (cs : List Char) : Option (Node × List Char) :=
  match dateTime? cs with
  | some (text, cs) => some (.dateTime text, cs)
  | none =>
    match float? cs with
    | some (f, cs) => some (.float f, cs)
    | none => (integer? cs).map fun (i, cs) => (.integer i, cs)

/-- A value that holds no other. -/
def scalar? : List Char → Option (Node × List Char)
  | 't' :: 'r' :: 'u' :: 'e' :: cs => some (.boolean true, cs)
  | 'f' :: 'a' :: 'l' :: 's' :: 'e' :: cs => some (.boolean false, cs)
  | c :: cs =>
    if c = '"' ∨ c = '\'' then (quoted? (c :: cs)).map fun (s, rest) => (.string s, rest)
    else number? (c :: cs)
  | [] => none

mutual

/-- A value that may hold others on `levels` more levels. -/
def value? : Nat → Nat → List Char → Option (Node × List Char)
  | 0, _, _ => none
  | _ + 1, 0, '[' :: _ => none
  | _ + 1, 0, '\x7b' :: _ => none
  | fuel + 1, levels + 1, '[' :: cs =>
    (items? fuel levels cs).map fun (items, rest) => (.array items, rest)
  | fuel + 1, levels + 1, '\x7b' :: cs =>
    match skipBlanks cs with
    | '\x7d' :: rest => some (.table .inline [], rest)
    | cs => entries? fuel levels (.table .inline []) cs
  | _ + 1, _, cs => scalar? cs

/-- The items of an array from behind its bracket or a comma. -/
def items? : Nat → Nat → List Char → Option (List Node × List Char)
  | 0, _, _ => none
  | fuel + 1, levels, cs => do
    match ← skipLines? cs.length cs with
    | ']' :: rest => return ([], rest)
    | cs =>
      let (item, cs) ← value? fuel levels cs
      match ← skipLines? cs.length cs with
      | ',' :: cs =>
        let (items, rest) ← items? fuel levels cs
        return (item :: items, rest)
      | ']' :: rest => return ([item], rest)
      | _ => none

/-- The entries of an inline table, added to those it has. -/
def entries? : Nat → Nat → Node → List Char → Option (Node × List Char)
  | 0, _, _, _ => none
  | fuel + 1, levels, table, cs => do
    let (path, key, cs) ← key? cs
    let cs ← expect? '=' cs
    let (value, cs) ← value? fuel levels (skipBlanks cs)
    let table ← Node.assign path key value table
    match skipBlanks cs with
    | ',' :: cs => entries? fuel levels table cs
    | '\x7d' :: rest => return (table, rest)
    | _ => none

end

/-- An entry or a header, at the start of a line without blanks before it. -/
def statement? : List Char → Option (Statement × List Char)
  | '[' :: '[' :: cs => do
    let (path, key, cs) ← key? cs
    let cs ← expect? ']' cs
    let cs ← expect? ']' cs
    return (.element path key, cs)
  | '[' :: cs => do
    let (path, key, cs) ← key? cs
    let cs ← expect? ']' cs
    return (.header path key, cs)
  | cs => do
    let (path, key, cs) ← key? cs
    let cs ← expect? '=' cs
    let (value, cs) ← value? (2 * cs.length + 2) (nestingBound - 1) (skipBlanks cs)
    return (.entry path key value, cs)

/-- Every line takes a character at least, so a fuel of the text's length is enough. -/
def statements? : Nat → List Char → Option (List Statement)
  | 0, cs => if cs.isEmpty then some [] else none
  | fuel + 1, cs =>
    match skipBlanks cs with
    | [] => some []
    | cs =>
      match lineEnd? cs with
      | some rest => statements? fuel rest
      | none => do
        let (s, cs) ← statement? cs
        let rest ← lineEnd? cs
        return s :: (← statements? fuel rest)

end ServiceTypings.Toml
