import ServiceTypings.Json.Basic

/-! The tokens of a JSON text. Each is known by its first character; what follows a token is returned
with it. -/

namespace ServiceTypings.Json

inductive Token where
  | openArray
  | closeArray
  | openObject
  | closeObject
  | comma
  | colon
  | null
  | bool (b : Bool)
  | number (n : Number)
  | string (glyphs : List Glyph)
  deriving DecidableEq, Repr

def isSpace (c : Char) : Bool :=
  c == ' ' || c == '\t' || c == '\n' || c == '\r'

def digitValue (c : Char) : Nat :=
  c.toNat - '0'.toNat

def hexValue? (c : Char) : Option Nat :=
  if '0' ≤ c ∧ c ≤ '9' then some (c.toNat - '0'.toNat)
  else if 'a' ≤ c ∧ c ≤ 'f' then some (c.toNat - 'a'.toNat + 10)
  else if 'A' ≤ c ∧ c ≤ 'F' then some (c.toNat - 'A'.toNat + 10)
  else none

def hexValues? (digits : List Char) : Option Nat :=
  digits.foldlM (fun n c => (hexValue? c).map (n * 16 + ·)) 0

/-- The character that a letter behind a backslash stands for. -/
def escaped? : Char → Option Char
  | '"' => some '"'
  | '\\' => some '\\'
  | '/' => some '/'
  | 'b' => some '\x08'
  | 'f' => some '\x0c'
  | 'n' => some '\n'
  | 'r' => some '\r'
  | 't' => some '\t'
  | _ => none

/-- A string from behind its opening quote to behind the closing one. -/
def quoted? : List Char → Option (List Glyph × List Char)
  | [] => none
  | '"' :: cs => some ([], cs)
  | '\\' :: 'u' :: a :: b :: c :: d :: cs =>
    match hexValues? [a, b, c, d], quoted? cs with
    | some n, some (glyphs, rest) => some (.unit n :: glyphs, rest)
    | _, _ => none
  | '\\' :: c :: cs =>
    match escaped? c, quoted? cs with
    | some e, some (glyphs, rest) => some (.char e :: glyphs, rest)
    | _, _ => none
  | c :: cs =>
    if c.toNat < 0x20 || c == '\\' then none
    else (quoted? cs).map fun (glyphs, rest) => (.char c :: glyphs, rest)

/-- The digits at the start of a text. -/
def digits (cs : List Char) : List Nat × List Char :=
  ((cs.takeWhile Char.isDigit).map digitValue, cs.dropWhile Char.isDigit)

/-- The whole part is a zero or begins with another digit. -/
def whole? : List Char → Option (List Nat × List Char)
  | '0' :: cs => some ([0], cs)
  | cs => if (digits cs).1.isEmpty then none else some (digits cs)

def fraction? : List Char → Option (List Nat × List Char)
  | '.' :: cs => if (digits cs).1.isEmpty then none else some (digits cs)
  | cs => some ([], cs)

def decimal (ds : List Nat) : Nat :=
  ds.foldl (fun n d => n * 10 + d) 0

def unsignedExponent? (cs : List Char) : Option (Nat × List Char) :=
  if (digits cs).1.isEmpty then none else some (decimal (digits cs).1, (digits cs).2)

def signedExponent? : List Char → Option (Int × List Char)
  | '-' :: cs => (unsignedExponent? cs).map fun (n, rest) => (-(n : Int), rest)
  | '+' :: cs => (unsignedExponent? cs).map fun (n, rest) => ((n : Int), rest)
  | cs => (unsignedExponent? cs).map fun (n, rest) => ((n : Int), rest)

def exponent? : List Char → Option (Int × List Char)
  | 'e' :: cs => signedExponent? cs
  | 'E' :: cs => signedExponent? cs
  | cs => some (0, cs)

def number? (negative : Bool) (cs : List Char) : Option (Number × List Char) := do
  let (whole, cs) ← whole? cs
  let (fraction, cs) ← fraction? cs
  let (exponent, cs) ← exponent? cs
  return (⟨negative, whole, fraction, exponent⟩, cs)

/-- The token at the start of a text that does not begin with space. -/
def Token.next? : List Char → Option (Token × List Char)
  | '[' :: cs => some (.openArray, cs)
  | ']' :: cs => some (.closeArray, cs)
  | '\x7b' :: cs => some (.openObject, cs)
  | '\x7d' :: cs => some (.closeObject, cs)
  | ',' :: cs => some (.comma, cs)
  | ':' :: cs => some (.colon, cs)
  | 'n' :: 'u' :: 'l' :: 'l' :: cs => some (.null, cs)
  | 't' :: 'r' :: 'u' :: 'e' :: cs => some (.bool true, cs)
  | 'f' :: 'a' :: 'l' :: 's' :: 'e' :: cs => some (.bool false, cs)
  | '"' :: cs => (quoted? cs).map fun (glyphs, rest) => (.string glyphs, rest)
  | '-' :: cs => (number? true cs).map fun (n, rest) => (.number n, rest)
  | cs => (number? false cs).map fun (n, rest) => (.number n, rest)

end ServiceTypings.Json
