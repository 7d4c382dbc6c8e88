/-! Strings of a TOML document. In single quotes every character stands for itself; in double quotes a
backslash escapes. Three quotes open a string that may go over several lines: a line end right behind them
is no part of it, a backslash at the end of a line takes away the blanks and line ends that follow, and up
to two quotes may stand before the three that close it. -/

namespace ServiceTypings.Toml

def isBlank (c : Char) : Bool :=
  c == ' ' || c == '\t'

/-- Tabs and all characters that are not control characters of ASCII. -/
def isPrintable (c : Char) : Bool :=
  c == '\t' || (0x20 ≤ c.toNat && c.toNat != 0x7F)

def hexDigit? (c : Char) : Option Nat :=
  if '0' ≤ c ∧ c ≤ '9' then some (c.toNat - '0'.toNat)
  else if 'a' ≤ c ∧ c ≤ 'f' then some (c.toNat - 'a'.toNat + 10)
  else if 'A' ≤ c ∧ c ≤ 'F' then some (c.toNat - 'A'.toNat + 10)
  else none

/-- The character with a number in hexadecimal, which is no surrogate. -/
def charOfHex? (ds : List Char) : Option Char :=
  match ds.foldlM (fun n c => (hexDigit? c).map (n * 16 + ·)) 0 with
  | some n => if n.isValidChar then some (Char.ofNat n) else none
  | none => none

def unescape? : Char → Option Char
  | 'b' => some '\x08'
  | 't' => some '\t'
  | 'n' => some '\n'
  | 'f' => some '\x0c'
  | 'r' => some '\r'
  | '"' => some '"'
  | '\\' => some '\\'
  | _ => none

/-- Puts a character in front of a string that was read. -/
def prepend? (c : Option Char) (read : Option (List Char × List Char)) :
    Option (List Char × List Char) :=
  match c, read with
  | some c, some (cs, rest) => some (c :: cs, rest)
  | _, _ => none

/-- A string of one line in double quotes, from behind the first of them. -/
def basic? : List Char → Option (List Char × List Char)
  | [] => none
  | '"' :: cs => some ([], cs)
  | '\\' :: 'u' :: a :: b :: c :: d :: cs => prepend? (charOfHex? [a, b, c, d]) (basic? cs)
  | '\\' :: 'U' :: a :: b :: c :: d :: e :: f :: g :: h :: cs =>
    prepend? (charOfHex? [a, b, c, d, e, f, g, h]) (basic? cs)
  | '\\' :: c :: cs => prepend? (unescape? c) (basic? cs)
  | c :: cs => if isPrintable c && c != '\\' then prepend? (some c) (basic? cs) else none

/-- A string of one line in single quotes, from behind the first of them. -/
def literal? : List Char → Option (List Char × List Char)
  | [] => none
  | '\'' :: cs => some ([], cs)
  | c :: cs => if isPrintable c then prepend? (some c) (literal? cs) else none

/-- Whether only blanks are left on the line, and the line has an end. -/
def endsLine (cs : List Char) : Bool :=
  match cs.dropWhile isBlank with
  | '\n' :: _ => true
  | '\r' :: '\n' :: _ => true
  | _ => false

/-- A string of several lines in double quotes; while `skipping`, blanks and line ends are left out. -/
def basicLines? (skipping : Bool) : List Char → Option (List Char × List Char)
  | [] => none
  | '"' :: '"' :: '"' :: '"' :: '"' :: cs => some (['"', '"'], cs)
  | '"' :: '"' :: '"' :: '"' :: cs => some (['"'], cs)
  | '"' :: '"' :: '"' :: cs => some ([], cs)
  | '\\' :: 'u' :: a :: b :: c :: d :: cs =>
    prepend? (charOfHex? [a, b, c, d]) (basicLines? false cs)
  | '\\' :: 'U' :: a :: b :: c :: d :: e :: f :: g :: h :: cs =>
    prepend? (charOfHex? [a, b, c, d, e, f, g, h]) (basicLines? false cs)
  | '\\' :: c :: cs =>
    if endsLine (c :: cs) then basicLines? true (c :: cs)
    else prepend? (unescape? c) (basicLines? false cs)
  | '\r' :: '\n' :: cs =>
    if skipping then basicLines? true cs else prepend? (some '\n') (basicLines? false cs)
  | c :: cs =>
    if skipping && (isBlank c || c == '\n') then basicLines? true cs
    else if c == '\n' || (isPrintable c && c != '\\') then prepend? (some c) (basicLines? false cs)
    else none

/-- A string of several lines in single quotes. -/
def literalLines? : List Char → Option (List Char × List Char)
  | [] => none
  | '\'' :: '\'' :: '\'' :: '\'' :: '\'' :: cs => some (['\'', '\''], cs)
  | '\'' :: '\'' :: '\'' :: '\'' :: cs => some (['\''], cs)
  | '\'' :: '\'' :: '\'' :: cs => some ([], cs)
  | '\r' :: '\n' :: cs => prepend? (some '\n') (literalLines? cs)
  | c :: cs => if c == '\n' || isPrintable c then prepend? (some c) (literalLines? cs) else none

/-- The text without a line end at its start. -/
def dropLineEnd : List Char → List Char
  | '\n' :: cs => cs
  | '\r' :: '\n' :: cs => cs
  | cs => cs

def quoted? : List Char → Option (String × List Char)
  | '"' :: '"' :: '"' :: cs => (basicLines? false (dropLineEnd cs)).map fun (s, cs) => (.ofList s, cs)
  | '\'' :: '\'' :: '\'' :: cs => (literalLines? (dropLineEnd cs)).map fun (s, cs) => (.ofList s, cs)
  | '"' :: cs => (basic? cs).map fun (s, cs) => (.ofList s, cs)
  | '\'' :: cs => (literal? cs).map fun (s, cs) => (.ofList s, cs)
  | _ => none

end ServiceTypings.Toml
