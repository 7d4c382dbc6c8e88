import ServiceTypings.Toml.Node

/-! Numbers of a TOML document. An underscore may stand between two digits; a decimal number has no
leading zeros; an integer fits 64 bits and a float does not run over to infinity. -/

namespace ServiceTypings.Toml

/-- The digits at the start of a text, an underscore between any two of them passed over. -/
def spacedDigits (isDigit : Char → Bool) : List Char → List Char × List Char
  | '_' :: c :: cs =>
    if isDigit c then
      let (ds, rest) := spacedDigits isDigit cs
      (c :: ds, rest)
    else ([], '_' :: c :: cs)
  | c :: cs =>
    if isDigit c then
      let (ds, rest) := spacedDigits isDigit cs
      (c :: ds, rest)
    else ([], c :: cs)
  | [] => ([], [])

/-- At least one digit, the first without an underscore before it. -/
def someDigits? (isDigit : Char → Bool) : List Char → Option (List Char × List Char)
  | [] => none
  | c :: cs =>
    if isDigit c then
      let (ds, rest) := spacedDigits isDigit cs
      some (c :: ds, rest)
    else none

def digitOf (c : Char) : Nat :=
  if c.isDigit then c.toNat - '0'.toNat
  else if 'a' ≤ c then c.toNat - 'a'.toNat + 10
  else c.toNat - 'A'.toNat + 10

def valueIn (base : Nat) (ds : List Char) : Nat :=
  ds.foldl (fun n c => n * base + digitOf c) 0

def isHexDigit (c : Char) : Bool :=
  c.isDigit || ('a' ≤ c && c ≤ 'f') || ('A' ≤ c && c ≤ 'F')

def sign : List Char → Bool × List Char
  | '-' :: cs => (true, cs)
  | '+' :: cs => (false, cs)
  | cs => (false, cs)

/-- The digits of a whole number: a zero alone, or any that begin with another digit. -/
def wholeDigits? : List Char → Option (List Char × List Char)
  | '0' :: cs => some (['0'], cs)
  | cs => someDigits? Char.isDigit cs

/-- Half the numbers of a word of 64 bits. -/
def wordBound : Int :=
  9223372036854775808

def inWord (i : Int) : Option Int :=
  if -wordBound ≤ i ∧ i < wordBound then some i else none

def integer? : List Char → Option (Int × List Char)
  | '0' :: 'x' :: cs => radix 16 isHexDigit cs
  | '0' :: 'o' :: cs => radix 8 (fun c => '0' ≤ c && c ≤ '7') cs
  | '0' :: 'b' :: cs => radix 2 (fun c => c == '0' || c == '1') cs
  | cs => do
    let (negative, cs) := sign cs
    let (ds, cs) ← wholeDigits? cs
    let n : Int := valueIn 10 ds
    return (← inWord (if negative then -n else n), cs)
where
  radix (base : Nat) (isDigit : Char → Bool) (cs : List Char) : Option (Int × List Char) := do
    let (ds, cs) ← someDigits? isDigit cs
    return (← inWord (valueIn base ds), cs)

/-- Whether `significand * 10 ^ exponent` rounds to infinity in double precision. A significand of `b`
bits is below `2 ^ b`, and dividing by ten takes three bits at least. -/
def overflows (significand : Nat) (exponent : Int) : Bool :=
  let bound := Nat.pow 2 1024 - Nat.pow 2 970
  if significand = 0 then false
  else if 0 ≤ exponent then exponent > 400 || bound ≤ significand * Nat.pow 10 exponent.toNat
  else if significand.log2 + 1 ≤ 3 * exponent.natAbs + 1000 then false
  else bound * Nat.pow 10 exponent.natAbs ≤ significand

def pointDigits? : List Char → Option (List Char × List Char)
  | '.' :: cs => someDigits? Char.isDigit cs
  | _ => none

def powerOfTen? : List Char → Option (Int × List Char)
  | [] => none
  | c :: cs =>
    if c = 'e' ∨ c = 'E' then do
      let (negative, cs) := sign cs
      let (ds, cs) ← someDigits? Char.isDigit cs
      let n : Int := valueIn 10 ds
      return (if negative then -n else n, cs)
    else none

def special? : List Char → Option (Bool × List Char)
  | 'i' :: 'n' :: 'f' :: cs => some (true, cs)
  | 'n' :: 'a' :: 'n' :: cs => some (false, cs)
  | _ => none

/-- What makes a number a float: a power of ten, or a point with digits and then perhaps a power. -/
def scale? (cs : List Char) : Option (List Char × Int × List Char) :=
  match powerOfTen? cs with
  | some (exponent, cs) => some ([], exponent, cs)
  | none =>
    (pointDigits? cs).map fun (fraction, cs) =>
      let (exponent, cs) := (powerOfTen? cs).getD (0, cs)
      (fraction, exponent, cs)

/-- Only an overflow to positive infinity is refused. -/
def decimal? (cs : List Char) : Option (FloatValue × List Char) := do
  let (negative, cs) := sign cs
  let (whole, cs) ← wholeDigits? cs
  let (fraction, exponent, cs) ← scale? cs
  let significand := valueIn 10 (whole ++ fraction)
  let exponent := exponent - fraction.length
  if !negative && overflows significand exponent then none
  else return (.decimal negative significand exponent, cs)

def float? (cs : List Char) : Option (FloatValue × List Char) :=
  match decimal? cs with
  | some found => some found
  | none =>
    let (negative, cs) := sign cs
    (special? cs).map fun (infinite, cs) => (if infinite then .infinity negative else .notANumber, cs)

end ServiceTypings.Toml
