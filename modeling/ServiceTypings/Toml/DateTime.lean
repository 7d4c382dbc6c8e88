/-! Dates and times of a TOML document. Each is written with a `T` between its date and its time, with
capital letters, and with no more digits of a second than it needs. -/

namespace ServiceTypings.Toml

structure Date where
  year : Nat
  month : Nat
  day : Nat
  deriving DecidableEq, Repr

structure Time where
  hour : Nat
  minute : Nat
  second : Nat
  nanosecond : Nat
  deriving DecidableEq, Repr

/-- The distance from universal time. -/
inductive Offset where
  | zulu
  | ahead (minutes : Int)
  deriving DecidableEq, Repr

def decimalOf (ds : List Char) : Nat :=
  ds.foldl (fun n c => n * 10 + (c.toNat - '0'.toNat)) 0

/-- A number of exactly so many digits between two bounds. -/
def fixedDigits? (count low high : Nat) (cs : List Char) : Option (Nat × List Char) :=
  let ds := cs.take count
  if ds.length = count ∧ ds.all Char.isDigit ∧ low ≤ decimalOf ds ∧ decimalOf ds ≤ high then
    some (decimalOf ds, cs.drop count)
  else none

def expect? (c : Char) : List Char → Option (List Char)
  | d :: cs => if c = d then some cs else none
  | [] => none

def isLeapYear (year : Nat) : Bool :=
  year % 4 == 0 && (year % 100 != 0 || year % 400 == 0)

def daysInMonth (year month : Nat) : Nat :=
  if month = 2 then if isLeapYear year then 29 else 28
  else if month ∈ [4, 6, 9, 11] then 30
  else 31

def date? (cs : List Char) : Option (Date × List Char) := do
  let (year, cs) ← fixedDigits? 4 0 9999 cs
  let cs ← expect? '-' cs
  let (month, cs) ← fixedDigits? 2 1 12 cs
  let cs ← expect? '-' cs
  let (day, cs) ← fixedDigits? 2 1 (daysInMonth year month) cs
  return (⟨year, month, day⟩, cs)

/-- The fraction of a second in nanoseconds; further digits are cut off. -/
def nanoseconds? : List Char → Option (Nat × List Char)
  | '.' :: cs =>
    let ds := cs.takeWhile Char.isDigit
    if ds.isEmpty then none
    else some (decimalOf ((ds ++ List.replicate 9 '0').take 9), cs.dropWhile Char.isDigit)
  | _ => none

def time? (cs : List Char) : Option (Time × List Char) := do
  let (hour, cs) ← fixedDigits? 2 0 23 cs
  let cs ← expect? ':' cs
  let (minute, cs) ← fixedDigits? 2 0 59 cs
  let cs ← expect? ':' cs
  let (second, cs) ← fixedDigits? 2 0 60 cs
  let (nanosecond, cs) := (nanoseconds? cs).getD (0, cs)
  return (⟨hour, minute, second, nanosecond⟩, cs)

def offset? : List Char → Option (Offset × List Char)
  | [] => none
  | c :: cs =>
    if c = 'Z' ∨ c = 'z' then some (.zulu, cs)
    else if c = '+' ∨ c = '-' then do
      let (hours, cs) ← fixedDigits? 2 0 23 cs
      let cs ← expect? ':' cs
      let (minutes, cs) ← fixedDigits? 2 0 59 cs
      let distance : Int := hours * 60 + minutes
      return (.ahead (if c = '+' then distance else -distance), cs)
    else none

/-- Writes a number with at least so many digits. -/
def padded (width n : Nat) : String :=
  let ds := Nat.toDigits 10 n
  String.ofList (List.replicate (width - ds.length) '0' ++ ds)

def Date.print (d : Date) : String :=
  padded 4 d.year ++ "-" ++ padded 2 d.month ++ "-" ++ padded 2 d.day

def Time.print (t : Time) : String :=
  let fraction := ((padded 9 t.nanosecond).toList.reverse.dropWhile (· == '0')).reverse
  padded 2 t.hour ++ ":" ++ padded 2 t.minute ++ ":" ++ padded 2 t.second ++
    if fraction.isEmpty then "" else "." ++ String.ofList fraction

def Offset.print : Offset → String
  | zulu => "Z"
  | ahead minutes =>
    (if minutes < 0 then "-" else "+") ++ padded 2 (minutes.natAbs / 60) ++ ":" ++
      padded 2 (minutes.natAbs % 60)

/-- The time behind a date, with its offset if it has one. -/
def timeBehind? : List Char → Option (String × List Char)
  | [] => none
  | c :: cs =>
    if c = 'T' ∨ c = 't' ∨ c = ' ' then do
      let (time, cs) ← time? cs
      match offset? cs with
      | some (offset, cs) => return ("T" ++ time.print ++ offset.print, cs)
      | none => return ("T" ++ time.print, cs)
    else none

/-- A date, a time, or both, in its written form. -/
def dateTime? (cs : List Char) : Option (String × List Char) :=
  match date? cs with
  | some (date, cs) =>
    match timeBehind? cs with
    | some (time, cs) => some (date.print ++ time, cs)
    | none => some (date.print, cs)
  | none => (time? cs).map fun (time, cs) => (time.print, cs)

end ServiceTypings.Toml
