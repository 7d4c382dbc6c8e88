import ServiceTypings.Json.Number

/-! JSON values as they are written: members keep their order and may repeat a key, and a string keeps
its escaped units, which need not make up a text. A value can be read in full if all its strings are
texts, all its numbers are in range, and it is not nested too deep. -/

namespace ServiceTypings

namespace Json

/-- A piece of a string: a character, or a unit of UTF-16 given by its number. -/
inductive Glyph where
  | char (c : Char)
  | unit (n : Nat)
  deriving DecidableEq, Repr

def isHighSurrogate (n : Nat) : Bool :=
  0xD800 ≤ n && n ≤ 0xDBFF

def isLowSurrogate (n : Nat) : Bool :=
  0xDC00 ≤ n && n ≤ 0xDFFF

/-- The character that a high and a low surrogate stand for together. -/
def pairedChar (high low : Nat) : Char :=
  Char.ofNat (0x10000 + (high - 0xD800) * 0x400 + (low - 0xDC00))

/-- The characters of a string. Surrogates have to come in pairs, the high one first. -/
def chars? : List Glyph → Option (List Char)
  | [] => some []
  | .char c :: rest => (chars? rest).map (c :: ·)
  | .unit n :: .unit m :: rest =>
    if isHighSurrogate n then
      if isLowSurrogate m then (chars? rest).map (pairedChar n m :: ·) else none
    else if isLowSurrogate n then none
    else (chars? (.unit m :: rest)).map (Char.ofNat n :: ·)
  | .unit n :: rest =>
    if isHighSurrogate n || isLowSurrogate n then none else (chars? rest).map (Char.ofNat n :: ·)

def textOf? (glyphs : List Glyph) : Option String :=
  (chars? glyphs).map String.ofList

end Json

inductive Json where
  | null
  | bool (b : Bool)
  | number (n : Json.Number)
  | string (glyphs : List Json.Glyph)
  | array (items : List Json)
  | object (members : List (List Json.Glyph × Json))

namespace Json

mutual

/-- Whether the value can be read in full with at most `levels` levels of nesting. -/
def readable : Nat → Json → Bool
  | _, null => true
  | _, bool _ => true
  | _, number n => n.inRange
  | _, string glyphs => (textOf? glyphs).isSome
  | 0, array _ => false
  | levels + 1, array items => readableItems levels items
  | 0, object _ => false
  | levels + 1, object members => readableMembers levels members

def readableItems : Nat → List Json → Bool
  | _, [] => true
  | levels, v :: vs => readable levels v && readableItems levels vs

def readableMembers : Nat → List (List Glyph × Json) → Bool
  | _, [] => true
  | levels, (key, v) :: ms => (textOf? key).isSome && readable levels v && readableMembers levels ms

end

end Json
end ServiceTypings
