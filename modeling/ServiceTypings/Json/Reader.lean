import ServiceTypings.Json.Token

/-! Reading a JSON text: a reader holds the arrays and objects that are still open and what may come next,
and each token moves it on. A text is read if the reader is finished at its end, so nesting is bounded by
nothing but the text. -/

namespace ServiceTypings.Json

/-- An array or object that is still open; what it holds so far stands last first. -/
inductive Frame where
  | array (items : List Json)
  | object (members : List (List Glyph × Json))
  /-- An object whose last key has no value yet. -/
  | member (members : List (List Glyph × Json)) (key : List Glyph)

inductive Awaiting where
  | value
  | firstItem
  | firstKey
  | key
  | colon
  /-- A comma or the end of the innermost frame. -/
  | more
  deriving DecidableEq

inductive Reader where
  | reading (stack : List Frame) (awaiting : Awaiting)
  | finished (value : Json)

namespace Reader

def start : Reader :=
  reading [] .value

/-- Hands a complete value to the innermost frame. -/
def accept (v : Json) : List Frame → Option Reader
  | [] => some (finished v)
  | .array items :: stack => some (reading (.array (v :: items) :: stack) .more)
  | .member members key :: stack => some (reading (.object ((key, v) :: members) :: stack) .more)
  | .object _ :: _ => none

def closeArray : List Frame → Option Reader
  | .array items :: stack => accept (.array items.reverse) stack
  | _ => none

def closeObject : List Frame → Option Reader
  | .object members :: stack => accept (.object members.reverse) stack
  | _ => none

/-- The first token of a value. -/
def begin (stack : List Frame) : Token → Option Reader
  | .null => accept .null stack
  | .bool b => accept (.bool b) stack
  | .number n => accept (.number n) stack
  | .string glyphs => accept (.string glyphs) stack
  | .openArray => some (reading (.array [] :: stack) .firstItem)
  | .openObject => some (reading (.object [] :: stack) .firstKey)
  | _ => none

def takeKey : List Frame → Token → Option Reader
  | .object members :: stack, .string glyphs => some (reading (.member members glyphs :: stack) .colon)
  | _, _ => none

def takeComma : List Frame → Option Reader
  | .array items :: stack => some (reading (.array items :: stack) .value)
  | .object members :: stack => some (reading (.object members :: stack) .key)
  | _ => none

def step : Reader → Token → Option Reader
  | finished _, _ => none
  | reading stack .value, t => begin stack t
  | reading stack .firstItem, .closeArray => closeArray stack
  | reading stack .firstItem, t => begin stack t
  | reading stack .firstKey, .closeObject => closeObject stack
  | reading stack .firstKey, t => takeKey stack t
  | reading stack .key, t => takeKey stack t
  | reading stack .colon, .colon => some (reading stack .value)
  | reading _ .colon, _ => none
  | reading stack .more, .comma => takeComma stack
  | reading stack .more, .closeArray => closeArray stack
  | reading stack .more, .closeObject => closeObject stack
  | reading _ .more, _ => none

/-- Reads on to the end of the text; every token takes a character at least, so a fuel of the text's
length is enough. -/
def run : Nat → Reader → List Char → Option Reader
  | _, r, [] => some r
  | 0, _, _ :: _ => none
  | fuel + 1, r, c :: cs =>
    if isSpace c then run fuel r cs
    else
      match Token.next? (c :: cs) with
      | none => none
      | some (t, rest) =>
        match r.step t with
        | none => none
        | some r => run fuel r rest

end Reader

def read? (text : String) : Option Json :=
  match Reader.run text.length .start text.toList with
  | some (.finished v) => some v
  | _ => none

end ServiceTypings.Json
