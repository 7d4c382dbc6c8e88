import ServiceTypings.Json.Reader
import ServiceTypings.Record

/-! Decoding of definition files. A record is an object with numbered keys, or the array of its values in
the order of those keys; what is missing at the end of the array is missing from the record. A list that
is not an array is empty, and a comment may be null. The values of a list are read in full; of the file
and of its main object, whatever has no meaning is passed over, but no key with a meaning may be repeated.
Nesting is counted from the start of the text. -/

namespace ServiceTypings

namespace Json

def string? : Json → Option String
  | string glyphs => textOf? glyphs
  | _ => none

def keyed (key : String) (member : List Glyph × Json) : Bool :=
  textOf? member.1 = some key

/-- The value of a record with the given keys at one of them; of a repeated key the last counts. -/
def at? (keys : List String) (key : String) : Json → Option Json
  | array items => items[keys.idxOf key]?
  | object members => (members.reverse.find? (keyed key)).map Prod.snd
  | _ => none

/-- Whether the value can be a record with these keys at all. -/
def isRecord (keys : List String) : Json → Bool
  | array items => items.length ≤ keys.length
  | object _ => true
  | _ => false

/-- Every key of the object is a text, and none of `keys` is repeated. -/
def keysDistinct (keys : List String) : Json → Bool
  | object members =>
    members.all (fun m => (textOf? m.1).isSome) &&
      keys.all fun key => (members.filter (keyed key)).length ≤ 1
  | _ => true

end Json

open Json

namespace Record

/-- Text that has to be there. -/
def text? : Option Json → Option String
  | some v => v.string?
  | none => none

def comment? : Option Json → Option (Option String)
  | none => some none
  | some .null => some none
  | some v => v.string?.map some

def list? {α : Type} (decode : Json → Option α) : Option Json → Option (List α)
  | some (.array items) => items.mapM decode
  | _ => some []

/-- The value can be read in full, if it is there. -/
def readable? (levels : Nat) (v : Option Json) : Bool :=
  v.all (Json.readable levels)

end Record

/-- The levels of nesting that a text may have where it is read in full. -/
def nestingLimit : Nat :=
  127

namespace FieldRecord

def keys : List String :=
  ["1", "2", "6"]

def decode? (v : Json) : Option FieldRecord := do
  guard (v.isRecord keys)
  return {
    name := ← Record.text? (v.at? keys "1")
    typeToken := ← Record.text? (v.at? keys "2")
    comment := ← Record.comment? (v.at? keys "6") }

end FieldRecord

namespace MethodRecord

def keys : List String :=
  ["1", "2", "3", "6"]

def decode? (v : Json) : Option MethodRecord := do
  guard (v.isRecord keys)
  return {
    name := ← Record.text? (v.at? keys "1")
    returnToken := ← Record.text? (v.at? keys "2")
    args := ← Record.list? FieldRecord.decode? (v.at? keys "3")
    comment := ← Record.comment? (v.at? keys "6") }

end MethodRecord

namespace ObjectRecord

def keys : List String :=
  ["1", "2", "3", "6"]

def decode? (v : Json) : Option ObjectRecord := do
  guard (v.isRecord keys)
  return {
    name := ← Record.text? (v.at? keys "1")
    fields := ← Record.list? FieldRecord.decode? (v.at? keys "2")
    methods := ← Record.list? MethodRecord.decode? (v.at? keys "3")
    comment := ← Record.comment? (v.at? keys "6") }

/-- Decodes a record that is not part of a list and lies `level` levels deep in its text. -/
def decodeAt? (level : Nat) (v : Json) : Option ObjectRecord := do
  guard (v.keysDistinct keys)
  guard (Record.readable? (nestingLimit - level) (v.at? keys "2"))
  guard (Record.readable? (nestingLimit - level) (v.at? keys "3"))
  decode? v

def ofText? (text : String) : Option ObjectRecord :=
  (Json.read? text).bind (decodeAt? 1)

end ObjectRecord

namespace DefinitionFile

def keys : List String :=
  ["1", "2"]

def decode? (v : Json) : Option DefinitionFile := do
  guard (v.isRecord keys)
  guard (v.keysDistinct keys)
  guard (Record.readable? (nestingLimit - 1) (v.at? keys "2"))
  return {
    main := ← ObjectRecord.decodeAt? 2 (← v.at? keys "1")
    classes := ← Record.list? ObjectRecord.decode? (v.at? keys "2") }

def ofText? (text : String) : Option DefinitionFile :=
  (Json.read? text).bind decode?

end DefinitionFile
end ServiceTypings
