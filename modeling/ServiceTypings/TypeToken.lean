import ServiceTypings.ConversionError
import ServiceTypings.Registry

/-! What the type tokens of a definition file mean. A primitive token has its fixed type; an irregular one
the type laid down for it; any other is resolved by the definitions that match it. Of the matches the
longest decide, and they have to agree. -/

namespace ServiceTypings

namespace TypeToken

def primitive? : String → Option String
  | "Integer" => some "number"
  | "Integer[]" => some "number[]"
  | "Number" => some "number"
  | "String" => some "string"
  | "String[]" => some "string[]"
  | "String[][]" => some "string[][]"
  | "Byte[]" => some "string"
  | "Boolean" => some "boolean"
  | "Boolean[]" => some "boolean[]"
  | "Object" => some "object"
  | "Object[]" => some "object[]"
  | "Object[][]" => some "object[][]"
  | "Blob" => some "Blob"
  | "void" => some "void"
  | _ => none

/-- What is left of a list after its start. -/
def dropStart? {α : Type} [DecidableEq α] : List α → List α → Option (List α)
  | [], text => some text
  | _ :: _, [] => none
  | c :: start, d :: text => if c = d then dropStart? start text else none

theorem dropStart?_eq_some_iff {α : Type} [DecidableEq α] {start text rest : List α} :
    dropStart? start text = some rest ↔ text = start ++ rest := by
  induction start generalizing text with
  | nil => simp [dropStart?]
  | cons c start ih =>
    cases text with
    | nil => simp [dropStart?]
    | cons d text =>
      by_cases h : c = d
      · simp [dropStart?, h, ih]
      · simp [dropStart?, h, Ne.symm h]

/-- What is left of the token after `start`, if it begins so. -/
def after? (start token : String) : Option String :=
  (dropStart? start.toList token.toList).map String.ofList

theorem after?_eq_some_iff {start token rest : String} :
    after? start token = some rest ↔ token = start ++ rest := by
  simp only [after?, Option.map_eq_some_iff, dropStart?_eq_some_iff]
  constructor
  · rintro ⟨l, h, rfl⟩
    rw [← String.toList_inj, String.toList_append, String.toList_ofList, h]
  · rintro rfl
    exact ⟨rest.toList, by simp, String.ofList_toList⟩

/-- A way to read a token: the start of it that a definition knows, and the type that follows. -/
structure Match where
  start : String
  type : String
  deriving DecidableEq, Repr

def Match.length (m : Match) : Nat :=
  m.start.length

/-- The matches no other is longer than. -/
def longest (ms : List Match) : List Match :=
  ms.filter fun m => ms.all fun other => other.length ≤ m.length

theorem mem_longest_iff {m : Match} {ms : List Match} :
    m ∈ longest ms ↔ m ∈ ms ∧ ∀ other ∈ ms, other.length ≤ m.length := by
  simp [longest]

end TypeToken

open TypeToken

namespace Definition

/-- The token is the definition's inner name. -/
def matchInner (d : Definition) (token : String) : Option Match :=
  if d.innerName = some token then some ⟨token, d.id⟩ else none

/-- The token begins with the definition's package; the rest is a name below its id. -/
def matchPackage (d : Definition) (token : String) : Option Match := do
  let start ← d.packageStart
  let rest ← after? start token
  return ⟨start, if rest = "" then d.id else d.id ++ "." ++ rest⟩

/-- The token begins with the abbreviated name and goes on; the rest alone is the type. -/
def matchAbbreviated (d : Definition) (token : String) : Option Match := do
  let start ← d.abbreviatedName
  let rest ← after? start token
  if rest = "" then none else return ⟨start, rest⟩

def matchesOf (d : Definition) (token : String) : List Match :=
  (d.matchInner token).toList ++ (d.matchPackage token).toList ++ (d.matchAbbreviated token).toList

end Definition

namespace Registry

def matchesOf (r : Registry) (token : String) : List Match :=
  r.definitions.flatMap (·.matchesOf token)

/-- Two longest matches that disagree are both named, the first in the registry's order and the first
that differs from it. -/
def resolve (r : Registry) (token : String) : Except ConversionError String :=
  match longest (r.matchesOf token) with
  | [] => .error (.unresolvedType token)
  | m :: rest =>
    match rest.find? (·.type ≠ m.type) with
    | some other => .error (.ambiguousType token m.type other.type)
    | none => .ok m.type

def typeOf (r : Registry) (token : String) : Except ConversionError String :=
  match primitive? token with
  | some type => .ok type
  | none =>
    match r.irregular? token with
    | some type => .ok type
    | none => r.resolve token

end Registry
end ServiceTypings
