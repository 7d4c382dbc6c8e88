import ServiceTypings.Conversion
import ServiceTypings.Registry.Builtin
import ServiceTypings.Toml.Document

/-! Settings: a TOML document that may name the root namespace and the width of comments, add definitions
to the built-in registry and lay down irregular types. Every key has to be known; those of a definition
need not be. -/

namespace ServiceTypings

structure Settings where
  rootNamespace : Option String := none
  commentWidth : Option Nat := none
  definitions : List Definition := []
  irregular : List (String × String) := []
  deriving DecidableEq, Repr

namespace Toml.Node

def string? : Node → Option String
  | string s => some s
  | _ => none

def natural? : Node → Option Nat
  | integer i => if 0 ≤ i then some i.toNat else none
  | _ => none

def items? : Node → Option (List Node)
  | array items => some items
  | tables earlier current => some (earlier ++ [current])
  | _ => none

/-- The key under which a date is seen where a table is asked for. -/
def dateTimeKey : String :=
  "$__toml_private_datetime"

def entries? : Node → Option (List (String × Node))
  | table _ entries => some entries
  | dateTime text => some [(dateTimeKey, string text)]
  | _ => none

end Toml.Node

open Toml

/-- Reads what is there, and leaves out what is missing. -/
def optional? {α : Type} (read : Node → Option α) : Option Node → Option (Option α)
  | none => some none
  | some n => (read n).map some

namespace Definition

def ofEntries? (entries : List (String × Node)) : Option Definition := do
  return {
    id := ← (← entries.lookup "id").string?
    innerName := ← optional? Node.string? (entries.lookup "inner_name")
    abbreviatedName := ← optional? Node.string? (entries.lookup "abbreviated_name")
    url := ← (← entries.lookup "url").string? }

/-- A definition is a table, or an array that gives all its texts in order. -/
def ofNode? : Node → Option Definition
  | .array (id :: inner :: abbreviated :: url :: _) => do
    return ⟨← id.string?, some (← inner.string?), some (← abbreviated.string?), ← url.string?⟩
  | n => n.entries?.bind ofEntries?

end Definition

namespace Settings

def keys : List String :=
  ["root_namespace", "comment_width", "definitions", "irregular"]

def definitions? (n : Node) : Option (List Definition) := do
  (← n.items?).mapM Definition.ofNode?

def irregular? (n : Node) : Option (List (String × String)) := do
  (← n.entries?).mapM fun (token, type) => type.string?.map (token, ·)

def ofEntries? (entries : List (String × Node)) : Option Settings := do
  guard (entries.all fun entry => entry.1 ∈ keys)
  return {
    rootNamespace := ← optional? Node.string? (entries.lookup "root_namespace")
    commentWidth := ← optional? Node.natural? (entries.lookup "comment_width")
    definitions := (← optional? definitions? (entries.lookup "definitions")).getD []
    irregular := (← optional? irregular? (entries.lookup "irregular")).getD [] }

def ofText? (text : String) : Option Settings := do
  ofEntries? (← (← Toml.read? text).entries?)

/-- The built-in registry with the settings' additions. -/
def registry (s : Settings) : Registry :=
  (Registry.builtin.addDefinitions s.definitions).extendIrregular s.irregular

def options (s : Settings) : ConversionOptions where
  rootNamespace := s.rootNamespace.getD ({} : ConversionOptions).rootNamespace
  commentWidth := s.commentWidth.getD ({} : ConversionOptions).commentWidth

end Settings
end ServiceTypings
