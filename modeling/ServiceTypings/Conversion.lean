import ServiceTypings.Declarations
import ServiceTypings.Identifier
import ServiceTypings.Record.Decode
import ServiceTypings.TypeToken

/-! From a definition file to the text of its declarations. Every name and type is settled before the tree
is built, so one bad token stops the whole file; the first one in the order of the records is reported. -/

namespace ServiceTypings

structure ConversionOptions where
  /-- The namespace around all declarations. -/
  rootNamespace : String := "GoogleAppsScript"
  commentWidth : Nat := 80
  deriving DecidableEq, Repr

/-- A registry with a root namespace whose name is known to be good. -/
structure Converter where
  registry : Registry
  root : QualifiedName
  commentWidth : Nat

namespace Converter

def ofOptions (registry : Registry) (options : ConversionOptions) :
    Except ConversionError Converter :=
  match QualifiedName.parse? options.rootNamespace with
  | some root => .ok ⟨registry, root, options.commentWidth⟩
  | none => .error (.invalidName options.rootNamespace)

/-- The name that an object's token gives it below the root. -/
def relativeName (c : Converter) (token : String) : Except ConversionError QualifiedName := do
  let text ← c.registry.typeOf token
  match QualifiedName.parse? text with
  | some name => .ok name
  | none => .error (.invalidName text)

def field (c : Converter) (r : FieldRecord) : Except ConversionError Field := do
  return ⟨Identifier.propertyKey r.name, ← c.registry.typeOf r.typeToken, r.comment⟩

def parameter (c : Converter) (r : FieldRecord) : Except ConversionError Field := do
  return ⟨Identifier.parameterName r.name, ← c.registry.typeOf r.typeToken, r.comment⟩

def method (c : Converter) (r : MethodRecord) : Except ConversionError Method := do
  let params ← r.args.mapM c.parameter
  return ⟨Identifier.propertyKey r.name, ← c.registry.typeOf r.returnToken, params, r.comment⟩

def interface (c : Converter) (r : ObjectRecord) : Except ConversionError Interface := do
  let relative ← c.relativeName r.name
  let fields ← r.fields.mapM c.field
  let methods ← r.methods.mapM c.method
  return ⟨c.root.join relative, fields, methods, r.comment⟩

def build (c : Converter) (file : DefinitionFile) : Except ConversionError Declarations := do
  let main ← c.interface file.main
  let classes ← file.classes.mapM c.interface
  return ⟨(Namespace.empty c.root).insertAll (main :: classes), main.name⟩

def convert (c : Converter) (source : String) : Except ConversionError String :=
  match DefinitionFile.ofText? source with
  | none => .error .malformedInput
  | some file => (c.build file).map (Declarations.print c.commentWidth)

end Converter
end ServiceTypings
