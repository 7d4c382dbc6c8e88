/-! Why a definition file cannot be converted. -/

namespace ServiceTypings

inductive ConversionError where
  | malformedInput
  | invalidName (name : String)
  | unresolvedType (token : String)
  | ambiguousType (token first second : String)
  deriving DecidableEq, Repr

namespace ConversionError

/-- The short word by which reports call the error. -/
def kind : ConversionError → String
  | malformedInput => "MalformedInput"
  | invalidName _ => "InvalidName"
  | unresolvedType _ => "UnresolvedType"
  | ambiguousType .. => "RegistryAmbiguity"

def message : ConversionError → String
  | malformedInput => "malformed definition file"
  | invalidName name => "invalid qualified name `" ++ name ++ "`"
  | unresolvedType token => "unresolved type `" ++ token ++ "`"
  | ambiguousType token first second =>
    "ambiguous type `" ++ token ++ "`: resolves to both `" ++ first ++ "` and `" ++ second ++ "`"

end ConversionError
end ServiceTypings
