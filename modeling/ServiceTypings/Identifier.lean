/-! Names of members. The first dash between a word character and two more is dropped and the letter after
it raised; a property key that still holds a dash is quoted, and a parameter, which cannot be quoted, has
underscores in place of the dashes left. -/

namespace ServiceTypings.Identifier

/-- An ASCII letter or digit, or an underscore. -/
def isWordChar (c : Char) : Bool :=
  c.isAlphanum || c == '_'

def joinFirstDash : List Char → List Char
  | a :: '-' :: b :: c :: rest =>
    if isWordChar a && isWordChar b && isWordChar c then a :: b.toUpper :: c :: rest
    else a :: joinFirstDash ('-' :: b :: c :: rest)
  | a :: rest => a :: joinFirstDash rest
  | [] => []

def camelCase (name : String) : String :=
  String.ofList (joinFirstDash name.toList)

def propertyKey (name : String) : String :=
  let key := camelCase name
  if '-' ∈ key.toList then "\"" ++ key ++ "\"" else key

def parameterName (name : String) : String :=
  String.ofList ((camelCase name).toList.map fun c => if c = '-' then '_' else c)

theorem dash_not_mem_parameterName (name : String) : '-' ∉ (parameterName name).toList := by
  simp only [parameterName, String.toList_ofList, List.mem_map, not_exists, not_and]
  intro c _ h
  split at h <;> simp_all

end ServiceTypings.Identifier
