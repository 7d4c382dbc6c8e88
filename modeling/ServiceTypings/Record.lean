/-! The records of a definition file. -/

namespace ServiceTypings

/-- A property of an object, or an argument of a method. -/
structure FieldRecord where
  name : String
  typeToken : String
  comment : Option String
  deriving DecidableEq

structure MethodRecord where
  name : String
  returnToken : String
  args : List FieldRecord
  comment : Option String
  deriving DecidableEq

structure ObjectRecord where
  name : String
  fields : List FieldRecord
  methods : List MethodRecord
  comment : Option String
  deriving DecidableEq

/-- The service's own object and the classes that it uses. -/
structure DefinitionFile where
  main : ObjectRecord
  classes : List ObjectRecord
  deriving DecidableEq

end ServiceTypings
