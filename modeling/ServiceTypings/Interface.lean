import ServiceTypings.QualifiedName

/-! The interfaces that are declared, with their members named and typed in the target language. -/

namespace ServiceTypings

/-- A property of an interface, or a parameter of a method. -/
structure Field where
  name : String
  type : String
  comment : Option String
  deriving DecidableEq

structure Method where
  name : String
  returnType : String
  params : List Field
  comment : Option String
  deriving DecidableEq

structure Interface where
  name : QualifiedName
  fields : List Field
  methods : List Method
  comment : Option String
  deriving DecidableEq

namespace Interface

def localName (i : Interface) : String :=
  i.name.localName

def depth (i : Interface) : Nat :=
  i.name.depth

/-- The segments that lead from a namespace of depth `d` to the one that holds the interface. -/
def pathBelow (d : Nat) (i : Interface) : List String :=
  (i.name.segments.drop d).dropLast

end Interface
end ServiceTypings
