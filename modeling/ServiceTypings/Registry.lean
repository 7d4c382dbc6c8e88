import ServiceTypings.Keyed

/-! The registry: the services a definition file may speak of, one for each id, and the irregular tokens
whose type is laid down. A later definition takes the place of an earlier one of the same id, and a later
type that of an earlier one of the same token. -/

namespace ServiceTypings

structure Definition where
  id : String
  /-- The package by which tokens call the service. -/
  innerName : Option String
  /-- The start of the service's own tokens, its last dot included. -/
  abbreviatedName : Option String
  /-- Where the service's definition file is found. -/
  url : String
  deriving DecidableEq, Repr

/-- The start of a fully qualified token, known when both names are. -/
def Definition.packageStart (d : Definition) : Option String := do
  return (← d.innerName) ++ "." ++ (← d.abbreviatedName)

structure Registry where
  definitions : List Definition
  irregular : List (String × String)
  deriving DecidableEq, Repr

namespace Registry

def empty : Registry :=
  ⟨[], []⟩

def find? (r : Registry) (id : String) : Option Definition :=
  Keyed.find? Definition.id id r.definitions

def irregular? (r : Registry) (token : String) : Option String :=
  (Keyed.find? Prod.fst token r.irregular).map Prod.snd

def addDefinition (r : Registry) (d : Definition) : Registry :=
  { r with definitions := Keyed.put Definition.id d r.definitions }

def addDefinitions (r : Registry) (ds : List Definition) : Registry :=
  ds.foldl addDefinition r

def addIrregular (r : Registry) (entry : String × String) : Registry :=
  { r with irregular := Keyed.put Prod.fst entry r.irregular }

def extendIrregular (r : Registry) (entries : List (String × String)) : Registry :=
  entries.foldl addIrregular r

theorem find?_addDefinition_self (r : Registry) (d : Definition) :
    (r.addDefinition d).find? d.id = some d :=
  Keyed.find?_alter_self Definition.id d.id (fun _ => d) (fun _ => rfl) r.definitions

theorem find?_addDefinition_of_ne (r : Registry) {d : Definition} {id : String} (h : id ≠ d.id) :
    (r.addDefinition d).find? id = r.find? id :=
  Keyed.find?_alter_of_ne Definition.id (fun _ => d) (fun _ => rfl) h r.definitions

theorem irregular?_addIrregular_self (r : Registry) (token type : String) :
    (r.addIrregular (token, type)).irregular? token = some type := by
  simp only [irregular?, addIrregular, Keyed.put]
  rw [Keyed.find?_alter_self Prod.fst token (fun _ => (token, type)) (fun _ => rfl)]
  rfl

theorem irregular?_addIrregular_of_ne (r : Registry) {token other type : String}
    (h : other ≠ token) : (r.addIrregular (token, type)).irregular? other = r.irregular? other := by
  simp only [irregular?, addIrregular, Keyed.put]
  rw [Keyed.find?_alter_of_ne Prod.fst (fun _ => (token, type)) (fun _ => rfl) h]

end Registry
end ServiceTypings
