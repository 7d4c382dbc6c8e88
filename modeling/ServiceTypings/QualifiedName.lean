/-! Dotted names. A name has at least one segment; reading accepts exactly the texts whose parts between
the dots are all non-empty, and such a name prints as the text it was read from (`print_of_parse?`). -/

namespace ServiceTypings

structure QualifiedName where
  segments : List String
  nonempty : segments ≠ []
  deriving DecidableEq

namespace QualifiedName

/-- The parts of a text between its dots. -/
def partsOf (text : String) : List String :=
  (text.toList.splitOn '.').map String.ofList

theorem partsOf_ne_nil (text : String) : partsOf text ≠ [] := by
  simp [partsOf, List.splitOn_ne_nil]

def parse? (text : String) : Option QualifiedName :=
  if "" ∈ partsOf text then none else some ⟨partsOf text, partsOf_ne_nil text⟩

def print (name : QualifiedName) : String :=
  ".".intercalate name.segments

def depth (name : QualifiedName) : Nat :=
  name.segments.length

/-- The last segment. -/
def localName (name : QualifiedName) : String :=
  name.segments.getLast name.nonempty

/-- The name one level below, called `segment` there. -/
def child (name : QualifiedName) (segment : String) : QualifiedName :=
  ⟨name.segments ++ [segment], by simp⟩

def join (name relative : QualifiedName) : QualifiedName :=
  ⟨name.segments ++ relative.segments, by simp [name.nonempty]⟩

@[simp] theorem segments_child (name : QualifiedName) (segment : String) :
    (name.child segment).segments = name.segments ++ [segment] := rfl

@[simp] theorem segments_join (name relative : QualifiedName) :
    (name.join relative).segments = name.segments ++ relative.segments := rfl

/-- A name is nothing but its segments. -/
theorem eq_of_segments_eq {a b : QualifiedName} (h : a.segments = b.segments) : a = b := by
  cases a
  cases b
  subst h
  rfl

theorem depth_pos (name : QualifiedName) : 0 < name.depth :=
  List.length_pos_iff.2 name.nonempty

theorem depth_child (name : QualifiedName) (segment : String) :
    (name.child segment).depth = name.depth + 1 := by
  simp [depth, child]

theorem depth_join (name relative : QualifiedName) :
    (name.join relative).depth = name.depth + relative.depth := by
  simp [depth, join]

theorem localName_child (name : QualifiedName) (segment : String) :
    (name.child segment).localName = segment := by
  simp [localName, child]

theorem localName_join (name relative : QualifiedName) :
    (name.join relative).localName = relative.localName := by
  simp [localName, join, relative.nonempty]

theorem print_join (name relative : QualifiedName) :
    (name.join relative).print = name.print ++ "." ++ relative.print :=
  String.intercalate_append_of_ne_nil name.nonempty relative.nonempty

/-- The name reached by going down along a path. -/
theorem segments_foldl_child (name : QualifiedName) (path : List String) :
    (path.foldl child name).segments = name.segments ++ path := by
  induction path generalizing name with
  | nil => simp
  | cons segment path ih =>
    rw [List.foldl_cons, ih, segments_child, List.append_assoc, List.singleton_append]

theorem depth_foldl_child (name : QualifiedName) (path : List String) :
    (path.foldl child name).depth = name.depth + path.length := by
  rw [depth, segments_foldl_child, List.length_append, depth]

theorem intercalate_partsOf (text : String) : ".".intercalate (partsOf text) = text := by
  rw [← String.toList_inj, String.toList_intercalate, partsOf, List.map_map,
    String.toList_comp_ofList, List.map_id]
  exact List.intercalate_splitOn '.'

theorem print_of_parse? {text : String} {name : QualifiedName} (h : parse? text = some name) :
    name.print = text := by
  unfold parse? at h
  split at h
  · simp at h
  · cases h; exact intercalate_partsOf text

end QualifiedName
end ServiceTypings
