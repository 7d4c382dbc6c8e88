import ServiceTypings.Toml.Statement

/-! Reading a TOML document: its statements are carried out in order on the table that is the document.
An entry goes below the table of the last header; a statement that may not add to what is there makes the
document as a whole unreadable. -/

namespace ServiceTypings.Toml

/-- The document so far, and the path of the table to which entries go. -/
structure Draft where
  root : Node
  place : List String

namespace Draft

def start : Draft :=
  ⟨.table .opened [], []⟩

def apply (d : Draft) : Statement → Option Draft
  | .entry path key value =>
    (Node.alterAt .implied (Node.assign path key value) d.place d.root).map fun root =>
      { d with root }
  | .header path key => (Node.openTable path key d.root).map fun root => ⟨root, path ++ [key]⟩
  | .element path key => (Node.extendTables path key d.root).map fun root => ⟨root, path ++ [key]⟩

end Draft

/-- A mark of the byte order is allowed at the start. -/
def dropOrderMark : List Char → List Char
  | '\ufeff' :: cs => cs
  | cs => cs

def read? (text : String) : Option Node := do
  let statements ← statements? text.length (dropOrderMark text.toList)
  let draft ← statements.foldlM Draft.apply .start
  return draft.root

end ServiceTypings.Toml
