import ServiceTypings.Comment
import ServiceTypings.Namespace

/-! The text of a tree of namespaces. It is a list of lines, each with its depth; a line is printed with
two spaces for each level and without blanks at its end. Within a namespace the children come first, then
the interfaces; a comment stands above what it speaks of. After the tree one line binds the name of the
main interface. -/

namespace ServiceTypings

structure Line where
  depth : Nat
  text : String
  deriving DecidableEq, Repr

def Line.print (l : Line) : String :=
  Text.trimEnd (String.ofList (List.replicate (2 * l.depth) ' ') ++ l.text) ++ "\n"

def commentLines (width depth : Nat) : Option String → List Line
  | none => []
  | some comment => (Comment.wrap width comment).map fun entry => ⟨depth, "// " ++ entry⟩

namespace Field

def declaration (f : Field) : String :=
  f.name ++ "?: " ++ f.type ++ ";"

def parameter (f : Field) : String :=
  f.name ++ ": " ++ f.type

def lines (width depth : Nat) (f : Field) : List Line :=
  commentLines width depth f.comment ++ [⟨depth, f.declaration⟩]

end Field

namespace Method

def declaration (m : Method) : String :=
  m.name ++ "(" ++ ", ".intercalate (m.params.map Field.parameter) ++ "): " ++ m.returnType ++ ";"

def lines (width depth : Nat) (m : Method) : List Line :=
  commentLines width depth m.comment ++ [⟨depth, m.declaration⟩]

end Method

namespace Interface

def header (i : Interface) : String :=
  "export interface " ++ i.localName ++ " \x7b"

def lines (width depth : Nat) (i : Interface) : List Line :=
  commentLines width depth i.comment ++ [⟨depth, i.header⟩] ++
    i.fields.flatMap (Field.lines width (depth + 1)) ++
    i.methods.flatMap (Method.lines width (depth + 1)) ++ [⟨depth, "\x7d"⟩]

end Interface

namespace Namespace

/-- Only the outermost namespace is declared; those inside it follow from it. -/
def header (depth : Nat) (label : String) : String :=
  (if depth = 0 then "declare namespace " else "namespace ") ++ label ++ " \x7b"

mutual

def lines (width depth : Nat) : Namespace → List Line
  | ⟨name, children, interfaces⟩ =>
    [⟨depth, header depth name.localName⟩] ++ linesOfAll width (depth + 1) children ++
      interfaces.flatMap (Interface.lines width (depth + 1)) ++ [⟨depth, "\x7d"⟩]

def linesOfAll (width depth : Nat) : List Namespace → List Line
  | [] => []
  | n :: ns => lines width depth n ++ linesOfAll width depth ns

end

theorem linesOfAll_eq (width depth : Nat) (ns : List Namespace) :
    linesOfAll width depth ns = ns.flatMap (lines width depth) := by
  induction ns with
  | nil => simp [linesOfAll]
  | cons n ns ih => simp [linesOfAll, ih]

theorem lines_eq (width depth : Nat) (n : Namespace) :
    n.lines width depth =
      [⟨depth, header depth n.localName⟩] ++ n.children.flatMap (lines width (depth + 1)) ++
        n.interfaces.flatMap (Interface.lines width (depth + 1)) ++ [⟨depth, "\x7d"⟩] := by
  obtain ⟨name, children, interfaces⟩ := n
  simp [lines, linesOfAll_eq, localName]

end Namespace

/-- A tree of namespaces and the name of the interface that the service itself has. -/
structure Declarations where
  root : Namespace
  main : QualifiedName

namespace Declarations

/-- The line that declares the service's global name. -/
def binding (main : QualifiedName) : String :=
  "declare const " ++ main.localName ++ ": " ++ main.print ++ ";"

def print (width : Nat) (d : Declarations) : String :=
  String.join ((d.root.lines width 0).map Line.print) ++ "\n" ++ binding d.main ++ "\n"

end Declarations
end ServiceTypings
