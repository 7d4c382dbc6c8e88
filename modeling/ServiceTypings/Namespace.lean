import ServiceTypings.Interface
import ServiceTypings.Keyed

/-! The tree of namespaces. An interface finds its place by its name: below a namespace of depth `d` its
segments from `d` on, the last excepted, are the way down. Namespaces on the way are made when first
needed and keep the order in which they came. An interface that is no deeper than the tree is dropped and
the tree stays as it is. -/

namespace ServiceTypings

structure Namespace where
  name : QualifiedName
  children : List Namespace
  interfaces : List Interface

inductive Insertion where
  | attached
  | dropped
  deriving DecidableEq, Repr

namespace Namespace

def empty (name : QualifiedName) : Namespace :=
  ⟨name, [], []⟩

def localName (n : Namespace) : String :=
  n.name.localName

def depth (n : Namespace) : Nat :=
  n.name.depth

/-- The local names of the children. -/
def keys (n : Namespace) : List String :=
  n.children.map localName

def child? (n : Namespace) (key : String) : Option Namespace :=
  Keyed.find? localName key n.children

/-- Changes the child of that name, which is made first if it is missing. -/
def alterChild (key : String) (change : Namespace → Namespace) (n : Namespace) : Namespace :=
  { n with
    children := Keyed.alter localName key (fun c => change (c.getD (empty (n.name.child key))))
      n.children }

def attachAt : List String → Interface → Namespace → Namespace
  | [], i, n => { n with interfaces := n.interfaces ++ [i] }
  | key :: path, i, n => n.alterChild key (attachAt path i)

def insert (n : Namespace) (i : Interface) : Insertion × Namespace :=
  if n.depth < i.depth then (.attached, n.attachAt (i.pathBelow n.depth) i) else (.dropped, n)

def insertAll (n : Namespace) (is : List Interface) : Namespace :=
  is.foldl (fun n i => (n.insert i).2) n

/-- The namespace at the end of a path, if the tree has one there. -/
def at? : List String → Namespace → Option Namespace
  | [], n => some n
  | key :: path, n => (n.child? key).bind (at? path)

mutual

/-- All interfaces of the tree, those of the children first. -/
def flatten : Namespace → List Interface
  | ⟨_, children, interfaces⟩ => flattenAll children ++ interfaces

def flattenAll : List Namespace → List Interface
  | [] => []
  | n :: ns => flatten n ++ flattenAll ns

end

def interfaceCount (n : Namespace) : Nat :=
  n.flatten.length

theorem flattenAll_eq (ns : List Namespace) : flattenAll ns = ns.flatMap flatten := by
  induction ns with
  | nil => simp [flattenAll]
  | cons n ns ih => simp [flattenAll, ih]

theorem flatten_eq (n : Namespace) : n.flatten = n.children.flatMap flatten ++ n.interfaces := by
  obtain ⟨name, children, interfaces⟩ := n
  simp [flatten, flattenAll_eq]

theorem interfaceCount_eq (n : Namespace) :
    n.interfaceCount =
      n.interfaces.length + n.children.foldr (fun c count => c.interfaceCount + count) 0 := by
  rw [interfaceCount, flatten_eq, List.length_append, Nat.add_comm]
  congr 1
  induction n.children with
  | nil => rfl
  | cons c cs ih => rw [List.flatMap_cons, List.length_append, ih, List.foldr_cons, interfaceCount]

theorem insert_fst_eq_attached_iff (n : Namespace) (i : Interface) :
    (n.insert i).1 = .attached ↔ n.depth < i.depth := by
  unfold insert
  split <;> simp_all

theorem insert_snd_of_dropped {n : Namespace} {i : Interface} (h : (n.insert i).1 = .dropped) :
    (n.insert i).2 = n := by
  unfold insert at h ⊢
  split <;> simp_all

end Namespace
end ServiceTypings
