import ServiceTypings.Proofs.FirstFault
import ServiceTypings.Proofs.ShownLine

/-! The root namespace is a label. What an interface has above the root, its name alone knows, and a tree
reads of a name only what lies below its own; so two trees whose interfaces agree below their roots are
printed alike between the first header and the last line (`Grown.inner_eq`), however deep the roots are. No
error depends on the root either, and the texts of one source under two roots differ only where the roots
stand in them (`convert_labelled`). -/

namespace ServiceTypings

section

variable {α β γ : Type}

theorem flatMap_eq_of_forall₂ {f : α → List γ} {g : β → List γ} {xs : List α} {ys : List β}
    (h : List.Forall₂ (fun x y => f x = g y) xs ys) : xs.flatMap f = ys.flatMap g := by
  induction h with
  | nil => rfl
  | cons hxy _ ih => rw [List.flatMap_cons, List.flatMap_cons, hxy, ih]

theorem filterMap_eq_of_forall₂ {f : α → Option γ} {g : β → Option γ} {xs : List α} {ys : List β}
    (h : List.Forall₂ (fun x y => f x = g y) xs ys) : xs.filterMap f = ys.filterMap g := by
  induction h with
  | nil => rfl
  | cons hxy _ ih => rw [List.filterMap_cons, List.filterMap_cons, hxy, ih]

theorem forall₂_and_mem {R : α → β → Prop} {xs : List α} {ys : List β} (h : List.Forall₂ R xs ys) :
    List.Forall₂ (fun x y => x ∈ xs ∧ y ∈ ys ∧ R x y) xs ys := by
  have hright := forall₂_imp_of_mem h.flip fun _ hy _ hxy => And.intro hy hxy
  exact forall₂_imp_of_mem hright.flip fun _ hx _ hxy => ⟨hx, hxy⟩

end

namespace Interface

/-- Seen from below depth `d` the one interface, and from below depth `d'` the other, are the same. -/
structure SameBelow (d d' : Nat) (i j : Interface) : Prop where
  path : i.pathBelow d = j.pathBelow d'
  localName : i.localName = j.localName
  fields : i.fields = j.fields
  methods : i.methods = j.methods
  comment : i.comment = j.comment

variable {d d' : Nat} {i j : Interface}

theorem SameBelow.succ (h : SameBelow d d' i j) : SameBelow (d + 1) (d' + 1) i j := by
  refine ⟨?_, h.localName, h.fields, h.methods, h.comment⟩
  rw [pathBelow_succ, pathBelow_succ, h.path]

theorem SameBelow.lines_eq (h : SameBelow d d' i j) (width depth : Nat) :
    i.lines width depth = j.lines width depth := by
  have hheader : i.header = j.header := by
    unfold header
    rw [h.localName]
  unfold lines
  rw [hheader, h.fields, h.methods, h.comment]

theorem sameBelow_join (name name' relative : QualifiedName) (fields : List Field)
    (methods : List Method) (comment : Option String) :
    SameBelow name.depth name'.depth ⟨name.join relative, fields, methods, comment⟩
      ⟨name'.join relative, fields, methods, comment⟩ := by
  refine ⟨?_, ?_, rfl, rfl, rfl⟩
  · rw [pathBelow_of_name_eq_join rfl, pathBelow_of_name_eq_join rfl]
  · rw [Interface.localName, Interface.localName, QualifiedName.localName_join,
      QualifiedName.localName_join]

end Interface

namespace Namespace

/-- Trees grown from interfaces that are the same below are the same inside. -/
theorem Grown.inner_eq {name name' : QualifiedName} {is js : List Interface} {n m : Namespace}
    (h : Grown name is n) (h' : Grown name' js m)
    (hsame : List.Forall₂ (Interface.SameBelow name.depth name'.depth) is js) (width depth : Nat) :
    n.inner width depth = m.inner width depth := by
  induction h generalizing name' js m depth with
  | @mk name is children keys below ih =>
    cases h' with
    | @mk _ _ children' keys' below' =>
      have hselect : ∀ key?, List.Forall₂ (Interface.SameBelow name.depth name'.depth)
          (is.filter fun i => (i.pathBelow name.depth).head? = key?)
          (js.filter fun j => (j.pathBelow name'.depth).head? = key?) := by
        intro key?
        refine List.rel_filter (fun i j hij => ?_) hsame
        simp only [hij.path]
      have hkeys : children.map localName = children'.map localName := by
        rw [keys, keys',
          filterMap_eq_of_forall₂ (hsame.imp fun _ _ hij => congrArg List.head? hij.path)]
      have hchildren : List.Forall₂ (fun c c' => c.lines width depth = c'.lines width depth)
          children children' := by
        rw [← List.forall₂_eq_eq_eq, List.forall₂_map_left_iff, List.forall₂_map_right_iff] at hkeys
        refine (forall₂_and_mem hkeys).imp fun c c' hc => ?_
        obtain ⟨hmem, hmem', hname⟩ := hc
        -- both children are one level deeper than the trees, so their interfaces agree as before
        have hbelow := (hselect (some c.localName)).imp fun _ _ => Interface.SameBelow.succ
        rw [← QualifiedName.depth_child name c.localName,
          ← QualifiedName.depth_child name' c.localName] at hbelow
        have hgrown := below' c' hmem'
        rw [← hname] at hgrown
        rw [lines_eq_inner, lines_eq_inner, ih c hmem hgrown hbelow, hname]
      have hinterfaces := (hselect none).imp fun _ _ hij => hij.lines_eq width depth
      rw [inner, inner, flatMap_eq_of_forall₂ hchildren, flatMap_eq_of_forall₂ hinterfaces]

end Namespace

namespace Declarations

/-- A text below a root: the header that declares the root's last segment, what stands below it, and the
line that binds the main name under the whole root. -/
def labelled (root : QualifiedName) (body : String) (main : QualifiedName) : String :=
  "declare namespace " ++ root.localName ++ " \x7b\n" ++ body ++
    "declare const " ++ main.localName ++ ": " ++ root.print ++ "." ++ main.print ++ ";\n"

/-- The text of a tree from its second line to the empty one. -/
def body (width : Nat) (tree : Namespace) : String :=
  String.join ((tree.inner width 1 ++ [(⟨0, "\x7d"⟩ : Line)]).map Line.print) ++ "\n"

theorem binding_join (root main : QualifiedName) :
    binding (root.join main) =
      "declare const " ++ main.localName ++ ": " ++ root.print ++ "." ++ main.print ++ ";" := by
  unfold binding
  rw [QualifiedName.localName_join, QualifiedName.print_join]
  simp only [String.append_assoc]

theorem print_eq_labelled {d : Declarations} {root main : QualifiedName} (hroot : d.root.name = root)
    (hmain : d.main = root.join main) (width : Nat) :
    d.print width = labelled root (body width d.root) main := by
  unfold print labelled body
  rw [Namespace.lines_eq_inner, List.map_cons, String.join_cons, Line.print_eq,
    Namespace.shown_rootHeader, hmain, binding_join, Namespace.localName, hroot]
  simp only [String.append_assoc]
  rfl

end Declarations

theorem error?_map {ε α β : Type} (f : α → β) (x : Except ε α) : error? (x.map f) = error? x := by
  cases x with
  | error e => rfl
  | ok a => rfl

namespace Converter

section

variable {registry : Registry} {root : QualifiedName} {width : Nat} (root' : QualifiedName)

/-- Of two converters that differ in the root alone, one makes of a record what the other does, each below
its own root. -/
theorem exists_sameBelow_of_interface_eq_ok {r : ObjectRecord} {i : Interface}
    (h : (⟨registry, root, width⟩ : Converter).interface r = .ok i) :
    ∃ j relative, (⟨registry, root', width⟩ : Converter).interface r = .ok j ∧
      i.name = root.join relative ∧ j.name = root'.join relative ∧
      Interface.SameBelow root.depth root'.depth i j := by
  obtain ⟨relative, fields, methods, hrelative, hfields, hmethods, rfl⟩ := interface_eq_ok_iff.1 h
  refine ⟨⟨root'.join relative, fields, methods, r.comment⟩, relative, ?_, rfl, rfl,
    Interface.sameBelow_join ..⟩
  exact interface_eq_ok_iff.2 ⟨relative, fields, methods, hrelative, hfields, hmethods, rfl⟩

theorem exists_sameBelow_of_interfaces {records : List ObjectRecord} {is : List Interface}
    (h : List.Forall₂ (fun r i => (⟨registry, root, width⟩ : Converter).interface r = .ok i)
      records is) :
    ∃ js, List.Forall₂ (fun r j => (⟨registry, root', width⟩ : Converter).interface r = .ok j)
        records js ∧
      List.Forall₂ (Interface.SameBelow root.depth root'.depth) is js := by
  induction h with
  | nil => exact ⟨[], .nil, .nil⟩
  | cons hi _ ih =>
    obtain ⟨j, _, hj, _, _, hsame⟩ := exists_sameBelow_of_interface_eq_ok root' hi
    obtain ⟨js, hjs, hall⟩ := ih
    exact ⟨j :: js, .cons hj hjs, .cons hsame hall⟩

theorem exists_build_eq_ok {file : DefinitionFile} {d : Declarations}
    (h : (⟨registry, root, width⟩ : Converter).build file = .ok d) :
    ∃ d' main, (⟨registry, root', width⟩ : Converter).build file = .ok d' ∧
      d.root.name = root ∧ d.main = root.join main ∧
      d'.root.name = root' ∧ d'.main = root'.join main ∧
      ∀ width depth, d.root.inner width depth = d'.root.inner width depth := by
  obtain ⟨i, is, hrecords, rfl, hgrown⟩ := grown_of_build_eq_ok h
  obtain ⟨hi, his⟩ := List.forall₂_cons.1 hrecords
  obtain ⟨j, main, hj, hmain, hmain', hsame⟩ := exists_sameBelow_of_interface_eq_ok root' hi
  obtain ⟨js, hjs, hall⟩ := exists_sameBelow_of_interfaces root' his
  have hrecords' : List.Forall₂
      (fun r j => (⟨registry, root', width⟩ : Converter).interface r = .ok j)
      (file.main :: file.classes) (j :: js) := .cons hj hjs
  have hgrown' := grown_insertAll hrecords'
  have hinner := hgrown.inner_eq hgrown' (.cons hsame hall)
  exact ⟨_, main, build_eq_ok_iff.2 ⟨j, js, hrecords', rfl⟩, hgrown.name_eq, hmain, hgrown'.name_eq,
    hmain', hinner⟩

/-- No error depends on the root. -/
theorem error?_convert_below (source : String) :
    error? ((⟨registry, root, width⟩ : Converter).convert source) =
      error? ((⟨registry, root', width⟩ : Converter).convert source) := by
  unfold convert
  cases DefinitionFile.ofText? source with
  | none => rfl
  | some file =>
    have hfault : (⟨registry, root, width⟩ : Converter).fault? =
        (⟨registry, root', width⟩ : Converter).fault? := rfl
    simp only [error?_map, error?_build, hfault]

end

/-- The root is a label. Under any two roots, however deep, one source fails alike or has texts with the
same body and the same relative main name, and the roots stand in the first line and the last. -/
theorem convert_labelled {registry : Registry} {root root' : String} {width : Nat} {c c' : Converter}
    (hc : ofOptions registry ⟨root, width⟩ = .ok c) (hc' : ofOptions registry ⟨root', width⟩ = .ok c')
    (source : String) :
    c.root.print = root ∧ c'.root.print = root' ∧
    (∀ e, c.convert source = .error e ↔ c'.convert source = .error e) ∧
    (∀ text, c.convert source = .ok text → ∃ body main,
      text = Declarations.labelled c.root body main ∧
      c'.convert source = .ok (Declarations.labelled c'.root body main)) := by
  obtain ⟨name, hname, rfl⟩ := ofOptions_eq_ok_iff.1 hc
  obtain ⟨name', hname', rfl⟩ := ofOptions_eq_ok_iff.1 hc'
  refine ⟨QualifiedName.print_of_parse? hname, QualifiedName.print_of_parse? hname', fun e => ?_,
    fun text htext => ?_⟩
  · rw [← error?_eq_some_iff, ← error?_eq_some_iff, error?_convert_below name']
  · obtain ⟨file, d, hfile, hd, rfl⟩ := convert_eq_ok_iff.1 htext
    obtain ⟨d', main, hd', hroot, hmain, hroot', hmain', hinner⟩ := exists_build_eq_ok name' hd
    refine ⟨Declarations.body width d.root, main, Declarations.print_eq_labelled hroot hmain width,
      convert_eq_ok_iff.2 ⟨file, d', hfile, hd', ?_⟩⟩
    rw [Declarations.print_eq_labelled hroot' hmain', Declarations.body, hinner width 1]
    rfl

/-- A service with one method, below a root of one segment and below one of two. -/
theorem convert_labelled_below_two_segments :
    let source := moveText "String" "void" ++ "\x7d"
    let text := "declare namespace Root \x7b\n  export interface Tasks \x7b\n    move(to: string): void;\n" ++
      "  \x7d\n\x7d\n\ndeclare const Tasks: Root.Tasks;\n"
    ∃ c c', ofOptions taskRegistry ⟨"Root", 80⟩ = .ok c ∧ ofOptions taskRegistry ⟨"A.B", 80⟩ = .ok c' ∧
      c.convert source = .ok text ∧ ∃ body main, text = Declarations.labelled c.root body main ∧
        c'.convert source = .ok (Declarations.labelled c'.root body main) ∧ c'.root.print = "A.B" := by
  intro source text
  have hroot : QualifiedName.parse? "Root" = some ⟨["Root"], by decide⟩ := by decide +kernel
  have hroot' : QualifiedName.parse? "A.B" = some ⟨["A", "B"], by decide⟩ := by decide +kernel
  have hc : ofOptions taskRegistry ⟨"Root", 80⟩ = .ok _ := ofOptions_eq_ok_iff.2 ⟨_, hroot, rfl⟩
  have hc' : ofOptions taskRegistry ⟨"A.B", 80⟩ = .ok _ := ofOptions_eq_ok_iff.2 ⟨_, hroot', rfl⟩
  obtain ⟨_, hprint, _, htexts⟩ := convert_labelled hc hc' source
  have htext : (⟨taskRegistry, ⟨["Root"], by decide⟩, 80⟩ : Converter).convert source = .ok text := by
    decide +kernel
  obtain ⟨body, main, hframe, hother⟩ := htexts text htext
  exact ⟨_, _, hc, hc', htext, body, main, hframe, hother, hprint⟩

end Converter
end ServiceTypings
