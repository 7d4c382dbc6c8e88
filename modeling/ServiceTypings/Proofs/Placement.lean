import ServiceTypings.Proofs.Conversion
import ServiceTypings.Proofs.Growth

/-! Where the records of a definition file end up. Every interface has a name below the root, so none is
dropped on insertion; what the tree then holds at a path is read off the names alone, by the invariant of
grown trees. -/

namespace ServiceTypings

namespace Interface

variable {i : Interface} {root relative : QualifiedName}

theorem lt_depth_of_name_eq_join (h : i.name = root.join relative) : root.depth < i.depth := by
  have hpos := relative.depth_pos
  rw [depth, h, QualifiedName.depth_join]
  omega

theorem pathBelow_of_name_eq_join (h : i.name = root.join relative) :
    i.pathBelow root.depth = relative.segments.dropLast := by
  rw [pathBelow, h, QualifiedName.segments_join, QualifiedName.depth, List.drop_left]

theorem name_eq_child_of_name_eq_join (h : i.name = root.join relative) {name : QualifiedName}
    (hname : name.segments = root.segments ++ relative.segments.dropLast) :
    i.name = name.child i.localName := by
  have hlocal : i.localName = relative.segments.getLast relative.nonempty := by
    rw [localName, h, QualifiedName.localName_join, QualifiedName.localName]
  apply QualifiedName.eq_of_segments_eq
  rw [QualifiedName.segments_child, hname, hlocal, List.append_assoc,
    List.dropLast_concat_getLast, h, QualifiedName.segments_join]

end Interface

namespace Namespace

/-- In a grown tree an interface stands where its name below the root says. -/
theorem Grown.exists_at?_of_mem {root relative : QualifiedName} {is : List Interface} {tree : Namespace}
    (h : Grown root is tree) {i : Interface} (hi : i ∈ is) (hname : i.name = root.join relative) :
    ∃ n, tree.at? relative.segments.dropLast = some n ∧ i ∈ n.interfaces ∧
      i.name = n.name.child i.localName := by
  have hpath := Interface.pathBelow_of_name_eq_join hname
  have hsome : (tree.at? relative.segments.dropLast).isSome :=
    (h.isSome_at?_iff _).2 (Or.inr ⟨i, hi, hpath ▸ List.prefix_refl _⟩)
  obtain ⟨n, hn⟩ := Option.isSome_iff_exists.1 hsome
  refine ⟨n, hn, ?_, ?_⟩
  · rw [h.interfaces_at? hn, List.mem_filter]
    exact ⟨hi, decide_eq_true hpath⟩
  · apply Interface.name_eq_child_of_name_eq_join hname
    rw [(h.at? hn).name_eq, QualifiedName.segments_foldl_child]

end Namespace

namespace Converter

variable {c : Converter}

theorem exists_join_of_mem {records : List ObjectRecord} {is : List Interface}
    (h : List.Forall₂ (fun record i => c.interface record = .ok i) records is) :
    ∀ i ∈ is, ∃ relative, i.name = c.root.join relative := by
  induction h with
  | nil => simp
  | cons hi _ ih =>
    obtain ⟨_, relative, _, _, hname⟩ := name_of_interface_eq_ok hi
    exact List.forall_mem_cons.2 ⟨⟨relative, hname⟩, ih⟩

theorem filter_lt_depth_eq_self {records : List ObjectRecord} {is : List Interface}
    (h : List.Forall₂ (fun record i => c.interface record = .ok i) records is) :
    is.filter (fun i => c.root.depth < i.depth) = is := by
  rw [List.filter_eq_self]
  intro i hi
  obtain ⟨relative, hname⟩ := exists_join_of_mem h i hi
  exact decide_eq_true (Interface.lt_depth_of_name_eq_join hname)

theorem grown_insertAll {records : List ObjectRecord} {is : List Interface}
    (h : List.Forall₂ (fun record i => c.interface record = .ok i) records is) :
    Namespace.Grown c.root is ((Namespace.empty c.root).insertAll is) := by
  have hgrown := Namespace.grown_insertAll_empty c.root is
  rwa [filter_lt_depth_eq_self h] at hgrown

theorem grown_of_build_eq_ok {file : DefinitionFile} {d : Declarations} (h : c.build file = .ok d) :
    ∃ main classes,
      List.Forall₂ (fun record i => c.interface record = .ok i) (file.main :: file.classes)
        (main :: classes) ∧
      d = ⟨(Namespace.empty c.root).insertAll (main :: classes), main.name⟩ ∧
      Namespace.Grown c.root (main :: classes) d.root := by
  obtain ⟨main, classes, hrecords, rfl⟩ := build_eq_ok_iff.1 h
  exact ⟨main, classes, hrecords, rfl, grown_insertAll hrecords⟩

/-- A registry of a single service. -/
def taskRegistry : Registry :=
  ⟨[⟨"Tasks", some "Tasks_v1", some "Tasks.V1.", ""⟩], []⟩

def taskFile : DefinitionFile :=
  ⟨⟨"Tasks_v1", [], [], none⟩,
    [⟨"Tasks.V1.Schema.Task", [], [], none⟩, ⟨"Tasks.V1.Schema.Task", [], [], none⟩]⟩

/-- A conversion that succeeds loses no record, repeats none and misplaces none. Each record has one
interface in the tree, in the namespace that its relative name leads to; those of one namespace stand in
the order of their records, the main one first; nothing is dropped on the way. -/
theorem build_places_each_record {registry : Registry} {options : ConversionOptions} {c : Converter}
    {file : DefinitionFile} {d : Declarations} (hc : ofOptions registry options = .ok c)
    (hd : c.build file = .ok d) :
    ∃ main classes,
      List.Forall₂ (fun record i => c.interface record = .ok i) (file.main :: file.classes)
        (main :: classes) ∧
      d.root.flatten.Perm (main :: classes) ∧
      d.root.interfaceCount = 1 + file.classes.length ∧
      List.Forall₂ (fun record i => ∃ text relative n, registry.typeOf record.name = .ok text ∧
          QualifiedName.parse? text = some relative ∧
          d.root.at? relative.segments.dropLast = some n ∧ i ∈ n.interfaces ∧
          i.name = n.name.child i.localName)
        (file.main :: file.classes) (main :: classes) ∧
      (∀ path n, d.root.at? path = some n →
        n.interfaces = (main :: classes).filter fun i => i.pathBelow c.root.depth = path) ∧
      d.root = (Namespace.empty c.root).insertAll (main :: classes) ∧
      (∀ before i after, main :: classes = before ++ i :: after →
        (((Namespace.empty c.root).insertAll before).insert i).1 = .attached) ∧
      d.main = main.name ∧
      ∃ n, d.root.at? (main.pathBelow c.root.depth) = some n ∧ n.interfaces.head? = some main := by
  obtain ⟨root, _, rfl⟩ := ofOptions_eq_ok_iff.1 hc
  obtain ⟨main, classes, hrecords, rfl, hgrown⟩ := grown_of_build_eq_ok hd
  refine ⟨main, classes, hrecords, hgrown.flatten_perm, ?_, ?_, fun path n hn => ?_, rfl, ?_, rfl, ?_⟩
  · rw [Namespace.interfaceCount, hgrown.flatten_perm.length_eq, ← hrecords.length_eq,
      List.length_cons, Nat.add_comm]
  · have hmem := ((List.forall₂_and_left _ _).2 ⟨fun _ hi => hi, hrecords.flip⟩).flip
    refine hmem.imp fun record i h => ?_
    obtain ⟨text, relative, htext, hparse, hname⟩ := name_of_interface_eq_ok h.2
    obtain ⟨n, hn, hi, hchild⟩ := hgrown.exists_at?_of_mem h.1 hname
    exact ⟨text, relative, n, htext, hparse, hn, hi, hchild⟩
  · exact hgrown.interfaces_at? hn
  · intro before i after hsplit
    have hi : i ∈ (main :: classes).filter fun i => root.depth < i.depth := by
      rw [filter_lt_depth_eq_self hrecords, hsplit]
      exact List.mem_append_right before List.mem_cons_self
    rw [List.mem_filter, decide_eq_true_eq] at hi
    rw [Namespace.insert_fst_eq_attached_iff, Namespace.depth,
      (Namespace.grown_insertAll_empty root before).name_eq]
    exact hi.2
  · obtain ⟨hmain, _⟩ := List.forall₂_cons.1 hrecords
    obtain ⟨_, relative, _, _, hname⟩ := name_of_interface_eq_ok hmain
    obtain ⟨n, hn, _, _⟩ := hgrown.exists_at?_of_mem List.mem_cons_self hname
    rw [← Interface.pathBelow_of_name_eq_join hname] at hn
    refine ⟨n, hn, ?_⟩
    rw [hgrown.interfaces_at? hn, List.filter_cons, if_pos (decide_eq_true rfl), List.head?_cons]

/-- The conversion of a file that lists one class twice, below a root of two segments. -/
theorem build_places_repeated_class :
    ∃ c d, ofOptions taskRegistry ⟨"A.B", 80⟩ = .ok c ∧
      c.build taskFile = .ok d ∧ d.root.interfaceCount = 3 ∧
      ((d.root.at? ["Schema"]).map fun n => n.interfaces.length) = some 2 := by
  have hroot : QualifiedName.parse? "A.B" = some ⟨["A", "B"], by decide⟩ := by decide +kernel
  have hname : QualifiedName.parse? "Tasks" = some ⟨["Tasks"], by decide⟩ := by decide +kernel
  have htask : QualifiedName.parse? "Schema.Task" = some ⟨["Schema", "Task"], by decide⟩ := by
    decide +kernel
  let c : Converter := ⟨taskRegistry, ⟨["A", "B"], by decide⟩, 80⟩
  have hc : ofOptions taskRegistry ⟨"A.B", 80⟩ = .ok c := ofOptions_eq_ok_iff.2 ⟨_, hroot, rfl⟩
  have hmain := interface_of_no_members (c := c) "Tasks_v1" rfl hname
  have hclass := interface_of_no_members (c := c) "Tasks.V1.Schema.Task" rfl htask
  have hd : c.build taskFile = .ok _ :=
    build_eq_ok_iff.2 ⟨_, _, .cons hmain (.cons hclass (.cons hclass .nil)), rfl⟩
  obtain ⟨_, _, _, _, hcount, _⟩ := build_places_each_record hc hd
  exact ⟨c, _, hc, hd, hcount, by decide +kernel⟩

end Converter
end ServiceTypings
