import ServiceTypings.Proofs.Placement
import ServiceTypings.Proofs.Split

/-! Names and their texts. A name can be read back from its text exactly if its segments are not empty and
hold no dot. Reading gives such names and joining keeps them so. A tree makes names of its own, level by
level; it makes them of segments that its root and its interfaces have (`Grown.exists_of_contains`), so they
are no different (`Arises.wellFormed`). -/

namespace ServiceTypings

namespace QualifiedName

/-- The parts are what stands between the dots of the text. -/
structure SplitsInto (text : String) (parts : List String) : Prop where
  nonempty : parts ≠ []
  dotless : ∀ part ∈ parts, '.' ∉ part.toList
  joined : ".".intercalate parts = text

theorem dot_not_mem_of_mem_partsOf {text part : String} (h : part ∈ partsOf text) :
    '.' ∉ part.toList := by
  obtain ⟨p, hp, rfl⟩ := List.mem_map.1 h
  rw [String.toList_ofList]
  exact not_mem_of_mem_splitOn hp

theorem splitsInto_partsOf (text : String) : SplitsInto text (partsOf text) :=
  ⟨partsOf_ne_nil text, fun _ => dot_not_mem_of_mem_partsOf, intercalate_partsOf text⟩

/-- A text has its parts in one way only. -/
theorem SplitsInto.eq_partsOf {text : String} {parts : List String} (h : SplitsInto text parts) :
    parts = partsOf text := by
  have hsplit : (['.'].intercalate (parts.map String.toList)).splitOn '.' = parts.map String.toList := by
    apply List.splitOn_intercalate
    · intro l hl
      obtain ⟨part, hpart, rfl⟩ := List.mem_map.1 hl
      exact h.dotless part hpart
    · simpa using h.nonempty
  have hdot : ".".toList = ['.'] := rfl
  rw [partsOf, ← h.joined, String.toList_intercalate, hdot, hsplit, List.map_map,
    String.ofList_comp_toList, List.map_id]

/-- Every segment says something, and none holds a dot. -/
def WellFormed (name : QualifiedName) : Prop :=
  ∀ segment ∈ name.segments, segment ≠ "" ∧ '.' ∉ segment.toList

theorem wellFormed_of_parse? {text : String} {name : QualifiedName} (h : parse? text = some name) :
    name.WellFormed := by
  have hparts : "" ∉ partsOf text := isSome_parse?_iff.1 (Option.isSome_of_eq_some h)
  intro segment hsegment
  rw [segments_of_parse? h] at hsegment
  refine ⟨?_, dot_not_mem_of_mem_partsOf hsegment⟩
  rintro rfl
  exact hparts hsegment

theorem WellFormed.parse?_print {name : QualifiedName} (h : name.WellFormed) :
    parse? name.print = some name := by
  have hparts : name.segments = partsOf name.print :=
    SplitsInto.eq_partsOf ⟨name.nonempty, fun segment hsegment => (h segment hsegment).2, rfl⟩
  have hempty : "" ∉ partsOf name.print := by
    rw [← hparts]
    intro hmem
    exact (h "" hmem).1 rfl
  obtain ⟨read, hread⟩ := Option.isSome_iff_exists.1 (isSome_parse?_iff.2 hempty)
  rw [hread, Option.some_inj]
  apply eq_of_segments_eq
  rw [segments_of_parse? hread, hparts]

theorem WellFormed.join {a b : QualifiedName} (ha : a.WellFormed) (hb : b.WellFormed) :
    (a.join b).WellFormed := by
  intro segment hsegment
  rw [segments_join, List.mem_append] at hsegment
  cases hsegment with
  | inl h => exact ha segment h
  | inr h => exact hb segment h

theorem join_assoc (a b c : QualifiedName) : (a.join b).join c = a.join (b.join c) :=
  eq_of_segments_eq (List.append_assoc a.segments b.segments c.segments)

end QualifiedName

namespace Namespace

/-- What belongs to a tree: its root and the namespaces at any depth below it. -/
inductive Contains (tree : Namespace) : Namespace → Prop
  | root : Contains tree tree
  | child {n c : Namespace} (hn : Contains tree n) (hc : c ∈ n.children) : Contains tree c

/-- Each namespace of a grown tree is grown from interfaces of the tree, and all segments of its name were
there before it: in the root's name, or in that of an interface. -/
theorem Grown.exists_of_contains {name : QualifiedName} {is : List Interface} {tree n : Namespace}
    (h : Grown name is tree) (hn : tree.Contains n) :
    ∃ js, Grown n.name js n ∧ js ⊆ is ∧
      ∀ segment ∈ n.name.segments, segment ∈ name.segments ∨ ∃ i ∈ is, segment ∈ i.name.segments := by
  induction hn with
  | root =>
    rw [h.name_eq]
    exact ⟨is, h, List.Subset.refl is, fun segment hsegment => Or.inl hsegment⟩
  | @child n c _ hc ih =>
    obtain ⟨js, hgrown, hsub, hsegments⟩ := ih
    obtain ⟨i, hi, hlocal⟩ := hgrown.exists_mem_segments hc
    have hchild := hgrown.child hc
    have hname := hchild.name_eq
    rw [← hname] at hchild
    refine ⟨_, hchild, ?_, ?_⟩
    · exact List.Subset.trans (List.filter_subset_self _) hsub
    · intro segment hsegment
      rw [hname, QualifiedName.segments_child, List.mem_append, List.mem_singleton] at hsegment
      cases hsegment with
      | inl hold => exact hsegments segment hold
      | inr hnew => exact Or.inr ⟨i, hsub hi, hnew ▸ hlocal⟩

theorem Grown.wellFormed_of_contains {name : QualifiedName} {is : List Interface} {tree n : Namespace}
    (h : Grown name is tree) (hname : name.WellFormed) (his : ∀ i ∈ is, i.name.WellFormed)
    (hn : tree.Contains n) : n.name.WellFormed := by
  obtain ⟨_, _, _, hsegments⟩ := h.exists_of_contains hn
  intro segment hsegment
  cases hsegments segment hsegment with
  | inl hroot => exact hname segment hroot
  | inr hinterface =>
    obtain ⟨i, hi, hmem⟩ := hinterface
    exact his i hi segment hmem

end Namespace

namespace QualifiedName

/-- The names that come about: those read from a text, those joined from others, and those of the
namespaces in a tree that has such a name at its root and was grown from interfaces of such names. -/
inductive Arises : QualifiedName → Prop
  | read {text : String} {name : QualifiedName} (h : parse? text = some name) : Arises name
  | join {a b : QualifiedName} (ha : Arises a) (hb : Arises b) : Arises (a.join b)
  | grown {root : QualifiedName} {is : List Interface} {n : Namespace} (hroot : Arises root)
      (his : ∀ i ∈ is, Arises i.name) (hn : ((Namespace.empty root).insertAll is).Contains n) :
      Arises n.name

theorem Arises.wellFormed {name : QualifiedName} (h : Arises name) : name.WellFormed := by
  induction h with
  | read h => exact wellFormed_of_parse? h
  | join _ _ iha ihb => exact iha.join ihb
  | @grown root is n _ _ hn ihroot ihis =>
    -- the tree keeps those of the interfaces only that lie below its root
    apply (Namespace.grown_insertAll_empty root is).wellFormed_of_contains ihroot _ hn
    intro i hi
    exact ihis i (List.mem_filter.1 hi).1

theorem Arises.parse?_print {name : QualifiedName} (h : Arises name) : parse? name.print = some name :=
  h.wellFormed.parse?_print

theorem Arises.eq_iff {a b : QualifiedName} (ha : Arises a) (hb : Arises b) :
    a = b ↔ a.print = b.print := by
  constructor
  · rintro rfl
    rfl
  · intro h
    have hread : parse? a.print = some b := h ▸ hb.parse?_print
    exact Option.some.inj (ha.parse?_print.symm.trans hread)

end QualifiedName

namespace Converter

open QualifiedName

variable {c : Converter}

theorem arises_root {registry : Registry} {options : ConversionOptions}
    (h : ofOptions registry options = .ok c) : Arises c.root := by
  obtain ⟨root, hroot, rfl⟩ := ofOptions_eq_ok_iff.1 h
  exact .read hroot

theorem arises_of_interface_eq_ok (hroot : Arises c.root) {r : ObjectRecord} {i : Interface}
    (h : c.interface r = .ok i) : Arises i.name := by
  obtain ⟨_, relative, _, hparse, hname⟩ := name_of_interface_eq_ok h
  rw [hname]
  exact hroot.join (.read hparse)

/-- Whatever a conversion names has a name of this kind. -/
theorem arises_of_build_eq_ok (hroot : Arises c.root) {file : DefinitionFile} {d : Declarations}
    (h : c.build file = .ok d) : Arises d.main ∧
      ∀ n, d.root.Contains n → Arises n.name ∧ ∀ i ∈ n.interfaces, Arises i.name := by
  obtain ⟨main, classes, hrecords, rfl, hgrown⟩ := grown_of_build_eq_ok h
  have hinterfaces : ∀ i ∈ main :: classes, Arises i.name := by
    intro i hi
    obtain ⟨r, _, hr⟩ := exists_mem_of_forall₂ hrecords.flip hi
    exact arises_of_interface_eq_ok hroot hr
  refine ⟨hinterfaces main List.mem_cons_self, fun n hn => ⟨.grown hroot hinterfaces hn, ?_⟩⟩
  obtain ⟨js, hjs, hsub, _⟩ := hgrown.exists_of_contains hn
  intro i hi
  rw [hjs.interfaces_eq] at hi
  exact hinterfaces i (hsub (List.mem_filter.1 hi).1)

end Converter

namespace QualifiedName

/-- Names and texts determine each other. A text is read exactly if no part between its dots is empty, and
what is read has these parts and prints as the text. A name that comes about has one segment at least, none
empty and none with a dot, and is read back from its text, so that two of them are equal if their texts
are; all names of a conversion are such names. Joining is associative and puts a dot between the texts. -/
theorem text_determines_name :
    (∀ text, ∃ parts, SplitsInto text parts ∧ (∀ other, SplitsInto text other → other = parts) ∧
      ((parse? text).isSome ↔ "" ∉ parts) ∧
      ∀ name, parse? text = some name → name.segments = parts ∧ name.print = text) ∧
    (∀ name, Arises name → 1 ≤ name.depth ∧
      (∀ segment ∈ name.segments, segment ≠ "" ∧ '.' ∉ segment.toList) ∧
      parse? name.print = some name) ∧
    (∀ a b c : QualifiedName, (a.join b).join c = a.join (b.join c) ∧
      (a.join b).print = a.print ++ "." ++ b.print) ∧
    (∀ a b, Arises a → Arises b → (a = b ↔ a.print = b.print)) ∧
    ∀ (registry : Registry) (options : ConversionOptions) (c : Converter),
      Converter.ofOptions registry options = .ok c → Arises c.root ∧
        ∀ file d, c.build file = .ok d → Arises d.main ∧
          ∀ n, d.root.Contains n → Arises n.name ∧ ∀ i ∈ n.interfaces, Arises i.name := by
  refine ⟨fun text => ?_, fun name h => ?_, fun a b c => ?_, fun a b ha hb => ha.eq_iff hb, ?_⟩
  · refine ⟨partsOf text, splitsInto_partsOf text, fun other h => h.eq_partsOf, isSome_parse?_iff, ?_⟩
    intro name h
    exact ⟨segments_of_parse? h, print_of_parse? h⟩
  · exact ⟨name.depth_pos, h.wellFormed, h.parse?_print⟩
  · exact ⟨join_assoc a b c, print_join a b⟩
  · intro registry options c hc
    have hroot : Arises c.root := Converter.arises_root hc
    exact ⟨hroot, fun file d hd => Converter.arises_of_build_eq_ok hroot hd⟩

/-- A namespace below a root of two segments, made for the only interface there is. -/
theorem text_determines_name_of_schema :
    ∃ root task : QualifiedName, parse? "A.B" = some root ∧ parse? "Schema.Task" = some task ∧
      ∃ n, ((Namespace.empty root).insertAll [⟨root.join task, [], [], none⟩]).Contains n ∧
        Arises n.name ∧ n.name.print = "A.B.Schema" ∧ parse? "A.B.Schema" = some n.name := by
  let root : QualifiedName := ⟨["A", "B"], by decide⟩
  let task : QualifiedName := ⟨["Schema", "Task"], by decide⟩
  let i : Interface := ⟨root.join task, [], [], none⟩
  let n : Namespace := ⟨root.child "Schema", [], [i]⟩
  have hroot : parse? "A.B" = some root := by decide +kernel
  have htask : parse? "Schema.Task" = some task := by decide +kernel
  have hn : ((Namespace.empty root).insertAll [i]).Contains n := .child .root (List.mem_singleton.2 rfl)
  have harises : Arises n.name := by
    apply Arises.grown (.read hroot) _ hn
    intro j hj
    rw [List.mem_singleton.1 hj]
    exact .join (.read hroot) (.read htask)
  obtain ⟨_, hnames, _⟩ := text_determines_name
  obtain ⟨_, _, hread⟩ := hnames n.name harises
  have hprint : n.name.print = "A.B.Schema" := by decide +kernel
  exact ⟨root, task, hroot, htask, n, hn, harises, hprint, hprint ▸ hread⟩

end QualifiedName
end ServiceTypings
