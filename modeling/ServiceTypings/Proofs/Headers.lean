import ServiceTypings.Proofs.Placement
import ServiceTypings.Proofs.ShownLine

/-! Under which names a text declares its interfaces. A reader of the lines keeps the names of the blocks
around it: a header opens a block, a closing brace leaves it, every other line says nothing. Read so, an
interface is declared under the names on the headers around it and its own, and that is its qualified
name without all but the last of the root's segments (`declared_lines`). -/

namespace ServiceTypings

/-- What stands before the end of a text. -/
def Text.before? (stop text : String) : Option String :=
  (TypeToken.dropStart? stop.toList.reverse text.toList.reverse).map
    fun start => String.ofList start.reverse

theorem Text.before?_eq_some_iff {stop text start : String} :
    before? stop text = some start ↔ text = start ++ stop := by
  simp only [before?, Option.map_eq_some_iff, TypeToken.dropStart?_eq_some_iff]
  constructor
  · rintro ⟨l, hl, rfl⟩
    rw [← String.toList_inj, String.toList_append, String.toList_ofList, ← List.reverse_inj, hl,
      List.reverse_append, List.reverse_reverse]
  · rintro rfl
    refine ⟨start.toList.reverse, ?_, ?_⟩
    · rw [String.toList_append, List.reverse_append]
    · rw [List.reverse_reverse, String.ofList_toList]

/-- What a line does to the blocks around the lines that follow. -/
inductive LineRole where
  | opensNamespace (name : String)
  | opensInterface (name : String)
  | closes
  | other
  deriving DecidableEq, Repr

namespace LineRole

/-- The name of the block that a line opens with that keyword. -/
def opened? (keyword line : String) : Option String := do
  Text.before? " \x7b" (← TypeToken.after? keyword (Text.unindent line))

def ofLine (line : String) : LineRole :=
  match opened? "declare namespace " line with
  | some name => opensNamespace name
  | none =>
    match opened? "namespace " line with
    | some name => opensNamespace name
    | none =>
      match opened? "export interface " line with
      | some name => opensInterface name
      | none => if Text.unindent line = "\x7d" then closes else other

/-- The blocks that are open after such a line, the outermost first. -/
def enter (around : List String) : LineRole → List String
  | opensNamespace name => around ++ [name]
  | opensInterface name => around ++ [name]
  | closes => around.dropLast
  | other => around

/-- The interface that such a line declares, by its own name after those of the blocks around it. -/
def named (around : List String) : LineRole → List (List String)
  | opensInterface name => [around ++ [name]]
  | _ => []

/-- The interfaces that lines declare; `around` are the blocks that are open already. -/
def declared (around : List String) : List String → List (List String)
  | [] => []
  | line :: lines => (ofLine line).named around ++ declared ((ofLine line).enter around) lines

/-- The interfaces that a text declares. -/
def declaredIn (text : String) : List (List String) :=
  declared [] (Text.betweenFeeds text)

section

variable {around lines : List String} {line name : String}

theorem declared_cons_of_opensNamespace (h : ofLine line = opensNamespace name) :
    declared around (line :: lines) = declared (around ++ [name]) lines := by
  rw [declared, h]
  rfl

theorem declared_cons_of_opensInterface (h : ofLine line = opensInterface name) :
    declared around (line :: lines) = (around ++ [name]) :: declared (around ++ [name]) lines := by
  rw [declared, h]
  rfl

theorem declared_cons_of_closes (h : ofLine line = closes) :
    declared around (line :: lines) = declared around.dropLast lines := by
  rw [declared, h]
  rfl

theorem declared_cons_of_other (h : ofLine line = other) :
    declared around (line :: lines) = declared around lines := by
  rw [declared, h]
  rfl

theorem declared_append (around : List String) (lines rest : List String) :
    declared around (lines ++ rest) =
      declared around lines ++
        declared (lines.foldl (fun around line => (ofLine line).enter around) around) rest := by
  induction lines generalizing around with
  | nil => rfl
  | cons line lines ih =>
    rw [List.cons_append, declared, declared, ih, List.append_assoc, List.foldl_cons]

end

theorem opened?_eq_some_iff {keyword line name : String} :
    opened? keyword line = some name ↔ Text.unindent line = keyword ++ (name ++ " \x7b") := by
  simp only [opened?, Option.bind_eq_bind, Option.bind_eq_some_iff, TypeToken.after?_eq_some_iff,
    Text.before?_eq_some_iff]
  constructor
  · rintro ⟨rest, hline, rfl⟩
    exact hline
  · intro hline
    exact ⟨_, hline, rfl⟩

theorem opened?_eq_none_of_head? {keyword line : String} {c : Char}
    (hk : keyword.toList.head? = some c) (h : (Text.unindent line).toList.head? ≠ some c) :
    opened? keyword line = none := by
  rw [Option.eq_none_iff_forall_ne_some]
  intro name hname
  rw [opened?_eq_some_iff] at hname
  rw [hname, String.toList_append, List.head?_append, hk] at h
  exact h rfl

/-- Both headers of namespaces are told by the letter at their start. -/
theorem opened?_namespace_eq_none {line : String} {c : Char}
    (h : (Text.unindent line).toList.head? = some c) (hd : c ≠ 'd') (hn : c ≠ 'n') :
    opened? "declare namespace " line = none ∧ opened? "namespace " line = none := by
  constructor
  · exact opened?_eq_none_of_head? (c := 'd') (by simp) (by simpa [h] using hd)
  · exact opened?_eq_none_of_head? (c := 'n') (by simp) (by simpa [h] using hn)

theorem opened?_eq_none_of_getLast? {keyword line : String}
    (h : (Text.unindent line).toList.getLast? ≠ some '\x7b') : opened? keyword line = none := by
  rw [Option.eq_none_iff_forall_ne_some]
  intro name hname
  rw [opened?_eq_some_iff] at hname
  rw [hname] at h
  simp at h

/-- A line that opens a block is read back as it was written, wherever it stands. -/
theorem unindent_shown_opening (d : Nat) (keyword name : String) {c : Char}
    (hk : keyword.toList.head? = some c) (hc : c ≠ ' ') :
    Text.unindent (Line.shown ⟨d, keyword ++ name ++ " \x7b"⟩) = keyword ++ (name ++ " \x7b") := by
  have hlast : (keyword ++ name ++ " \x7b").toList.getLast? = some '\x7b' := by simp
  have hhead : (keyword ++ name ++ " \x7b").toList.head? = some c := by
    rw [String.append_assoc, String.toList_append, List.head?_append, hk]
    rfl
  rw [Line.unindent_shown d hlast (by decide), Text.unindent_eq_self hhead hc, String.append_assoc]

theorem ofLine_namespaceHeader (d : Nat) (name : String) :
    ofLine (Line.shown ⟨d, Namespace.header d name⟩) = opensNamespace name := by
  unfold Namespace.header
  split
  next =>
    have hline := unindent_shown_opening (c := 'd') d "declare namespace " name (by simp) (by decide)
    have hopen := opened?_eq_some_iff.2 hline
    simp only [ofLine, hopen]
  next =>
    have hline := unindent_shown_opening (c := 'n') d "namespace " name (by simp) (by decide)
    have hhead : opened? "declare namespace "
        (Line.shown ⟨d, "namespace " ++ name ++ " \x7b"⟩) = none := by
      refine opened?_eq_none_of_head? (c := 'd') (by simp) ?_
      simp [hline]
    have hopen := opened?_eq_some_iff.2 hline
    simp only [ofLine, hhead, hopen]

theorem ofLine_interfaceHeader (d : Nat) (i : Interface) :
    ofLine (Line.shown ⟨d, i.header⟩) = opensInterface i.localName := by
  have hline : Text.unindent (Line.shown ⟨d, i.header⟩) =
      "export interface " ++ (i.localName ++ " \x7b") :=
    unindent_shown_opening (c := 'e') d _ i.localName (by simp) (by decide)
  have hhead : (Text.unindent (Line.shown ⟨d, i.header⟩)).toList.head? = some 'e' := by simp [hline]
  obtain ⟨hdeclare, hnamespace⟩ := opened?_namespace_eq_none hhead (by decide) (by decide)
  have hopen := opened?_eq_some_iff.2 hline
  simp only [ofLine, hdeclare, hnamespace, hopen]

theorem ofLine_closing (d : Nat) : ofLine (Line.shown ⟨d, "\x7d"⟩) = closes := by
  have hlast : "\x7d".toList.getLast? = some '\x7d' := by simp
  have hline : Text.unindent (Line.shown ⟨d, "\x7d"⟩) = "\x7d" := by
    rw [Line.unindent_shown d hlast (by decide),
      Text.unindent_eq_self (c := '\x7d') (by simp) (by decide)]
  have hne : (Text.unindent (Line.shown ⟨d, "\x7d"⟩)).toList.getLast? ≠ some '\x7b' := by
    rw [hline, hlast]
    decide
  rw [ofLine, opened?_eq_none_of_getLast? hne, opened?_eq_none_of_getLast? hne,
    opened?_eq_none_of_getLast? hne]
  exact if_pos hline

/-- A line with neither brace at its end opens nothing and closes nothing. -/
theorem ofLine_of_getLast? {line : String}
    (hopen : (Text.unindent line).toList.getLast? ≠ some '\x7b')
    (hclose : (Text.unindent line).toList.getLast? ≠ some '\x7d') : ofLine line = other := by
  rw [ofLine, opened?_eq_none_of_getLast? hopen, opened?_eq_none_of_getLast? hopen,
    opened?_eq_none_of_getLast? hopen]
  refine if_neg fun hclosing => hclose ?_
  rw [hclosing]
  simp

theorem ofLine_of_semicolon {line : String} (h : (Text.unindent line).toList.getLast? = some ';') :
    ofLine line = other :=
  ofLine_of_getLast? (by rw [h]; decide) (by rw [h]; decide)

/-- A comment opens and closes nothing, whatever it says. -/
theorem ofLine_comment (d : Nat) (entry : String) :
    ofLine (Line.shown ⟨d, "// " ++ entry⟩) = other := by
  have hhead : (Text.unindent (Line.shown ⟨d, "// " ++ entry⟩)).toList.head? = some '/' := by
    rw [Line.shown_comment, Text.head?_unindent_slashes]
  obtain ⟨hdeclare, hnamespace⟩ := opened?_namespace_eq_none hhead (by decide) (by decide)
  have hinterface : opened? "export interface " (Line.shown ⟨d, "// " ++ entry⟩) = none :=
    opened?_eq_none_of_head? (c := 'e') (by simp) (by rw [hhead]; decide)
  have hclosing : Text.unindent (Line.shown ⟨d, "// " ++ entry⟩) ≠ "\x7d" := by
    intro hclosing
    rw [hclosing] at hhead
    simp at hhead
  simp only [ofLine, hdeclare, hnamespace, hinterface, if_neg hclosing]

theorem getLast?_append_semicolon (text : String) :
    (text ++ ";").toList.getLast? = some ';' := by
  simp

theorem ofLine_commentLine {width d : Nat} {comment : Option String} :
    ∀ l ∈ commentLines width d comment, ofLine l.shown = other := by
  intro l hl
  cases comment with
  | none => exact absurd hl List.not_mem_nil
  | some text =>
    obtain ⟨entry, _, rfl⟩ := List.mem_map.1 hl
    exact ofLine_comment d entry

/-- A member is a comment and a declaration, and so says nothing to the reader of headers. -/
theorem ofLine_memberLine {width d : Nat} {comment : Option String} {declaration : String}
    (h : declaration.toList.getLast? = some ';') :
    ∀ l ∈ commentLines width d comment ++ [⟨d, declaration⟩], ofLine l.shown = other := by
  intro l hl
  rcases List.mem_append.1 hl with hl | hl
  · exact ofLine_commentLine l hl
  · obtain rfl := List.mem_singleton.1 hl
    apply ofLine_of_semicolon
    rw [Line.unindent_shown d h (by decide)]
    exact Text.getLast?_unindent h (by decide)

theorem ofLine_fieldLine {width d : Nat} {f : Field} :
    ∀ l ∈ f.lines width d, ofLine l.shown = other :=
  ofLine_memberLine (getLast?_append_semicolon _)

theorem ofLine_methodLine {width d : Nat} {m : Method} :
    ∀ l ∈ m.lines width d, ofLine l.shown = other :=
  ofLine_memberLine (getLast?_append_semicolon _)

theorem declared_append_of_other (around : List String) {ls : List Line}
    (h : ∀ l ∈ ls, ofLine l.shown = other) (rest : List String) :
    declared around (ls.map Line.shown ++ rest) = declared around rest := by
  induction ls with
  | nil => rfl
  | cons l ls ih =>
    have htail := ih fun l hl => h l (List.mem_cons_of_mem _ hl)
    exact (declared_cons_of_other (h l List.mem_cons_self)).trans htail

/-- Parts that each declare something and leave the blocks around them as they were. -/
theorem declared_flatMap {α : Type} (around : List String) {lines : α → List Line}
    {names : α → List (List String)} {xs : List α}
    (h : ∀ x ∈ xs, ∀ rest, declared around ((lines x).map Line.shown ++ rest) =
      names x ++ declared around rest) (rest : List String) :
    declared around ((xs.flatMap lines).map Line.shown ++ rest) =
      xs.flatMap names ++ declared around rest := by
  induction xs with
  | nil => rfl
  | cons x xs ih =>
    have htail := ih fun x hx => h x (List.mem_cons_of_mem _ hx)
    rw [List.flatMap_cons, List.map_append, List.append_assoc, h x List.mem_cons_self, htail,
      List.flatMap_cons, List.append_assoc]

theorem declared_interface (around : List String) (width d : Nat) (i : Interface)
    (rest : List String) :
    declared around ((i.lines width d).map Line.shown ++ rest) =
      [around ++ [i.localName]] ++ declared around rest := by
  have hfields : ∀ l ∈ i.fields.flatMap (Field.lines width (d + 1)), ofLine l.shown = other := by
    intro l hl
    obtain ⟨f, _, hl⟩ := List.mem_flatMap.1 hl
    exact ofLine_fieldLine l hl
  have hmethods : ∀ l ∈ i.methods.flatMap (Method.lines width (d + 1)), ofLine l.shown = other := by
    intro l hl
    obtain ⟨m, _, hl⟩ := List.mem_flatMap.1 hl
    exact ofLine_methodLine l hl
  simp only [Interface.lines, List.map_append, List.append_assoc]
  rw [declared_append_of_other around ofLine_commentLine, List.map_singleton, List.singleton_append,
    declared_cons_of_opensInterface (ofLine_interfaceHeader d i),
    declared_append_of_other _ hfields, declared_append_of_other _ hmethods, List.map_singleton,
    List.singleton_append, declared_cons_of_closes (ofLine_closing d), List.dropLast_concat,
    List.singleton_append]

end LineRole

/-- Of a name below another, what begins with the last segment of that other. -/
theorem QualifiedName.drop_segments_join (name relative : QualifiedName) :
    (name.join relative).segments.drop (name.depth - 1) = name.localName :: relative.segments := by
  have hsplit : name.segments.dropLast ++ [name.localName] = name.segments :=
    List.dropLast_concat_getLast name.nonempty
  have hlength : name.segments.dropLast.length = name.depth - 1 := List.length_dropLast
  calc (name.join relative).segments.drop (name.depth - 1)
      = (name.segments.dropLast ++ [name.localName] ++ relative.segments).drop
          name.segments.dropLast.length := by rw [hsplit, hlength, segments_join]
    _ = name.localName :: relative.segments := by
      rw [List.append_assoc, List.drop_left, List.singleton_append]

theorem QualifiedName.localName_cons_drop_segments_join (name relative : QualifiedName) :
    name.localName :: (name.join relative).segments.drop name.depth =
      (name.join relative).segments.drop (name.depth - 1) := by
  have hdrop : (name.join relative).segments.drop name.depth = relative.segments := by
    rw [segments_join, depth, List.drop_left]
  rw [drop_segments_join, hdrop]

namespace Interface

variable {name : QualifiedName} {i : Interface}

theorem drop_segments_of_here (h : ∃ relative, i.name = name.join relative)
    (hhere : (i.pathBelow name.depth).head? = none) :
    i.name.segments.drop (name.depth - 1) = [name.localName, i.localName] := by
  obtain ⟨relative, hi⟩ := h
  rw [pathBelow_of_name_eq_join hi, List.head?_eq_none_iff] at hhere
  have hlast : relative.segments.dropLast ++ [relative.localName] = relative.segments :=
    List.dropLast_concat_getLast relative.nonempty
  rw [hhere, List.nil_append] at hlast
  rw [localName, hi, QualifiedName.drop_segments_join, QualifiedName.localName_join, ← hlast]

/-- An interface whose way goes through a child is named below the child. -/
theorem exists_join_child {key : String} (h : ∃ relative, i.name = name.join relative)
    (hkey : (i.pathBelow name.depth).head? = some key) :
    ∃ relative, i.name = (name.child key).join relative := by
  obtain ⟨relative, hi⟩ := h
  rw [pathBelow_of_name_eq_join hi] at hkey
  obtain ⟨path, hpath⟩ := List.head?_eq_some_iff.1 hkey
  have hlast := List.dropLast_concat_getLast relative.nonempty
  rw [hpath, List.cons_append] at hlast
  refine ⟨⟨path ++ [relative.segments.getLast relative.nonempty], by simp⟩, ?_⟩
  apply QualifiedName.eq_of_segments_eq
  rw [hi, QualifiedName.segments_join, QualifiedName.segments_join, QualifiedName.segments_child,
    List.append_assoc, List.singleton_append, hlast]

end Interface

namespace LineRole

/-- The lines of a namespace declare what the tree holds, in its order. Of each name they show what
begins with the namespace's own last segment; the segments before that are on no line. -/
theorem declared_lines {name : QualifiedName} {is : List Interface} {n : Namespace}
    (h : Namespace.Grown name is n) (hnames : ∀ i ∈ is, ∃ relative, i.name = name.join relative)
    (around : List String) (width d : Nat) (rest : List String) :
    declared around ((n.lines width d).map Line.shown ++ rest) =
      (n.flatten.map fun i => around ++ i.name.segments.drop (name.depth - 1)) ++
        declared around rest := by
  induction h generalizing around d rest with
  | @mk name is children keys below ih =>
    have hchildren := declared_flatMap (around ++ [name.localName]) fun c hc rest =>
      ih c hc (fun i hi => by
        rw [List.mem_filter, decide_eq_true_eq] at hi
        exact Interface.exists_join_child (hnames i hi.1) hi.2)
        (around ++ [name.localName]) (d + 1) rest
    have hinterfaces := declared_flatMap (around ++ [name.localName])
      fun i (_ : i ∈ is.filter fun i => (i.pathBelow name.depth).head? = none) rest =>
        declared_interface (around ++ [name.localName]) width (d + 1) i rest
    rw [Namespace.lines_eq]
    simp only [List.map_append, List.append_assoc]
    rw [List.map_singleton, List.singleton_append, Namespace.localName,
      declared_cons_of_opensNamespace (ofLine_namespaceHeader d _), hchildren, hinterfaces,
      List.map_singleton, List.singleton_append, declared_cons_of_closes (ofLine_closing d),
      List.dropLast_concat, Namespace.flatten_eq, List.map_append, List.map_flatMap,
      List.append_assoc]
    congr 1
    · refine List.flatMap_congr fun c hc => List.map_congr_left fun i hi => ?_
      have hi := (below c hc).flatten_perm.mem_iff.1 hi
      rw [List.mem_filter] at hi
      obtain ⟨relative, hi⟩ := hnames i hi.1
      rw [QualifiedName.depth_child, Nat.add_sub_cancel, hi, List.append_assoc,
        List.singleton_append, QualifiedName.localName_cons_drop_segments_join]
    congr 1
    · rw [List.map_eq_flatMap]
      refine List.flatMap_congr fun i hi => ?_
      rw [List.mem_filter, decide_eq_true_eq] at hi
      rw [Interface.drop_segments_of_here (hnames i hi.1) hi.2, List.append_assoc,
        List.singleton_append]

end LineRole

namespace Declarations

open LineRole

/-- All lines of the text: those of the tree, an empty one, and the one that binds the service's name. -/
def shownLines (width : Nat) (d : Declarations) : List String :=
  (d.root.lines width 0).map Line.shown ++ ["", binding d.main]

/-- The text is its lines, each ended by a line feed. -/
theorem print_eq_join (width : Nat) (d : Declarations) :
    d.print width = String.join ((d.shownLines width).map (· ++ "\n")) := by
  rw [print, shownLines, List.map_append, String.join_append, List.map_map]
  simp only [List.map_cons, List.map_nil, String.join_cons, String.join_nil, String.append_empty,
    String.empty_append, String.append_assoc]
  rfl

theorem ofLine_empty : ofLine "" = other :=
  ofLine_of_getLast? (by simp [Text.unindent]) (by simp [Text.unindent])

/-- As long as no line feed stands inside a line, the text says what its lines say. -/
theorem declaredIn_print {width : Nat} {d : Declarations}
    (h : ∀ line ∈ d.shownLines width, '\n' ∉ line.toList) :
    declaredIn (d.print width) = declared [] (d.shownLines width) := by
  rw [declaredIn, print_eq_join, Text.betweenFeeds_join h, declared_append,
    declared_cons_of_other ofLine_empty, declared, List.append_nil]

theorem ofLine_binding (main : QualifiedName) : ofLine (binding main) = other := by
  have hlast : (binding main).toList.getLast? = some ';' := getLast?_append_semicolon _
  exact ofLine_of_semicolon (Text.getLast?_unindent hlast (by decide))

theorem declared_shownLines (width : Nat) {d : Declarations} {root : QualifiedName}
    {is : List Interface} (h : Namespace.Grown root is d.root)
    (hnames : ∀ i ∈ is, ∃ relative, i.name = root.join relative) :
    declared [] (d.shownLines width) =
      d.root.flatten.map fun i => i.name.segments.drop (root.depth - 1) := by
  have hrest : declared [] ["", binding d.main] = [] := by
    rw [declared_cons_of_other ofLine_empty, declared_cons_of_other (ofLine_binding d.main), declared]
  rw [shownLines, declared_lines h hnames, hrest, List.append_nil]
  simp only [List.nil_append]

end Declarations

/-- Less than the whole name never spells it. -/
theorem QualifiedName.intercalate_drop_eq_print_iff {name : QualifiedName} {k : Nat}
    (hk : k < name.depth) : ".".intercalate (name.segments.drop k) = name.print ↔ k = 0 := by
  constructor
  · intro h
    by_contra hne
    have htake : name.segments.take k ≠ [] := by
      rw [ne_eq, List.take_eq_nil_iff, not_or]
      exact ⟨hne, name.nonempty⟩
    have hdrop : name.segments.drop k ≠ [] := by
      rw [ne_eq, List.drop_eq_nil_iff, Nat.not_le]
      exact hk
    have hprint : name.print = ".".intercalate (name.segments.take k) ++ "." ++
        ".".intercalate (name.segments.drop k) := by
      rw [print, ← String.intercalate_append_of_ne_nil htake hdrop, List.take_append_drop]
    have hlength := congrArg String.length (h.trans hprint)
    have hdot : ".".length = 1 := rfl
    rw [String.length_append, String.length_append, hdot] at hlength
    omega
  · rintro rfl
    rfl

namespace Converter

open LineRole

/-- What the text of a converted file says of its interfaces: each is declared, in the order of the tree,
under its name without all but the last of the root's segments. That is its own name exactly if the root
has one segment, and then the type that the last line names is declared as well. -/
theorem declared_own_name_iff {c : Converter} {file : DefinitionFile} {d : Declarations}
    (hd : c.build file = .ok d) (width : Nat) :
    d.print width = String.join ((d.shownLines width).map (· ++ "\n")) ∧
    declared [] (d.shownLines width) =
      d.root.flatten.map (fun i => i.name.segments.drop (c.root.depth - 1)) ∧
    ((∀ line ∈ d.shownLines width, '\n' ∉ line.toList) →
      declaredIn (d.print width) = declared [] (d.shownLines width)) ∧
    (∀ i ∈ d.root.flatten,
      ".".intercalate (i.name.segments.drop (c.root.depth - 1)) = i.name.print ↔ c.root.depth = 1) ∧
    (c.root.depth = 1 →
      d.main.print ∈ (declared [] (d.shownLines width)).map (".".intercalate ·)) := by
  obtain ⟨main, classes, hrecords, rfl, hgrown⟩ := grown_of_build_eq_ok hd
  have hnames := exists_join_of_mem hrecords
  have hdeclared := Declarations.declared_shownLines width hgrown hnames
  have hroot := c.root.depth_pos
  refine ⟨Declarations.print_eq_join width _, hdeclared, Declarations.declaredIn_print,
    fun i hi => ?_, fun hone => ?_⟩
  · obtain ⟨relative, hname⟩ := hnames i (hgrown.flatten_perm.mem_iff.1 hi)
    have hdepth := Interface.lt_depth_of_name_eq_join hname
    rw [Interface.depth] at hdepth
    rw [QualifiedName.intercalate_drop_eq_print_iff (by omega)]
    omega
  · have hmain := hgrown.flatten_perm.mem_iff.2 List.mem_cons_self
    rw [hdeclared, List.map_map, List.mem_map]
    refine ⟨main, hmain, ?_⟩
    simp only [hone, Function.comp_apply, Nat.sub_self, List.drop_zero]
    rfl

/-- A service without members, below whatever root. -/
theorem build_bare_service (root : QualifiedName) :
    (⟨taskRegistry, root, 80⟩ : Converter).build ⟨⟨"Tasks_v1", [], [], none⟩, []⟩ =
      .ok ⟨(Namespace.empty root).insertAll [⟨root.join ⟨["Tasks"], by decide⟩, [], [], none⟩],
        root.join ⟨["Tasks"], by decide⟩⟩ := by
  have hname : QualifiedName.parse? "Tasks" = some ⟨["Tasks"], by decide⟩ := by decide +kernel
  exact build_eq_ok_iff.2 ⟨_, [], .cons (interface_of_no_members "Tasks_v1" rfl hname) .nil, rfl⟩

/-- Below a root of one segment the type of the last line is declared. -/
theorem declared_own_name_below_one_segment :
    ∃ d, (⟨taskRegistry, ⟨["Root"], by decide⟩, 80⟩ : Converter).build
        ⟨⟨"Tasks_v1", [], [], none⟩, []⟩ = .ok d ∧
      d.main.print ∈ (declared [] (d.shownLines 80)).map (".".intercalate ·) := by
  have hd := build_bare_service ⟨["Root"], by decide⟩
  obtain ⟨_, _, _, _, hmain⟩ := declared_own_name_iff hd 80
  exact ⟨_, hd, hmain rfl⟩

/-- Below a root of two segments it is not: the header shows the second of them alone. -/
theorem declared_other_name_below_two_segments :
    ∃ c d, ofOptions taskRegistry ⟨"A.B", 80⟩ = .ok c ∧
      c.build ⟨⟨"Tasks_v1", [], [], none⟩, []⟩ = .ok d ∧
      d.print 80 = "declare namespace B \x7b\n  export interface Tasks \x7b\n  \x7d\n\x7d\n\n" ++
        "declare const Tasks: A.B.Tasks;\n" ∧
      d.root.flatten.map (fun i => i.name.print) = ["A.B.Tasks"] ∧ d.main.print = "A.B.Tasks" ∧
      (declaredIn (d.print 80)).map (".".intercalate ·) = ["B.Tasks"] := by
  have hroot : QualifiedName.parse? "A.B" = some ⟨["A", "B"], by decide⟩ := by decide +kernel
  refine ⟨_, _, ofOptions_eq_ok_iff.2 ⟨_, hroot, rfl⟩, build_bare_service _, ?_, ?_, ?_, ?_⟩ <;>
    decide +kernel

end Converter
end ServiceTypings
