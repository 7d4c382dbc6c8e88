import ServiceTypings.Proofs.CommentLines
import ServiceTypings.Proofs.Headers

/-! The statements of a printed text, one for each line that is neither empty nor a comment. Where names
and types hold none of the characters that the printer sets between them, a reader of the lines finds the
statements of the tree, in order, and the one that binds the service's name (`statementsIn_print`). -/

namespace ServiceTypings

namespace Identifier

def isNameChar (c : Char) : Bool :=
  isWordChar c || c == '$'

/-- What a property key is made of, be it a name or a quoted name with dashes. -/
def isKeyChar (c : Char) : Bool :=
  isNameChar c || c == '-' || c == '"'

def isTypeChar (c : Char) : Bool :=
  isNameChar c || c == '.' || c == '[' || c == ']'

end Identifier

namespace Text

/-- The text is made of such characters; it may be empty. -/
def Over (p : Char → Bool) (text : String) : Prop :=
  ∀ c ∈ text.toList, p c

instance (p : Char → Bool) (text : String) : Decidable (Over p text) :=
  decidable_of_iff (text.toList.all p) List.all_eq_true

theorem Over.not_mem {p : Char → Bool} {text : String} {c : Char} (h : Over p text)
    (hc : p c = false) : c ∉ text.toList := by
  intro hmem
  exact absurd (h c hmem) (by simp [hc])

theorem not_mem_intercalate {sep : String} {parts : List String} {c : Char} (hsep : c ∉ sep.toList)
    (hparts : ∀ part ∈ parts, c ∉ part.toList) : c ∉ (sep.intercalate parts).toList := by
  rw [mem_toList_intercalate hsep]
  rintro ⟨part, hpart, hc⟩
  exact hparts part hpart hc

theorem Over.append {p : Char → Bool} {a b : String} (ha : Over p a) (hb : Over p b) :
    Over p (a ++ b) := by
  intro c hc
  rw [String.toList_append, List.mem_append] at hc
  exact hc.elim (ha c) (hb c)

theorem Over.intercalate {p : Char → Bool} {sep : String} {parts : List String} (hsep : Over p sep)
    (hparts : ∀ part ∈ parts, Over p part) : Over p (sep.intercalate parts) := by
  intro c hc
  by_contra hp
  have hc' : p c = false := by simpa using hp
  exact not_mem_intercalate (hsep.not_mem hc') (fun part hpart => (hparts part hpart).not_mem hc') hc

end Text

open Identifier Text

structure Field.PlainProperty (f : Field) : Prop where
  name : Over isKeyChar f.name
  type : Over isTypeChar f.type

structure Field.PlainParameter (f : Field) : Prop where
  name : Over isNameChar f.name
  type : Over isTypeChar f.type

structure Method.Plain (m : Method) : Prop where
  name : Over isKeyChar m.name
  params : ∀ p ∈ m.params, p.PlainParameter
  returnType : Over isTypeChar m.returnType

theorem Field.parameter_toList (f : Field) :
    f.parameter.toList = f.name.toList ++ ':' :: ' ' :: f.type.toList := by
  simp [parameter]

theorem Field.PlainParameter.not_mem {f : Field} (h : f.PlainParameter) {c : Char}
    (hname : isNameChar c = false) (htype : isTypeChar c = false) (hsep : c ∉ [':', ' ']) :
    c ∉ f.parameter.toList := by
  rw [Field.parameter_toList]
  simp only [List.mem_cons, List.mem_append, List.not_mem_nil, or_false, not_or] at hsep ⊢
  exact ⟨h.name.not_mem hname, hsep.1, hsep.2, h.type.not_mem htype⟩

/-- Between its parentheses a method has no other characters than names, types and the separators have. -/
theorem Method.Plain.not_mem_params {m : Method} (h : m.Plain) {c : Char}
    (hname : isNameChar c = false) (htype : isTypeChar c = false) (hsep : c ∉ [',', ':', ' ']) :
    c ∉ (", ".intercalate (m.params.map Field.parameter)).toList := by
  simp only [List.mem_cons, List.not_mem_nil, or_false, not_or] at hsep
  apply not_mem_intercalate
  · simpa using ⟨hsep.1, hsep.2.2⟩
  · intro part hpart
    obtain ⟨p, hp, rfl⟩ := List.mem_map.1 hpart
    exact (h.params p hp).not_mem hname htype (by simpa using hsep.2)

structure Interface.Plain (i : Interface) : Prop where
  name : Over isNameChar i.localName
  fields : ∀ f ∈ i.fields, f.PlainProperty
  methods : ∀ m ∈ i.methods, m.Plain

/-- Names and types in the tree are made of the characters that such names and types have. -/
inductive Namespace.Plain : Namespace → Prop
  | mk {name : QualifiedName} {children : List Namespace} {interfaces : List Interface}
      (hname : Over isNameChar name.localName) (hchildren : ∀ c ∈ children, Plain c)
      (hinterfaces : ∀ i ∈ interfaces, i.Plain) : Plain ⟨name, children, interfaces⟩

/-- What a line says that is not empty and no comment. -/
inductive Statement where
  | opensNamespace (name : String)
  | opensInterface (name : String)
  | closes
  | declares (text : String)
  deriving DecidableEq, Repr

namespace Statement

/-- What a line of that role says; `text` is the line without the spaces that set it in. -/
def ofRole? (text : String) : LineRole → Option Statement
  | .opensNamespace name => some (opensNamespace name)
  | .opensInterface name => some (opensInterface name)
  | .closes => some closes
  | .other => if text.toList.head? ∈ [none, some '/'] then none else some (declares text)

def ofLine? (line : String) : Option Statement :=
  ofRole? (unindent line) (LineRole.ofLine line)

theorem ofLine?_eq {line : String} {role : LineRole} (h : LineRole.ofLine line = role) :
    ofLine? line = ofRole? (unindent line) role := by
  rw [ofLine?, h]

end Statement

def statementsIn (text : String) : List Statement :=
  (betweenFeeds text).filterMap Statement.ofLine?

open Statement

def Interface.statements (i : Interface) : List Statement :=
  opensInterface i.localName ::
    (i.fields.flatMap (fun f => [declares f.declaration]) ++
      (i.methods.flatMap (fun m => [declares m.declaration]) ++ [closes]))

namespace Namespace

mutual

def statements : Namespace → List Statement
  | ⟨name, children, interfaces⟩ =>
    opensNamespace name.localName ::
      (statementsOfAll children ++ (interfaces.flatMap Interface.statements ++ [closes]))

def statementsOfAll : List Namespace → List Statement
  | [] => []
  | n :: ns => statements n ++ statementsOfAll ns

end

theorem statementsOfAll_eq (ns : List Namespace) : statementsOfAll ns = ns.flatMap statements := by
  induction ns with
  | nil => rfl
  | cons n ns ih => rw [statementsOfAll, ih, List.flatMap_cons]

end Namespace

namespace Line

theorem mem_shown {l : Line} {c : Char} (h : c ∈ l.shown.toList) : c = ' ' ∨ c ∈ l.text.toList := by
  have h := mem_of_mem_trimEnd h
  rw [String.toList_append, List.mem_append, String.toList_ofList] at h
  rcases h with h | h
  · exact Or.inl (List.eq_of_mem_replicate h)
  · exact Or.inr h

theorem feed_not_mem_shown {l : Line} (h : '\n' ∉ l.text.toList) : '\n' ∉ l.shown.toList := by
  intro hmem
  rcases mem_shown hmem with hspace | htext
  · exact absurd hspace (by decide)
  · exact h htext

end Line

/-- Read one by one, the lines say these statements; none of them has a line feed inside. -/
structure Says (lines : List Line) (statements : List Statement) : Prop where
  feedless : ∀ l ∈ lines, '\n' ∉ l.shown.toList
  said : (lines.map Line.shown).filterMap ofLine? = statements

namespace Says

variable {ls ls' : List Line} {ss ss' : List Statement}

theorem append (h : Says ls ss) (h' : Says ls' ss') : Says (ls ++ ls') (ss ++ ss') := by
  constructor
  · intro l hl
    rcases List.mem_append.1 hl with hl | hl
    · exact h.feedless l hl
    · exact h'.feedless l hl
  · rw [List.map_append, List.filterMap_append, h.said, h'.said]

theorem flatMap {α : Type} {lines : α → List Line} {statements : α → List Statement} {xs : List α}
    (h : ∀ x ∈ xs, Says (lines x) (statements x)) :
    Says (xs.flatMap lines) (xs.flatMap statements) := by
  induction xs with
  | nil => exact ⟨by simp, rfl⟩
  | cons x xs ih =>
    obtain ⟨hx, hxs⟩ := List.forall_mem_cons.1 h
    exact hx.append (ih hxs)

theorem line {l : Line} {s : Statement} (hfeed : '\n' ∉ l.text.toList)
    (hs : ofLine? l.shown = some s) : Says [l] [s] := by
  constructor
  · intro l' hl'
    rw [List.mem_singleton.1 hl']
    exact Line.feed_not_mem_shown hfeed
  · rw [List.map_singleton, List.filterMap_cons_some hs, List.filterMap_nil]

/-- A comment says nothing. -/
theorem commentLines (width d : Nat) (comment : Option String) :
    Says (commentLines width d comment) [] := by
  have hshown : ∀ l ∈ ServiceTypings.commentLines width d comment, ∃ rest,
      l.shown = String.ofList (List.replicate (2 * d) ' ') ++ "//" ++ rest ∧ '\n' ∉ rest.toList := by
    intro l hl
    obtain ⟨rest, hprint, hrest⟩ := Line.print_commentLine hl
    refine ⟨rest, ?_, fun hfeed => absurd (hrest _ hfeed) (by decide)⟩
    rw [Line.print_eq, ← String.toList_inj, String.toList_append, String.toList_append] at hprint
    exact String.toList_inj.1 (List.append_cancel_right hprint)
  constructor
  · intro l hl
    obtain ⟨rest, hl, hrest⟩ := hshown l hl
    rw [hl]
    simp [hrest]
  · rw [List.filterMap_map, List.filterMap_eq_nil_iff]
    intro l hl
    obtain ⟨rest, hrest, -⟩ := hshown l hl
    rw [Function.comp_apply, ofLine?_eq (LineRole.ofLine_commentLine l hl), ofRole?, hrest,
      head?_unindent_slashes]
    rfl

theorem opening {keyword name : String} (d : Nat) {s : Statement} (hkeyword : '\n' ∉ keyword.toList)
    (h : Over isNameChar name) (hs : ofLine? (Line.shown ⟨d, keyword ++ name ++ " \x7b"⟩) = some s) :
    Says [⟨d, keyword ++ name ++ " \x7b"⟩] [s] := by
  have hname := h.not_mem (c := '\n') rfl
  refine line ?_ hs
  simp [hkeyword, hname]

theorem namespaceHeader {name : String} (d : Nat) (h : Over isNameChar name) :
    Says [⟨d, Namespace.header d name⟩] [opensNamespace name] := by
  refine opening d ?_ h (ofLine?_eq (LineRole.ofLine_namespaceHeader d name))
  split <;> simp

theorem interfaceHeader {i : Interface} (d : Nat) (h : Over isNameChar i.localName) :
    Says [⟨d, i.header⟩] [opensInterface i.localName] := by
  exact opening d (by simp) h (ofLine?_eq (LineRole.ofLine_interfaceHeader d i))

theorem closing (d : Nat) : Says [⟨d, "\x7d"⟩] [closes] := by
  exact line (by simp) (ofLine?_eq (LineRole.ofLine_closing d))

/-- A line that ends in a semicolon and is no comment is read back whole. -/
theorem declaration (d : Nat) {text : String} {c : Char} (hhead : text.toList.head? = some c)
    (hspace : c ≠ ' ') (hslash : c ≠ '/') (hlast : text.toList.getLast? = some ';')
    (hfeed : '\n' ∉ text.toList) : Says [⟨d, text⟩] [declares text] := by
  apply line
  · exact hfeed
  · have hline : unindent (Line.shown ⟨d, text⟩) = text := by
      rw [Line.unindent_shown d hlast (by decide), unindent_eq_self hhead hspace]
    have hrole : LineRole.ofLine (Line.shown ⟨d, text⟩) = .other :=
      LineRole.ofLine_of_semicolon (by rw [hline, hlast])
    rw [ofLine?_eq hrole, ofRole?, hline, hhead]
    exact if_neg (by simp [hslash])

/-- A member's line begins with its key or with what follows the key, and neither begins a comment. -/
theorem member (width d : Nat) (comment : Option String) {key stop rest : String} {c : Char}
    (hkey : Over isKeyChar key) (hstop : stop.toList.head? = some c) (hspace : c ≠ ' ')
    (hslash : c ≠ '/') (hstopFeed : '\n' ∉ stop.toList) (hrest : '\n' ∉ rest.toList) :
    Says (ServiceTypings.commentLines width d comment ++ [⟨d, key ++ stop ++ rest ++ ";"⟩])
      [declares (key ++ stop ++ rest ++ ";")] := by
  have hfeed : '\n' ∉ (key ++ stop ++ rest ++ ";").toList := by
    have hkeyFeed := hkey.not_mem (c := '\n') rfl
    simp [hkeyFeed, hstopFeed, hrest]
  have hlast : (key ++ stop ++ rest ++ ";").toList.getLast? = some ';' := by simp
  have hhead : ∃ b, (key ++ stop ++ rest ++ ";").toList.head? = some b ∧ b ≠ ' ' ∧ b ≠ '/' := by
    simp only [String.toList_append]
    cases hlist : key.toList with
    | nil =>
      obtain ⟨tail, htail⟩ := List.head?_eq_some_iff.1 hstop
      exact ⟨c, by rw [htail]; rfl, hspace, hslash⟩
    | cons b bs =>
      have hb : isKeyChar b := hkey b (hlist ▸ List.mem_cons_self)
      refine ⟨b, rfl, ?_, ?_⟩
      · rintro rfl
        exact absurd hb (by decide)
      · rintro rfl
        exact absurd hb (by decide)
  obtain ⟨b, hb, hbspace, hbslash⟩ := hhead
  exact (commentLines width d comment).append (declaration d hb hbspace hbslash hlast hfeed)

theorem field {f : Field} (width d : Nat) (h : f.PlainProperty) :
    Says (f.lines width d) [declares f.declaration] := by
  have htype := h.type.not_mem (c := '\n') rfl
  exact member width d f.comment h.name (c := '?') (by simp) (by decide) (by decide) (by simp) htype

theorem method {m : Method} (width d : Nat) (h : m.Plain) :
    Says (m.lines width d) [declares m.declaration] := by
  have hparams := h.not_mem_params (c := '\n') rfl rfl (by decide)
  have hreturn := h.returnType.not_mem (c := '\n') rfl
  have hdeclaration : m.declaration = m.name ++ "(" ++
      (", ".intercalate (m.params.map Field.parameter) ++ "): " ++ m.returnType) ++ ";" := by
    simp only [Method.declaration, String.append_assoc]
  rw [Method.lines, hdeclaration]
  refine member width d m.comment h.name (c := '(') (by simp) (by decide) (by decide) (by simp) ?_
  generalize ", ".intercalate (m.params.map Field.parameter) = params at hparams
  generalize m.returnType = type at hreturn
  simp [hparams, hreturn]

theorem interface {i : Interface} (width d : Nat) (h : i.Plain) :
    Says (i.lines width d) i.statements := by
  have hfields := flatMap fun f hf => field width (d + 1) (h.fields f hf)
  have hmethods := flatMap fun m hm => method width (d + 1) (h.methods m hm)
  have hall := ((((commentLines width d i.comment).append (interfaceHeader d h.name)).append
    hfields).append hmethods).append (closing d)
  have hstatements : i.statements = [] ++ [opensInterface i.localName] ++
      i.fields.flatMap (fun f => [declares f.declaration]) ++
        i.methods.flatMap (fun m => [declares m.declaration]) ++ [closes] := by
    simp only [Interface.statements, List.nil_append, List.cons_append, List.append_assoc]
  rw [hstatements]
  exact hall

theorem namespaces {n : Namespace} (h : n.Plain) (width d : Nat) :
    Says (n.lines width d) n.statements := by
  induction h generalizing d with
  | @mk name children interfaces hname _ hinterfaces ih =>
    have hchildren := flatMap fun c hc => ih c hc (d + 1)
    have hinterfaces := flatMap fun i hi => interface width (d + 1) (hinterfaces i hi)
    have hall := (((namespaceHeader d hname).append hchildren).append hinterfaces).append (closing d)
    have hstatements : Namespace.statements ⟨name, children, interfaces⟩ =
        [opensNamespace name.localName] ++ children.flatMap Namespace.statements ++
          interfaces.flatMap Interface.statements ++ [closes] := by
      simp only [Namespace.statements, Namespace.statementsOfAll_eq, List.nil_append,
        List.cons_append, List.append_assoc]
    rw [hstatements, Namespace.lines_eq]
    exact hall

end Says

namespace Declarations

theorem binding_eq (main : QualifiedName) :
    binding main = "declare const " ++ main.localName ++ ": " ++ main.print ++ ";" := rfl

theorem feed_not_mem_binding {main : QualifiedName} (h : ∀ s ∈ main.segments, Over isNameChar s) :
    '\n' ∉ (binding main).toList := by
  have hlocal : '\n' ∉ main.localName.toList := (h _ (List.getLast_mem main.nonempty)).not_mem rfl
  have hprint : '\n' ∉ main.print.toList := by
    apply not_mem_intercalate
    · simp
    · intro s hs
      exact (h s hs).not_mem rfl
  rw [binding_eq]
  generalize main.localName = name at hlocal
  generalize main.print = type at hprint
  simp [hlocal, hprint]

theorem ofLine?_binding (main : QualifiedName) :
    ofLine? (binding main) = some (declares (binding main)) := by
  have hhead : (binding main).toList.head? = some 'd' := by simp [binding_eq]
  rw [ofLine?_eq (ofLine_binding main), ofRole?, unindent_eq_self hhead (by decide), hhead]
  rfl

theorem ofLine?_empty : ofLine? "" = none := by
  rw [ofLine?_eq ofLine_empty]
  rfl

/-- Read line by line, the text says what the tree says and binds the service's name. -/
theorem statementsIn_print {t : Namespace} {main : QualifiedName} (ht : t.Plain)
    (hmain : ∀ s ∈ main.segments, Over isNameChar s) (width : Nat) :
    statementsIn (print width ⟨t, main⟩) = t.statements ++ [declares (binding main)] := by
  have htree := Says.namespaces ht width 0
  have hfeedless : ∀ line ∈ shownLines width ⟨t, main⟩, '\n' ∉ line.toList := by
    intro line hline
    rcases List.mem_append.1 hline with hline | hline
    · obtain ⟨l, hl, rfl⟩ := List.mem_map.1 hline
      exact htree.feedless l hl
    · rcases List.mem_pair.1 hline with rfl | rfl
      · simp
      · exact feed_not_mem_binding hmain
  rw [statementsIn, print_eq_join, betweenFeeds_join hfeedless, shownLines, List.append_assoc,
    List.filterMap_append, htree.said]
  simp only [List.cons_append, List.nil_append, List.filterMap_cons, List.filterMap_nil,
    ofLine?_empty, ofLine?_binding]

end Declarations
end ServiceTypings
