import ServiceTypings.Proofs.Statements

/-! Rendering loses no declaration. The skeleton of a tree is the tree without comments, each name cut down
to its last segment. The statements of a tree show where they end and which skeleton the tree has
(`Namespace.statements_append_inj`), as do a member's text and the parts that it is made of; so trees whose
texts are equal have the same skeleton (`skeleton_eq_of_print_eq`). -/

namespace ServiceTypings

open Identifier Text Statement

section

variable {α β γ : Type}

/-- What stands before the first stop can be told from what stands behind it. -/
theorem append_cons_inj {x y z w : List α} {a b : α} (hb : b ∉ x) (ha : a ∉ y)
    (h : x ++ a :: z = y ++ b :: w) : x = y ∧ a = b ∧ z = w := by
  induction x generalizing y with
  | nil =>
    cases y with
    | nil => exact ⟨rfl, List.cons.inj h⟩
    | cons d y => exact absurd ((List.cons.inj h).1 ▸ List.mem_cons_self) ha
  | cons c x ih =>
    cases y with
    | nil => exact absurd ((List.cons.inj h).1 ▸ List.mem_cons_self) hb
    | cons d y =>
      obtain ⟨hcd, htail⟩ := List.cons.inj h
      obtain ⟨hxy, hrest⟩ := ih (fun hx => hb (List.mem_cons_of_mem _ hx))
        (fun hy => ha (List.mem_cons_of_mem _ hy)) htail
      exact ⟨by rw [hcd, hxy], hrest⟩

/-- Blocks one after another, each of which shows where it ends, can be told from what follows them, if
something else begins there than a block. -/
theorem flatMap_append_inj (begins : β → Prop) {f : α → List β} {k : α → γ} {P : α → Prop}
    {xs ys : List α} {rest rest' : List β} (hx : ∀ x ∈ xs, P x) (hy : ∀ y ∈ ys, P y)
    (hbegins : ∀ x, P x → ∃ b l, f x = b :: l ∧ begins b)
    (hinj : ∀ x ∈ xs, ∀ y, P y → ∀ l l', f x ++ l = f y ++ l' → k x = k y ∧ l = l')
    (hrest : ∀ b ∈ rest.head?, ¬begins b) (hrest' : ∀ b ∈ rest'.head?, ¬begins b)
    (h : xs.flatMap f ++ rest = ys.flatMap f ++ rest') : xs.map k = ys.map k ∧ rest = rest' := by
  induction xs generalizing ys with
  | nil =>
    cases ys with
    | nil => exact ⟨rfl, h⟩
    | cons y ys =>
      obtain ⟨b, l, hl, hb⟩ := hbegins y (hy y List.mem_cons_self)
      rw [List.flatMap_nil, List.nil_append, List.flatMap_cons, hl] at h
      exact absurd hb (hrest b (by rw [h]; rfl))
  | cons x xs ih =>
    obtain ⟨hxhead, hxs⟩ := List.forall_mem_cons.1 hx
    obtain ⟨hinjhead, hinjs⟩ := List.forall_mem_cons.1 hinj
    cases ys with
    | nil =>
      obtain ⟨b, l, hl, hb⟩ := hbegins x hxhead
      rw [List.flatMap_nil, List.nil_append, List.flatMap_cons, hl] at h
      exact absurd hb (hrest' b (by rw [← h]; rfl))
    | cons y ys =>
      obtain ⟨hyhead, hys⟩ := List.forall_mem_cons.1 hy
      rw [List.flatMap_cons, List.flatMap_cons, List.append_assoc, List.append_assoc] at h
      obtain ⟨hxy, htail⟩ := hinjhead y hyhead _ _ h
      obtain ⟨hmap, hrests⟩ := ih hxs hys hinjs htail
      exact ⟨by rw [List.map_cons, List.map_cons, hxy, hmap], hrests⟩

end

namespace Field

variable {f g : Field}

theorem declaration_toList (f : Field) :
    f.declaration.toList = f.name.toList ++ '?' :: ':' :: ' ' :: (f.type.toList ++ [';']) := by
  simp [declaration]

theorem declaration_inj (hf : f.PlainProperty) (hg : g.PlainProperty)
    (h : f.declaration = g.declaration) : f.withoutComment = g.withoutComment := by
  rw [← String.toList_inj, declaration_toList, declaration_toList] at h
  obtain ⟨hname, -, hrest⟩ := append_cons_inj (hf.name.not_mem rfl) (hg.name.not_mem rfl) h
  simp only [List.cons.injEq, true_and] at hrest
  have htype := List.append_cancel_right hrest
  rw [withoutComment, withoutComment, String.toList_inj.1 hname, String.toList_inj.1 htype]

theorem parameter_inj (hf : f.PlainParameter) (hg : g.PlainParameter)
    (h : f.parameter = g.parameter) : f.withoutComment = g.withoutComment := by
  rw [← String.toList_inj, parameter_toList, parameter_toList] at h
  obtain ⟨hname, -, hrest⟩ := append_cons_inj (hf.name.not_mem rfl) (hg.name.not_mem rfl) h
  rw [withoutComment, withoutComment, String.toList_inj.1 hname,
    String.toList_inj.1 (List.cons.inj hrest).2]

theorem parameter_ne_empty (f : Field) : f.parameter.toList ≠ [] := by
  rw [parameter_toList]
  simp

end Field

section

variable {p q : String} {ps qs : List String}

theorem toList_intercalate_cons_cons (p q : String) (ps : List String) :
    (", ".intercalate (p :: q :: ps)).toList =
      p.toList ++ ',' :: ' ' :: (", ".intercalate (q :: ps)).toList := by
  rw [String.intercalate_cons_cons]
  simp

theorem intercalate_cons_ne_empty (h : p.toList ≠ []) (ps : List String) :
    (", ".intercalate (p :: ps)).toList ≠ [] := by
  cases ps with
  | nil => simpa using h
  | cons q ps =>
    rw [toList_intercalate_cons_cons]
    simp

/-- Parts without commas, none of them empty, can be told from the text that they are joined to. -/
theorem intercalate_inj (hp : ∀ p ∈ ps, ',' ∉ p.toList ∧ p.toList ≠ [])
    (hq : ∀ q ∈ qs, ',' ∉ q.toList ∧ q.toList ≠ [])
    (h : (", ".intercalate ps).toList = (", ".intercalate qs).toList) : ps = qs := by
  induction ps generalizing qs with
  | nil =>
    cases qs with
    | nil => rfl
    | cons q qs => exact absurd h.symm (intercalate_cons_ne_empty (hq q List.mem_cons_self).2 qs)
  | cons p ps ih =>
    obtain ⟨⟨hpcomma, hpne⟩, hps⟩ := List.forall_mem_cons.1 hp
    cases qs with
    | nil => exact absurd h (intercalate_cons_ne_empty hpne ps)
    | cons q qs =>
      obtain ⟨⟨hqcomma, -⟩, hqs⟩ := List.forall_mem_cons.1 hq
      cases ps with
      | nil =>
        cases qs with
        | nil =>
          rw [String.intercalate_singleton, String.intercalate_singleton, String.toList_inj] at h
          rw [h]
        | cons q' qs =>
          rw [String.intercalate_singleton, toList_intercalate_cons_cons] at h
          exact absurd (by rw [h]; simp) hpcomma
      | cons p' ps =>
        cases qs with
        | nil =>
          rw [String.intercalate_singleton, toList_intercalate_cons_cons] at h
          exact absurd (by rw [← h]; simp) hqcomma
        | cons q' qs =>
          rw [toList_intercalate_cons_cons, toList_intercalate_cons_cons] at h
          obtain ⟨hpq, -, hrest⟩ := append_cons_inj hpcomma hqcomma h
          rw [String.toList_inj.1 hpq, ih hps hqs (List.cons.inj hrest).2]

end

namespace Method

variable {m n : Method}

theorem declaration_toList (m : Method) :
    m.declaration.toList = m.name.toList ++ '(' ::
      ((", ".intercalate (m.params.map Field.parameter)).toList ++ ')' :: ':' :: ' ' ::
        (m.returnType.toList ++ [';'])) := by
  simp only [declaration, String.toList_append, List.append_assoc]
  rfl

theorem params_inj (hm : m.Plain) (hn : n.Plain)
    (h : m.params.map Field.parameter = n.params.map Field.parameter) :
    m.params.map Field.withoutComment = n.params.map Field.withoutComment := by
  have hblocks : m.params.flatMap (fun p => [p.parameter]) ++ [] =
      n.params.flatMap (fun p => [p.parameter]) ++ [] := by
    rw [← List.map_eq_flatMap, ← List.map_eq_flatMap, h]
  refine (flatMap_append_inj (fun _ => True) hm.params hn.params ?_ ?_ ?_ ?_ hblocks).1
  · intro p _
    exact ⟨_, [], rfl, trivial⟩
  · intro p hp q hq l l' hpq
    obtain ⟨hparameter, hl⟩ := List.cons.inj hpq
    exact ⟨Field.parameter_inj (hm.params p hp) hq hparameter, hl⟩
  · simp
  · simp

theorem Plain.parameter_parts (hm : m.Plain) :
    ∀ part ∈ m.params.map Field.parameter, ',' ∉ part.toList ∧ part.toList ≠ [] := by
  intro part hpart
  obtain ⟨p, hp, rfl⟩ := List.mem_map.1 hpart
  exact ⟨(hm.params p hp).not_mem rfl rfl (by decide), p.parameter_ne_empty⟩

theorem declaration_inj (hm : m.Plain) (hn : n.Plain) (h : m.declaration = n.declaration) :
    m.withoutComments = n.withoutComments := by
  rw [← String.toList_inj, declaration_toList, declaration_toList] at h
  obtain ⟨hname, -, hrest⟩ := append_cons_inj (hm.name.not_mem rfl) (hn.name.not_mem rfl) h
  have hclosing : ∀ {m : Method}, m.Plain →
      ')' ∉ (", ".intercalate (m.params.map Field.parameter)).toList :=
    fun hm => hm.not_mem_params rfl rfl (by decide)
  obtain ⟨hparams, -, hrest⟩ := append_cons_inj (hclosing hm) (hclosing hn) hrest
  have hparams := params_inj hm hn (intercalate_inj hm.parameter_parts hn.parameter_parts hparams)
  simp only [List.cons.injEq, true_and] at hrest
  have hreturn := List.append_cancel_right hrest
  rw [withoutComments, withoutComments, String.toList_inj.1 hname, String.toList_inj.1 hreturn,
    hparams]

end Method

theorem Field.declaration_ne {f : Field} {m : Method} (hf : f.PlainProperty) (hm : m.Plain) :
    f.declaration ≠ m.declaration := by
  intro h
  rw [← String.toList_inj, Field.declaration_toList, Method.declaration_toList] at h
  obtain ⟨-, hstop, -⟩ := append_cons_inj (hf.name.not_mem rfl) (hm.name.not_mem rfl) h
  exact absurd hstop (by decide)

/-- The last segment, as a name by itself. -/
def QualifiedName.last (name : QualifiedName) : QualifiedName :=
  ⟨[name.localName], by simp⟩

theorem QualifiedName.last_eq {a b : QualifiedName} (h : a.localName = b.localName) : a.last = b.last := by
  apply eq_of_segments_eq
  exact congrArg (fun segment => [segment]) h

def Interface.skeleton (i : Interface) : Interface :=
  { i.withoutComments with name := i.name.last }

namespace Interface

/-- What an interface says ends with it and shows all of it but comments and the way to it. -/
theorem statements_append_inj {i j : Interface} (hi : i.Plain) (hj : j.Plain)
    {rest rest' : List Statement} (h : i.statements ++ rest = j.statements ++ rest') :
    i.skeleton = j.skeleton ∧ rest = rest' := by
  have hnext : ∀ {i : Interface} {rest : List Statement}, i.Plain →
      ∀ s ∈ (i.methods.flatMap (fun m => [declares m.declaration]) ++ closes :: rest).head?,
        ¬∃ f : Field, f.PlainProperty ∧ s = declares f.declaration := by
    rintro i rest hi s hs ⟨f, hf, rfl⟩
    cases hmethods : i.methods with
    | nil => simp [hmethods] at hs
    | cons m ms =>
      have hm := hi.methods m (hmethods ▸ List.mem_cons_self)
      rw [hmethods, List.flatMap_cons] at hs
      exact Field.declaration_ne hf hm (Statement.declares.inj (Option.some.inj hs)).symm
  simp only [statements, List.cons_append, List.append_assoc, List.nil_append, List.cons.injEq,
    opensInterface.injEq] at h
  obtain ⟨hname, hmembers⟩ := h
  obtain ⟨hfields, hmethods⟩ :=
    flatMap_append_inj (fun s => ∃ f : Field, f.PlainProperty ∧ s = declares f.declaration)
      hi.fields hj.fields (fun f hf => ⟨_, [], rfl, f, hf, rfl⟩)
      (fun f hf g hg l l' hfg => by
        obtain ⟨hdeclares, hl⟩ := List.cons.inj hfg
        exact ⟨Field.declaration_inj (hi.fields f hf) hg (Statement.declares.inj hdeclares), hl⟩)
      (hnext hi) (hnext hj) hmembers
  obtain ⟨hmethods, hrest⟩ :=
    flatMap_append_inj (fun s => ∃ text, s = declares text) hi.methods hj.methods
      (fun m _ => ⟨_, [], rfl, m.declaration, rfl⟩)
      (fun m hm n hn l l' hmn => by
        obtain ⟨hdeclares, hl⟩ := List.cons.inj hmn
        exact ⟨Method.declaration_inj (hi.methods m hm) hn (Statement.declares.inj hdeclares), hl⟩)
      (by simp) (by simp) hmethods
  refine ⟨?_, (List.cons.inj hrest).2⟩
  rw [skeleton, skeleton, withoutComments, withoutComments, hfields, hmethods,
    QualifiedName.last_eq hname]

end Interface

namespace Namespace

mutual

/-- The tree without comments, each name cut down to its last segment. -/
def skeleton : Namespace → Namespace
  | ⟨name, children, interfaces⟩ =>
    ⟨name.last, skeletonAll children, interfaces.map Interface.skeleton⟩

def skeletonAll : List Namespace → List Namespace
  | [] => []
  | n :: ns => skeleton n :: skeletonAll ns

end

theorem skeletonAll_eq (ns : List Namespace) : skeletonAll ns = ns.map skeleton := by
  induction ns with
  | nil => rfl
  | cons n ns ih => rw [skeletonAll, ih, List.map_cons]

/-- The statements of a tree end with it and show its skeleton. -/
theorem statements_append_inj {t u : Namespace} (ht : t.Plain) (hu : u.Plain)
    {rest rest' : List Statement} (h : t.statements ++ rest = u.statements ++ rest') :
    t.skeleton = u.skeleton ∧ rest = rest' := by
  induction ht generalizing u rest rest' with
  | @mk name children interfaces hname hchildren hinterfaces ih =>
    cases hu with
    | @mk name' children' interfaces' hname' hchildren' hinterfaces' =>
      simp only [statements, statementsOfAll_eq, List.cons_append, List.append_assoc, List.nil_append,
        List.cons.injEq, opensNamespace.injEq] at h
      obtain ⟨hlocal, hbody⟩ := h
      -- Behind the children stands an interface or the closing brace, which no namespace begins with.
      have hnext : ∀ {is : List Interface} {rest : List Statement},
          ∀ s ∈ (is.flatMap Interface.statements ++ closes :: rest).head?,
            ¬∃ name, s = opensNamespace name := by
        rintro is rest s hs ⟨name, rfl⟩
        cases is with
        | nil => simp at hs
        | cons i is => simp [Interface.statements] at hs
      obtain ⟨hchildren, htail⟩ :=
        flatMap_append_inj (fun s => ∃ name, s = opensNamespace name) hchildren hchildren'
          (fun c hc => by
            obtain ⟨_, _, _⟩ := hc
            exact ⟨_, _, rfl, _, rfl⟩)
          (fun c hc c' hc' l l' hcc' => ih c hc hc' hcc') hnext hnext hbody
      obtain ⟨hinterfaces, hrest⟩ :=
        flatMap_append_inj (fun s => ∃ name, s = opensInterface name) hinterfaces hinterfaces'
          (fun i _ => ⟨_, _, rfl, _, rfl⟩)
          (fun i hi j hj l l' hij => Interface.statements_append_inj (hinterfaces i hi) hj hij)
          (by simp) (by simp) htail
      refine ⟨?_, (List.cons.inj hrest).2⟩
      rw [skeleton, skeleton, skeletonAll_eq, skeletonAll_eq, hchildren, hinterfaces,
        QualifiedName.last_eq hlocal]

theorem plain_insertAll_empty {root : QualifiedName} {is : List Interface}
    (hroot : Over isNameChar root.localName)
    (his : ∀ i ∈ is, i.Plain ∧ ∀ s ∈ i.name.segments, Over isNameChar s) :
    ((empty root).insertAll is).Plain :=
  insertAll_empty_of_parts (fun _ _ _ => .mk) hroot his

end Namespace

namespace Declarations

/-- Trees whose texts are equal have the same skeleton, and the last lines name the same interface, whatever
comments there are and at whatever widths they are set. -/
theorem skeleton_eq_of_print_eq {t u : Namespace} {main main' : QualifiedName} {width width' : Nat}
    (ht : t.Plain) (hu : u.Plain) (hmain : ∀ s ∈ main.segments, Over isNameChar s)
    (hmain' : ∀ s ∈ main'.segments, Over isNameChar s)
    (h : print width ⟨t, main⟩ = print width' ⟨u, main'⟩) :
    t.skeleton = u.skeleton ∧ main.print = main'.print := by
  have hstatements := congrArg statementsIn h
  rw [statementsIn_print ht hmain, statementsIn_print hu hmain'] at hstatements
  obtain ⟨hskeleton, hbinding⟩ := Namespace.statements_append_inj ht hu hstatements
  refine ⟨hskeleton, ?_⟩
  have hlist : ∀ main : QualifiedName, (binding main).toList =
      "declare const ".toList ++ (main.localName.toList ++ ':' :: ' ' :: (main.print.toList ++ [';'])) := by
    intro main
    rw [binding_eq]
    simp only [String.toList_append, List.append_assoc]
    rfl
  have hcolon : ∀ {main : QualifiedName}, (∀ s ∈ main.segments, Over isNameChar s) →
      ':' ∉ main.localName.toList :=
    fun h => (h _ (List.getLast_mem _)).not_mem rfl
  have htexts := Statement.declares.inj (List.cons.inj hbinding).1
  rw [← String.toList_inj, hlist, hlist, List.append_cancel_left_eq] at htexts
  obtain ⟨-, -, hrest⟩ := append_cons_inj (hcolon hmain) (hcolon hmain') htexts
  simp only [List.cons.injEq, true_and] at hrest
  exact String.toList_inj.1 (List.append_cancel_right hrest)

/-- One comment breaks where the width ends and one at a line feed, below roots of different depth. -/
theorem skeleton_eq_of_broken_comment :
    let root : QualifiedName := ⟨["Root"], by decide⟩
    let deeper : QualifiedName := ⟨["Other", "Root"], by decide⟩
    let setTitle : Method := ⟨"\"set-title\"", "void", [⟨"to", "string[]", none⟩], none⟩
    let narrow : Interface :=
      ⟨⟨["Root", "Sub", "Task"], by decide⟩, [⟨"title", "string", some "one  two"⟩], [setTitle], none⟩
    let broken : Interface :=
      ⟨⟨["Other", "Root", "Sub", "Task"], by decide⟩, [⟨"title", "string", some "one\ntwo"⟩],
        [setTitle], none⟩
    let t := (Namespace.empty root).insertAll [narrow]
    let u := (Namespace.empty deeper).insertAll [broken]
    print 3 ⟨t, narrow.name⟩ = print 80 ⟨u, narrow.name⟩ ∧ t.name ≠ u.name ∧
      t.skeleton = u.skeleton := by
  intro root deeper setTitle narrow broken t u
  have hto : ∀ p ∈ setTitle.params, p.PlainParameter :=
    List.forall_mem_singleton.2 ⟨by decide, by decide⟩
  have hmethod : setTitle.Plain := ⟨by decide, hto, by decide⟩
  have hkey : Over isKeyChar "title" := by decide
  have htype : Over isTypeChar "string" := by decide
  have hnarrow : narrow.Plain ∧ ∀ s ∈ narrow.name.segments, Over isNameChar s :=
    ⟨⟨by decide, List.forall_mem_singleton.2 ⟨hkey, htype⟩, List.forall_mem_singleton.2 hmethod⟩,
      by decide⟩
  have hbroken : broken.Plain ∧ ∀ s ∈ broken.name.segments, Over isNameChar s :=
    ⟨⟨by decide, List.forall_mem_singleton.2 ⟨hkey, htype⟩, List.forall_mem_singleton.2 hmethod⟩,
      by decide⟩
  have ht : t.Plain :=
    Namespace.plain_insertAll_empty (by decide) (List.forall_mem_singleton.2 hnarrow)
  have hu : u.Plain :=
    Namespace.plain_insertAll_empty (by decide) (List.forall_mem_singleton.2 hbroken)
  have hprint : print 3 ⟨t, narrow.name⟩ = print 80 ⟨u, narrow.name⟩ := by decide +kernel
  refine ⟨hprint, by decide, ?_⟩
  exact (skeleton_eq_of_print_eq ht hu hnarrow.2 hnarrow.2 hprint).1

end Declarations
end ServiceTypings
