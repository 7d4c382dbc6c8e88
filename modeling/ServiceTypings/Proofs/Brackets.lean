import ServiceTypings.Proofs.Statements

/-! Every block that a text opens is closed again, and each line is set in by the blocks around it. The
lines are read with a counter that drops before a closing brace and rises behind an opened block. What the
printer writes is nested (`Nested`): plain lines, and blocks whose inner lines are one level deeper. Over
nested lines the counter shows each line's depth and comes back to where it began (`Nested.counted`); so
it is zero behind the last line of a tree, and before that behind none (`print_bracketed`). -/

namespace ServiceTypings

namespace Text

/-- The characters that end a line for some reader: the line feed, and what other blanks it takes for
breaks, the space excepted. -/
structure LineBreaks (ends : Char → Bool) : Prop where
  feed : ends '\n' = true
  space : ends ' ' = false
  blank : ∀ c, ends c → isBlank c

theorem lineBreaks_endsLine : LineBreaks endsLine :=
  ⟨rfl, rfl, fun _ => isBlank_of_endsLine⟩

/-- The lines of a text; what stands behind the last break is a line only if it is not empty. -/
def linesAt (ends : Char → Bool) (text : String) : List String :=
  let pieces := text.toList.splitOnP ends
  (if pieces.getLast? = some [] then pieces.dropLast else pieces).map String.ofList

theorem linesAt_join {ends : Char → Bool} (hends : LineBreaks ends) {lines : List String}
    (h : ∀ line ∈ lines, Over (!ends ·) line) :
    linesAt ends (String.join (lines.map (· ++ "\n"))) = lines := by
  have hpieces := splitOnP_join hends.feed fun line hline c hc => by simpa using h line hline c hc
  simp only [linesAt, hpieces]
  rw [if_pos (by simp), List.dropLast_concat, List.map_map, String.ofList_comp_toList, List.map_id]

def isVisible (c : Char) : Bool :=
  !isBlank c || c == ' '

/-- A text of spaces and of characters that are no blanks stands on one line. -/
theorem LineBreaks.over_of_visible {ends : Char → Bool} (hends : LineBreaks ends) {text : String}
    (h : Over isVisible text) : Over (!ends ·) text := by
  intro c hc
  have hvisible := h c hc
  rw [isVisible, Bool.or_eq_true, beq_iff_eq] at hvisible
  rcases hvisible with hblank | rfl
  · have hnot := mt (hends.blank c)
    simp_all
  · simp [hends.space]

theorem LineBreaks.over_of_solid {ends : Char → Bool} (hends : LineBreaks ends) {text : String}
    (h : Over (!isBlank ·) text) : Over (!ends ·) text :=
  hends.over_of_visible fun c hc => by simp [isVisible, h c hc]

theorem isBlank_of_getLast?_trimEnd {text : String} {c : Char}
    (h : (trimEnd text).toList.getLast? = some c) : isBlank c = false := by
  rw [toList_trimEnd, List.getLast?_reverse] at h
  have hhead := List.head?_dropWhile_not isBlank text.toList.reverse
  rw [h] at hhead
  simpa using hhead

def closesBlock (line : String) : Bool :=
  unindent line == "\x7d"

def opensBlock (line : String) : Bool :=
  !isCommentRow line.toList && line.toList.getLast? == some '\x7b'

/-- A line with the counter that a reader has on it, and the one that it has when it leaves the line. -/
structure Counted where
  line : String
  level : Int
  after : Int
  deriving DecidableEq, Repr

/-- The counter drops before a line that closes a block and rises behind one that opens a block. -/
def counted (before : Int) (line : String) : Counted :=
  let level := if closesBlock line then before - 1 else before
  ⟨line, level, if opensBlock line then level + 1 else level⟩

/-- The lines read one after another, with `before` on the counter at first. -/
def count (before : Int) : List String → List Counted
  | [] => []
  | line :: lines => counted before line :: count (counted before line).after lines

/-- The counter when all the lines are read. -/
def countAfter (before : Int) (lines : List String) : Int :=
  lines.foldl (fun level line => (counted level line).after) before

theorem count_append (before : Int) (a b : List String) :
    count before (a ++ b) = count before a ++ count (countAfter before a) b := by
  induction a generalizing before with
  | nil => rfl
  | cons line a ih => rw [List.cons_append, count, count, ih, List.cons_append, countAfter, countAfter,
      List.foldl_cons]

theorem countAfter_append (before : Int) (a b : List String) :
    countAfter before (a ++ b) = countAfter (countAfter before a) b := by
  rw [countAfter, List.foldl_append, countAfter, countAfter]

variable {line : String}

theorem closesBlock_of_getLast? {c : Char} (h : (unindent line).toList.getLast? = some c)
    (hc : c ≠ '\x7d') : closesBlock line = false := by
  rw [closesBlock, beq_eq_false_iff_ne]
  intro hclosing
  rw [hclosing] at h
  exact hc (by simpa using h.symm)

theorem closesBlock_of_head? {c : Char} (h : (unindent line).toList.head? = some c)
    (hc : c ≠ '\x7d') : closesBlock line = false := by
  rw [closesBlock, beq_eq_false_iff_ne]
  intro hclosing
  rw [hclosing] at h
  exact hc (by simpa using h.symm)

theorem opensBlock_of_getLast? {c : Char} (h : line.toList.getLast? = some c) (hc : c ≠ '\x7b') :
    opensBlock line = false := by
  simp [opensBlock, h, hc]

theorem isCommentRow_eq (line : String) :
    isCommentRow line.toList = ['/', '/'].isPrefixOf (unindent line).toList := by
  rw [isCommentRow, unindent, String.toList_ofList]

end Text

open Text

namespace Line

variable {l : Line}

theorem getLast?_shown {c : Char} (h : l.text.toList.getLast? = some c) (hc : isBlank c = false) :
    l.shown.toList.getLast? = some c := by
  have hlast : (String.ofList (List.replicate (2 * l.depth) ' ') ++ l.text).toList.getLast? = some c := by
    rw [String.toList_append, List.getLast?_append, h]
    rfl
  rw [shown, trimEnd_eq_self hlast hc, hlast]

/-- The line begins with something to see and holds no break. -/
structure Firm (ends : Char → Bool) (l : Line) : Prop where
  starts : ∃ c, l.text.toList.head? = some c ∧ isBlank c = false
  unbroken : Over (!ends ·) l.text

/-- Two spaces for each level and then something to see. -/
theorem Firm.shown_eq {ends : Char → Bool} (h : l.Firm ends) :
    ∃ c rest, l.shown.toList = List.replicate (2 * l.depth) ' ' ++ c :: rest ∧ isBlank c = false := by
  obtain ⟨c, hhead, hc⟩ := h.starts
  obtain ⟨rest, hrest⟩ := List.head?_eq_some_iff.1 hhead
  have hsplit : String.ofList (List.replicate (2 * l.depth) ' ') ++ l.text =
      String.ofList (List.replicate (2 * l.depth) ' ' ++ [c]) ++ String.ofList rest := by
    rw [← String.toList_inj]
    simp [hrest]
  have hlast : (String.ofList (List.replicate (2 * l.depth) ' ' ++ [c])).toList.getLast? = some c := by
    simp
  refine ⟨c, (trimEnd (String.ofList rest)).toList, ?_, hc⟩
  rw [shown, hsplit, trimEnd_append hlast hc]
  simp

theorem Firm.over_shown {ends : Char → Bool} (hends : LineBreaks ends) (h : l.Firm ends) :
    Over (!ends ·) l.shown := by
  intro c hc
  rcases mem_shown hc with rfl | hc
  · simp [hends.space]
  · exact h.unbroken c hc

/-- A line on which no block begins or ends. -/
structure Plain (ends : Char → Bool) (l : Line) : Prop where
  firm : l.Firm ends
  closes : closesBlock l.shown = false
  opens : opensBlock l.shown = false

/-- A line on which a block begins. -/
structure Opens (ends : Char → Bool) (l : Line) : Prop where
  firm : l.Firm ends
  closes : closesBlock l.shown = false
  opens : opensBlock l.shown = true

theorem Plain.counted {ends : Char → Bool} (h : l.Plain ends) (before : Int) :
    counted before l.shown = ⟨l.shown, before, before⟩ := by
  simp [Text.counted, h.closes, h.opens]

theorem Opens.counted {ends : Char → Bool} (h : l.Opens ends) (before : Int) :
    counted before l.shown = ⟨l.shown, before, before + 1⟩ := by
  simp [Text.counted, h.closes, h.opens]

theorem unindent_closing (d : Nat) : unindent (shown ⟨d, "\x7d"⟩) = "\x7d" := by
  have hlast : "\x7d".toList.getLast? = some '\x7d' := by simp
  rw [unindent_shown d hlast (by decide), unindent_eq_self (c := '\x7d') (by simp) (by decide)]

theorem counted_closing (d : Nat) (before : Int) :
    counted before (shown ⟨d, "\x7d"⟩) = ⟨shown ⟨d, "\x7d"⟩, before - 1, before - 1⟩ := by
  have hopen : opensBlock (shown ⟨d, "\x7d"⟩) = false :=
    opensBlock_of_getLast? (getLast?_shown (c := '\x7d') (by simp) (by decide)) (by decide)
  simp [Text.counted, closesBlock, unindent_closing, hopen]

theorem firm_closing {ends : Char → Bool} (hends : LineBreaks ends) (d : Nat) :
    Firm ends ⟨d, "\x7d"⟩ := by
  refine ⟨⟨'\x7d', by simp, by decide⟩, hends.over_of_visible ?_⟩
  change Over isVisible "\x7d"
  decide

end Line

/-- Lines at a depth: plain lines that stand there, and blocks with lines one level deeper inside. -/
inductive Nested (ends : Char → Bool) : Nat → List Line → Prop
  | nil (d : Nat) : Nested ends d []
  | plain {d : Nat} {text : String} (h : Line.Plain ends ⟨d, text⟩) : Nested ends d [⟨d, text⟩]
  | block {d : Nat} {header : String} {inner : List Line} (h : Line.Opens ends ⟨d, header⟩)
      (hinner : Nested ends (d + 1) inner) :
      Nested ends d (⟨d, header⟩ :: (inner ++ [⟨d, "\x7d"⟩]))
  | append {d : Nat} {ls ls' : List Line} (h : Nested ends d ls) (h' : Nested ends d ls') :
      Nested ends d (ls ++ ls')

namespace Nested

variable {ends : Char → Bool} {d : Nat} {ls : List Line}

theorem flatMap {α : Type} {lines : α → List Line} {xs : List α}
    (h : ∀ x ∈ xs, Nested ends d (lines x)) : Nested ends d (xs.flatMap lines) := by
  induction xs with
  | nil => exact nil d
  | cons x xs ih =>
    obtain ⟨hx, hxs⟩ := List.forall_mem_cons.1 h
    exact hx.append (ih hxs)

theorem firm (hends : LineBreaks ends) (h : Nested ends d ls) : ∀ l ∈ ls, l.Firm ends := by
  induction h with
  | nil d => simp
  | plain h => simpa using h.firm
  | block h _ ih =>
    refine List.forall_mem_cons.2 ⟨h.firm, List.forall_mem_append.2 ⟨ih, ?_⟩⟩
    simpa using Line.firm_closing hends _
  | append _ _ ih ih' => exact List.forall_mem_append.2 ⟨ih, ih'⟩

/-- Nested lines leave the counter as they found it. -/
theorem countAfter_eq (h : Nested ends d ls) : countAfter d (ls.map Line.shown) = d := by
  induction h with
  | nil d => rfl
  | plain h => rw [List.map_singleton, countAfter, List.foldl_cons, List.foldl_nil, h.counted]
  | @block d header inner h hinner ih =>
    have hbefore : (counted d (Line.shown ⟨d, header⟩)).after = (d + 1 : Nat) := by
      rw [h.counted, Int.natCast_add_one]
    rw [List.map_cons, List.map_append, countAfter, List.foldl_cons, hbefore, ← countAfter,
      countAfter_append, ih, List.map_singleton, countAfter, List.foldl_cons, List.foldl_nil,
      Line.counted_closing]
    change ((d + 1 : Nat) : Int) - 1 = d
    omega
  | append h h' ih ih' => rw [List.map_append, countAfter_append, ih, ih']

/-- What the counter shows on a line of `ls`, all of which stand at depth `d` or deeper. -/
structure Shows (d : Nat) (ls : List Line) (k : Counted) : Prop where
  line : ∃ l ∈ ls, k.line = l.shown ∧ k.level = l.depth
  level : d ≤ k.level
  after : d ≤ k.after

theorem Shows.mono {d d' : Nat} {ls ls' : List Line} {k : Counted} (h : Shows d ls k) (hd : d' ≤ d)
    (hls : ls ⊆ ls') : Shows d' ls' k := by
  obtain ⟨l, hl, hline, hlevel⟩ := h.line
  have hlevel' := h.level
  have hafter := h.after
  exact ⟨⟨l, hls hl, hline, hlevel⟩, by omega, by omega⟩

/-- On each line the counter is the line's depth, and it never falls below the depth of them all. -/
theorem counted (h : Nested ends d ls) : ∀ k ∈ count d (ls.map Line.shown), Shows d ls k := by
  induction h with
  | nil d => simp [count]
  | plain h =>
    intro k hk
    rw [List.map_singleton, count, count, h.counted, List.mem_singleton] at hk
    rw [hk]
    exact ⟨⟨_, List.mem_singleton_self _, rfl, rfl⟩, Int.le_refl _, Int.le_refl _⟩
  | @block d header inner h hinner ih =>
    intro k hk
    have hbefore : (Text.counted d (Line.shown ⟨d, header⟩)).after = (d + 1 : Nat) := by
      rw [h.counted, Int.natCast_add_one]
    rw [List.map_cons, List.map_append, count, hbefore, count_append, hinner.countAfter_eq,
      List.mem_cons, List.mem_append] at hk
    rcases hk with rfl | hk | hk
    · rw [h.counted]
      exact ⟨⟨_, List.mem_cons_self, rfl, rfl⟩, Int.le_refl _, by simp only; omega⟩
    · refine (ih k hk).mono (Nat.le_succ d) fun l hl => ?_
      exact List.mem_cons_of_mem _ (List.mem_append_left _ hl)
    · rw [List.map_singleton, count, count, Line.counted_closing, List.mem_singleton] at hk
      rw [hk]
      refine ⟨⟨⟨d, "\x7d"⟩, by simp, rfl, ?_⟩, ?_, ?_⟩
      all_goals simp only; omega
  | append h h' ih ih' =>
    intro k hk
    rw [List.map_append, count_append, h.countAfter_eq, List.mem_append] at hk
    rcases hk with hk | hk
    · exact (ih k hk).mono (Nat.le_refl _) (List.subset_append_left _ _)
    · exact (ih' k hk).mono (Nat.le_refl _) (List.subset_append_right _ _)

/-- Each line of a comment is plain, whatever braces the comment holds. -/
theorem commentLines (hends : LineBreaks ends) (width d : Nat) (comment : Option String) :
    Nested ends d (commentLines width d comment) := by
  cases comment with
  | none => exact nil d
  | some comment =>
    rw [ServiceTypings.commentLines, List.map_eq_flatMap]
    refine flatMap fun entry hentry => ?_
    have hslashes : unindent (Line.shown ⟨d, "// " ++ entry⟩) = "//" ++ trimEnd (" " ++ entry) := by
      rw [Line.shown_comment, String.append_assoc, unindent_spaces_append,
        unindent_eq_self (c := '/') (by simp) (by decide)]
    have hvisible : Over isVisible ("// " ++ entry) := by
      refine Over.append (by decide) fun c hc => ?_
      simpa [isVisible] using Comment.isBlank_eq_false_or_eq_space hentry c hc
    refine plain ⟨⟨⟨'/', by simp, by decide⟩, hends.over_of_visible hvisible⟩, ?_, ?_⟩
    · exact closesBlock_of_head? (c := '/') (by simp [hslashes]) (by decide)
    · rw [opensBlock, isCommentRow_eq, hslashes]
      simp

/-- A member's line begins with its key or with what follows the key, and ends in a semicolon. -/
theorem member (hends : LineBreaks ends) (width d : Nat) (comment : Option String)
    {key stop rest : String} {c : Char} (hkey : Over (!isBlank ·) key)
    (hstop : stop.toList.head? = some c) (hc : isBlank c = false) (hvisible : Over isVisible stop)
    (hrest : Over (!ends ·) rest) :
    Nested ends d (ServiceTypings.commentLines width d comment ++
      [⟨d, key ++ stop ++ rest ++ ";"⟩]) := by
  have hlast : (key ++ stop ++ rest ++ ";").toList.getLast? = some ';' := by simp
  have hstarts : ∃ b, (key ++ stop ++ rest ++ ";").toList.head? = some b ∧ isBlank b = false := by
    simp only [String.toList_append]
    cases hlist : key.toList with
    | nil =>
      obtain ⟨tail, htail⟩ := List.head?_eq_some_iff.1 hstop
      exact ⟨c, by rw [htail]; rfl, hc⟩
    | cons b bs => exact ⟨b, rfl, by simpa using hkey b (hlist ▸ List.mem_cons_self)⟩
  have hsemicolon : Over (!ends ·) ";" := hends.over_of_visible (by decide)
  have hunbroken : Over (!ends ·) (key ++ stop ++ rest ++ ";") :=
    (((hends.over_of_solid hkey).append (hends.over_of_visible hvisible)).append hrest).append
      hsemicolon
  refine (commentLines hends width d comment).append (plain ⟨⟨hstarts, hunbroken⟩, ?_, ?_⟩)
  · refine closesBlock_of_getLast? (c := ';') ?_ (by decide)
    rw [Line.unindent_shown d hlast (by decide)]
    exact getLast?_unindent hlast (by decide)
  · exact opensBlock_of_getLast? (Line.getLast?_shown hlast (by decide)) (by decide)

/-- A header that names a block. -/
theorem opens_header (hends : LineBreaks ends) {keyword name : String} {c : Char}
    (hkeyword : keyword.toList.head? = some c) (hc : isBlank c = false) (hslash : c ≠ '/')
    (hbrace : c ≠ '\x7d') (hvisible : Over isVisible keyword) (hname : Over (!isBlank ·) name) :
    Line.Opens ends ⟨d, keyword ++ name ++ " \x7b"⟩ := by
  have hspace : c ≠ ' ' := by
    rintro rfl
    exact absurd hc (by decide)
  have hlast : (keyword ++ name ++ " \x7b").toList.getLast? = some '\x7b' := by simp
  have hhead : ∀ rest : String, (keyword ++ rest).toList.head? = some c := by
    intro rest
    rw [String.toList_append, List.head?_append, hkeyword]
    rfl
  have hline := LineRole.unindent_shown_opening d keyword name hkeyword hspace
  have hopening : Over (!ends ·) " \x7b" := hends.over_of_visible (by decide)
  have hunbroken : Over (!ends ·) (keyword ++ name ++ " \x7b") :=
    ((hends.over_of_visible hvisible).append (hends.over_of_solid hname)).append hopening
  refine ⟨⟨⟨c, ?_, hc⟩, hunbroken⟩, ?_, ?_⟩
  · rw [String.append_assoc]
    exact hhead _
  · exact closesBlock_of_head? (c := c) (by rw [hline]; exact hhead _) hbrace
  · obtain ⟨rest, hrest⟩ := List.head?_eq_some_iff.1 (hhead (name ++ " \x7b"))
    have hcomment : isCommentRow (Line.shown ⟨d, keyword ++ name ++ " \x7b"⟩).toList = false := by
      rw [isCommentRow_eq, hline, hrest]
      simp [List.isPrefixOf, Ne.symm hslash]
    have hend : (Line.shown ⟨d, keyword ++ name ++ " \x7b"⟩).toList.getLast? = some '\x7b' :=
      Line.getLast?_shown hlast (by decide)
    rw [opensBlock, hcomment, hend]
    rfl

end Nested

/-- The name holds no blanks, and the type no breaks. -/
structure Field.Unbroken (ends : Char → Bool) (f : Field) : Prop where
  name : Over (!isBlank ·) f.name
  type : Over (!ends ·) f.type

structure Method.Unbroken (ends : Char → Bool) (m : Method) : Prop where
  name : Over (!isBlank ·) m.name
  params : ∀ p ∈ m.params, p.Unbroken ends
  returnType : Over (!ends ·) m.returnType

structure Interface.Unbroken (ends : Char → Bool) (i : Interface) : Prop where
  name : Over (!isBlank ·) i.localName
  fields : ∀ f ∈ i.fields, f.Unbroken ends
  methods : ∀ m ∈ i.methods, m.Unbroken ends

/-- No name in the tree holds a blank, and no type a break. Comments may hold whatever they like. -/
inductive Namespace.Unbroken (ends : Char → Bool) : Namespace → Prop
  | mk {name : QualifiedName} {children : List Namespace} {interfaces : List Interface}
      (hname : Over (!isBlank ·) name.localName) (hchildren : ∀ c ∈ children, Unbroken ends c)
      (hinterfaces : ∀ i ∈ interfaces, i.Unbroken ends) : Unbroken ends ⟨name, children, interfaces⟩

theorem Namespace.Unbroken.localName {ends : Char → Bool} {n : Namespace} (h : n.Unbroken ends) :
    Over (!isBlank ·) n.localName := by
  cases h with
  | mk hname _ _ => exact hname

/-- A tree is unbroken if its root's name and all that is inserted are. -/
theorem Namespace.unbroken_insertAll_empty {ends : Char → Bool} {root : QualifiedName}
    {is : List Interface} (hroot : Over (!isBlank ·) root.localName)
    (his : ∀ i ∈ is, i.Unbroken ends ∧ ∀ s ∈ i.name.segments, Over (!isBlank ·) s) :
    ((empty root).insertAll is).Unbroken ends :=
  insertAll_empty_of_parts (fun _ _ _ => .mk) hroot his

section

variable {ends : Char → Bool} (hends : LineBreaks ends) (width d : Nat)

include hends

theorem Field.Unbroken.parameter {f : Field} (h : f.Unbroken ends) : Over (!ends ·) f.parameter :=
  ((hends.over_of_solid h.name).append (hends.over_of_visible (by decide))).append h.type

theorem Field.Unbroken.nested {f : Field} (h : f.Unbroken ends) : Nested ends d (f.lines width d) :=
  Nested.member hends width d f.comment h.name (c := '?') (by simp) (by decide) (by decide) h.type

theorem Method.Unbroken.nested {m : Method} (h : m.Unbroken ends) :
    Nested ends d (m.lines width d) := by
  have hparams : Over (!ends ·) (", ".intercalate (m.params.map Field.parameter)) := by
    refine Over.intercalate (hends.over_of_visible (by decide)) fun part hpart => ?_
    obtain ⟨p, hp, rfl⟩ := List.mem_map.1 hpart
    exact (h.params p hp).parameter hends
  have hdeclaration : m.declaration = m.name ++ "(" ++
      (", ".intercalate (m.params.map Field.parameter) ++ "): " ++ m.returnType) ++ ";" := by
    simp only [Method.declaration, String.append_assoc]
  rw [Method.lines, hdeclaration]
  refine Nested.member hends width d m.comment h.name (c := '(') (by simp) (by decide) (by decide) ?_
  exact (hparams.append (hends.over_of_visible (by decide))).append h.returnType

theorem Interface.Unbroken.nested {i : Interface} (h : i.Unbroken ends) :
    Nested ends d (i.lines width d) := by
  have hcomment := Nested.commentLines hends width d i.comment
  have hfields := Nested.flatMap fun f hf => (h.fields f hf).nested hends width (d + 1)
  have hmethods := Nested.flatMap fun m hm => (h.methods m hm).nested hends width (d + 1)
  have hheader : Line.Opens ends ⟨d, i.header⟩ :=
    Nested.opens_header hends (c := 'e') (by simp) (by decide) (by decide) (by decide) (by decide) h.name
  have hblock := Nested.block hheader (hfields.append hmethods)
  have hlines := hcomment.append hblock
  unfold Interface.lines
  simpa only [List.append_assoc, List.cons_append, List.nil_append] using hlines

theorem Namespace.opens_header {label : String} (h : Over (!isBlank ·) label) :
    Line.Opens ends ⟨d, header d label⟩ := by
  unfold header
  split
  next =>
    exact Nested.opens_header hends (c := 'd') (by simp) (by decide) (by decide) (by decide) (by decide) h
  next =>
    exact Nested.opens_header hends (c := 'n') (by simp) (by decide) (by decide) (by decide) (by decide) h

theorem Namespace.Unbroken.nested_inner {n : Namespace} (h : n.Unbroken ends) :
    Nested ends d (n.inner width d) := by
  induction h generalizing d with
  | @mk name children interfaces _ hchildren hinterfaces ih =>
    have hbelow : Nested ends d (children.flatMap (Namespace.lines width d)) := by
      refine Nested.flatMap fun c hc => ?_
      rw [Namespace.lines_eq_inner]
      exact .block (Namespace.opens_header hends d (hchildren c hc).localName) (ih c hc (d + 1))
    have hhere := Nested.flatMap fun i hi => (hinterfaces i hi).nested hends width d
    exact hbelow.append hhere

end

namespace Namespace

/-- The lines of a tree above its closing brace. -/
def above (width : Nat) (n : Namespace) : List String :=
  (⟨0, header 0 n.localName⟩ :: n.inner width 1).map Line.shown

theorem map_shown_lines (width : Nat) (n : Namespace) :
    (n.lines width 0).map Line.shown = n.above width ++ ["\x7d"] := by
  have hclosing : Line.shown ⟨0, "\x7d"⟩ = "\x7d" := by decide +kernel
  rw [lines_eq_inner, ← List.cons_append, List.map_append, List.map_singleton, hclosing, above]

variable {ends : Char → Bool} {n : Namespace}

theorem Unbroken.nested (hends : LineBreaks ends) (h : n.Unbroken ends) (width d : Nat) :
    Nested ends d (n.lines width d) := by
  rw [lines_eq_inner]
  exact .block (opens_header hends d h.localName) (h.nested_inner hends width (d + 1))

theorem Unbroken.countAfter_above (hends : LineBreaks ends) (h : n.Unbroken ends) (width : Nat) :
    countAfter 0 (n.above width) = 1 := by
  rw [above, List.map_cons, countAfter, List.foldl_cons, (opens_header hends 0 h.localName).counted]
  exact (h.nested_inner hends width 1).countAfter_eq

/-- As long as the tree is not closed, the counter has not come back. -/
theorem Unbroken.pos_of_mem_count_above (hends : LineBreaks ends) (h : n.Unbroken ends) (width : Nat) :
    ∀ k ∈ count 0 (n.above width), 0 < k.after := by
  intro k hk
  rw [above, List.map_cons, count, (opens_header hends 0 h.localName).counted] at hk
  rcases List.mem_cons.1 hk with rfl | hk
  · simp
  · have hafter := ((h.nested_inner hends width 1).counted k hk).after
    omega

end Namespace

namespace Declarations

section

variable (main : QualifiedName)

theorem getLast?_binding : (binding main).toList.getLast? = some ';' :=
  LineRole.getLast?_append_semicolon _

theorem counted_binding : counted 0 (binding main) = ⟨binding main, 0, 0⟩ := by
  have hlast := getLast?_unindent (getLast?_binding main) (by decide)
  have hclose := closesBlock_of_getLast? hlast (by decide)
  have hopen := opensBlock_of_getLast? (getLast?_binding main) (by decide)
  simp [counted, hclose, hopen]

/-- The closing brace brings the counter to zero, and there it stays. -/
theorem count_end : count 1 ["\x7d", "", binding main] =
    [⟨"\x7d", 0, 0⟩, ⟨"", 0, 0⟩, ⟨binding main, 0, 0⟩] := by
  have hclosing : counted 1 "\x7d" = ⟨"\x7d", 0, 0⟩ := by decide +kernel
  have hempty : counted 0 "" = ⟨"", 0, 0⟩ := by decide +kernel
  simp only [count, hclosing, hempty, counted_binding]

theorem shownLines_eq_above (width : Nat) (t : Namespace) :
    shownLines width ⟨t, main⟩ = t.above width ++ ["\x7d", "", binding main] := by
  rw [shownLines, Namespace.map_shown_lines, List.append_assoc, List.singleton_append]

/-- A line of the text is one of the tree's lines or one of the two that follow. -/
theorem mem_shownLines_iff {width : Nat} {t : Namespace} {line : String} :
    line ∈ shownLines width ⟨t, main⟩ ↔
      (∃ l ∈ t.lines width 0, l.shown = line) ∨ line = "" ∨ line = binding main := by
  rw [shownLines, List.mem_append, List.mem_map, List.mem_pair]

end

section

variable {ends : Char → Bool} {t : Namespace} {main : QualifiedName} {width : Nat}

theorem over_binding (hends : LineBreaks ends) (hmain : ∀ s ∈ main.segments, Over (!isBlank ·) s) :
    Over (!ends ·) (binding main) := by
  have hlocal : Over (!ends ·) main.localName :=
    hends.over_of_solid (hmain _ (List.getLast_mem main.nonempty))
  have hprint : Over (!ends ·) main.print := by
    refine Over.intercalate (hends.over_of_visible (by decide)) fun s hs => ?_
    exact hends.over_of_solid (hmain s hs)
  have hstart : Over (!ends ·) "declare const " := hends.over_of_visible (by decide)
  have hcolon : Over (!ends ·) ": " := hends.over_of_visible (by decide)
  have hsemicolon : Over (!ends ·) ";" := hends.over_of_visible (by decide)
  exact (((hstart.append hlocal).append hcolon).append hprint).append hsemicolon

theorem linesAt_print (hends : LineBreaks ends) (ht : t.Unbroken ends)
    (hmain : ∀ s ∈ main.segments, Over (!isBlank ·) s) :
    linesAt ends (print width ⟨t, main⟩) = shownLines width ⟨t, main⟩ := by
  rw [print_eq_join]
  refine linesAt_join hends fun line hline => ?_
  rcases (mem_shownLines_iff main).1 hline with ⟨l, hl, rfl⟩ | rfl | rfl
  · exact ((ht.nested hends width 0).firm hends l hl).over_shown hends
  · exact hends.over_of_visible (by decide)
  · exact over_binding hends hmain

theorem isBlank_of_getLast?_shownLines {line : String} {c : Char}
    (hline : line ∈ shownLines width ⟨t, main⟩) (hc : line.toList.getLast? = some c) :
    isBlank c = false := by
  rcases (mem_shownLines_iff main).1 hline with ⟨l, _, rfl⟩ | rfl | rfl
  · exact isBlank_of_getLast?_trimEnd hc
  · simp at hc
  · obtain rfl := Option.some_inj.1 ((getLast?_binding main).symm.trans hc)
    decide

end

/-- Every text is well bracketed and set in by its brackets. A reader that counts the blocks around each
line never counts below zero, and finds each line of the tree set in by two spaces for each of them. The
count is zero again on the tree's last line and behind no line before it; the empty line and the one that
binds the service's name follow. No line ends in a blank. -/
theorem print_bracketed {ends : Char → Bool} (hends : LineBreaks ends) {t : Namespace}
    {main : QualifiedName} (ht : t.Unbroken ends) (hmain : ∀ s ∈ main.segments, Over (!isBlank ·) s)
    (width : Nat) :
    ∃ above, let lines := linesAt ends (print width ⟨t, main⟩)
      lines = above ++ ["\x7d", "", binding main] ∧
      (∀ line ∈ lines, ∀ c, line.toList.getLast? = some c → isBlank c = false) ∧
      (∀ k ∈ count 0 lines, 0 ≤ k.level ∧ 0 ≤ k.after) ∧
      (∀ k ∈ count 0 (above ++ ["\x7d"]), ∃ (units : Nat) (c : Char) (rest : List Char),
        k.level = units ∧ k.line.toList = List.replicate (2 * units) ' ' ++ c :: rest ∧
          isBlank c = false) ∧
      (∀ k ∈ count 0 above, 0 < k.after) ∧
      count 0 lines = count 0 above ++ [⟨"\x7d", 0, 0⟩, ⟨"", 0, 0⟩, ⟨binding main, 0, 0⟩] := by
  have htree := ht.nested hends width 0
  have hlines := (linesAt_print hends ht hmain).trans (shownLines_eq_above main width t)
  have hcount : count 0 (t.above width ++ ["\x7d", "", binding main]) =
      count 0 (t.above width) ++ [⟨"\x7d", 0, 0⟩, ⟨"", 0, 0⟩, ⟨binding main, 0, 0⟩] := by
    rw [count_append, ht.countAfter_above hends, count_end]
  have hcounted : ∀ k ∈ count 0 (t.above width ++ ["\x7d"]), Nested.Shows 0 (t.lines width 0) k := by
    rw [← Namespace.map_shown_lines]
    exact htree.counted
  refine ⟨t.above width, hlines, fun line hline c hc => ?_, fun k hk => ?_, fun k hk => ?_,
    ht.pos_of_mem_count_above hends width, hlines ▸ hcount⟩
  · rw [linesAt_print hends ht hmain] at hline
    exact isBlank_of_getLast?_shownLines hline hc
  · rw [hlines, hcount, List.mem_append] at hk
    rcases hk with hk | hk
    · have hshows := hcounted k (by rw [count_append]; exact List.mem_append_left _ hk)
      exact ⟨hshows.level, hshows.after⟩
    · simp only [List.mem_cons, List.not_mem_nil, or_false] at hk
      rcases hk with rfl | rfl | rfl <;> exact ⟨Int.le_refl 0, Int.le_refl 0⟩
  · obtain ⟨⟨l, hl, hline, hlevel⟩, _, _⟩ := hcounted k hk
    obtain ⟨c, rest, hshown, hc⟩ := (htree.firm hends l hl).shown_eq
    exact ⟨l.depth, c, rest, hlevel, hline ▸ hshown, hc⟩

/-- Comments that are full of braces, of blank lines and of line separators. -/
theorem print_bracketed_around_braces :
    let root : QualifiedName := ⟨["Root"], by decide⟩
    let main : QualifiedName := ⟨["Root", "Sub", "Task"], by decide⟩
    let setTitle : Method := ⟨"setTitle", "void", [⟨"to", "string[]", none⟩], some "\x7d"⟩
    let task : Interface := ⟨main, [⟨"title", "string", some "one \x7b\n\n\x7d\u2028two \x7b"⟩], [setTitle],
      some "\x7b\n\x7b"⟩
    let text := print 80 ⟨(Namespace.empty root).insertAll [task], main⟩
    linesAt endsLine text = ["declare namespace Root \x7b", "  namespace Sub \x7b", "    // \x7b", "    // \x7b",
        "    export interface Task \x7b", "      // one \x7b", "      //", "      // \x7d two \x7b",
        "      title?: string;", "      // \x7d", "      setTitle(to: string[]): void;", "    \x7d", "  \x7d", "\x7d",
        "", "declare const Task: Root.Sub.Task;"] ∧
      (count 0 (linesAt endsLine text)).map Counted.level = [0, 1, 2, 2, 2, 3, 3, 3, 3, 3, 3, 2, 1, 0, 0, 0] ∧
      ∀ line ∈ linesAt endsLine text, ∀ c, line.toList.getLast? = some c → isBlank c = false := by
  intro root main setTitle task text
  have hto : ∀ p ∈ setTitle.params, p.Unbroken endsLine :=
    List.forall_mem_singleton.2 ⟨by decide, by decide⟩
  have hmethod : setTitle.Unbroken endsLine := ⟨by decide, hto, by decide⟩
  have hfields : ∀ f ∈ task.fields, f.Unbroken endsLine :=
    List.forall_mem_singleton.2 ⟨by decide, by decide⟩
  have hmain : ∀ s ∈ main.segments, Over (!isBlank ·) s := by decide
  have htask : task.Unbroken endsLine := ⟨by decide, hfields, List.forall_mem_singleton.2 hmethod⟩
  have ht : ((Namespace.empty root).insertAll [task]).Unbroken endsLine :=
    Namespace.unbroken_insertAll_empty (by decide) (List.forall_mem_singleton.2 ⟨htask, hmain⟩)
  obtain ⟨_, _, hblanks, _⟩ := print_bracketed lineBreaks_endsLine ht hmain 80
  have hlines : linesAt endsLine text = ["declare namespace Root \x7b", "  namespace Sub \x7b",
      "    // \x7b", "    // \x7b", "    export interface Task \x7b", "      // one \x7b", "      //",
      "      // \x7d two \x7b", "      title?: string;", "      // \x7d", "      setTitle(to: string[]): void;",
      "    \x7d", "  \x7d", "\x7d", "", "declare const Task: Root.Sub.Task;"] :=
    (linesAt_print lineBreaks_endsLine ht hmain).trans (by decide +kernel)
  exact ⟨hlines, hlines ▸ by decide +kernel, hblanks⟩

end Declarations
end ServiceTypings
