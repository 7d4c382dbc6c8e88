import ServiceTypings.Proofs.ShownLine
import ServiceTypings.Proofs.Split

/-! Comments change nothing but comments. A reader of the declarations ends a line at any of four
characters, all of them blanks; the words of a comment hold no blank, so each entry of a wrapped comment
is one line for this reader too (`rows_commentLine`). Hence what is left of a text without its comment
lines is the same for all trees that differ in their comments alone, at whatever widths. -/

namespace ServiceTypings

namespace Text

theorem isBlank_eq_false_of_mem_words {text word : String} {c : Char} (h : word ∈ words text)
    (hc : c ∈ word.toList) : isBlank c = false := by
  obtain ⟨piece, hpiece, rfl⟩ := List.mem_map.1 h
  rw [String.toList_ofList] at hc
  exact eq_false_of_mem_splitOnP (List.mem_filter.1 hpiece).1 hc

/-- The characters at which a reader of the declarations ends a line. -/
def endsLine (c : Char) : Bool :=
  c == '\n' || c == '\r' || c == '\u2028' || c == '\u2029'

theorem isBlank_of_endsLine {c : Char} (h : endsLine c) : isBlank c := by
  simp only [endsLine, Bool.or_eq_true, beq_iff_eq] at h
  rcases h with ((rfl | rfl) | rfl) | rfl <;> decide

/-- The lines of a text, each with the character that ends it. -/
def rows : List Char → List (List Char)
  | [] => []
  | c :: cs =>
    if endsLine c then [c] :: rows cs
    else
      match rows cs with
      | [] => [[c]]
      | row :: rest => (c :: row) :: rest

/-- The first characters of the line, spaces aside, are two slashes. -/
def isCommentRow (row : List Char) : Bool :=
  ['/', '/'].isPrefixOf (row.dropWhile (· = ' '))

/-- What is left of a text without its comment lines. -/
def code (text : String) : String :=
  String.ofList ((rows text.toList).filter fun row => !isCommentRow row).flatten

theorem rows_cons_of_endsLine {c : Char} (h : endsLine c) (cs : List Char) :
    rows (c :: cs) = [c] :: rows cs := by
  rw [rows, if_pos h]

theorem rows_cons_of_not_endsLine {c : Char} {cs row : List Char} {rest : List (List Char)}
    (h : endsLine c = false) (hcs : rows cs = row :: rest) :
    rows (c :: cs) = (c :: row) :: rest := by
  rw [rows, if_neg (by simp [h]), hcs]

theorem rows_ne_nil (cs : List Char) (c : Char) : rows (cs ++ [c]) ≠ [] := by
  cases cs with
  | nil =>
    rw [List.nil_append, rows]
    split <;> simp [rows]
  | cons d ds =>
    rw [List.cons_append, rows]
    split
    · simp
    · split <;> simp

/-- Where a line has ended, nothing that follows belongs to it. -/
theorem rows_append {c : Char} (h : endsLine c) (cs rest : List Char) :
    rows (cs ++ [c] ++ rest) = rows (cs ++ [c]) ++ rows rest := by
  induction cs with
  | nil =>
    rw [List.nil_append, List.singleton_append, rows_cons_of_endsLine h, rows_cons_of_endsLine h]
    rfl
  | cons d ds ih =>
    simp only [List.cons_append] at ih ⊢
    by_cases hd : endsLine d
    · rw [rows_cons_of_endsLine hd, rows_cons_of_endsLine hd, ih, List.cons_append]
    · have hd : endsLine d = false := by simpa using hd
      obtain ⟨row, others, hrow⟩ := List.exists_cons_of_ne_nil (rows_ne_nil ds c)
      rw [hrow, List.cons_append] at ih
      rw [rows_cons_of_not_endsLine hd hrow, rows_cons_of_not_endsLine hd ih, List.cons_append]

/-- A text in which only the last character ends a line is one line. -/
theorem rows_eq_singleton {c : Char} (h : endsLine c) {cs : List Char}
    (hcs : ∀ d ∈ cs, endsLine d = false) : rows (cs ++ [c]) = [cs ++ [c]] := by
  induction cs with
  | nil => rw [List.nil_append, rows_cons_of_endsLine h, rows]
  | cons d ds ih =>
    obtain ⟨hd, hds⟩ := List.forall_mem_cons.1 hcs
    rw [List.cons_append, rows_cons_of_not_endsLine hd (ih hds)]

theorem code_append (a b : String) : code (a ++ "\n" ++ b) = code (a ++ "\n") ++ code b := by
  have hrows := rows_append (c := '\n') rfl a.toList b.toList
  rw [← String.toList_inj]
  simp only [code, String.toList_append, String.toList_ofList]
  rw [show "\n".toList = ['\n'] by simp, hrows, List.filter_append, List.flatten_append]

end Text

namespace Comment

/-- What holds of spaces and of the characters of all words holds of those of all entries. -/
theorem forall_mem_fill {p : Char → Prop} (hspace : p ' ') {width : Nat} {entry : String}
    {rest : List String} (hentry : ∀ c ∈ entry.toList, p c)
    (hrest : ∀ word ∈ rest, ∀ c ∈ word.toList, p c) :
    ∀ e ∈ fill width entry rest, ∀ c ∈ e.toList, p c := by
  induction rest generalizing entry with
  | nil =>
    intro e he
    obtain rfl := List.mem_singleton.1 he
    exact hentry
  | cons word rest ih =>
    obtain ⟨hword, hrest⟩ := List.forall_mem_cons.1 hrest
    rw [fill]
    split
    · exact List.forall_mem_cons.2 ⟨hentry, ih hword hrest⟩
    · refine ih (fun c hc => ?_) hrest
      simp only [String.toList_append, List.mem_append] at hc
      rcases hc with (hc | hc) | hc
      · exact hentry c hc
      · obtain rfl : c = ' ' := by simpa using hc
        exact hspace
      · exact hword c hc

/-- The only blanks of an entry are spaces. -/
theorem isBlank_eq_false_or_eq_space {width : Nat} {text entry : String}
    (h : entry ∈ wrap width text) : ∀ c ∈ entry.toList, Text.isBlank c = false ∨ c = ' ' := by
  unfold wrap at h
  split at h
  · exact absurd h List.not_mem_nil
  · obtain ⟨line, _, h⟩ := List.mem_flatMap.1 h
    unfold fillLine at h
    split at h
    next =>
      obtain rfl := List.mem_singleton.1 h
      simp
    next word rest hwords =>
      refine forall_mem_fill (Or.inr rfl) ?_ ?_ entry h
      · intro c hc
        exact Or.inl (Text.isBlank_eq_false_of_mem_words (hwords ▸ List.mem_cons_self) hc)
      · intro w hw c hc
        exact Or.inl (Text.isBlank_eq_false_of_mem_words (hwords ▸ List.mem_cons_of_mem word hw) hc)

theorem endsLine_eq_false {width : Nat} {text entry : String} (h : entry ∈ wrap width text) :
    ∀ c ∈ entry.toList, Text.endsLine c = false := by
  intro c hc
  rw [Bool.eq_false_iff]
  intro hends
  rcases isBlank_eq_false_or_eq_space h c hc with hblank | rfl
  · exact absurd (Text.isBlank_of_endsLine hends) (by simp [hblank])
  · exact absurd hends (by decide)

end Comment

namespace Line

/-- A line of a comment is one line for every reader: after the spaces that set it in stand two slashes,
and nothing in it ends a line. -/
theorem print_commentLine {width depth : Nat} {comment : Option String} {l : Line}
    (h : l ∈ commentLines width depth comment) :
    ∃ rest, l.print = String.ofList (List.replicate (2 * depth) ' ') ++ "//" ++ rest ++ "\n" ∧
      ∀ c ∈ rest.toList, Text.endsLine c = false := by
  cases comment with
  | none => exact absurd h List.not_mem_nil
  | some text =>
    obtain ⟨entry, hentry, rfl⟩ := List.mem_map.1 h
    refine ⟨Text.trimEnd (" " ++ entry), by rw [print_eq, shown_comment], fun c hc => ?_⟩
    have hc := Text.mem_of_mem_trimEnd hc
    rw [String.toList_append, List.mem_append] at hc
    rcases hc with hc | hc
    · obtain rfl : c = ' ' := by simpa using hc
      rfl
    · exact Comment.endsLine_eq_false hentry c hc

theorem code_commentLine {width depth : Nat} {comment : Option String} {l : Line}
    (h : l ∈ commentLines width depth comment) : Text.code l.print = "" := by
  obtain ⟨rest, hprint, hrest⟩ := print_commentLine h
  have hlist : l.print.toList =
      List.replicate (2 * depth) ' ' ++ '/' :: '/' :: rest.toList ++ ['\n'] := by
    rw [hprint]
    simp
  have hrows : Text.rows l.print.toList = [l.print.toList] := by
    rw [hlist]
    refine Text.rows_eq_singleton rfl fun c hc => ?_
    simp only [List.mem_append, List.mem_cons] at hc
    rcases hc with hc | rfl | rfl | hc
    · rw [List.eq_of_mem_replicate hc]
      rfl
    · rfl
    · rfl
    · exact hrest c hc
  have hcomment : Text.isCommentRow l.print.toList := by
    rw [Text.isCommentRow, hlist, List.append_assoc, List.dropWhile_append_of_pos]
    · simp
    · intro c hc
      rw [List.eq_of_mem_replicate hc]
      rfl
  rw [Text.code, hrows, List.filter_singleton, hcomment]
  simp

/-- What the lines leave behind when comment lines are taken out. -/
def code (ls : List Line) : String :=
  String.join (ls.map fun l => Text.code l.print)

@[simp] theorem code_nil : code [] = "" := rfl

theorem code_cons (l : Line) (ls : List Line) : code (l :: ls) = Text.code l.print ++ code ls := by
  rw [code, List.map_cons, String.join_cons, code]

theorem code_append (ls ms : List Line) : code (ls ++ ms) = code ls ++ code ms := by
  rw [code, List.map_append, String.join_append, code, code]

theorem code_commentLines (width depth : Nat) (comment : Option String) :
    code (commentLines width depth comment) = "" := by
  suffices h : ∀ ls : List Line, (∀ l ∈ ls, Text.code l.print = "") → code ls = "" from
    h _ fun l hl => code_commentLine hl
  intro ls hls
  induction ls with
  | nil => rfl
  | cons l ls ih =>
    obtain ⟨hl, hls⟩ := List.forall_mem_cons.1 hls
    rw [code_cons, hl, ih hls]
    rfl

/-- Taking comment lines out of printed lines can be done line by line. -/
theorem code_print_append (ls : List Line) (rest : String) :
    Text.code (String.join (ls.map print) ++ rest) = code ls ++ Text.code rest := by
  induction ls with
  | nil => simp
  | cons l ls ih =>
    rw [List.map_cons, String.join_cons, print_eq, String.append_assoc, Text.code_append, ih,
      code_cons, print_eq, String.append_assoc]

theorem code_flatMap_congr {α β : Type} {f : α → List Line} {g : β → List Line} {k : α → β}
    (xs : List α) (h : ∀ x ∈ xs, code (f x) = code (g (k x))) :
    code (xs.flatMap f) = code ((xs.map k).flatMap g) := by
  induction xs with
  | nil => rfl
  | cons x xs ih =>
    obtain ⟨hx, hxs⟩ := List.forall_mem_cons.1 h
    rw [List.flatMap_cons, List.map_cons, List.flatMap_cons, code_append, code_append, hx, ih hxs]

end Line

def Field.withoutComment (f : Field) : Field :=
  { f with comment := none }

def Method.withoutComments (m : Method) : Method :=
  { m with params := m.params.map Field.withoutComment, comment := none }

def Interface.withoutComments (i : Interface) : Interface :=
  { i with
    fields := i.fields.map Field.withoutComment
    methods := i.methods.map Method.withoutComments
    comment := none }

theorem Field.code_lines (width width' depth : Nat) (f : Field) :
    Line.code (f.lines width depth) = Line.code (f.withoutComment.lines width' depth) := by
  simp only [lines, Line.code_append, Line.code_commentLines]
  rfl

theorem Method.code_lines (width width' depth : Nat) (m : Method) :
    Line.code (m.lines width depth) = Line.code (m.withoutComments.lines width' depth) := by
  have hparams : m.withoutComments.params.map Field.parameter = m.params.map Field.parameter := by
    rw [withoutComments, List.map_map]
    rfl
  have hdeclaration : m.withoutComments.declaration = m.declaration := by
    rw [declaration, hparams]
    rfl
  simp only [lines, Line.code_append, Line.code_commentLines, hdeclaration]

theorem Interface.code_lines (width width' depth : Nat) (i : Interface) :
    Line.code (i.lines width depth) = Line.code (i.withoutComments.lines width' depth) := by
  have hfields := Line.code_flatMap_congr i.fields fun f _ => f.code_lines width width' (depth + 1)
  have hmethods := Line.code_flatMap_congr i.methods fun m _ => m.code_lines width width' (depth + 1)
  simp only [lines, Line.code_append, Line.code_commentLines, hfields, hmethods]
  rfl

namespace Namespace

mutual

/-- The tree without any of its comments. -/
def withoutComments : Namespace → Namespace
  | ⟨name, children, interfaces⟩ =>
    ⟨name, withoutCommentsAll children, interfaces.map Interface.withoutComments⟩

def withoutCommentsAll : List Namespace → List Namespace
  | [] => []
  | n :: ns => withoutComments n :: withoutCommentsAll ns

end

mutual

theorem code_lines (width width' depth : Nat) (n : Namespace) :
    Line.code (n.lines width depth) = Line.code (n.withoutComments.lines width' depth) := by
  match n with
  | ⟨name, children, interfaces⟩ =>
    have hchildren := code_linesOfAll width width' (depth + 1) children
    have hinterfaces := Line.code_flatMap_congr interfaces
      fun i _ => i.code_lines width width' (depth + 1)
    simp only [lines, withoutComments, Line.code_append, hchildren, hinterfaces]

theorem code_linesOfAll (width width' depth : Nat) (ns : List Namespace) :
    Line.code (linesOfAll width depth ns) =
      Line.code (linesOfAll width' depth (withoutCommentsAll ns)) := by
  match ns with
  | [] => rfl
  | n :: ns =>
    have hn := code_lines width width' depth n
    have hns := code_linesOfAll width width' depth ns
    simp only [linesOfAll, withoutCommentsAll, Line.code_append, hn, hns]

end

end Namespace

namespace Declarations

/-- Comments never change declarations. Two trees that differ in their comments alone are printed alike
up to lines that are comments, whatever the widths; and each line of a comment is a comment as a whole. -/
theorem code_print_eq_of_withoutComments_eq {t u : Namespace}
    (h : t.withoutComments = u.withoutComments) (main : QualifiedName) (width width' : Nat) :
    Text.code (print width ⟨t, main⟩) = Text.code (print width' ⟨u, main⟩) ∧
    ∀ depth comment, ∀ l ∈ commentLines width depth comment, ∃ rest,
      l.print = String.ofList (List.replicate (2 * depth) ' ') ++ "//" ++ rest ++ "\n" ∧
        ∀ c ∈ rest.toList, Text.endsLine c = false := by
  refine ⟨?_, fun depth comment l hl => Line.print_commentLine hl⟩
  simp only [print, String.append_assoc]
  rw [Line.code_print_append, Line.code_print_append, t.code_lines width 0 0, h,
    ← u.code_lines width' 0 0]

/-- A comment whose words stand between three of the characters that end a line, and one of no words. -/
theorem code_print_eq_of_separated_words :
    let root : QualifiedName := ⟨["Root"], by decide⟩
    let main : QualifiedName := ⟨["Root", "Task"], by decide⟩
    let spoken : Interface := ⟨main, [⟨"title", "string", some "\u2029"⟩], [],
      some "one\u2028title: any;\r\n\x7d"⟩
    let silent : Interface := ⟨main, [⟨"title", "string", none⟩], [], none⟩
    let t := (Namespace.empty root).insertAll [spoken]
    let u := (Namespace.empty root).insertAll [silent]
    t.withoutComments = u.withoutComments ∧
      Declarations.print 3 ⟨t, main⟩ ≠ Declarations.print 80 ⟨u, main⟩ ∧
      Text.code (Declarations.print 3 ⟨t, main⟩) = Text.code (Declarations.print 80 ⟨u, main⟩) := by
  intro root main spoken silent t u
  have ht : t.withoutComments = u.withoutComments := rfl
  exact ⟨ht, by decide +kernel, (code_print_eq_of_withoutComments_eq ht main 3 80).1⟩

end Declarations
end ServiceTypings
