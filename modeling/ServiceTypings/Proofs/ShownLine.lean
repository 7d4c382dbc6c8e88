import Mathlib.Data.List.Basic
import ServiceTypings.Declarations

/-! Printed lines, as a reader meets them: set in by spaces, without blanks at the end. Setting in and
trimming never touch what a line says, so a line that ends in something other than a blank is read back
as it was (`unindent_shown`). -/

namespace ServiceTypings

theorem getLast?_dropWhile {α : Type} {p : α → Bool} {l : List α} {a : α} (h : l.getLast? = some a)
    (ha : p a = false) : (l.dropWhile p).getLast? = some a := by
  induction l with
  | nil => simp at h
  | cons b l ih =>
    rw [List.dropWhile_cons]
    split
    next hb =>
      refine ih ?_
      cases l with
      | nil =>
        obtain rfl : b = a := by simpa using h
        exact absurd hb (by simp [ha])
      | cons c l => rwa [List.getLast?_cons_cons] at h
    next => exact h

namespace Text

theorem toList_trimEnd (text : String) :
    (trimEnd text).toList = (text.toList.reverse.dropWhile isBlank).reverse := by
  rw [trimEnd, String.toList_ofList]

theorem mem_of_mem_trimEnd {text : String} {c : Char} (h : c ∈ (trimEnd text).toList) :
    c ∈ text.toList := by
  rw [toList_trimEnd, List.mem_reverse] at h
  exact List.mem_reverse.1 ((List.dropWhile_sublist _).mem h)

/-- What ends in no blank is left alone, whatever follows it. -/
theorem trimEnd_append {a b : String} {c : Char} (ha : a.toList.getLast? = some c)
    (hc : isBlank c = false) : trimEnd (a ++ b) = a ++ trimEnd b := by
  have hhead : a.toList.reverse.dropWhile isBlank = a.toList.reverse := by
    rw [List.getLast?_eq_head?_reverse] at ha
    obtain ⟨rest, hrest⟩ := List.head?_eq_some_iff.1 ha
    rw [hrest, List.dropWhile_cons, hc]
    rfl
  rw [← String.toList_inj, toList_trimEnd, String.toList_append, String.toList_append,
    toList_trimEnd, List.reverse_append, List.dropWhile_append]
  split
  next hempty =>
    rw [List.isEmpty_iff] at hempty
    rw [hhead, hempty, List.reverse_reverse, List.reverse_nil, List.append_nil]
  next => rw [List.reverse_append, List.reverse_reverse]

theorem trimEnd_eq_self {text : String} {c : Char} (h : text.toList.getLast? = some c)
    (hc : isBlank c = false) : trimEnd text = text := by
  have htrim := trimEnd_append (b := "") h hc
  rw [String.append_empty] at htrim
  rw [htrim]
  exact String.append_empty

/-- The text without the spaces that set it in. -/
def unindent (text : String) : String :=
  String.ofList (text.toList.dropWhile (· = ' '))

theorem unindent_spaces_append (n : Nat) (text : String) :
    unindent (String.ofList (List.replicate n ' ') ++ text) = unindent text := by
  rw [unindent, unindent, String.toList_append, String.toList_ofList,
    List.dropWhile_append_of_pos]
  intro c hc
  rw [List.eq_of_mem_replicate hc]
  rfl

theorem unindent_eq_self {text : String} {c : Char} (h : text.toList.head? = some c) (hc : c ≠ ' ') :
    unindent text = text := by
  obtain ⟨rest, hrest⟩ := List.head?_eq_some_iff.1 h
  rw [unindent, hrest, List.dropWhile_cons_of_neg (by simpa using hc), ← hrest, String.ofList_toList]

theorem head?_unindent_slashes (n : Nat) (rest : String) :
    (unindent (String.ofList (List.replicate n ' ') ++ "//" ++ rest)).toList.head? = some '/' := by
  rw [String.append_assoc, unindent_spaces_append, unindent_eq_self (c := '/') (by simp) (by decide)]
  simp

theorem getLast?_unindent {text : String} {c : Char} (h : text.toList.getLast? = some c)
    (hc : c ≠ ' ') : (unindent text).toList.getLast? = some c := by
  rw [unindent, String.toList_ofList]
  exact getLast?_dropWhile h (by simpa using hc)

/-- What stands before, between and after the line feeds of a text. -/
def betweenFeeds (text : String) : List String :=
  (text.toList.splitOn '\n').map String.ofList

/-- Lines that no character breaks are the pieces of the text they are written to, and behind the last
of them stands nothing. -/
theorem splitOnP_join {ends : Char → Bool} (hfeed : ends '\n' = true) {lines : List String}
    (h : ∀ line ∈ lines, ∀ c ∈ line.toList, ends c = false) :
    (String.join (lines.map (· ++ "\n"))).toList.splitOnP ends = lines.map String.toList ++ [[]] := by
  induction lines with
  | nil => rfl
  | cons line lines ih =>
    obtain ⟨hline, hlines⟩ := List.forall_mem_cons.1 h
    have htext : (String.join ((line :: lines).map (· ++ "\n"))).toList =
        line.toList ++ '\n' :: (String.join (lines.map (· ++ "\n"))).toList := by
      simp
    rw [htext, List.splitOnP_append_cons _ _ hfeed, List.splitOnP_eq_singleton hline, ih hlines]
    rfl

/-- Lines that hold no line feed are found again in the text they are written to, one below the other. -/
theorem betweenFeeds_join {lines : List String} (h : ∀ line ∈ lines, '\n' ∉ line.toList) :
    betweenFeeds (String.join (lines.map (· ++ "\n"))) = lines ++ [""] := by
  have hfeedless : ∀ line ∈ lines, ∀ c ∈ line.toList, (c == '\n') = false := by
    intro line hline c hc
    rw [beq_eq_false_iff_ne]
    rintro rfl
    exact h line hline hc
  rw [betweenFeeds, List.splitOn_eq_splitOnP, splitOnP_join (by rfl) hfeedless, List.map_append,
    List.map_map, String.ofList_comp_toList, List.map_id]
  rfl

end Text

namespace Line

/-- The line as it is printed, without its line feed. -/
def shown (l : Line) : String :=
  Text.trimEnd (String.ofList (List.replicate (2 * l.depth) ' ') ++ l.text)

theorem print_eq (l : Line) : l.print = l.shown ++ "\n" := rfl

/-- A line that ends in no blank is read back whole. -/
theorem unindent_shown (d : Nat) {text : String} {c : Char} (h : text.toList.getLast? = some c)
    (hc : Text.isBlank c = false) : Text.unindent (shown ⟨d, text⟩) = Text.unindent text := by
  have hlast : (String.ofList (List.replicate (2 * d) ' ') ++ text).toList.getLast? = some c := by
    rw [String.toList_append, List.getLast?_append, h]
    rfl
  rw [shown, Text.trimEnd_eq_self hlast hc, Text.unindent_spaces_append]

/-- The slashes of a comment are never trimmed away, only the space behind them may be. -/
theorem shown_comment (d : Nat) (entry : String) :
    shown ⟨d, "// " ++ entry⟩ =
      String.ofList (List.replicate (2 * d) ' ') ++ "//" ++ Text.trimEnd (" " ++ entry) := by
  have hsplit : String.ofList (List.replicate (2 * d) ' ') ++ ("// " ++ entry) =
      String.ofList (List.replicate (2 * d) ' ') ++ "//" ++ (" " ++ entry) := by
    rw [← String.toList_inj]
    simp
  have hlast : (String.ofList (List.replicate (2 * d) ' ') ++ "//").toList.getLast? = some '/' := by
    simp
  rw [shown, hsplit, Text.trimEnd_append hlast (by decide)]

end Line

namespace Namespace

/-- The lines of a namespace between its header and its closing brace. -/
def inner (width depth : Nat) (n : Namespace) : List Line :=
  n.children.flatMap (lines width depth) ++ n.interfaces.flatMap (Interface.lines width depth)

theorem lines_eq_inner (width depth : Nat) (n : Namespace) :
    n.lines width depth =
      ⟨depth, header depth n.localName⟩ :: (n.inner width (depth + 1) ++ [⟨depth, "\x7d"⟩]) := by
  rw [lines_eq, inner, List.append_assoc [_], List.append_assoc [_], List.singleton_append]

/-- The first line of a tree is printed as it is. -/
theorem shown_rootHeader (label : String) :
    Line.shown ⟨0, header 0 label⟩ = "declare namespace " ++ label ++ " \x7b" := by
  have hlast (keyword : String) : (keyword ++ label ++ " \x7b").toList.getLast? = some '\x7b' := by simp
  rw [Line.shown, Nat.mul_zero, List.replicate_zero, header, if_pos rfl]
  refine Text.trimEnd_eq_self (c := '\x7b') ?_ (by decide)
  rw [String.toList_append, List.getLast?_append, hlast]
  rfl

end Namespace
end ServiceTypings
