import Mathlib.Data.List.Basic
import ServiceTypings.Path
import ServiceTypings.QualifiedName

/-! Texts split at a character, names at their dots and paths at their slashes. No piece holds the
character, a text without it is its own only piece, and two texts with the character between them have
the pieces of both. -/

namespace ServiceTypings

/-- No piece of a split holds what was split at. -/
theorem eq_false_of_mem_splitOnP {α : Type} {p : α → Bool} {l piece : List α} {a : α}
    (h : piece ∈ l.splitOnP p) (ha : a ∈ piece) : p a = false := by
  induction l generalizing piece with
  | nil =>
    rw [List.splitOnP_nil, List.mem_singleton] at h
    exact absurd (h ▸ ha) List.not_mem_nil
  | cons b l ih =>
    rw [List.splitOnP_cons_eq_if_modifyHead] at h
    split at h
    next =>
      rcases List.mem_cons.1 h with rfl | h
      · exact absurd ha List.not_mem_nil
      · exact ih h ha
    next hb =>
      obtain ⟨first, rest, hsplit⟩ := List.exists_cons_of_ne_nil (List.splitOnP_ne_nil p l)
      rw [hsplit, List.modifyHead_cons] at h
      rw [hsplit] at ih
      rcases List.mem_cons.1 h with rfl | h
      · rcases List.mem_cons.1 ha with rfl | ha
        · exact Bool.eq_false_iff.2 hb
        · exact ih List.mem_cons_self ha
      · exact ih (List.mem_cons_of_mem first h) ha

theorem not_mem_of_mem_splitOn {l piece : List Char} {a : Char} (h : piece ∈ l.splitOn a) :
    a ∉ piece := by
  intro ha
  rw [List.splitOn_eq_splitOnP] at h
  have hne := eq_false_of_mem_splitOnP h ha
  simp at hne

theorem splitOn_eq_singleton {l : List Char} {a : Char} (h : a ∉ l) : l.splitOn a = [l] := by
  rw [List.splitOn_eq_splitOnP]
  refine List.splitOnP_eq_singleton fun x hx => ?_
  rw [beq_eq_false_iff_ne]
  rintro rfl
  exact h hx

theorem splitOn_append_cons (l m : List Char) (a : Char) :
    (l ++ a :: m).splitOn a = l.splitOn a ++ m.splitOn a := by
  rw [List.splitOn_eq_splitOnP, List.splitOn_eq_splitOnP, List.splitOn_eq_splitOnP]
  exact List.splitOnP_append_cons l m (beq_self_eq_true a)

/-- A character that does not separate comes into a text with one of the parts. -/
theorem mem_toList_intercalate {sep : String} {parts : List String} {c : Char} (hsep : c ∉ sep.toList) :
    c ∈ (sep.intercalate parts).toList ↔ ∃ part ∈ parts, c ∈ part.toList := by
  induction parts with
  | nil => simp
  | cons part parts ih =>
    rw [List.exists_mem_cons_iff]
    cases parts with
    | nil => simp
    | cons next parts =>
      rw [String.intercalate_cons_cons, String.toList_append, String.toList_append, List.mem_append,
        List.mem_append, ih, or_iff_left hsep]

namespace QualifiedName

theorem partsOf_eq_singleton {text : String} (h : '.' ∉ text.toList) : partsOf text = [text] := by
  rw [partsOf, splitOn_eq_singleton h, List.map_singleton, String.ofList_toList]

theorem partsOf_append (a b : String) : partsOf (a ++ "." ++ b) = partsOf a ++ partsOf b := by
  have hlist : (a ++ "." ++ b).toList = a.toList ++ '.' :: b.toList := by simp
  rw [partsOf, hlist, splitOn_append_cons, List.map_append, partsOf, partsOf]

theorem parts_nonempty_append_dot_iff {a b : String} :
    "" ∉ partsOf (a ++ "." ++ b) ↔ "" ∉ partsOf a ∧ "" ∉ partsOf b := by
  rw [partsOf_append, List.mem_append, not_or]

theorem isSome_parse?_iff {text : String} : (parse? text).isSome ↔ "" ∉ partsOf text := by
  unfold parse?
  split <;> simp_all

theorem segments_of_parse? {text : String} {name : QualifiedName} (h : parse? text = some name) :
    name.segments = partsOf text := by
  unfold parse? at h
  split at h
  · simp at h
  · cases h
    rfl

end QualifiedName

namespace Path

theorem pieces_ne_nil (path : String) : pieces path ≠ [] := by
  simp [pieces, List.splitOn_ne_nil]

theorem intercalate_pieces (path : String) : "/".intercalate (pieces path) = path := by
  rw [← String.toList_inj, String.toList_intercalate, pieces, List.map_map,
    String.toList_comp_ofList, List.map_id]
  exact List.intercalate_splitOn '/'

theorem slash_not_mem_of_mem_pieces {path piece : String} (h : piece ∈ pieces path) :
    '/' ∉ piece.toList := by
  obtain ⟨p, hp, rfl⟩ := List.mem_map.1 h
  rw [String.toList_ofList]
  exact not_mem_of_mem_splitOn hp

theorem pieces_eq_singleton {path : String} (h : '/' ∉ path.toList) : pieces path = [path] := by
  rw [pieces, splitOn_eq_singleton h, List.map_singleton, String.ofList_toList]

theorem pieces_append (a b : String) : pieces (a ++ "/" ++ b) = pieces a ++ pieces b := by
  have hlist : (a ++ "/" ++ b).toList = a.toList ++ '/' :: b.toList := by simp
  rw [pieces, hlist, splitOn_append_cons, List.map_append, pieces, pieces]

theorem pieces_append_slash (a : String) : pieces (a ++ "/") = pieces a ++ [""] := by
  have hempty : pieces "" = [""] := pieces_eq_singleton (by simp)
  rw [← hempty, ← pieces_append, String.append_empty]

end Path
end ServiceTypings
