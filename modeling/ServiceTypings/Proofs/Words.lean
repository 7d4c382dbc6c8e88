import ServiceTypings.Proofs.CommentLines

/-! Words and lines under printing. A text that is put together from parts with a blank between them has
the words of its parts, so words joined by spaces are found again (`words_intercalate`), a text has the
words of its lines (`flatMap_words_lines`), and lines with a line feed behind each are found again
(`lines_join`). -/

namespace ServiceTypings.Text

/-- Everything about the words of a text follows from this: a blank belongs to no word. -/
theorem words_append_blank {c : Char} (hc : isBlank c) (a b : List Char) :
    words (String.ofList (a ++ c :: b)) = words (String.ofList a) ++ words (String.ofList b) := by
  simp only [words, String.toList_ofList]
  rw [List.splitOnP_append_cons a b hc, List.filter_append, List.map_append]

theorem words_append_of_blank {sep : String} {c : Char} (hsep : sep.toList = [c]) (hc : isBlank c)
    (a b : String) : words (a ++ sep ++ b) = words a ++ words b := by
  have hlist : a ++ sep ++ b = String.ofList (a.toList ++ c :: b.toList) := by
    rw [← String.toList_inj]
    simp [hsep]
  rw [hlist, words_append_blank hc, String.ofList_toList, String.ofList_toList]

theorem words_append_space (a b : String) : words (a ++ " " ++ b) = words a ++ words b :=
  words_append_of_blank (c := ' ') (by simp) (by decide) a b

theorem words_append_feed (a b : String) : words (a ++ "\n" ++ b) = words a ++ words b :=
  words_append_of_blank (c := '\n') (by simp) (by decide) a b

/-- A word is its own only word. -/
theorem words_of_mem_words {text word : String} (h : word ∈ words text) : words word = [word] := by
  have hsolid : ∀ c ∈ word.toList, isBlank c = false :=
    fun c hc => isBlank_eq_false_of_mem_words h hc
  have hne : word.toList.isEmpty = false := by
    obtain ⟨piece, hpiece, rfl⟩ := List.mem_map.1 h
    rw [String.toList_ofList]
    simpa using (List.mem_filter.1 hpiece).2
  rw [words, List.splitOnP_eq_singleton hsolid, List.filter_singleton, hne]
  simp

theorem words_intercalate {ws : List String} (h : ∀ w ∈ ws, words w = [w]) :
    words (" ".intercalate ws) = ws := by
  induction ws with
  | nil => simp [words_empty]
  | cons w ws ih =>
    obtain ⟨hw, hws⟩ := List.forall_mem_cons.1 h
    cases ws with
    | nil => simpa using hw
    | cons w' ws =>
      rw [String.intercalate_cons_cons, words_append_space, hw, ih hws]
      rfl

theorem words_dropReturn (line : List Char) :
    words (String.ofList (dropReturn line)) = words (String.ofList line) := by
  unfold dropReturn
  split
  next h =>
    obtain ⟨front, rfl⟩ := List.getLast?_eq_some_iff.1 h
    rw [List.dropLast_concat, words_append_blank (by decide)]
    simp [words_empty]
  next => rfl

/-- The words of the lines are those of the pieces between the line feeds. -/
theorem flatMap_words_closeLines (pieces : List (List Char)) :
    (closeLines pieces).flatMap (fun line => words (String.ofList line)) =
      pieces.flatMap fun piece => words (String.ofList piece) := by
  fun_induction closeLines pieces with
  | case1 => rfl
  | case2 final h =>
    obtain rfl := List.isEmpty_iff.1 h
    simp [words_empty]
  | case3 => rfl
  | case4 piece pieces _ ih =>
    rw [List.flatMap_cons, List.flatMap_cons, ih, words_dropReturn]

theorem words_intercalate_feed (pieces : List (List Char)) :
    words (String.ofList (['\n'].intercalate pieces)) =
      pieces.flatMap fun piece => words (String.ofList piece) := by
  induction pieces with
  | nil => simp [words_empty]
  | cons piece pieces ih =>
    cases pieces with
    | nil => simp
    | cons next pieces =>
      rw [List.intercalate_cons_cons, List.append_assoc, List.singleton_append,
        words_append_blank (by decide), ih, List.flatMap_cons (x := piece)]

theorem flatMap_words_lines (text : String) : (lines text).flatMap words = words text := by
  rw [lines, List.flatMap_map, flatMap_words_closeLines, ← words_intercalate_feed,
    List.intercalate_splitOn, String.ofList_toList]

theorem closeLines_append_nil (pieces : List (List Char)) :
    closeLines (pieces ++ [[]]) = pieces.map dropReturn := by
  induction pieces with
  | nil => rfl
  | cons piece pieces ih =>
    rw [List.cons_append, closeLines, ih, List.map_cons]
    simp

/-- Lines that hold no character that ends one are the lines of the text they are written to. -/
theorem lines_join {entries : List String} (h : ∀ e ∈ entries, ∀ c ∈ e.toList, endsLine c = false) :
    lines (String.join (entries.map (· ++ "\n"))) = entries := by
  have hfeed : ∀ e ∈ entries, ∀ c ∈ e.toList, (c == '\n') = false := by
    intro e he c hc
    rw [beq_eq_false_iff_ne]
    rintro rfl
    exact absurd (h e he '\n' hc) (by decide)
  have hreturn : ∀ e ∈ entries, dropReturn e.toList = e.toList := by
    intro e he
    rw [dropReturn, if_neg]
    intro hlast
    exact absurd (h e he '\r' (List.mem_of_getLast? hlast)) (by decide)
  rw [lines, List.splitOn_eq_splitOnP, splitOnP_join (by rfl) hfeed, closeLines_append_nil,
    List.map_map, List.map_map, List.map_congr_left (g := id), List.map_id]
  intro e he
  simp [hreturn e he]

theorem words_join (entries : List String) :
    words (String.join (entries.map (· ++ "\n"))) = entries.flatMap words := by
  induction entries with
  | nil => simp [words_empty]
  | cons entry entries ih =>
    rw [List.map_cons, String.join_cons, words_append_feed, ih, List.flatMap_cons]

end ServiceTypings.Text
