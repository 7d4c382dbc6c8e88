import Mathlib.Data.List.Forall2
import ServiceTypings.Proofs.Words

/-! How the words of a comment are set in entries. `SetsLine` says it without the loop: the words of a line
stay in their order with one space between them, an entry of two words or more fits, and a new entry begins
only where the next word would not have fit. This determines the entries (`setsLine_iff`), for any way to
count how wide a text is. Hence what a comment is wrapped to (`wrap_eq_iff`), and that wrapping it again at
the same width or a larger one changes nothing (`wrap_wrap`). -/

namespace ServiceTypings.Comment

/-- A way to count how wide a text is: part by part, and one for a space. -/
structure Counts (size : String → Nat) : Prop where
  append : ∀ a b, size (a ++ b) = size a + size b
  space : size " " = 1

theorem counts_bytes : Counts String.utf8ByteSize :=
  ⟨fun _ _ => String.utf8ByteSize_append, by decide⟩

/-- Goes on with `entry` as long as the next word fits, widths being told by `size`. -/
def fillBy (size : String → Nat) (width : Nat) (entry : String) : List String → List String
  | [] => [entry]
  | word :: rest =>
    if size entry + 1 + size word > width then entry :: fillBy size width word rest
    else fillBy size width (entry ++ " " ++ word) rest

def fillLineBy (size : String → Nat) (width : Nat) (line : String) : List String :=
  match Text.words line with
  | [] => [""]
  | word :: rest => fillBy size width word rest

theorem fill_eq_fillBy (width : Nat) (entry : String) (rest : List String) :
    fill width entry rest = fillBy String.utf8ByteSize width entry rest := by
  induction rest generalizing entry with
  | nil => rfl
  | cons word rest ih => rw [fill, fillBy, ih, ih]

theorem fillLine_eq_fillLineBy (width : Nat) (line : String) :
    fillLine width line = fillLineBy String.utf8ByteSize width line := by
  rw [fillLine, fillLineBy]
  cases Text.words line with
  | nil => rfl
  | cons word rest => exact fill_eq_fillBy width word rest

/-- Wherever an entry follows another, its first word would not have fit there. -/
def BreaksWhereFull (size : String → Nat) (width : Nat) (entries : List String) : Prop :=
  entries.IsChain fun entry next =>
    ∀ word ∈ (Text.words next).head?, width < size entry + 1 + size word

/-- The words in their order, set in entries with one space between them. -/
structure Sets (size : String → Nat) (width : Nat) (ws entries : List String) : Prop where
  words : entries.flatMap Text.words = ws
  nonempty : ∀ entry ∈ entries, entry ≠ ""
  spaced : ∀ entry ∈ entries, " ".intercalate (Text.words entry) = entry
  fits : ∀ entry ∈ entries, 2 ≤ (Text.words entry).length → size entry ≤ width
  full : BreaksWhereFull size width entries

/-- A blank line is one empty entry, and any other line has its words set. -/
def SetsLine (size : String → Nat) (width : Nat) (line : String) (entries : List String) : Prop :=
  if Text.words line = [] then entries = [""] else Sets size width (Text.words line) entries

section

variable {size : String → Nat} {width : Nat} {run ws entries : List String} {entry : String}

theorem intercalate_concat (h : run ≠ []) (word : String) :
    " ".intercalate (run ++ [word]) = " ".intercalate run ++ " " ++ word := by
  rw [String.intercalate_append_of_ne_nil h (List.cons_ne_nil word []), String.intercalate_singleton]

theorem Counts.intercalate_concat (hsize : Counts size) (h : run ≠ []) (word : String) :
    size (" ".intercalate (run ++ [word])) = size (" ".intercalate run) + 1 + size word := by
  rw [Comment.intercalate_concat h, hsize.append, hsize.append, hsize.space]

theorem Counts.intercalate_le (hsize : Counts size) (h : run ≠ []) (more : List String) :
    size (" ".intercalate run) ≤ size (" ".intercalate (run ++ more)) := by
  by_cases hmore : more = []
  · simp [hmore]
  · rw [String.intercalate_append_of_ne_nil h hmore, hsize.append, hsize.append]
    omega

namespace Sets

theorem words_ne_nil (h : Sets size width ws entries) (he : entry ∈ entries) :
    Text.words entry ≠ [] := by
  intro hnil
  have hspaced := h.spaced entry he
  rw [hnil] at hspaced
  exact h.nonempty entry he hspaced.symm

theorem tail (h : Sets size width ws (entry :: entries)) :
    Sets size width (entries.flatMap Text.words) entries where
  words := rfl
  nonempty := (List.forall_mem_cons.1 h.nonempty).2
  spaced := (List.forall_mem_cons.1 h.spaced).2
  fits := (List.forall_mem_cons.1 h.fits).2
  full := List.isChain_of_isChain_cons h.full

theorem eq_nil (h : Sets size width [] entries) : entries = [] := by
  refine List.eq_nil_iff_forall_not_mem.2 fun entry he => ?_
  exact h.words_ne_nil he (List.flatMap_eq_nil_iff.1 h.words entry he)

/-- The first word of the first entry is the first word of all. -/
theorem head?_words (h : Sets size width ws (entry :: entries)) :
    (Text.words entry).head? = ws.head? := by
  obtain ⟨word, run, hrun⟩ := List.exists_cons_of_ne_nil (h.words_ne_nil List.mem_cons_self)
  rw [← h.words, List.flatMap_cons, hrun]
  rfl

/-- What the first entry holds behind some of the words, and the others hold, are the words that are left. -/
theorem words_tail {rest more : List String} (h : Sets size width (run ++ rest) (entry :: entries))
    (hentry : Text.words entry = run ++ more) : more ++ entries.flatMap Text.words = rest := by
  have hall := h.words
  rwa [List.flatMap_cons, hentry, List.append_assoc, List.append_cancel_left_eq] at hall

theorem exists_words_eq_cons {word : String} (h : Sets size width (word :: ws) (entry :: entries)) :
    ∃ more, Text.words entry = word :: more :=
  List.head?_eq_some_iff.1 h.head?_words

theorem single (hwords : ∀ word ∈ run, Text.words word = [word]) (hrun : run ≠ [])
    (hfits : 2 ≤ run.length → size (" ".intercalate run) ≤ width) :
    Sets size width run [" ".intercalate run] := by
  have hself : Text.words (" ".intercalate run) = run := Text.words_intercalate hwords
  refine ⟨?_, ?_, ?_, ?_, List.IsChain.singleton _⟩
  · rw [List.flatMap_singleton, hself]
  · intro entry he hempty
    obtain rfl := List.mem_singleton.1 he
    rw [hempty, Text.words_empty] at hself
    exact hrun hself.symm
  · intro entry he
    obtain rfl := List.mem_singleton.1 he
    rw [hself]
  · intro entry he hlength
    obtain rfl := List.mem_singleton.1 he
    exact hfits (hself ▸ hlength)

/-- An entry before others, where their first word does not fit behind it. -/
theorem cons (hentry : Sets size width run [entry]) (h : Sets size width ws entries)
    (hfull : ∀ word ∈ ws.head?, width < size entry + 1 + size word) :
    Sets size width (run ++ ws) (entry :: entries) where
  words := by
    rw [List.flatMap_cons, h.words, ← hentry.words, List.flatMap_singleton]
  nonempty := List.forall_mem_cons.2 ⟨hentry.nonempty entry List.mem_cons_self, h.nonempty⟩
  spaced := List.forall_mem_cons.2 ⟨hentry.spaced entry List.mem_cons_self, h.spaced⟩
  fits := List.forall_mem_cons.2 ⟨hentry.fits entry List.mem_cons_self, h.fits⟩
  full := by
    cases entries with
    | nil => exact List.IsChain.singleton _
    | cons next entries =>
      refine List.isChain_cons_cons.2 ⟨?_, h.full⟩
      rw [h.head?_words]
      exact hfull

/-- What the loop makes of the words that are left, behind an entry of those before them. -/
theorem fillBy (hsize : Counts size) {rest : List String}
    (hwords : ∀ word ∈ run ++ rest, Text.words word = [word]) (hrun : run ≠ [])
    (hfits : 2 ≤ run.length → size (" ".intercalate run) ≤ width) :
    Sets size width (run ++ rest) (fillBy size width (" ".intercalate run) rest) := by
  induction rest generalizing run with
  | nil =>
    rw [List.append_nil] at hwords ⊢
    exact single hwords hrun hfits
  | cons word rest ih =>
    rw [Comment.fillBy]
    split
    next hfull =>
      have hself : ∀ w ∈ [word] ++ rest, Text.words w = [w] :=
        fun w hw => hwords w (List.mem_append_right run hw)
      have hword := ih hself (List.cons_ne_nil word []) (by simp)
      rw [String.intercalate_singleton] at hword
      refine cons (single (fun w hw => hwords w (List.mem_append_left _ hw)) hrun hfits) hword ?_
      intro w hw
      obtain rfl := Option.some.inj hw
      exact hfull
    next hfit =>
      have hself : ∀ w ∈ (run ++ [word]) ++ rest, Text.words w = [w] := by simpa using hwords
      have hmore := ih hself (by simp) (by rw [hsize.intercalate_concat hrun]; omega)
      rwa [Comment.intercalate_concat hrun, List.append_assoc, List.singleton_append] at hmore

/-- The other way round: entries that begin with the words before are those of the loop. -/
theorem eq_fillBy (hsize : Counts size) {rest more : List String} (hrun : run ≠ [])
    (h : Sets size width (run ++ rest) (entry :: entries))
    (hentry : Text.words entry = run ++ more) :
    entry :: entries = Comment.fillBy size width (" ".intercalate run) rest := by
  induction rest generalizing run more entry entries with
  | nil =>
    obtain ⟨rfl, hnone⟩ := List.append_eq_nil_iff.1 (h.words_tail hentry)
    have htail := h.tail
    rw [hnone] at htail
    rw [htail.eq_nil, Comment.fillBy, ← h.spaced entry List.mem_cons_self, hentry, List.append_nil]
  | cons word rest ih =>
    have hspaced := h.spaced entry List.mem_cons_self
    have hothers := h.words_tail hentry
    rw [Comment.fillBy]
    cases more with
    | nil =>
      -- the entry ends before the word, so the word did not fit
      rw [List.nil_append] at hothers
      rw [hentry, List.append_nil] at hspaced
      cases entries with
      | nil => simp at hothers
      | cons next entries =>
        have htail := h.tail
        rw [hothers] at htail
        obtain ⟨behind, hnext⟩ := htail.exists_words_eq_cons
        have hfull : width < size entry + 1 + size word :=
          (List.isChain_cons_cons.1 h.full).1 word (by rw [hnext]; rfl)
        have hrest := ih (List.cons_ne_nil word []) htail hnext
        rw [String.intercalate_singleton] at hrest
        rw [hspaced, if_pos hfull, hrest]
    | cons word' more =>
      -- the entry goes on with the word, so the word fits
      obtain ⟨rfl, -⟩ := List.cons.inj hothers
      have hmore : Text.words entry = (run ++ [word']) ++ more := by simp [hentry]
      have hpositive : 0 < run.length := List.length_pos_iff.2 hrun
      have hfits : size entry ≤ width := by
        refine h.fits entry List.mem_cons_self ?_
        rw [hentry, List.length_append, List.length_cons]
        omega
      have hle : size (" ".intercalate (run ++ [word'])) ≤ size entry := by
        rw [← hspaced, hmore]
        exact hsize.intercalate_le (by simp) more
      rw [hsize.intercalate_concat hrun] at hle
      rw [if_neg (by omega), ← Comment.intercalate_concat hrun]
      refine ih (by simp) ?_ hmore
      rwa [List.append_assoc, List.singleton_append]

end Sets

/-- The entries of a line are determined by what is said of them, and the loop finds them. -/
theorem setsLine_iff (hsize : Counts size) {line : String} :
    SetsLine size width line entries ↔ fillLineBy size width line = entries := by
  rw [SetsLine, fillLineBy]
  cases hwords : Text.words line with
  | nil => simp [eq_comm]
  | cons word rest =>
    have hself : ∀ w ∈ [word] ++ rest, Text.words w = [w] := by
      rw [List.singleton_append, ← hwords]
      exact fun w hw => Text.words_of_mem_words hw
    have hloop : Sets size width ([word] ++ rest) _ :=
      Sets.fillBy hsize hself (List.cons_ne_nil word []) (by simp)
    rw [String.intercalate_singleton] at hloop
    rw [if_neg (List.cons_ne_nil word rest)]
    constructor
    · intro h
      cases entries with
      | nil => exact absurd h.words (by simp)
      | cons entry entries =>
        obtain ⟨more, hentry⟩ := h.exists_words_eq_cons
        have heq := Sets.eq_fillBy hsize (List.cons_ne_nil word []) h hentry
        rw [String.intercalate_singleton] at heq
        exact heq.symm
    · rintro rfl
      exact hloop

theorem setsLine_fillLineBy (hsize : Counts size) (line : String) :
    SetsLine size width line (fillLineBy size width line) :=
  (setsLine_iff hsize).2 rfl

theorem SetsLine.flatMap_words {line : String} (h : SetsLine size width line entries) :
    entries.flatMap Text.words = Text.words line := by
  unfold SetsLine at h
  split at h
  next hblank => rw [h, hblank, List.flatMap_singleton, Text.words_empty]
  next => exact h.words

/-- An entry that fits is set as it is, and so it is where there is more room. -/
theorem SetsLine.singleton {line : String} (h : SetsLine size width line entries) {room : Nat}
    (hroom : width ≤ room) (he : entry ∈ entries) : SetsLine size room entry [entry] := by
  unfold SetsLine at h
  split at h
  next =>
    rw [h] at he
    obtain rfl := List.mem_singleton.1 he
    rw [SetsLine, if_pos Text.words_empty]
  next =>
    rw [SetsLine, if_neg (h.words_ne_nil he)]
    have hsingle : ∀ other ∈ [entry], other ∈ entries := by
      intro other ho
      rwa [List.mem_singleton.1 ho]
    refine ⟨List.flatMap_singleton _ _, fun other ho => h.nonempty other (hsingle other ho),
      fun other ho => h.spaced other (hsingle other ho), fun other ho hlength => ?_,
      List.IsChain.singleton _⟩
    exact Nat.le_trans (h.fits other (hsingle other ho) hlength) hroom

end

theorem setsLine_fillLine (width : Nat) (line : String) :
    SetsLine String.utf8ByteSize width line (fillLine width line) :=
  fillLine_eq_fillLineBy width line ▸ setsLine_fillLineBy counts_bytes line

theorem forall₂_setsLine_iff {width : Nat} {lines : List String} {groups : List (List String)} :
    List.Forall₂ (SetsLine String.utf8ByteSize width) lines groups ↔
      lines.map (fillLine width) = groups := by
  have hlaw : SetsLine String.utf8ByteSize width = fun line entries => fillLine width line = entries := by
    funext line entries
    rw [fillLine_eq_fillLineBy, setsLine_iff counts_bytes]
  rw [hlaw, ← List.forall₂_map_left_iff, List.forall₂_eq_eq_eq]

/-- What a comment is wrapped to: nothing if it has no words, and else the entries of its lines, one group
after the other. -/
theorem wrap_eq_iff {width : Nat} {text : String} {entries : List String} :
    wrap width text = entries ↔
      Text.words text = [] ∧ entries = [] ∨
      Text.words text ≠ [] ∧ ∃ groups, entries = groups.flatten ∧
        List.Forall₂ (SetsLine String.utf8ByteSize width) (Text.lines text) groups := by
  simp only [forall₂_setsLine_iff, exists_eq_right']
  rw [wrap, List.flatMap_def]
  split
  next h => simp [h, eq_comm]
  next h => simp [h, eq_comm]

example : wrap 9 "one two three\n\nfour five" = ["one two", "three", "", "four five"] := by
  decide +kernel

/-- Every entry of a wrapped comment is one of the entries of a line. -/
theorem exists_line_of_mem_wrap {width : Nat} {text entry : String} (h : entry ∈ wrap width text) :
    ∃ line, entry ∈ fillLine width line := by
  unfold wrap at h
  split at h
  · exact absurd h List.not_mem_nil
  · obtain ⟨line, _, h⟩ := List.mem_flatMap.1 h
    exact ⟨line, h⟩

theorem flatMap_words_wrap (width : Nat) (text : String) :
    (wrap width text).flatMap Text.words = Text.words text := by
  unfold wrap
  split
  next h => rw [h, List.flatMap_nil]
  next =>
    rw [List.flatMap_assoc, ← Text.flatMap_words_lines]
    congr 1
    funext line
    exact (setsLine_fillLine width line).flatMap_words

/-- Wrapping is stable: what a comment is wrapped to, written line by line, is wrapped to itself at every
width that is not smaller. -/
theorem wrap_wrap {w v : Nat} (h : w ≤ v) (text : String) :
    wrap v (String.join ((wrap w text).map (· ++ "\n"))) = wrap w text := by
  have hlines := Text.lines_join fun _ (he : _ ∈ wrap w text) => endsLine_eq_false he
  have hwords := Text.words_join (wrap w text)
  rw [flatMap_words_wrap] at hwords
  rw [wrap, hlines, hwords]
  split
  next hnone => rw [wrap, if_pos hnone]
  next =>
    have hself : ∀ entry ∈ wrap w text, fillLine v entry = [entry] := by
      intro entry he
      obtain ⟨line, he⟩ := exists_line_of_mem_wrap he
      rw [fillLine_eq_fillLineBy]
      exact (setsLine_iff counts_bytes).1 ((setsLine_fillLine w line).singleton h he)
    rw [List.flatMap_congr hself, List.flatMap_singleton']

/-- Words that have been parted at a small width stay apart at a larger one, next to a blank line and a word
that fits in neither. -/
theorem wrap_wrap_of_long_word :
    let text := "one two\tthree\r\n\n\u2028 supercalifragilistic\n"
    wrap 5 text = ["one", "two", "three", "", "supercalifragilistic"] ∧ 5 ≤ 9 ∧
      wrap 9 (String.join ((wrap 5 text).map (· ++ "\n"))) =
        ["one", "two", "three", "", "supercalifragilistic"] := by
  intro text
  have hwrap : wrap 5 text = ["one", "two", "three", "", "supercalifragilistic"] := by decide +kernel
  exact ⟨hwrap, by decide, (wrap_wrap (by decide) text).trans hwrap⟩

end ServiceTypings.Comment
