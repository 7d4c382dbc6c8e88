import ServiceTypings.Proofs.Filling

/-! Widths in columns. Entries are filled by the bytes of their texts, which are as many as the characters
only where every character takes one byte. So a line may be broken before its columns are full; it is not
exactly if the entries that filling by characters would give also fit when their bytes are counted
(`breaksWhereFull_fillLine_iff`), as they do where no word has more bytes than characters. -/

namespace ServiceTypings.Comment

theorem counts_columns : Counts String.length :=
  ⟨String.length_append, by decide⟩

theorem length_le_utf8ByteSize (text : String) : text.length ≤ text.utf8ByteSize := by
  suffices h : ∀ cs : List Char, cs.length ≤ (String.ofList cs).utf8ByteSize by
    have hlist := h text.toList
    rwa [String.ofList_toList, String.length_toList] at hlist
  intro cs
  induction cs with
  | nil => simp
  | cons c cs ih =>
    have hpositive := c.utf8Size_pos
    rw [String.ofList_cons, String.utf8ByteSize_append, String.utf8ByteSize_singleton, List.length_cons]
    omega

variable {size size' : String → Nat} {width : Nat} {line : String} {entries : List String}

theorem BreaksWhereFull.mono (hle : ∀ text, size text ≤ size' text)
    (h : BreaksWhereFull size width entries) : BreaksWhereFull size' width entries := by
  refine List.IsChain.imp (fun entry next hfull word hword => ?_) h
  have hentry := hle entry
  have hword' := hle word
  have hwidth := hfull word hword
  omega

theorem SetsLine.breaksWhereFull (h : SetsLine size width line entries) :
    BreaksWhereFull size width entries := by
  unfold SetsLine at h
  split at h
  · rw [h]
    exact List.IsChain.singleton _
  · exact h.full

theorem SetsLine.fits (h : SetsLine size width line entries) :
    ∀ entry ∈ entries, 2 ≤ (Text.words entry).length → size entry ≤ width := by
  unfold SetsLine at h
  split at h
  next =>
    intro entry he hlength
    rw [h] at he
    rw [List.mem_singleton.1 he, Text.words_empty] at hlength
    exact absurd hlength (by decide)
  next => exact h.fits

theorem SetsLine.recount (h : SetsLine size width line entries)
    (hfits : ∀ entry ∈ entries, 2 ≤ (Text.words entry).length → size' entry ≤ width)
    (hfull : BreaksWhereFull size' width entries) : SetsLine size' width line entries := by
  unfold SetsLine at h ⊢
  split
  next hblank =>
    rwa [if_pos hblank] at h
  next hwords =>
    rw [if_neg hwords] at h
    exact ⟨h.words, h.nonempty, h.spaced, hfits, hfull⟩

/-- A line is broken only where its columns are full exactly if what fills its columns fits in bytes. -/
theorem breaksWhereFull_fillLine_iff (width : Nat) (line : String) :
    BreaksWhereFull String.length width (fillLine width line) ↔
      ∀ entry ∈ fillLineBy String.length width line,
        2 ≤ (Text.words entry).length → entry.utf8ByteSize ≤ width := by
  have hbytes := setsLine_fillLine width line
  have hcolumns : SetsLine String.length width line (fillLineBy String.length width line) :=
    setsLine_fillLineBy counts_columns line
  constructor
  · intro hfull
    have hsame : SetsLine String.length width line (fillLine width line) := by
      refine hbytes.recount (fun entry he hlength => ?_) hfull
      exact Nat.le_trans (length_le_utf8ByteSize entry) (hbytes.fits entry he hlength)
    rw [(setsLine_iff counts_columns).1 hsame]
    exact hbytes.fits
  · intro hfits
    have hsame := hcolumns.recount hfits (hcolumns.breaksWhereFull.mono length_le_utf8ByteSize)
    rw [fillLine_eq_fillLineBy, (setsLine_iff counts_bytes).1 hsame]
    exact hcolumns.breaksWhereFull

theorem fillBy_congr (hsize : Counts size) (hsize' : Counts size') {entry : String} {rest : List String}
    (hentry : size entry = size' entry) (hrest : ∀ word ∈ rest, size word = size' word) :
    fillBy size width entry rest = fillBy size' width entry rest := by
  induction rest generalizing entry with
  | nil => rfl
  | cons word rest ih =>
    obtain ⟨hword, hrest⟩ := List.forall_mem_cons.1 hrest
    have hmore : size (entry ++ " " ++ word) = size' (entry ++ " " ++ word) := by
      simp only [hsize.append, hsize'.append, hsize.space, hsize'.space, hentry, hword]
    rw [fillBy, fillBy, hentry, hword, ih hword hrest, ih hmore hrest]

/-- A line in which no word has more bytes than characters is broken only where its columns are full. -/
theorem breaksWhereFull_fillLine_of_narrow (width : Nat)
    (h : ∀ word ∈ Text.words line, word.utf8ByteSize = word.length) :
    BreaksWhereFull String.length width (fillLine width line) := by
  have hcolumns : fillLine width line = fillLineBy String.length width line := by
    rw [fillLine_eq_fillLineBy, fillLineBy, fillLineBy]
    cases hwords : Text.words line with
    | nil => rfl
    | cons word rest =>
      rw [hwords] at h
      obtain ⟨hword, hrest⟩ := List.forall_mem_cons.1 h
      exact fillBy_congr counts_bytes counts_columns hword hrest
  rw [hcolumns]
  exact (setsLine_fillLineBy counts_columns line).breaksWhereFull

/-- The groups that a comment is wrapped to are set by their bytes: a line is broken only where the next word
would take more bytes than the width. Whether all of them are broken only where their columns are full is told
from what filling the columns gives: that has to fit in bytes. -/
theorem wrap_breaks_columns_full_iff (width : Nat) (text : String) :
    ∃ groups, List.Forall₂ (SetsLine String.utf8ByteSize width) (Text.lines text) groups ∧
      wrap width text = (if Text.words text = [] then [] else groups.flatten) ∧
      ((∀ group ∈ groups, BreaksWhereFull String.length width group) ↔
        ∀ line ∈ Text.lines text, ∀ entry ∈ fillLineBy String.length width line,
          2 ≤ (Text.words entry).length → entry.utf8ByteSize ≤ width) := by
  refine ⟨(Text.lines text).map (fillLine width), forall₂_setsLine_iff.2 rfl, ?_, ?_⟩
  · rw [wrap, List.flatMap_def]
  · simp only [List.forall_mem_map, breaksWhereFull_fillLine_iff]

instance (size : String → Nat) (width : Nat) (entries : List String) :
    Decidable (BreaksWhereFull size width entries) :=
  inferInstanceAs (Decidable (List.IsChain _ entries))

/-- Two words of two characters fill five columns, and still they are parted at that width. -/
theorem breaks_before_columns_full :
    Text.lines "éé éé" = ["éé éé"] ∧ wrap 5 "éé éé" = fillLine 5 "éé éé" ∧
      wrap 5 "éé éé" = ["éé", "éé"] ∧ "éé éé".length = 5 ∧
      ¬BreaksWhereFull String.length 5 (wrap 5 "éé éé") := by
  decide +kernel

end ServiceTypings.Comment
