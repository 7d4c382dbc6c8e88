import Mathlib.Data.List.Forall2
import Mathlib.Data.Nat.Find
import ServiceTypings.Identifier

/-! Which dash of a name is dropped. A joint is a dash with a word character before it and two behind it;
the first one goes, the letter behind it is raised, and all else stays as it is
(`joinFirstDash_of_firstJoint`). Written as a key or as a parameter a name is told from that alone
(`writtenAsKey_iff`, `writtenAsParameter_iff`). The dash can also be told by a pattern: a run of word
characters, a dash, one word character and a run of them, looked for from the left. However far the runs are
taken, a match as far left as there is has the first joint in it (`DashMatch.Leftmost.firstJoint`). -/

namespace ServiceTypings.Identifier

variable {text : List Char} {i : Nat}

def WordAt (text : List Char) (i : Nat) : Prop :=
  ∃ c, text[i]? = some c ∧ isWordChar c = true

/-- There is a dash with a word character before it and two behind it. -/
structure JointAt (text : List Char) (i : Nat) : Prop where
  pos : 0 < i
  dash : text[i]? = some '-'
  before : WordAt text (i - 1)
  next : WordAt text (i + 1)
  after : WordAt text (i + 2)

def FirstJoint (text : List Char) (i : Nat) : Prop :=
  JointAt text i ∧ ∀ j < i, ¬JointAt text j

theorem drop_eq_cons_of_getElem? {c : Char} (h : text[i]? = some c) :
    text.drop i = c :: text.drop (i + 1) := by
  obtain ⟨hi, rfl⟩ := List.getElem?_eq_some_iff.1 h
  exact List.drop_eq_getElem_cons hi

/-- What stands around a joint. -/
theorem jointAt_iff_exists_split : JointAt text i ↔ ∃ before a b c rest,
    text = before ++ a :: '-' :: b :: c :: rest ∧ i = before.length + 1 ∧
      isWordChar a = true ∧ isWordChar b = true ∧ isWordChar c = true := by
  constructor
  · rintro ⟨hpos, hdash, ⟨a, ha, hwa⟩, ⟨b, hb, hwb⟩, c, hc, hwc⟩
    obtain ⟨k, rfl⟩ : ∃ k, i = k + 1 := ⟨i - 1, by omega⟩
    rw [Nat.add_sub_cancel] at ha
    have hk : k < text.length := (List.getElem?_eq_some_iff.1 ha).1
    refine ⟨text.take k, a, b, c, text.drop (k + 4), ?_, ?_, hwa, hwb, hwc⟩
    · rw [← drop_eq_cons_of_getElem? hc, ← drop_eq_cons_of_getElem? hb, ← drop_eq_cons_of_getElem? hdash,
        ← drop_eq_cons_of_getElem? ha, List.take_append_drop]
    · rw [List.length_take, Nat.min_eq_left (Nat.le_of_lt hk)]
  · rintro ⟨before, a, b, c, rest, rfl, rfl, hwa, hwb, hwc⟩
    refine ⟨Nat.succ_pos _, ?_, ⟨a, ?_, hwa⟩, ⟨b, ?_, hwb⟩, c, ?_, hwc⟩ <;>
      simp [Nat.add_assoc]

theorem jointAt_cons_one_iff {a : Char} : JointAt (a :: text) 1 ↔ ∃ b c rest,
    text = '-' :: b :: c :: rest ∧ (isWordChar a && isWordChar b && isWordChar c) = true := by
  rw [jointAt_iff_exists_split]
  simp only [Bool.and_eq_true]
  constructor
  · rintro ⟨before, a', b, c, rest, htext, hone, ha, hb, hc⟩
    obtain rfl : before = [] := List.length_eq_zero_iff.1 (by omega)
    rw [List.nil_append, List.cons.injEq] at htext
    obtain ⟨rfl, htext⟩ := htext
    exact ⟨b, c, rest, htext, ⟨ha, hb⟩, hc⟩
  · rintro ⟨b, c, rest, rfl, ⟨ha, hb⟩, hc⟩
    exact ⟨[], a, b, c, rest, rfl, rfl, ha, hb, hc⟩

theorem JointAt.cons (h : JointAt text i) (a : Char) : JointAt (a :: text) (i + 1) := by
  obtain ⟨before, a', b, c, rest, rfl, rfl, hwords⟩ := jointAt_iff_exists_split.1 h
  exact jointAt_iff_exists_split.2 ⟨a :: before, a', b, c, rest, rfl, rfl, hwords⟩

/-- A first joint that is not just behind the first character is the first joint of what follows it. -/
theorem exists_firstJoint_of_cons {a : Char} (hone : ¬JointAt (a :: text) 1)
    (h : FirstJoint (a :: text) i) : ∃ k, i = k + 1 ∧ FirstJoint text k := by
  obtain ⟨before, a', b, c, rest, htext, rfl, hwords⟩ := jointAt_iff_exists_split.1 h.1
  cases before with
  | nil => exact absurd h.1 hone
  | cons x before =>
    obtain ⟨rfl, rfl⟩ := List.cons.inj htext
    refine ⟨_, rfl, jointAt_iff_exists_split.2 ⟨before, a', b, c, rest, rfl, rfl, hwords⟩, ?_⟩
    intro j hj hjoint
    exact h.2 (j + 1) (Nat.succ_lt_succ hj) (hjoint.cons a)

/-- The first joint goes and the letter behind it is raised. -/
theorem joinFirstDash_of_firstJoint (h : FirstJoint text i) : ∃ b, text[i + 1]? = some b ∧
    joinFirstDash text = text.take i ++ b.toUpper :: text.drop (i + 2) := by
  fun_induction joinFirstDash text generalizing i with
  | case1 a b c rest hwords =>
    have hone : JointAt (a :: '-' :: b :: c :: rest) 1 :=
      jointAt_cons_one_iff.2 ⟨b, c, rest, rfl, hwords⟩
    have hle : i ≤ 1 := Nat.le_of_not_lt fun hlt => h.2 1 hlt hone
    obtain rfl : i = 1 := Nat.le_antisymm hle h.1.pos
    exact ⟨b, rfl, rfl⟩
  | case2 a b c rest hwords ih =>
    have hone : ¬JointAt (a :: '-' :: b :: c :: rest) 1 := by
      rw [jointAt_cons_one_iff]
      rintro ⟨b', c', rest', htext, hwords'⟩
      cases htext
      exact hwords hwords'
    obtain ⟨k, rfl, hk⟩ := exists_firstJoint_of_cons hone h
    obtain ⟨d, hd, hjoin⟩ := ih hk
    exact ⟨d, hd, congrArg (a :: ·) hjoin⟩
  | case3 a rest hrest ih =>
    have hone : ¬JointAt (a :: rest) 1 := by
      rw [jointAt_cons_one_iff]
      rintro ⟨b, c, rest', htext, _⟩
      exact hrest b c rest' htext
    obtain ⟨k, rfl, hk⟩ := exists_firstJoint_of_cons hone h
    obtain ⟨d, hd, hjoin⟩ := ih hk
    exact ⟨d, hd, congrArg (a :: ·) hjoin⟩
  | case4 => exact absurd h.1.dash (by simp)

theorem joinFirstDash_append {before after : List Char} {letter : Char}
    (h : FirstJoint (before ++ '-' :: letter :: after) before.length) :
    joinFirstDash (before ++ '-' :: letter :: after) = before ++ letter.toUpper :: after := by
  obtain ⟨b, hb, hjoin⟩ := joinFirstDash_of_firstJoint h
  rw [List.getElem?_append_right (Nat.le_add_right _ _), Nat.add_sub_cancel_left] at hb
  obtain rfl : letter = b := Option.some.inj hb
  rw [hjoin, List.take_left, List.drop_append]
  simp

theorem joinFirstDash_of_no_joint (h : ∀ i, ¬JointAt text i) : joinFirstDash text = text := by
  fun_induction joinFirstDash text with
  | case1 a b c rest hwords => exact absurd (jointAt_cons_one_iff.2 ⟨b, c, rest, rfl, hwords⟩) (h 1)
  | case2 a b c rest _ ih => rw [ih fun i hi => h (i + 1) (hi.cons a)]
  | case3 a rest _ ih => rw [ih fun i hi => h (i + 1) (hi.cons a)]
  | case4 => rfl

theorem exists_firstJoint_or_no_joint (text : List Char) :
    (∃ i, FirstJoint text i) ∨ ∀ i, ¬JointAt text i := by
  classical
  by_cases h : ∃ i, JointAt text i
  · exact Or.inl ⟨Nat.find h, Nat.find_spec h, fun j hj => Nat.find_min h hj⟩
  · exact Or.inr fun i hjoint => h ⟨i, hjoint⟩

/-- The dash at the first joint is gone and the letter behind it is raised; without a joint nothing has
changed. -/
structure Joined (text joined : List Char) : Prop where
  at_first : ∀ i, FirstJoint text i → ∃ b, text[i + 1]? = some b ∧
    joined = text.take i ++ b.toUpper :: text.drop (i + 2)
  of_none : (∀ i, ¬JointAt text i) → joined = text

theorem joined_joinFirstDash (text : List Char) : Joined text (joinFirstDash text) :=
  ⟨fun _ => joinFirstDash_of_firstJoint, joinFirstDash_of_no_joint⟩

theorem Joined.eq {joined : List Char} (h : Joined text joined) : joined = joinFirstDash text := by
  obtain ⟨i, hfirst⟩ | hnone := exists_firstJoint_or_no_joint text
  · obtain ⟨b, hb, hjoined⟩ := h.at_first i hfirst
    obtain ⟨b', hb', hjoin⟩ := joinFirstDash_of_firstJoint hfirst
    obtain rfl : b = b' := Option.some.inj (hb.symm.trans hb')
    rw [hjoined, hjoin]
  · rw [h.of_none hnone, joinFirstDash_of_no_joint hnone]

theorem joined_iff {joined : List Char} : Joined text joined ↔ joined = joinFirstDash text := by
  constructor
  · exact Joined.eq
  · rintro rfl
    exact joined_joinFirstDash text

/-- A key is the joined name, in quotes exactly if it still holds a dash. -/
def WrittenAsKey (name key : String) : Prop :=
  ∃ joined, Joined name.toList joined ∧
    key.toList = if '-' ∈ joined then '"' :: joined ++ ['"'] else joined

/-- A parameter is the joined name, with an underscore for every dash that is left. -/
def WrittenAsParameter (name parameter : String) : Prop :=
  ∃ joined, Joined name.toList joined ∧
    List.Forall₂ (fun c p => if c = '-' then p = '_' else p = c) joined parameter.toList

theorem toList_camelCase (name : String) : (camelCase name).toList = joinFirstDash name.toList :=
  String.toList_ofList

theorem writtenAsKey_iff (name key : String) : WrittenAsKey name key ↔ key = propertyKey name := by
  simp only [WrittenAsKey, joined_iff, exists_eq_left]
  rw [← String.toList_inj, propertyKey, ← toList_camelCase]
  split <;> simp

theorem forall₂_underscores_iff {cs ps : List Char} :
    List.Forall₂ (fun c p => if c = '-' then p = '_' else p = c) cs ps ↔
      ps = cs.map fun c => if c = '-' then '_' else c := by
  have hpointwise : (fun c p : Char => if c = '-' then p = '_' else p = c) =
      fun c p => (if c = '-' then '_' else c) = p := by
    funext c p
    split <;> exact propext eq_comm
  rw [hpointwise, ← List.forall₂_map_left_iff, List.forall₂_eq_eq_eq, eq_comm]

theorem writtenAsParameter_iff (name parameter : String) :
    WrittenAsParameter name parameter ↔ parameter = parameterName name := by
  simp only [WrittenAsParameter, joined_iff, exists_eq_left]
  rw [forall₂_underscores_iff, ← String.toList_inj, parameterName, String.toList_ofList, toList_camelCase]

/-- A text with a match of the pattern in it: a run of word characters, a dash, one word character and a run
of them. -/
structure DashMatch where
  before : List Char
  word : List Char
  letter : Char
  tail : List Char
  after : List Char
  word_ne_nil : word ≠ []
  isWordChar_word : ∀ c ∈ word, isWordChar c = true
  isWordChar_letter : isWordChar letter = true
  tail_ne_nil : tail ≠ []
  isWordChar_tail : ∀ c ∈ tail, isWordChar c = true

namespace DashMatch

def whole (m : DashMatch) : List Char :=
  m.before ++ (m.word ++ '-' :: m.letter :: m.tail) ++ m.after

/-- The text with the match's dash dropped and its letter raised. -/
def replaced (m : DashMatch) : List Char :=
  m.before ++ (m.word ++ m.letter.toUpper :: m.tail) ++ m.after

/-- No match in the same text begins further to the left. -/
def Leftmost (m : DashMatch) : Prop :=
  ∀ other : DashMatch, other.whole = m.whole → m.before.length ≤ other.before.length

theorem whole_eq (m : DashMatch) :
    m.whole = (m.before ++ m.word) ++ '-' :: m.letter :: (m.tail ++ m.after) := by
  simp [whole]

theorem replaced_eq (m : DashMatch) :
    m.replaced = (m.before ++ m.word) ++ m.letter.toUpper :: (m.tail ++ m.after) := by
  simp [replaced]

theorem jointAt (m : DashMatch) : JointAt m.whole (m.before ++ m.word).length := by
  obtain ⟨word, a, hword⟩ := (List.eq_nil_or_concat m.word).resolve_left m.word_ne_nil
  obtain ⟨c, tail, htail⟩ := List.exists_cons_of_ne_nil m.tail_ne_nil
  refine jointAt_iff_exists_split.2 ⟨m.before ++ word, a, m.letter, c, tail ++ m.after, ?_, ?_,
    m.isWordChar_word a (by simp [hword]), m.isWordChar_letter, m.isWordChar_tail c (by simp [htail])⟩
  · rw [whole_eq, hword, htail]
    simp
  · rw [hword]
    simp [Nat.add_assoc]

/-- Around each joint there is a match that takes as little as it can. -/
theorem exists_of_jointAt (h : JointAt text i) :
    ∃ m : DashMatch, m.whole = text ∧ m.before.length + 1 = i := by
  obtain ⟨before, a, b, c, rest, htext, rfl, ha, hb, hc⟩ := jointAt_iff_exists_split.1 h
  have hword : ∀ {d : Char}, isWordChar d = true → ∀ e ∈ [d], isWordChar e = true := by
    intro d hd e he
    rwa [List.mem_singleton.1 he]
  refine ⟨⟨before, [a], b, [c], rest, List.cons_ne_nil _ _, hword ha, hb, List.cons_ne_nil _ _, hword hc⟩,
    ?_, rfl⟩
  rw [whole_eq, htext]
  simp

/-- The dash of a match that is as far left as any is the first joint: an earlier one would lie in the
match's own run of word characters, or have a match further to the left around it. -/
theorem Leftmost.firstJoint {m : DashMatch} (h : m.Leftmost) :
    FirstJoint m.whole (m.before ++ m.word).length := by
  refine ⟨m.jointAt, fun j hj hjoint => ?_⟩
  obtain ⟨other, htext, rfl⟩ := exists_of_jointAt hjoint
  have hleft := h other htext
  have hdash := hjoint.dash
  rw [whole_eq, List.getElem?_append_left hj, List.getElem?_append_right (by omega)] at hdash
  exact absurd (m.isWordChar_word '-' (List.mem_of_getElem? hdash)) (by decide)

theorem Leftmost.joinFirstDash_eq {m : DashMatch} (h : m.Leftmost) :
    joinFirstDash m.whole = m.replaced := by
  have hfirst := h.firstJoint
  rw [whole_eq] at hfirst ⊢
  rw [replaced_eq, joinFirstDash_append hfirst]

end DashMatch

/-- A name comes to be written with the dash at its first joint dropped and the letter behind it raised, and
as it is if it has none; that is what replacing the leftmost match of the pattern leads to, whatever its runs
take in. A key is quoted exactly if it still holds a dash, and a parameter has underscores for the dashes. -/
theorem camelCase_drops_first_joint (name : String) :
    (∀ i, FirstJoint name.toList i → ∃ b, name.toList[i + 1]? = some b ∧
      (camelCase name).toList = name.toList.take i ++ b.toUpper :: name.toList.drop (i + 2)) ∧
    ((∀ i, ¬JointAt name.toList i) → camelCase name = name) ∧
    (∀ m : DashMatch, m.whole = name.toList → m.Leftmost → (camelCase name).toList = m.replaced) ∧
    ((∀ m : DashMatch, m.whole ≠ name.toList) → camelCase name = name) ∧
    (propertyKey name = if '-' ∈ (camelCase name).toList then "\"" ++ camelCase name ++ "\""
      else camelCase name) ∧
    '-' ∉ (parameterName name).toList ∧
    List.Forall₂ (fun c p => if c = '-' then p = '_' else p = c) (camelCase name).toList
      (parameterName name).toList := by
  have hlist : (camelCase name).toList = joinFirstDash name.toList := toList_camelCase name
  have hnone : (∀ i, ¬JointAt name.toList i) → camelCase name = name := by
    intro h
    rw [← String.toList_inj, hlist, joinFirstDash_of_no_joint h]
  refine ⟨fun i h => ?_, hnone, fun m htext hleft => ?_, fun h => ?_, rfl,
    dash_not_mem_parameterName name, ?_⟩
  · rw [hlist]
    exact joinFirstDash_of_firstJoint h
  · rw [hlist, ← htext]
    exact hleft.joinFirstDash_eq
  · apply hnone
    intro i hjoint
    obtain ⟨m, htext, _⟩ := DashMatch.exists_of_jointAt hjoint
    exact h m htext
  · rw [forall₂_underscores_iff, parameterName, String.toList_ofList]

theorem camelCase_drops_first_joint_of_three_words :
    FirstJoint "foo-bar-baz".toList 3 ∧ camelCase "foo-bar-baz" = "fooBar-baz" ∧
      propertyKey "foo-bar-baz" = "\"fooBar-baz\"" ∧ parameterName "foo-bar-baz" = "fooBar_baz" ∧
      (∃ m : DashMatch, m.whole = "foo-bar-baz".toList ∧ m.Leftmost ∧
        (camelCase "foo-bar-baz").toList = m.replaced) ∧
      (∀ i, ¬JointAt "foo-b".toList i) ∧ camelCase "foo-b" = "foo-b" := by
  have hfirst : FirstJoint "foo-bar-baz".toList 3 := by
    refine ⟨⟨by decide, by decide, ⟨'o', by decide⟩, ⟨'b', by decide⟩, 'a', by decide⟩, ?_⟩
    have hno : ∀ j < 3, "foo-bar-baz".toList[j]? ≠ some '-' := by decide
    exact fun j hj hjoint => hno j hj hjoint.dash
  have hnone : ∀ i, ¬JointAt "foo-b".toList i := by
    have hno : ∀ j < 5, "foo-b".toList[j]? = some '-' → "foo-b".toList[j + 2]? = none := by decide
    intro i hjoint
    obtain ⟨c, hc, _⟩ := hjoint.after
    have hi := (List.getElem?_eq_some_iff.1 hjoint.dash).1
    rw [hno i hi hjoint.dash] at hc
    cases hc
  let m : DashMatch := ⟨[], "foo".toList, 'b', "ar".toList, "-baz".toList, by decide,
    List.all_eq_true.1 (by decide), by decide, by decide, List.all_eq_true.1 (by decide)⟩
  obtain ⟨hlaw, -, hmatch, -, hkey, -, -⟩ := camelCase_drops_first_joint "foo-bar-baz"
  obtain ⟨b, hb, hcamel⟩ := hlaw 3 hfirst
  obtain rfl : 'b' = b := Option.some.inj hb
  have hcamel : camelCase "foo-bar-baz" = "fooBar-baz" := String.toList_inj.1 hcamel
  have hleft : m.Leftmost := fun _ _ => Nat.zero_le _
  refine ⟨hfirst, hcamel, ?_, by decide +kernel, ⟨m, by decide, hleft, hmatch m (by decide) hleft⟩,
    hnone, (camelCase_drops_first_joint "foo-b").2.1 hnone⟩
  rw [hkey, hcamel]
  decide

end ServiceTypings.Identifier
