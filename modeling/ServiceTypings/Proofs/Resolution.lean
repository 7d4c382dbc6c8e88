import Mathlib.Data.List.Basic
import ServiceTypings.TypeToken

/-! The law of type tokens, free of any order. `Definition.Reads` says what one definition makes of a token
and how many bytes of it the definition knows; of all the readings of a registry the longest decide. The
resolution that runs agrees with this (`resolve_outcome`), although it collects, filters and compares the
matches in the order of the definitions. -/

namespace ServiceTypings

open TypeToken

/-- Of two starts of one text one is a start of the other. -/
theorem start_or_start_of_eq {a b restA restB : String} (h : a ++ restA = b ++ restB) :
    (∃ more, b = a ++ more ∧ restA = more ++ restB) ∨ ∃ more, a = b ++ more ∧ restB = more ++ restA := by
  have hlist : a.toList ++ restA.toList = b.toList ++ restB.toList := by
    rw [← String.toList_append, ← String.toList_append, h]
  rcases List.append_eq_append_iff.1 hlist with ⟨more, hb, _⟩ | ⟨more, ha, _⟩
  · have hb : b = a ++ String.ofList more := by
      rw [← String.toList_inj, hb, String.toList_append, String.toList_ofList]
    refine Or.inl ⟨String.ofList more, hb, ?_⟩
    rwa [hb, String.append_assoc, String.append_right_inj] at h
  · have ha : a = b ++ String.ofList more := by
      rw [← String.toList_inj, ha, String.toList_append, String.toList_ofList]
    refine Or.inr ⟨String.ofList more, ha, ?_⟩
    rw [ha, String.append_assoc, String.append_right_inj] at h
    exact h.symm

/-- Two starts of one text compare the same in characters and in bytes. -/
theorem length_le_iff_utf8ByteSize_le {a b restA restB : String} (h : a ++ restA = b ++ restB) :
    a.length ≤ b.length ↔ a.utf8ByteSize ≤ b.utf8ByteSize := by
  rcases start_or_start_of_eq h with ⟨more, rfl, _⟩ | ⟨more, rfl, _⟩
  · rw [String.length_append, String.utf8ByteSize_append]
    omega
  · have hempty : more.length = 0 ↔ more.utf8ByteSize = 0 := by
      rw [String.length_eq_zero_iff, String.utf8ByteSize_eq_zero_iff]
    rw [String.length_append, String.utf8ByteSize_append]
    omega

namespace Definition

variable {d : Definition} {token : String} {m : Match}

/-- The definition knows so many bytes of the token and takes it for that type. -/
inductive Reads (d : Definition) (token : String) : Nat → String → Prop
  | inner (h : d.innerName = some token) : Reads d token token.utf8ByteSize d.id
  | package {inner abbreviated : String} (hi : d.innerName = some inner)
      (ha : d.abbreviatedName = some abbreviated) (h : token = inner ++ "." ++ abbreviated) :
      Reads d token (inner ++ "." ++ abbreviated).utf8ByteSize d.id
  | belowPackage {inner abbreviated rest : String} (hi : d.innerName = some inner)
      (ha : d.abbreviatedName = some abbreviated)
      (h : token = inner ++ "." ++ abbreviated ++ rest) (hrest : rest ≠ "") :
      Reads d token (inner ++ "." ++ abbreviated).utf8ByteSize (d.id ++ "." ++ rest)
  | abbreviated {abbreviated rest : String} (ha : d.abbreviatedName = some abbreviated)
      (h : token = abbreviated ++ rest) (hrest : rest ≠ "") :
      Reads d token abbreviated.utf8ByteSize rest

theorem matchInner_eq_some_iff :
    d.matchInner token = some m ↔ d.innerName = some token ∧ m = ⟨token, d.id⟩ := by
  unfold matchInner
  split
  next h => rw [Option.some_inj, eq_comm, and_iff_right h]
  next h => simp [h]

theorem packageStart_eq_some_iff {start : String} :
    d.packageStart = some start ↔ ∃ inner abbreviated, d.innerName = some inner ∧
      d.abbreviatedName = some abbreviated ∧ start = inner ++ "." ++ abbreviated := by
  unfold packageStart
  cases hi : d.innerName with
  | none => simp
  | some inner =>
    cases ha : d.abbreviatedName with
    | none => simp
    | some abbreviated => simp [eq_comm]

theorem matchPackage_eq_some_iff :
    d.matchPackage token = some m ↔ ∃ start rest, d.packageStart = some start ∧
      token = start ++ rest ∧ m = ⟨start, if rest = "" then d.id else d.id ++ "." ++ rest⟩ := by
  simp only [matchPackage, Option.bind_eq_bind, Option.bind_eq_some_iff, after?_eq_some_iff,
    Option.pure_def, Option.some_inj]
  constructor
  · rintro ⟨start, hs, rest, hr, hm⟩
    exact ⟨start, rest, hs, hr, hm.symm⟩
  · rintro ⟨start, rest, hs, hr, hm⟩
    exact ⟨start, hs, rest, hr, hm.symm⟩

theorem matchAbbreviated_eq_some_iff :
    d.matchAbbreviated token = some m ↔ ∃ start rest, d.abbreviatedName = some start ∧
      token = start ++ rest ∧ rest ≠ "" ∧ m = ⟨start, rest⟩ := by
  simp only [matchAbbreviated, Option.bind_eq_bind, Option.bind_eq_some_iff, after?_eq_some_iff,
    Option.pure_def, Option.ite_none_left_eq_some, Option.some_inj]
  constructor
  · rintro ⟨start, hs, rest, hr, hrest, hm⟩
    exact ⟨start, rest, hs, hr, hrest, hm.symm⟩
  · rintro ⟨start, rest, hs, hr, hrest, hm⟩
    exact ⟨start, hs, rest, hr, hrest, hm.symm⟩

theorem mem_matchesOf_iff :
    m ∈ d.matchesOf token ↔ d.matchInner token = some m ∨ d.matchPackage token = some m ∨
      d.matchAbbreviated token = some m := by
  simp only [matchesOf, List.mem_append, Option.mem_toList, or_assoc]

/-- Whatever a match knows of the token is a start of it. -/
theorem exists_eq_start_append (hm : m ∈ d.matchesOf token) : ∃ rest, token = m.start ++ rest := by
  rcases mem_matchesOf_iff.1 hm with h | h | h
  · obtain ⟨_, rfl⟩ := matchInner_eq_some_iff.1 h
    exact ⟨"", String.append_empty.symm⟩
  · obtain ⟨start, rest, _, hr, rfl⟩ := matchPackage_eq_some_iff.1 h
    exact ⟨rest, hr⟩
  · obtain ⟨start, rest, _, hr, _, rfl⟩ := matchAbbreviated_eq_some_iff.1 h
    exact ⟨rest, hr⟩

theorem reads_of_mem_matchesOf (hm : m ∈ d.matchesOf token) :
    d.Reads token m.start.utf8ByteSize m.type := by
  rcases mem_matchesOf_iff.1 hm with h | h | h
  · obtain ⟨hi, rfl⟩ := matchInner_eq_some_iff.1 h
    exact .inner hi
  · obtain ⟨start, rest, hs, hr, rfl⟩ := matchPackage_eq_some_iff.1 h
    obtain ⟨inner, abbreviated, hi, ha, rfl⟩ := packageStart_eq_some_iff.1 hs
    by_cases hrest : rest = ""
    · subst hrest
      rw [String.append_empty] at hr
      exact .package hi ha hr
    · rw [if_neg hrest]
      exact .belowPackage hi ha hr hrest
  · obtain ⟨start, rest, ha, hr, hrest, rfl⟩ := matchAbbreviated_eq_some_iff.1 h
    exact .abbreviated ha hr hrest

theorem Reads.exists_match {length : Nat} {type : String} (h : d.Reads token length type) :
    ∃ m ∈ d.matchesOf token, m.start.utf8ByteSize = length ∧ m.type = type := by
  cases h with
  | inner hi =>
    refine ⟨⟨token, d.id⟩, mem_matchesOf_iff.2 (Or.inl ?_), rfl, rfl⟩
    exact matchInner_eq_some_iff.2 ⟨hi, rfl⟩
  | @package inner abbreviated hi ha h =>
    refine ⟨⟨inner ++ "." ++ abbreviated, d.id⟩, mem_matchesOf_iff.2 (Or.inr (Or.inl ?_)), rfl, rfl⟩
    have hs := packageStart_eq_some_iff.2 ⟨inner, abbreviated, hi, ha, rfl⟩
    exact matchPackage_eq_some_iff.2 ⟨_, "", hs, by rw [String.append_empty, h], rfl⟩
  | @belowPackage inner abbreviated rest hi ha h hrest =>
    refine ⟨⟨inner ++ "." ++ abbreviated, d.id ++ "." ++ rest⟩,
      mem_matchesOf_iff.2 (Or.inr (Or.inl ?_)), rfl, rfl⟩
    have hs := packageStart_eq_some_iff.2 ⟨inner, abbreviated, hi, ha, rfl⟩
    exact matchPackage_eq_some_iff.2 ⟨_, rest, hs, h, by rw [if_neg hrest]⟩
  | @abbreviated abbreviated _ ha h hrest =>
    refine ⟨⟨abbreviated, type⟩, mem_matchesOf_iff.2 (Or.inr (Or.inr ?_)), rfl, rfl⟩
    exact matchAbbreviated_eq_some_iff.2 ⟨abbreviated, type, ha, h, hrest, rfl⟩

end Definition

namespace TypeToken

/-- Among some matches there is always one that no other is longer than. -/
theorem longest_ne_nil {ms : List Match} (h : ms ≠ []) : longest ms ≠ [] := by
  suffices hmax : ∃ m ∈ ms, ∀ other ∈ ms, other.length ≤ m.length by
    obtain ⟨m, hm, hle⟩ := hmax
    exact List.ne_nil_of_mem (mem_longest_iff.2 ⟨hm, hle⟩)
  induction ms with
  | nil => exact absurd rfl h
  | cons m ms ih =>
    by_cases hms : ms = []
    · subst hms
      exact ⟨m, List.mem_singleton_self m, by simp⟩
    · obtain ⟨best, hbest, hle⟩ := ih hms
      rcases Nat.le_total m.length best.length with hm | hm
      · refine ⟨best, List.mem_cons_of_mem m hbest, fun other ho => ?_⟩
        rcases List.mem_cons.1 ho with rfl | ho
        · exact hm
        · exact hle other ho
      · refine ⟨m, List.mem_cons_self, fun other ho => ?_⟩
        rcases List.mem_cons.1 ho with rfl | ho
        · exact Nat.le_refl _
        · exact Nat.le_trans (hle other ho) hm

end TypeToken

namespace Registry

variable {r : Registry} {token : String}

/-- Some definition of the registry reads the token so. -/
def Reads (r : Registry) (token : String) (length : Nat) (type : String) : Prop :=
  ∃ d ∈ r.definitions, d.Reads token length type

/-- No reading of the token knows more of it than one that takes it for that type. -/
def ReadsLongest (r : Registry) (token type : String) : Prop :=
  ∃ length, r.Reads token length type ∧
    ∀ other otherType, r.Reads token other otherType → other ≤ length

theorem reads_iff_exists_match {length : Nat} {type : String} :
    r.Reads token length type ↔
      ∃ m ∈ r.matchesOf token, m.start.utf8ByteSize = length ∧ m.type = type := by
  simp only [matchesOf, List.mem_flatMap]
  constructor
  · rintro ⟨d, hd, h⟩
    obtain ⟨m, hm, hlength, htype⟩ := h.exists_match
    exact ⟨m, ⟨d, hd, hm⟩, hlength, htype⟩
  · rintro ⟨m, ⟨d, hd, hm⟩, rfl, rfl⟩
    exact ⟨d, hd, d.reads_of_mem_matchesOf hm⟩

/-- Matches of one token are compared by characters, readings by bytes, with the same outcome. -/
theorem length_le_iff_of_mem {m other : Match} (hm : m ∈ r.matchesOf token)
    (ho : other ∈ r.matchesOf token) :
    other.length ≤ m.length ↔ other.start.utf8ByteSize ≤ m.start.utf8ByteSize := by
  simp only [matchesOf, List.mem_flatMap] at hm ho
  obtain ⟨d, _, hm⟩ := hm
  obtain ⟨e, _, ho⟩ := ho
  obtain ⟨restM, hrestM⟩ := d.exists_eq_start_append hm
  obtain ⟨restO, hrestO⟩ := e.exists_eq_start_append ho
  exact length_le_iff_utf8ByteSize_le (hrestO.symm.trans hrestM)

theorem readsLongest_iff_exists_longest {type : String} :
    r.ReadsLongest token type ↔ ∃ m ∈ longest (r.matchesOf token), m.type = type := by
  constructor
  · rintro ⟨length, hreads, hmax⟩
    obtain ⟨m, hm, rfl, htype⟩ := reads_iff_exists_match.1 hreads
    refine ⟨m, mem_longest_iff.2 ⟨hm, fun other ho => ?_⟩, htype⟩
    rw [length_le_iff_of_mem hm ho]
    exact hmax _ _ (reads_iff_exists_match.2 ⟨other, ho, rfl, rfl⟩)
  · rintro ⟨m, hm, rfl⟩
    rw [mem_longest_iff] at hm
    refine ⟨_, reads_iff_exists_match.2 ⟨m, hm.1, rfl, rfl⟩, fun length type h => ?_⟩
    obtain ⟨other, ho, rfl, rfl⟩ := reads_iff_exists_match.1 h
    exact (length_le_iff_of_mem hm.1 ho).1 (hm.2 other ho)

/-- The three ways in which resolution ends, each with what the registry's readings are then like. -/
theorem resolve_outcome (r : Registry) (token : String) :
    ((¬∃ length type, r.Reads token length type) ∧
      r.resolve token = .error (.unresolvedType token)) ∨
    (∃ type, r.ReadsLongest token type ∧ (∀ other, r.ReadsLongest token other → other = type) ∧
      r.resolve token = .ok type) ∨
    ∃ first second, r.ReadsLongest token first ∧ r.ReadsLongest token second ∧ first ≠ second ∧
      r.resolve token = .error (.ambiguousType token first second) := by
  unfold resolve
  split
  next hnil =>
    refine Or.inl ⟨?_, rfl⟩
    rintro ⟨length, type, h⟩
    obtain ⟨m, hm, _⟩ := reads_iff_exists_match.1 h
    exact longest_ne_nil (List.ne_nil_of_mem hm) hnil
  next m rest hcons =>
    have hm : r.ReadsLongest token m.type :=
      readsLongest_iff_exists_longest.2 ⟨m, hcons ▸ List.mem_cons_self, rfl⟩
    split
    next other hfind =>
      have ho : other ∈ longest (r.matchesOf token) :=
        hcons ▸ List.mem_cons_of_mem m (List.mem_of_find?_eq_some hfind)
      have hne : other.type ≠ m.type := by simpa using List.find?_some hfind
      exact Or.inr (Or.inr ⟨m.type, other.type, hm,
        readsLongest_iff_exists_longest.2 ⟨other, ho, rfl⟩, hne.symm, rfl⟩)
    next hfind =>
      refine Or.inr (Or.inl ⟨m.type, hm, fun type h => ?_, rfl⟩)
      obtain ⟨other, ho, rfl⟩ := readsLongest_iff_exists_longest.1 h
      rw [hcons, List.mem_cons] at ho
      rcases ho with rfl | ho
      · rfl
      · simpa using List.find?_eq_none.1 hfind other ho

theorem exists_reads_of_readsLongest {type : String} (h : r.ReadsLongest token type) :
    ∃ length type, r.Reads token length type := by
  obtain ⟨length, h, _⟩ := h
  exact ⟨length, type, h⟩

theorem resolve_eq_ok_iff {type : String} :
    r.resolve token = .ok type ↔
      r.ReadsLongest token type ∧ ∀ other, r.ReadsLongest token other → other = type := by
  rcases r.resolve_outcome token with ⟨hnone, h⟩ | ⟨t, ht, hall, h⟩ | ⟨a, b, ha, hb, hne, h⟩
  · rw [h]
    simp only [reduceCtorEq, false_iff, not_and]
    exact fun ht => absurd (exists_reads_of_readsLongest ht) hnone
  · rw [h, Except.ok.injEq]
    constructor
    · rintro rfl
      exact ⟨ht, hall⟩
    · rintro ⟨_, hall'⟩
      exact hall' t ht
  · rw [h]
    simp only [reduceCtorEq, false_iff, not_and]
    exact fun _ hall => hne ((hall a ha).trans (hall b hb).symm)

theorem resolve_eq_unresolved_iff :
    r.resolve token = .error (.unresolvedType token) ↔ ¬∃ length type, r.Reads token length type := by
  rcases r.resolve_outcome token with ⟨hnone, h⟩ | ⟨t, ht, _, h⟩ | ⟨a, b, ha, _, _, h⟩
  · exact iff_of_true h hnone
  · exact iff_of_false (by simp [h]) (not_not_intro (exists_reads_of_readsLongest ht))
  · exact iff_of_false (by simp [h]) (not_not_intro (exists_reads_of_readsLongest ha))

theorem resolve_eq_ambiguous_iff :
    (∃ first second, r.resolve token = .error (.ambiguousType token first second)) ↔
      ∃ first second, r.ReadsLongest token first ∧ r.ReadsLongest token second ∧ first ≠ second := by
  rcases r.resolve_outcome token with ⟨hnone, h⟩ | ⟨t, _, hall, h⟩ | ⟨a, b, ha, hb, hne, h⟩
  · refine iff_of_false (by simp [h]) ?_
    rintro ⟨a, _, ha, _⟩
    exact hnone (exists_reads_of_readsLongest ha)
  · refine iff_of_false (by simp [h]) ?_
    rintro ⟨a, b, ha, hb, hne⟩
    exact hne ((hall a ha).trans (hall b hb).symm)
  · exact iff_of_true ⟨a, b, h⟩ ⟨a, b, ha, hb, hne⟩

/-- Neither the primitive types nor the registry's irregular ones settle the token. -/
def LeavesOpen (r : Registry) (token : String) : Prop :=
  primitive? token = none ∧ r.irregular? token = none

theorem typeOf_of_leavesOpen (h : r.LeavesOpen token) : r.typeOf token = r.resolve token := by
  rw [typeOf, h.1, h.2]

/-- A token that is not left open has its type from one of the two tables. -/
theorem typeOf_of_not_leavesOpen (h : ¬r.LeavesOpen token) :
    ∃ type, r.typeOf token = .ok type ∧ (primitive? token = some type ∨
      primitive? token = none ∧ r.irregular? token = some type) := by
  unfold typeOf
  cases hp : primitive? token with
  | some type => exact ⟨type, rfl, Or.inl rfl⟩
  | none =>
    cases hi : r.irregular? token with
    | some type => exact ⟨type, rfl, Or.inr ⟨rfl, rfl⟩⟩
    | none => exact absurd ⟨hp, hi⟩ h

theorem typeOf_eq_ok_iff {type : String} :
    r.typeOf token = .ok type ↔
      primitive? token = some type ∨
      primitive? token = none ∧ r.irregular? token = some type ∨
      r.LeavesOpen token ∧ r.ReadsLongest token type ∧
        ∀ other, r.ReadsLongest token other → other = type := by
  by_cases h : r.LeavesOpen token
  · rw [typeOf_of_leavesOpen h, resolve_eq_ok_iff]
    simp [h, h.1, h.2]
  · obtain ⟨t, ht, htable⟩ := typeOf_of_not_leavesOpen h
    rw [ht, Except.ok.injEq]
    rcases htable with hp | ⟨hp, hi⟩
    · simp [h, hp]
    · simp [h, hp, hi]

theorem typeOf_eq_unresolved_iff :
    r.typeOf token = .error (.unresolvedType token) ↔
      r.LeavesOpen token ∧ ¬∃ length type, r.Reads token length type := by
  by_cases h : r.LeavesOpen token
  · rw [typeOf_of_leavesOpen h, resolve_eq_unresolved_iff, and_iff_right h]
  · obtain ⟨t, ht, _⟩ := typeOf_of_not_leavesOpen h
    simp [h, ht]

theorem typeOf_eq_ambiguous_iff :
    (∃ first second, r.typeOf token = .error (.ambiguousType token first second)) ↔
      r.LeavesOpen token ∧ ∃ first second,
        r.ReadsLongest token first ∧ r.ReadsLongest token second ∧ first ≠ second := by
  by_cases h : r.LeavesOpen token
  · rw [typeOf_of_leavesOpen h, resolve_eq_ambiguous_iff, and_iff_right h]
  · obtain ⟨t, ht, _⟩ := typeOf_of_not_leavesOpen h
    simp [h, ht]

/-- Every token has a type, or no reading, or readings that disagree. -/
theorem typeOf_cases (r : Registry) (token : String) :
    (∃ type, r.typeOf token = .ok type) ∨ r.typeOf token = .error (.unresolvedType token) ∨
      ∃ first second, r.typeOf token = .error (.ambiguousType token first second) := by
  by_cases h : r.LeavesOpen token
  · rw [typeOf_of_leavesOpen h]
    rcases r.resolve_outcome token with ⟨_, h⟩ | ⟨t, _, _, h⟩ | ⟨a, b, _, _, _, h⟩
    · exact Or.inr (Or.inl h)
    · exact Or.inl ⟨t, h⟩
    · exact Or.inr (Or.inr ⟨a, b, h⟩)
  · obtain ⟨t, ht, _⟩ := typeOf_of_not_leavesOpen h
    exact Or.inl ⟨t, ht⟩

/-- Registries with the same irregular types whose definitions read a token alike agree on it, save for
the two types that an ambiguity names. -/
theorem mapError_kind_typeOf_congr {s : Registry} (hi : s.irregular = r.irregular)
    (hd : ∀ length type, s.Reads token length type ↔ r.Reads token length type) :
    (s.typeOf token).mapError ConversionError.kind =
      (r.typeOf token).mapError ConversionError.kind := by
  have hlongest : ∀ type, s.ReadsLongest token type ↔ r.ReadsLongest token type := by
    intro type
    simp only [ReadsLongest, hd]
  have hirregular : s.irregular? token = r.irregular? token := by rw [irregular?, irregular?, hi]
  have hopen : s.LeavesOpen token ↔ r.LeavesOpen token := by
    rw [LeavesOpen, LeavesOpen, hirregular]
  rcases s.typeOf_cases token with ⟨type, h⟩ | h | ⟨first, second, h⟩
  · have hr : r.typeOf token = .ok type := by
      rw [typeOf_eq_ok_iff] at h ⊢
      simpa only [hirregular, hopen, hlongest] using h
    rw [h, hr]
  · have hr : r.typeOf token = .error (.unresolvedType token) := by
      rw [typeOf_eq_unresolved_iff] at h ⊢
      simpa only [hopen, hd] using h
    rw [h, hr]
  · have hs := typeOf_eq_ambiguous_iff.1 ⟨first, second, h⟩
    simp only [hopen, hlongest] at hs
    obtain ⟨first', second', hr⟩ := typeOf_eq_ambiguous_iff.2 hs
    rw [h, hr]
    rfl

/-- The law of type tokens: the primitive types come first, then the irregular ones, then the longest
readings, which have to agree; nothing of it depends on the order of the definitions. -/
theorem typeOf_law (r : Registry) (token : String) :
    (∀ type, r.typeOf token = .ok type ↔
      primitive? token = some type ∨
      primitive? token = none ∧ r.irregular? token = some type ∨
      r.LeavesOpen token ∧ r.ReadsLongest token type ∧
        ∀ other, r.ReadsLongest token other → other = type) ∧
    (r.typeOf token = .error (.unresolvedType token) ↔
      r.LeavesOpen token ∧ ¬∃ length type, r.Reads token length type) ∧
    ((∃ first second, r.typeOf token = .error (.ambiguousType token first second)) ↔
      r.LeavesOpen token ∧ ∃ first second,
        r.ReadsLongest token first ∧ r.ReadsLongest token second ∧ first ≠ second) ∧
    ∀ definitions, r.definitions.Perm definitions →
      ((⟨definitions, r.irregular⟩ : Registry).typeOf token).mapError ConversionError.kind =
        (r.typeOf token).mapError ConversionError.kind := by
  refine ⟨fun type => typeOf_eq_ok_iff, typeOf_eq_unresolved_iff, typeOf_eq_ambiguous_iff, ?_⟩
  intro definitions hperm
  refine mapError_kind_typeOf_congr (s := ⟨definitions, r.irregular⟩) rfl ?_
  intro length type
  simp only [Reads, hperm.mem_iff]

/-- Two definitions that read a token in two ways, and a longer one that decides, in another order. -/
theorem typeOf_law_reordered :
    let one : Definition := ⟨"One", some "A", some "B.", ""⟩
    let two : Definition := ⟨"Two", some "A", some "B.", ""⟩
    let long : Definition := ⟨"Long", some "Z_v9", some "A.B.C.", ""⟩
    [one, two, long].Perm [long, two, one] ∧
      (⟨[one, two, long], []⟩ : Registry).typeOf "A.B.C.D" = .ok "D" ∧
      ((⟨[long, two, one], []⟩ : Registry).typeOf "A.B.C.D").mapError ConversionError.kind =
        .ok "D" := by
  intro one two long
  have hperm : [one, two, long].Perm [long, two, one] := by decide +kernel
  have htype : (⟨[one, two, long], []⟩ : Registry).typeOf "A.B.C.D" = .ok "D" := by decide +kernel
  obtain ⟨_, _, _, horder⟩ := typeOf_law ⟨[one, two, long], []⟩ "A.B.C.D"
  refine ⟨hperm, htype, ?_⟩
  rw [horder _ hperm, htype]
  rfl

end Registry
end ServiceTypings
