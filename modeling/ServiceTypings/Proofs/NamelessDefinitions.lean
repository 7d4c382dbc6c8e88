import ServiceTypings.Proofs.DistinctNames

/-! Definitions without an inner name. They have no package, but an abbreviated name is enough to read a
token by, so they take part in resolution as the others do: a registry agrees with what it is without them
exactly where each of their readings is outweighed (`typeOf_named_iff`). -/

namespace ServiceTypings

open TypeToken

theorem flatMap_filter_eq {α β : Type} {l : List α} {f : α → List β} {q : α → Bool}
    (h : ∀ a ∈ l, q a = false → f a = []) : (l.filter q).flatMap f = l.flatMap f := by
  induction l with
  | nil => rfl
  | cons a l ih =>
    obtain ⟨ha, hl⟩ := List.forall_mem_cons.1 h
    by_cases hq : q a = true
    · rw [List.filter_cons_of_pos hq, List.flatMap_cons, List.flatMap_cons, ih hl]
    · rw [List.filter_cons_of_neg hq, List.flatMap_cons, ha (Bool.eq_false_iff.2 hq), List.nil_append,
        ih hl]

/-- Matches from sources that are left out do not matter if each one is shorter than one from a source that
is kept. -/
theorem TypeToken.longest_flatMap_filter {α : Type} {l : List α} {f : α → List Match} {q : α → Bool}
    (h : ∀ a ∈ l, q a = false → ∀ m ∈ f a, ∃ o ∈ (l.filter q).flatMap f, m.length < o.length) :
    longest ((l.filter q).flatMap f) = longest (l.flatMap f) := by
  have hbound (m : Match) : (∀ o ∈ (l.filter q).flatMap f, o.length ≤ m.length) ↔
      ∀ o ∈ l.flatMap f, o.length ≤ m.length := by
    constructor
    · intro hkept o ho
      obtain ⟨a, ha, hoa⟩ := List.mem_flatMap.1 ho
      by_cases hq : q a = true
      · exact hkept o (List.mem_flatMap.2 ⟨a, List.mem_filter.2 ⟨ha, hq⟩, hoa⟩)
      · obtain ⟨longer, hlonger, hlt⟩ := h a ha (Bool.eq_false_iff.2 hq) o hoa
        exact Nat.le_of_lt (Nat.lt_of_lt_of_le hlt (hkept longer hlonger))
    · intro hall o ho
      obtain ⟨a, ha, hoa⟩ := List.mem_flatMap.1 ho
      exact hall o (List.mem_flatMap.2 ⟨a, List.mem_of_mem_filter ha, hoa⟩)
  simp only [longest, List.all_eq, decide_eq_true_eq, hbound]
  rw [List.filter_flatMap, List.filter_flatMap]
  refine flatMap_filter_eq fun a ha hq => List.filter_eq_nil_iff.2 fun m hm hmax => ?_
  obtain ⟨longer, hlonger, hlt⟩ := h a ha hq m hm
  rw [decide_eq_true_eq, ← hbound] at hmax
  exact absurd (hmax longer hlonger) (Nat.not_le_of_lt hlt)

theorem mapError_eq_ok_iff {ε δ α : Type} {x : Except ε α} {f : ε → δ} {a : α} :
    x.mapError f = .ok a ↔ x = .ok a := by
  cases x <;> simp [Except.mapError]

namespace Definition

variable {d : Definition} {token type : String} {length : Nat}

theorem reads_iff_of_nameless (h : d.innerName = none) : d.Reads token length type ↔
    ∃ abbreviated ∈ d.abbreviatedName, token = abbreviated ++ type ∧ type ≠ "" ∧
      length = abbreviated.utf8ByteSize := by
  constructor
  · intro hreads
    cases hreads with
    | inner hi | package hi _ _ | belowPackage hi _ _ _ => exact absurd (h.symm.trans hi) (by simp)
    | abbreviated ha htoken htype => exact ⟨_, ha, htoken, htype, rfl⟩
  · rintro ⟨abbreviated, ha, htoken, htype, rfl⟩
    exact .abbreviated ha htoken htype

theorem Reads.size_le (h : d.Reads token length type) :
    token.utf8ByteSize ≤ length + type.utf8ByteSize := by
  cases h with
  | inner _ => exact Nat.le_add_right _ _
  | package _ _ htoken =>
    rw [htoken]
    exact Nat.le_add_right _ _
  | belowPackage _ _ htoken _ =>
    rw [htoken]
    simp only [String.utf8ByteSize_append]
    omega
  | abbreviated _ htoken _ =>
    rw [htoken, String.utf8ByteSize_append]

end Definition

namespace Registry

variable {r : Registry} {token type other : String} {length more : Nat}

/-- The registry without the definitions that have no inner name. -/
def named (r : Registry) : Registry :=
  { r with definitions := r.definitions.filter fun d => d.innerName.isSome }

/-- Some definition without an inner name reads the token so. -/
def ReadsNameless (r : Registry) (token : String) (length : Nat) (type : String) : Prop :=
  ∃ d ∈ r.definitions, d.innerName = none ∧ d.Reads token length type

theorem reads_of_named (h : r.named.Reads token length type) : r.Reads token length type := by
  obtain ⟨d, hd, hreads⟩ := h
  exact ⟨d, List.mem_of_mem_filter hd, hreads⟩

theorem ReadsNameless.reads (h : r.ReadsNameless token length type) : r.Reads token length type := by
  obtain ⟨d, hd, _, hreads⟩ := h
  exact ⟨d, hd, hreads⟩

theorem reads_named_or_nameless (h : r.Reads token length type) :
    r.named.Reads token length type ∨ r.ReadsNameless token length type := by
  obtain ⟨d, hd, hreads⟩ := h
  cases hi : d.innerName with
  | none => exact Or.inr ⟨d, hd, hi, hreads⟩
  | some inner => exact Or.inl ⟨d, List.mem_filter.2 ⟨hd, by rw [hi, Option.isSome_some]⟩, hreads⟩

theorem ReadsNameless.size_eq (h : r.ReadsNameless token length type) :
    token.utf8ByteSize = length + type.utf8ByteSize := by
  obtain ⟨d, _, hi, hreads⟩ := h
  obtain ⟨abbreviated, _, rfl, _, rfl⟩ := (Definition.reads_iff_of_nameless hi).1 hreads
  exact String.utf8ByteSize_append

theorem ReadsNameless.unique (h : r.ReadsNameless token length type)
    (h' : r.ReadsNameless token length other) : type = other := by
  obtain ⟨d, _, hi, hreads⟩ := h
  obtain ⟨e, _, hi', hreads'⟩ := h'
  obtain ⟨a, _, rfl, _, rfl⟩ := (Definition.reads_iff_of_nameless hi).1 hreads
  obtain ⟨b, _, htoken, _, hsize⟩ := (Definition.reads_iff_of_nameless hi').1 hreads'
  obtain rfl := eq_of_append_eq_append_of_size htoken hsize
  exact (String.append_right_inj a).1 htoken

/-- A reading that knows less of a token than a nameless definition does takes it for another type. -/
theorem ReadsNameless.le_of_reads (h : r.ReadsNameless token length type)
    (h' : r.Reads token more type) : length ≤ more := by
  obtain ⟨d, _, hreads⟩ := h'
  have hsize := h.size_eq
  have hle := hreads.size_le
  omega

theorem exists_reads_of_ambiguous {first second : String}
    (h : r.typeOf token = .error (.ambiguousType token first second)) :
    ∃ (most : Nat) (a b : String), r.Reads token most a ∧ r.Reads token most b ∧ a ≠ b ∧
      ∀ length type, r.Reads token length type → length ≤ most := by
  obtain ⟨_, a, b, ⟨most, ha, hmax⟩, ⟨most', hb, hmax'⟩, hne⟩ :=
    typeOf_eq_ambiguous_iff.1 ⟨first, second, h⟩
  -- both are longest, so they are equally long
  obtain rfl := Nat.le_antisymm (hmax most' b hb) (hmax' most a ha)
  exact ⟨_, a, b, ha, hb, hne, hmax'⟩

theorem typeOf_named_of_outweighed (h : ∀ length type, r.ReadsNameless token length type →
    ∃ more other, r.named.Reads token more other ∧ length < more) :
    r.named.typeOf token = r.typeOf token := by
  have hlongest : longest (r.named.matchesOf token) = longest (r.matchesOf token) := by
    refine longest_flatMap_filter fun d hd hi m hm => ?_
    rw [Option.isSome_eq_false_iff, Option.isNone_iff_eq_none] at hi
    obtain ⟨more, other, hreads, hlt⟩ := h _ _ ⟨d, hd, hi, d.reads_of_mem_matchesOf hm⟩
    obtain ⟨o, ho, rfl, _⟩ := reads_iff_exists_match.1 hreads
    obtain ⟨e, he, hoe⟩ := List.mem_flatMap.1 ho
    have hm' : m ∈ r.matchesOf token := List.mem_flatMap.2 ⟨d, hd, hm⟩
    have ho' : o ∈ r.matchesOf token := List.mem_flatMap.2 ⟨e, List.mem_of_mem_filter he, hoe⟩
    refine ⟨o, ho, Nat.lt_of_not_le fun hle => ?_⟩
    exact absurd ((length_le_iff_of_mem hm' ho').1 hle) (Nat.not_le_of_lt hlt)
  have hresolve : r.named.resolve token = r.resolve token := by rw [resolve, resolve, hlongest]
  rw [typeOf, typeOf, hresolve]
  rfl

/-- A reading of a nameless definition is outweighed if a named one knows more of the token, or as much, so
that it does not come to another type. -/
def Outweighed (r : Registry) (token : String) (length : Nat) (type : String) : Prop :=
  ∃ more other, r.named.Reads token more other ∧ length ≤ more ∧
    (length = more → ∀ t, r.named.typeOf token = .ok t → t = type)

/-- With the nameless definitions the longest readings are those without them, and those that are as long. -/
theorem readsLongest_iff_of_outweighed (h : ∀ length type, r.ReadsNameless token length type →
    r.Outweighed token length type) (hreads : r.named.Reads token more other)
    (hmax : ∀ length type, r.named.Reads token length type → length ≤ more) (type : String) :
    r.ReadsLongest token type ↔ r.Reads token more type := by
  have hall : ∀ length type, r.Reads token length type → length ≤ more := by
    intro length type hlength
    rcases reads_named_or_nameless hlength with hnamed | hnameless
    · exact hmax length type hnamed
    · obtain ⟨longer, t, hlonger, hle, _⟩ := h length type hnameless
      exact Nat.le_trans hle (hmax longer t hlonger)
  constructor
  · rintro ⟨length, hlength, hlongest⟩
    obtain rfl := Nat.le_antisymm (hall length type hlength)
      (hlongest more other (reads_of_named hreads))
    exact hlength
  · intro htype
    exact ⟨more, htype, hall⟩

theorem mapError_kind_typeOf_named_of_outweighed (hopen : r.LeavesOpen token)
    (h : ∀ length type, r.ReadsNameless token length type → r.Outweighed token length type) :
    (r.named.typeOf token).mapError ConversionError.kind =
      (r.typeOf token).mapError ConversionError.kind := by
  have hopen' : r.named.LeavesOpen token := hopen
  rcases r.named.typeOf_cases token with ⟨type, hok⟩ | hunresolved | ⟨first, second, hambiguous⟩
  · obtain ⟨⟨more, hreads, hmax⟩, hall⟩ :=
      resolve_eq_ok_iff.1 ((typeOf_of_leavesOpen hopen').symm.trans hok)
    have hlongest := readsLongest_iff_of_outweighed h hreads hmax
    have hr : r.typeOf token = .ok type := by
      rw [typeOf_of_leavesOpen hopen, resolve_eq_ok_iff]
      refine ⟨(hlongest type).2 (reads_of_named hreads), fun other hother => ?_⟩
      rcases reads_named_or_nameless ((hlongest other).1 hother) with hnamed | hnameless
      · exact hall other ⟨more, hnamed, hmax⟩
      · obtain ⟨longer, t, hlonger, hle, htype⟩ := h more other hnameless
        exact (htype (Nat.le_antisymm hle (hmax longer t hlonger)) type hok).symm
    rw [hok, hr]
  · have hnone := (typeOf_eq_unresolved_iff.1 hunresolved).2
    have hr : r.typeOf token = .error (.unresolvedType token) := by
      refine typeOf_eq_unresolved_iff.2 ⟨hopen, ?_⟩
      rintro ⟨length, type, hreads⟩
      rcases reads_named_or_nameless hreads with hnamed | hnameless
      · exact hnone ⟨length, type, hnamed⟩
      · obtain ⟨more, other, hother, _⟩ := h length type hnameless
        exact hnone ⟨more, other, hother⟩
    rw [hunresolved, hr]
  · obtain ⟨more, a, b, ha, hb, hne, hmax⟩ := exists_reads_of_ambiguous hambiguous
    have hlongest := readsLongest_iff_of_outweighed h ha hmax
    obtain ⟨first', second', hr⟩ := typeOf_eq_ambiguous_iff.2 ⟨hopen, a, b,
      (hlongest a).2 (reads_of_named ha), (hlongest b).2 (reads_of_named hb), hne⟩
    rw [hambiguous, hr]
    rfl

theorem outweighed_of_typeOf_eq_ok (hopen : r.LeavesOpen token) (hok : r.typeOf token = .ok other)
    (hnamed : r.named.typeOf token = .ok other) (hreads : r.ReadsNameless token length type) :
    r.Outweighed token length type := by
  have hopen' : r.named.LeavesOpen token := hopen
  rw [typeOf_of_leavesOpen hopen, resolve_eq_ok_iff] at hok
  obtain ⟨⟨most, hmost, hmax⟩, hall⟩ := hok
  obtain ⟨⟨more, hmore, hmore_max⟩, _⟩ :=
    resolve_eq_ok_iff.1 ((typeOf_of_leavesOpen hopen').symm.trans hnamed)
  have hle : most ≤ more := by
    rcases reads_named_or_nameless hmost with h | h
    · exact hmore_max most other h
    · exact h.le_of_reads (reads_of_named hmore)
  refine ⟨more, other, hmore, Nat.le_trans (hmax length type hreads.reads) hle, ?_⟩
  rintro rfl t ht
  obtain rfl := Except.ok.inj (hnamed.symm.trans ht)
  exact (hall type ⟨length, hreads.reads, fun o ot ho => Nat.le_trans (hmax o ot ho) hle⟩).symm

theorem outweighed_of_typeOf_eq_ambiguous {a b c d : String}
    (hambiguous : r.typeOf token = .error (.ambiguousType token a b))
    (hnamed : r.named.typeOf token = .error (.ambiguousType token c d))
    (hreads : r.ReadsNameless token length type) : r.Outweighed token length type := by
  obtain ⟨most, first, second, hfirst, hsecond, hne, hmax⟩ := exists_reads_of_ambiguous hambiguous
  obtain ⟨more, other, _, hmore, _, _, hmore_max⟩ := exists_reads_of_ambiguous hnamed
  -- if only nameless definitions knew most of the token, they would agree
  have hle : most ≤ more := by
    rcases reads_named_or_nameless hfirst with h | h
    · exact hmore_max most first h
    · rcases reads_named_or_nameless hsecond with h' | h'
      · exact hmore_max most second h'
      · exact absurd (h.unique h') hne
  refine ⟨more, other, hmore, Nat.le_trans (hmax length type hreads.reads) hle, fun _ t ht => ?_⟩
  simp [hnamed] at ht

theorem outweighed_of_mapError_kind_typeOf_named (hopen : r.LeavesOpen token)
    (h : (r.named.typeOf token).mapError ConversionError.kind =
      (r.typeOf token).mapError ConversionError.kind)
    (hreads : r.ReadsNameless token length type) : r.Outweighed token length type := by
  rcases r.typeOf_cases token with ⟨t, hok⟩ | hunresolved | ⟨a, b, hambiguous⟩
  · rw [hok] at h
    exact outweighed_of_typeOf_eq_ok hopen hok (mapError_eq_ok_iff.1 h) hreads
  · exact absurd ⟨length, type, hreads.reads⟩ (typeOf_eq_unresolved_iff.1 hunresolved).2
  · rcases r.named.typeOf_cases token with ⟨t, hnamed⟩ | hnamed | ⟨c, d, hnamed⟩
    · simp [hambiguous, hnamed, Except.mapError] at h
    · simp [hambiguous, hnamed, Except.mapError, ConversionError.kind] at h
    · exact outweighed_of_typeOf_eq_ambiguous hambiguous hnamed hreads

/-- A definition without an inner name reads the tokens that its abbreviated name begins. Where each such
reading is shorter than some other, the registry is as it would be without these definitions; and it comes
to the same type, or fails for the same kind of reason, exactly where each one is outweighed. -/
theorem typeOf_named_iff (r : Registry) (token : String) :
    (∀ length type, r.ReadsNameless token length type ↔ ∃ d ∈ r.definitions, d.innerName = none ∧
      ∃ abbreviated ∈ d.abbreviatedName, token = abbreviated ++ type ∧ type ≠ "" ∧
        length = abbreviated.utf8ByteSize) ∧
    ((∀ length type, r.ReadsNameless token length type →
        ∃ more other, r.named.Reads token more other ∧ length < more) →
      r.named.typeOf token = r.typeOf token) ∧
    ((r.named.typeOf token).mapError ConversionError.kind =
        (r.typeOf token).mapError ConversionError.kind ↔
      (r.LeavesOpen token → ∀ length type, r.ReadsNameless token length type →
        r.Outweighed token length type)) := by
  refine ⟨fun length type => ?_, typeOf_named_of_outweighed, ?_, fun h => ?_⟩
  · exact exists_congr fun d => and_congr_right fun _ => and_congr_right fun hi =>
      Definition.reads_iff_of_nameless hi
  · intro h hopen length type hreads
    exact outweighed_of_mapError_kind_typeOf_named hopen h hreads
  · by_cases hopen : r.LeavesOpen token
    · exact mapError_kind_typeOf_named_of_outweighed hopen (h hopen)
    · obtain ⟨type, htype, htable⟩ := typeOf_of_not_leavesOpen hopen
      have hnamed : r.named.typeOf token = .ok type :=
        typeOf_eq_ok_iff.2 (htable.imp_right Or.inl)
      rw [hnamed, htype]

/-- A nameless definition whose abbreviated name is the start of a longer one. -/
theorem typeOf_named_iff_longer_start :
    let legacy : Definition := ⟨"Legacy", none, some "Legacy.", ""⟩
    let tasks : Definition := ⟨"Tasks", some "Tasks_v1", some "Legacy.Tasks.", ""⟩
    let r : Registry := ⟨[legacy, tasks], []⟩
    r.ReadsNameless "Legacy.Tasks.Task" 7 "Tasks.Task" ∧ r.typeOf "Legacy.Tasks.Task" = .ok "Task" ∧
      r.named.typeOf "Legacy.Tasks.Task" = r.typeOf "Legacy.Tasks.Task" := by
  intro legacy tasks r
  obtain ⟨hnameless, houtweighed, _⟩ := typeOf_named_iff r "Legacy.Tasks.Task"
  refine ⟨(hnameless _ _).2 ⟨legacy, by decide, rfl, "Legacy.", rfl, by decide, by decide, by decide⟩,
    by decide +kernel, houtweighed fun length type h => ?_⟩
  obtain ⟨d, hd, hi, abbreviated, ha, _, _, rfl⟩ := (hnameless length type).1 h
  refine ⟨"Legacy.Tasks.".utf8ByteSize, "Task", ⟨tasks, by decide, ?_⟩, ?_⟩
  · exact .abbreviated rfl rfl (by decide)
  · rcases List.mem_pair.1 hd with rfl | rfl
    · obtain rfl := Option.some.inj ha
      decide
    · exact absurd hi (by decide)

/-- A definition without an inner name gives a type to a token that no other definition knows. -/
theorem typeOf_nameless_definition :
    let legacy : Definition := ⟨"Legacy", none, some "Legacy.V1.", ""⟩
    let r : Registry := ⟨[legacy], []⟩
    r.typeOf "Legacy.V1.Item" = .ok "Item" ∧
      r.named.typeOf "Legacy.V1.Item" = .error (.unresolvedType "Legacy.V1.Item") ∧
      r.named.typeOf "Legacy.V1.Item" ≠ r.typeOf "Legacy.V1.Item" := by
  decide +kernel

end Registry
end ServiceTypings
