import ServiceTypings.Proofs.Additions

/-! What an addition to a registry changes for one token. An irregular type concerns its own token alone. A
new definition counts only where it knows as much of the token as all others do: where it knows more its type
is the result, and where it knows as much the old result stands or the two types disagree
(`typeOf_changes_locally`). The longest matches of all definitions are put together from those of the old
ones and those of the new one (`longest_append`). -/

namespace ServiceTypings

open TypeToken

namespace TypeToken

variable {ms ns : List Match}

theorem longest_append (ms ns : List Match) :
    longest (ms ++ ns) =
      (longest ms).filter (fun m => ns.all fun n => n.length ≤ m.length) ++
        (longest ns).filter (fun n => ms.all fun m => m.length ≤ n.length) := by
  have hms : ∀ m : Match, ((ms ++ ns).all fun o => decide (o.length ≤ m.length)) =
      ((ns.all fun n => decide (n.length ≤ m.length)) &&
        ms.all fun o => decide (o.length ≤ m.length)) := by
    intro m
    rw [List.all_append, Bool.and_comm]
  rw [longest, List.filter_append, longest, List.filter_filter, longest, List.filter_filter]
  simp only [hms, Bool.and_comm]

theorem longest_append_of_shorter (h : ∀ n ∈ ns, ∃ m ∈ ms, n.length < m.length) :
    longest (ms ++ ns) = longest ms := by
  have hkept : ∀ m ∈ longest ms, (ns.all fun n => decide (n.length ≤ m.length)) = true := by
    intro m hm
    simp only [List.all_eq_true, decide_eq_true_eq]
    intro n hn
    obtain ⟨longer, hlonger, hlt⟩ := h n hn
    exact Nat.le_of_lt (Nat.lt_of_lt_of_le hlt ((mem_longest_iff.1 hm).2 longer hlonger))
  have hdropped : ∀ n ∈ longest ns, ¬(ms.all fun m => decide (m.length ≤ n.length)) = true := by
    intro n hn hall
    simp only [List.all_eq_true, decide_eq_true_eq] at hall
    obtain ⟨longer, hlonger, hlt⟩ := h n (mem_longest_iff.1 hn).1
    exact absurd (hall longer hlonger) (Nat.not_le_of_lt hlt)
  rw [longest_append, List.filter_eq_self.2 hkept, List.filter_eq_nil_iff.2 hdropped, List.append_nil]

theorem longest_append_of_tie (hms : ∀ m ∈ longest ms, ∀ n ∈ ns, n.length ≤ m.length)
    (hns : ∀ n ∈ longest ns, ∀ m ∈ ms, m.length ≤ n.length) :
    longest (ms ++ ns) = longest ms ++ longest ns := by
  have hm : ∀ m ∈ longest ms, (ns.all fun n => decide (n.length ≤ m.length)) = true := by
    simpa only [List.all_eq_true, decide_eq_true_eq] using hms
  have hn : ∀ n ∈ longest ns, (ms.all fun m => decide (m.length ≤ n.length)) = true := by
    simpa only [List.all_eq_true, decide_eq_true_eq] using hns
  rw [longest_append, List.filter_eq_self.2 hm, List.filter_eq_self.2 hn]

/-- Among matches that agree one differs from a type exactly if all do. -/
theorem find?_ne_of_agree {type : String} (hns : ns ≠ []) (h : ∀ n ∈ ns, n.type = type)
    (other : String) :
    (ns.find? (·.type ≠ other)).map Match.type = if type = other then none else some type := by
  obtain ⟨n, rest, rfl⟩ := List.exists_cons_of_ne_nil hns
  split
  next heq =>
    have hnone : (n :: rest).find? (·.type ≠ other) = none :=
      List.find?_eq_none.2 fun m hm => by simp [h m hm, heq]
    rw [hnone, Option.map_none]
  next hne =>
    have hn : n.type = type := h n List.mem_cons_self
    rw [List.find?_cons_of_pos (by simp [hn, hne]), Option.map_some, hn]

end TypeToken

theorem Keyed.put_of_not_mem {α κ : Type} [DecidableEq κ] (key : α → κ) {x : α} {entries : List α}
    (h : key x ∉ entries.map key) : put key x entries = entries ++ [x] := by
  unfold put
  induction entries with
  | nil => rfl
  | cons y ys ih =>
    rw [List.map_cons, List.mem_cons, not_or] at h
    rw [alter, if_neg (Ne.symm h.1), ih h.2, List.cons_append]

theorem Registry.distinctNames_singleton (d : Definition) : (⟨[d], []⟩ : Registry).DistinctNames := by
  have heq : ∀ a ∈ [d], ∀ b ∈ [d], b = a := by
    intro a ha b hb
    rw [List.mem_singleton.1 ha, List.mem_singleton.1 hb]
  exact ⟨fun a ha b hb _ _ _ => heq a ha b hb, fun a ha b hb _ _ _ => heq a ha b hb,
    fun a ha b hb _ _ _ => heq a ha b hb, fun a ha b hb _ _ _ => heq a ha b hb⟩

namespace Definition

variable {d : Definition} {token type other : String} {length : Nat}

theorem Reads.unique (h : d.Reads token length type) (h' : d.Reads token length other) :
    type = other := by
  obtain ⟨m, hm, hmsize, rfl⟩ := h.exists_match
  obtain ⟨o, ho, hosize, rfl⟩ := h'.exists_match
  obtain ⟨restM, hrestM⟩ := d.exists_eq_start_append hm
  obtain ⟨restO, hrestO⟩ := d.exists_eq_start_append ho
  have hstart : m.start = o.start :=
    eq_of_append_eq_append_of_size (hrestM.symm.trans hrestO) (hmsize.trans hosize.symm)
  have hd : d ∈ (⟨[d], []⟩ : Registry).definitions := List.mem_singleton_self d
  exact (Registry.distinctNames_singleton d).type_eq_of_start_eq hd hd hm ho hstart

/-- It takes the token for that type by the most of it that it knows. -/
def ReadsMost (d : Definition) (token : String) (length : Nat) (type : String) : Prop :=
  d.Reads token length type ∧ ∀ other otherType, d.Reads token other otherType → other ≤ length

theorem readsMost_of_matchesOf_eq {m : Match} (h : d.matchesOf token = [m]) :
    d.ReadsMost token m.start.utf8ByteSize m.type := by
  refine ⟨d.reads_of_mem_matchesOf (h ▸ List.mem_singleton_self m), fun other otherType hother => ?_⟩
  obtain ⟨o, ho, rfl, _⟩ := hother.exists_match
  rw [h, List.mem_singleton] at ho
  exact Nat.le_of_eq (ho ▸ rfl)

/-- The longest matches of a definition all come to the type that it has by the most of the token. -/
theorem ReadsMost.longest (h : d.ReadsMost token length type) :
    TypeToken.longest (d.matchesOf token) ≠ [] ∧
      ∀ m ∈ TypeToken.longest (d.matchesOf token),
        m.start.utf8ByteSize = length ∧ m.type = type := by
  obtain ⟨best, hbest, hsize, _⟩ := h.1.exists_match
  refine ⟨longest_ne_nil (List.ne_nil_of_mem hbest), fun m hm => ?_⟩
  rw [mem_longest_iff] at hm
  have hreads := d.reads_of_mem_matchesOf hm.1
  obtain ⟨restM, hrestM⟩ := d.exists_eq_start_append hm.1
  obtain ⟨restB, hrestB⟩ := d.exists_eq_start_append hbest
  have hle : length ≤ m.start.utf8ByteSize :=
    hsize ▸ (length_le_iff_utf8ByteSize_le (hrestB.symm.trans hrestM)).1 (hm.2 best hbest)
  have heq : m.start.utf8ByteSize = length := Nat.le_antisymm (h.2 _ _ hreads) hle
  exact ⟨heq, (heq ▸ hreads).unique h.1⟩

end Definition

namespace Registry

variable {r : Registry} {d : Definition} {token type : String} {length : Nat}

/-- No definition knows more of the token. -/
def KnowsAtMost (r : Registry) (token : String) (length : Nat) : Prop :=
  ∀ other type, r.Reads token other type → other ≤ length

theorem matchesOf_addDefinition (hfresh : d.id ∉ r.definitions.map Definition.id) :
    (r.addDefinition d).matchesOf token = r.matchesOf token ++ d.matchesOf token := by
  rw [matchesOf, addDefinition, Keyed.put_of_not_mem Definition.id hfresh, List.flatMap_append,
    List.flatMap_singleton, matchesOf]

theorem mem_matchesOf_addDefinition_iff (hfresh : d.id ∉ r.definitions.map Definition.id) {m : Match} :
    m ∈ (r.addDefinition d).matchesOf token ↔ m ∈ r.matchesOf token ∨ m ∈ d.matchesOf token := by
  rw [matchesOf_addDefinition hfresh, List.mem_append]

theorem reads_addDefinition_iff (hfresh : d.id ∉ r.definitions.map Definition.id) :
    (r.addDefinition d).Reads token length type ↔
      r.Reads token length type ∨ d.Reads token length type := by
  simp only [Reads, addDefinition, Keyed.put_of_not_mem Definition.id hfresh, List.mem_append,
    List.mem_singleton, or_and_right, exists_or, exists_eq_left]

theorem resolve_addDefinition_of_less (hfresh : d.id ∉ r.definitions.map Definition.id)
    (h : ∀ length type, d.Reads token length type → ¬r.KnowsAtMost token length) :
    (r.addDefinition d).resolve token = r.resolve token := by
  rw [resolve, resolve, matchesOf_addDefinition hfresh, longest_append_of_shorter fun n hn => ?_]
  have hless := h _ _ (d.reads_of_mem_matchesOf hn)
  simp only [KnowsAtMost, not_forall, Nat.not_le] at hless
  obtain ⟨more, other, hreads, hlt⟩ := hless
  obtain ⟨m, hm, rfl, rfl⟩ := reads_iff_exists_match.1 hreads
  refine ⟨m, hm, Nat.lt_of_not_le fun hle => ?_⟩
  have hn' := (mem_matchesOf_addDefinition_iff hfresh).2 (Or.inr hn)
  have hm' := (mem_matchesOf_addDefinition_iff hfresh).2 (Or.inl hm)
  exact absurd ((length_le_iff_of_mem hn' hm').1 hle) (Nat.not_le_of_lt hlt)

theorem resolve_addDefinition_of_more (hfresh : d.id ∉ r.definitions.map Definition.id)
    (hd : d.ReadsMost token length type)
    (h : ∀ other otherType, r.Reads token other otherType → other < length) :
    (r.addDefinition d).resolve token = .ok type := by
  have hmax : (r.addDefinition d).KnowsAtMost token length := by
    intro other otherType hother
    rcases (reads_addDefinition_iff hfresh).1 hother with hother | hother
    · exact Nat.le_of_lt (h other otherType hother)
    · exact hd.2 other otherType hother
  have hnew : (r.addDefinition d).Reads token length type := (reads_addDefinition_iff hfresh).2 (Or.inr hd.1)
  refine resolve_eq_ok_iff.2 ⟨⟨length, hnew, hmax⟩, ?_⟩
  rintro other ⟨more, hother, hlongest⟩
  -- a longest reading is no shorter than the new one, so it is the new definition's own
  have hlength : length ≤ more := hlongest length type hnew
  rcases (reads_addDefinition_iff hfresh).1 hother with hother | hother
  · exact absurd (h more other hother) (Nat.not_lt_of_le hlength)
  · obtain rfl := Nat.le_antisymm hlength (hd.2 more other hother)
    exact hother.unique hd.1

/-- A new definition that knows as much of the token as the others do leaves its type alone or disagrees
with it, and an error stays as it is. -/
theorem resolve_addDefinition_of_tie (hfresh : d.id ∉ r.definitions.map Definition.id)
    (hd : d.ReadsMost token length type) {other : String} (hold : r.Reads token length other)
    (h : r.KnowsAtMost token length) :
    (r.addDefinition d).resolve token = (r.resolve token).bind fun old =>
      if type = old then .ok old else .error (.ambiguousType token old type) := by
  obtain ⟨hne, hagree⟩ := hd.longest
  obtain ⟨best, hbest, hsize, _⟩ := reads_iff_exists_match.1 hold
  have hlongest : longest (r.matchesOf token ++ d.matchesOf token) =
      longest (r.matchesOf token) ++ longest (d.matchesOf token) := by
    refine longest_append_of_tie (fun m hm n hn => ?_) fun n hn m hm => ?_
    · rw [mem_longest_iff] at hm
      have hle := (length_le_iff_of_mem hm.1 hbest).1 (hm.2 best hbest)
      have hm' := (mem_matchesOf_addDefinition_iff hfresh).2 (Or.inl hm.1)
      have hn' := (mem_matchesOf_addDefinition_iff hfresh).2 (Or.inr hn)
      rw [length_le_iff_of_mem hm' hn']
      exact Nat.le_trans (hd.2 _ _ (d.reads_of_mem_matchesOf hn)) (hsize ▸ hle)
    · have hn' := (mem_matchesOf_addDefinition_iff hfresh).2 (Or.inr (mem_longest_iff.1 hn).1)
      have hm' := (mem_matchesOf_addDefinition_iff hfresh).2 (Or.inl hm)
      rw [length_le_iff_of_mem hn' hm', (hagree n hn).1]
      exact h _ _ (reads_iff_exists_match.2 ⟨m, hm, rfl, rfl⟩)
  obtain ⟨m, rest, hcons⟩ := List.exists_cons_of_ne_nil (longest_ne_nil (List.ne_nil_of_mem hbest))
  have hnew := find?_ne_of_agree hne (fun n hn => (hagree n hn).2) m.type
  rw [resolve, resolve, matchesOf_addDefinition hfresh, hlongest, hcons, List.cons_append]
  simp only [List.find?_append]
  -- the old matches come first, so it is their disagreement that is reported if they disagree
  cases rest.find? (·.type ≠ m.type) with
  | some o => rfl
  | none =>
    rw [Option.none_or]
    by_cases htype : type = m.type
    · rw [if_pos htype, Option.map_eq_none_iff] at hnew
      rw [hnew]
      simp only [Except.bind, htype, if_true]
    · rw [if_neg htype, Option.map_eq_some_iff] at hnew
      obtain ⟨o, ho, hotype⟩ := hnew
      rw [ho]
      simp only [Except.bind, htype, if_false, hotype]

theorem irregular?_extendIrregular (entries : List (String × String)) :
    (r.extendIrregular entries).irregular? token =
      ((Keyed.find? Prod.fst token entries.reverse).map Prod.snd).or (r.irregular? token) := by
  rw [irregular?, irregular_extendIrregular, Keyed.find?_putAll, Option.map_or, irregular?]

theorem typeOf_extendIrregular_of_not_mem {entries : List (String × String)}
    (h : token ∉ entries.map Prod.fst) : (r.extendIrregular entries).typeOf token = r.typeOf token := by
  have hnone : Keyed.find? Prod.fst token entries.reverse = none := by
    refine List.find?_eq_none.2 fun entry hentry => ?_
    rw [decide_eq_true_eq]
    rintro rfl
    exact h (List.mem_map_of_mem (List.mem_reverse.1 hentry))
  have hdefinitions := r.definitions_extendIrregular entries
  rw [typeOf, typeOf, irregular?_extendIrregular, hnone, Option.map_none, Option.none_or, resolve, resolve,
    matchesOf, matchesOf, hdefinitions]

theorem typeOf_of_primitive? (h : primitive? token = some type) : r.typeOf token = .ok type := by
  rw [typeOf, h]

theorem typeOf_addDefinition_of_not_leavesOpen (h : ¬r.LeavesOpen token) :
    (r.addDefinition d).typeOf token = r.typeOf token := by
  obtain ⟨type, htype, htable⟩ := typeOf_of_not_leavesOpen h
  rw [htype]
  exact typeOf_eq_ok_iff.2 (htable.imp_right Or.inl)

/-- What additions change for a token. Types that are laid down count for their own tokens, the primitive
ones excepted, and the last one is the result. A new definition counts for tokens that are neither primitive
nor irregular, and only if no other knows more of the token than it does. If it knows more than all others,
its type by the most of the token that it knows is the result; if others know as much, a type that there was
stays or the two are reported as ambiguous, and an error stays as it was. -/
theorem typeOf_changes_locally (r : Registry) (token : String) :
    (∀ entries, (r.extendIrregular entries).typeOf token ≠ r.typeOf token →
      token ∈ entries.map Prod.fst ∧ primitive? token = none) ∧
    (∀ entries entry, primitive? token = none →
      Keyed.find? Prod.fst token entries.reverse = some entry →
        (r.extendIrregular entries).typeOf token = .ok entry.2) ∧
    ∀ d, d.id ∉ r.definitions.map Definition.id →
      ((r.addDefinition d).typeOf token ≠ r.typeOf token → r.LeavesOpen token ∧
        ∃ length type, d.Reads token length type ∧ r.KnowsAtMost token length) ∧
      ∀ length type, r.LeavesOpen token → d.ReadsMost token length type →
        ((∀ other otherType, r.Reads token other otherType → other < length) →
          (r.addDefinition d).typeOf token = .ok type) ∧
        (r.KnowsAtMost token length → (∃ other, r.Reads token length other) →
          (r.addDefinition d).typeOf token = (r.typeOf token).bind fun old =>
            if type = old then .ok old else .error (.ambiguousType token old type)) := by
  refine ⟨fun entries hchanged => ?_, fun entries entry hprimitive hentry => ?_, fun d hfresh => ?_⟩
  · constructor
    · by_contra h
      exact hchanged (typeOf_extendIrregular_of_not_mem h)
    · by_contra h
      obtain ⟨type, htype⟩ := Option.ne_none_iff_exists'.1 h
      exact hchanged ((typeOf_of_primitive? htype).trans (typeOf_of_primitive? htype).symm)
  · refine typeOf_eq_ok_iff.2 (Or.inr (Or.inl ⟨hprimitive, ?_⟩))
    rw [irregular?_extendIrregular, hentry, Option.map_some, Option.some_or]
  · refine ⟨fun hchanged => ?_, fun length type hopen hd => ?_⟩
    · have hopen : r.LeavesOpen token := by
        by_contra h
        exact hchanged (typeOf_addDefinition_of_not_leavesOpen h)
      refine ⟨hopen, ?_⟩
      by_contra hnone
      simp only [not_exists, not_and] at hnone
      have hopen' : (r.addDefinition d).LeavesOpen token := hopen
      rw [typeOf_of_leavesOpen hopen, typeOf_of_leavesOpen hopen'] at hchanged
      exact hchanged (resolve_addDefinition_of_less hfresh hnone)
    · have hopen' : (r.addDefinition d).LeavesOpen token := hopen
      rw [typeOf_of_leavesOpen hopen, typeOf_of_leavesOpen hopen']
      refine ⟨resolve_addDefinition_of_more hfresh hd, ?_⟩
      rintro hmost ⟨other, hother⟩
      exact resolve_addDefinition_of_tie hfresh hd hother hmost

/-- Beside a definition that knows four bytes of a token: one that knows six, and one that knows the same
four and comes to another type; and a type laid down for the token. -/
theorem typeOf_changes_locally_beside_one :
    let r : Registry := ⟨[⟨"One", some "A", some "B.", ""⟩], []⟩
    let long : Definition := ⟨"Long", some "Z_v9", some "A.B.C.", ""⟩
    let two : Definition := ⟨"Two", some "A", some "B.", ""⟩
    r.typeOf "A.B.C.D" = .ok "One.C.D" ∧
      long.ReadsMost "A.B.C.D" 6 "D" ∧ (r.addDefinition long).typeOf "A.B.C.D" = .ok "D" ∧
      two.ReadsMost "A.B.C.D" 4 "Two.C.D" ∧ (r.addDefinition two).typeOf "A.B.C.D" =
        .error (.ambiguousType "A.B.C.D" "One.C.D" "Two.C.D") ∧
      (r.extendIrregular [("A.B.C.D", "any")]).typeOf "A.B.C.D" = .ok "any" := by
  intro r long two
  obtain ⟨_, hirregular, hdefinition⟩ := typeOf_changes_locally r "A.B.C.D"
  have htype : r.typeOf "A.B.C.D" = .ok "One.C.D" := by decide +kernel
  have hopen : r.LeavesOpen "A.B.C.D" := ⟨by decide, by decide⟩
  have hlong : long.ReadsMost "A.B.C.D" 6 "D" := Definition.readsMost_of_matchesOf_eq
    (m := ⟨"A.B.C.", "D"⟩) (by decide +kernel)
  have htwo : two.ReadsMost "A.B.C.D" 4 "Two.C.D" := Definition.readsMost_of_matchesOf_eq
    (m := ⟨"A.B.", "Two.C.D"⟩) (by decide +kernel)
  have hone : r.matchesOf "A.B.C.D" = [⟨"A.B.", "One.C.D"⟩] := by decide +kernel
  have hfour : ∀ other otherType, r.Reads "A.B.C.D" other otherType → other = 4 := by
    intro other otherType hreads
    obtain ⟨m, hm, rfl, _⟩ := reads_iff_exists_match.1 hreads
    rw [hone, List.mem_singleton] at hm
    rw [hm]
    rfl
  refine ⟨htype, hlong, ?_, htwo, ?_, hirregular _ ("A.B.C.D", "any") (by decide) (by decide)⟩
  · refine ((hdefinition long (by decide)).2 6 "D" hopen hlong).1 fun other otherType h => ?_
    rw [hfour other otherType h]
    decide
  · have htie := ((hdefinition two (by decide)).2 4 "Two.C.D" hopen htwo).2
      (fun other otherType h => Nat.le_of_eq (hfour other otherType h))
      ⟨"One.C.D", reads_iff_exists_match.2 ⟨_, hone ▸ List.mem_singleton_self _, rfl, rfl⟩⟩
    rw [htie, htype]
    decide

end Registry

end ServiceTypings
