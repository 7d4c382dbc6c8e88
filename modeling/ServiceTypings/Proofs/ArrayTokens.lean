import ServiceTypings.Proofs.Resolution
import ServiceTypings.QualifiedName
import ServiceTypings.Registry.Builtin

/-! Array tokens, a token with brackets behind it. The two tables know tokens only as a whole, so the type
of an array is laid down for itself; the definitions cut off a start, and what they leave of the token they
leave of the array too, brackets included (`Definition.reads_append_iff`). When the type of the array is
that of the token with brackets behind it is told case by case in `KeepsArray`, and nowhere else is it so
(`typeOf_array_iff`). -/

namespace ServiceTypings

theorem exists_middle {a b x y : String} (h : a ++ x = b ++ y)
    (hsize : a.utf8ByteSize ≤ b.utf8ByteSize) : ∃ mid, b = a ++ mid ∧ x = mid ++ y := by
  rcases start_or_start_of_eq h with hmid | ⟨mid, rfl, rfl⟩
  · exact hmid
  · rw [String.utf8ByteSize_append] at hsize
    have hmid : mid = "" := String.utf8ByteSize_eq_zero_iff.1 (by omega)
    exact ⟨"", by simp [hmid], by simp [hmid]⟩

theorem utf8ByteSize_lt_append_iff {start rest : String} :
    start.utf8ByteSize < (start ++ rest).utf8ByteSize ↔ rest ≠ "" := by
  rw [String.utf8ByteSize_append, Ne, ← String.utf8ByteSize_eq_zero_iff]
  omega

namespace Definition

/-- A start that leaves some of the token is read alike whatever follows the token, and what follows it
follows the type. -/
theorem reads_append_iff {d : Definition} {token suffix type : String} {length : Nat}
    (hlength : length < token.utf8ByteSize) :
    d.Reads (token ++ suffix) length type ↔
      ∃ stem, d.Reads token length stem ∧ type = stem ++ suffix := by
  have hwhole : token.utf8ByteSize ≤ (token ++ suffix).utf8ByteSize := by
    rw [String.utf8ByteSize_append]
    omega
  constructor
  · intro h
    cases h with
    | inner => omega
    | package _ _ htoken =>
      rw [htoken] at hwhole
      omega
    | belowPackage hi ha htoken hrest =>
      obtain ⟨mid, rfl, rfl⟩ := exists_middle htoken.symm (Nat.le_of_lt hlength)
      have hmid := utf8ByteSize_lt_append_iff.1 hlength
      exact ⟨_, .belowPackage hi ha rfl hmid, String.append_assoc.symm⟩
    | abbreviated ha htoken hrest =>
      obtain ⟨mid, rfl, rfl⟩ := exists_middle htoken.symm (Nat.le_of_lt hlength)
      have hmid := utf8ByteSize_lt_append_iff.1 hlength
      exact ⟨mid, .abbreviated ha rfl hmid, rfl⟩
  · rintro ⟨stem, h, rfl⟩
    cases h with
    | inner => omega
    | package _ _ htoken =>
      rw [← htoken] at hlength
      omega
    | @belowPackage inner abbreviated rest hi ha htoken hrest =>
      have htype : d.id ++ "." ++ rest ++ suffix = d.id ++ "." ++ (rest ++ suffix) :=
        String.append_assoc
      rw [htype]
      refine .belowPackage hi ha ?_ ?_
      · rw [htoken, String.append_assoc]
      · simp [hrest]
    | abbreviated ha htoken hrest =>
      refine .abbreviated ha ?_ ?_
      · rw [htoken, String.append_assoc]
      · simp [hrest]

end Definition

theorem eq_of_append_brackets {token text : String} (h : token ++ "[]" = text) :
    text.toList.getLast? = some ']' ∧ token = String.ofList text.toList.dropLast.dropLast := by
  subst h
  simp

theorem rest_of_brackets {token start rest : String} (h : token ++ "[]" = start ++ rest)
    (hsize : token.utf8ByteSize ≤ start.utf8ByteSize) (hrest : rest ≠ "") : rest ∈ ["[]", "]"] := by
  obtain ⟨mid, -, hbrackets⟩ := exists_middle h hsize
  have hsuffix : rest.toList <:+ ['[', ']'] := by
    refine ⟨mid.toList, ?_⟩
    rw [← String.toList_append, ← hbrackets]
    rfl
  have hne : rest.toList ≠ [] := by simpa using hrest
  simp only [List.suffix_cons_iff, List.suffix_nil, hne, or_false] at hsuffix
  rcases hsuffix with h | h
  · have hboth : rest = "[]" := String.toList_inj.1 (by rw [h]; rfl)
    simp [hboth]
  · have hlast : rest = "]" := String.toList_inj.1 (by rw [h]; rfl)
    simp [hlast]

namespace TypeToken

theorem primitive?_append_brackets {token type : String}
    (h : primitive? (token ++ "[]") = some type) :
    if token = "Byte" then type = "string" else (primitive? token).map (· ++ "[]") = some type := by
  unfold primitive? at h
  split at h
  case h_15 => cases h
  -- each row of the table either does not end in a bracket or is read off it
  all_goals
    rename_i htoken
    obtain ⟨hlast, rfl⟩ := eq_of_append_brackets htoken
    cases h
    revert hlast
    decide

end TypeToken

open TypeToken

namespace Registry

variable {r : Registry} {token type a b : String} {length : Nat}

/-- No definition takes in all of the token when it reads the array. -/
def ReadsArrayInside (r : Registry) (token : String) : Prop :=
  ∀ length type, r.Reads (token ++ "[]") length type → length < token.utf8ByteSize

/-- Of the readings that leave some of the token, none knows more of it than one that takes it for that
type. -/
def ReadsLongestInside (r : Registry) (token type : String) : Prop :=
  ∃ length, length < token.utf8ByteSize ∧ r.Reads token length type ∧
    ∀ other otherType, other < token.utf8ByteSize → r.Reads token other otherType → other ≤ length

theorem reads_append_iff {suffix : String} (h : length < token.utf8ByteSize) :
    r.Reads (token ++ suffix) length type ↔
      ∃ stem, r.Reads token length stem ∧ type = stem ++ suffix := by
  constructor
  · rintro ⟨d, hd, hreads⟩
    obtain ⟨stem, hstem, htype⟩ := (Definition.reads_append_iff h).1 hreads
    exact ⟨stem, ⟨d, hd, hstem⟩, htype⟩
  · rintro ⟨stem, ⟨d, hd, hstem⟩, htype⟩
    exact ⟨d, hd, (Definition.reads_append_iff h).2 ⟨stem, hstem, htype⟩⟩

theorem readsLongest_array_iff (hinside : r.ReadsArrayInside token) :
    r.ReadsLongest (token ++ "[]") type ↔
      ∃ stem, r.ReadsLongestInside token stem ∧ type = stem ++ "[]" := by
  constructor
  · rintro ⟨length, hreads, hmax⟩
    have hlength := hinside length type hreads
    obtain ⟨stem, hstem, rfl⟩ := (reads_append_iff hlength).1 hreads
    refine ⟨stem, ⟨length, hlength, hstem, fun other otherType ho hother => ?_⟩, rfl⟩
    exact hmax other _ ((reads_append_iff ho).2 ⟨otherType, hother, rfl⟩)
  · rintro ⟨stem, ⟨length, hlength, hstem, hmax⟩, rfl⟩
    refine ⟨length, (reads_append_iff hlength).2 ⟨stem, hstem, rfl⟩, fun other otherType ho => ?_⟩
    have hother := hinside other otherType ho
    obtain ⟨otherStem, hreads, _⟩ := (reads_append_iff hother).1 ho
    exact hmax other otherStem hother hreads

theorem Reads.length_lt (hinside : r.ReadsArrayInside token)
    (hinner : ∀ d ∈ r.definitions, d.innerName ≠ some token) (h : r.Reads token length type) :
    length < token.utf8ByteSize := by
  obtain ⟨d, hd, hreads⟩ := h
  cases hreads with
  | inner hi => exact absurd hi (hinner d hd)
  | package hi ha htoken =>
    subst htoken
    exact hinside _ _ ⟨d, hd, .belowPackage hi ha rfl (by decide)⟩
  | belowPackage _ _ htoken hrest =>
    rw [htoken]
    exact utf8ByteSize_lt_append_iff.2 hrest
  | abbreviated _ htoken hrest =>
    rw [htoken]
    exact utf8ByteSize_lt_append_iff.2 hrest

/-- The token's type with brackets behind it is the array's, by what settles the array: a primitive array is
one of primitives, but for bytes; else that type is laid down; else the definitions leave some of the token
and come to its type, or one that takes in all of it comes to that very text. -/
def KeepsArray (r : Registry) (token type : String) : Prop :=
  match primitive? (token ++ "[]") with
  | some _ => token ≠ "Byte"
  | none =>
    match r.irregular? (token ++ "[]") with
    | some laidDown => laidDown = type ++ "[]"
    | none =>
      r.ReadsArrayInside token ∧ r.ReadsLongestInside token type ∨
        ¬r.ReadsArrayInside token ∧ r.ReadsLongest (token ++ "[]") (type ++ "[]")

theorem array_eq_iff_of_primitive (ha : r.typeOf token = .ok a)
    (h : primitive? (token ++ "[]") = some b) : b = a ++ "[]" ↔ token ≠ "Byte" := by
  have hrow := primitive?_append_brackets h
  split at hrow
  next hbyte =>
    refine iff_of_false (fun hb => ?_) (not_not_intro hbyte)
    rw [hrow] at hb
    exact absurd (eq_of_append_brackets hb.symm).1 (by decide)
  next hbyte =>
    obtain ⟨type, htype, rfl⟩ := Option.map_eq_some_iff.1 hrow
    rw [typeOf, htype, Except.ok.injEq] at ha
    exact iff_of_true (by rw [ha]) hbyte

theorem array_eq_iff_of_resolve (hb : r.resolve (token ++ "[]") = .ok b) :
    b = a ++ "[]" ↔
      r.ReadsArrayInside token ∧ r.ReadsLongestInside token a ∨
        ¬r.ReadsArrayInside token ∧ r.ReadsLongest (token ++ "[]") (a ++ "[]") := by
  obtain ⟨hlongest, hall⟩ := resolve_eq_ok_iff.1 hb
  have hself : b = a ++ "[]" ↔ r.ReadsLongest (token ++ "[]") (a ++ "[]") :=
    ⟨fun h => h ▸ hlongest, fun h => (hall _ h).symm⟩
  by_cases hinside : r.ReadsArrayInside token
  · rw [hself, readsLongest_array_iff hinside]
    simp [hinside, String.append_left_inj]
  · simp only [hself, hinside, false_and, not_false_eq_true, true_and, false_or]

/-- What a definition that takes in all of the token makes of the array: its id, or what it leaves of the
brackets, alone or below its id. -/
theorem Reads.whole_array (h : r.Reads (token ++ "[]") length type)
    (hlength : token.utf8ByteSize ≤ length) :
    ∃ d ∈ r.definitions, type = d.id ∨
      ∃ rest ∈ ["[]", "]"], type = rest ∨ type = d.id ++ "." ++ rest := by
  obtain ⟨d, hd, hreads⟩ := h
  refine ⟨d, hd, ?_⟩
  cases hreads with
  | inner _ => exact Or.inl rfl
  | package _ _ _ => exact Or.inl rfl
  | @belowPackage _ _ rest _ _ htoken hrest =>
    exact Or.inr ⟨rest, rest_of_brackets htoken hlength hrest, Or.inr rfl⟩
  | abbreviated _ htoken hrest =>
    exact Or.inr ⟨type, rest_of_brackets htoken hlength hrest, Or.inl rfl⟩

/-- The type of an array is that of the token and brackets exactly as `KeepsArray` says. So it is where the
definitions settle both and none of them is known by the token as a whole; a definition that is so known
makes of the array what it does without regard to the token's type. -/
theorem typeOf_array_iff (ha : r.typeOf token = .ok a) (hb : r.typeOf (token ++ "[]") = .ok b) :
    (b = a ++ "[]" ↔ r.KeepsArray token a) ∧
    (r.LeavesOpen token → r.LeavesOpen (token ++ "[]") → r.ReadsArrayInside token →
      (∀ d ∈ r.definitions, d.innerName ≠ some token) → b = a ++ "[]") ∧
    ∀ length type, token.utf8ByteSize ≤ length → r.Reads (token ++ "[]") length type →
      ∃ d ∈ r.definitions, type = d.id ∨
        ∃ rest ∈ ["[]", "]"], type = rest ∨ type = d.id ++ "." ++ rest := by
  refine ⟨?_, ?_, fun length type hlength h => h.whole_array hlength⟩
  · cases hp : primitive? (token ++ "[]") with
    | some type =>
      rw [typeOf, hp, Except.ok.injEq] at hb
      simp only [KeepsArray, hp]
      exact array_eq_iff_of_primitive ha (hb ▸ hp)
    | none =>
      cases hi : r.irregular? (token ++ "[]") with
      | some laidDown =>
        simp only [typeOf, hp, hi, Except.ok.injEq] at hb
        simp only [KeepsArray, hp, hi, hb]
      | none =>
        simp only [typeOf, hp, hi] at hb
        simp only [KeepsArray, hp, hi]
        exact array_eq_iff_of_resolve hb
  · intro hopen hopenArray hinside hinner
    rw [typeOf_of_leavesOpen hopen, resolve_eq_ok_iff] at ha
    rw [typeOf_of_leavesOpen hopenArray] at hb
    obtain ⟨length, hreads, hmax⟩ := ha.1
    refine (array_eq_iff_of_resolve hb).2 (Or.inl ⟨hinside, length, ?_, hreads, ?_⟩)
    · exact hreads.length_lt hinside hinner
    · exact fun other otherType _ hother => hmax other otherType hother

/-- A token left to the definitions, which keeps its array, and an irregular one, which does not. -/
theorem typeOf_array_of_service :
    let r : Registry := ⟨[⟨"People", some "Peopleapi_v1", some "Peopleapi.V1.", "people"⟩],
      [("Peopleapi.V1.Schema.Empty", "void")]⟩
    let person := "Peopleapi_v1.Peopleapi.V1.Schema.Person"
    let nothing := "Peopleapi.V1.Schema.Empty"
    r.typeOf person = .ok "People.Schema.Person" ∧
      r.typeOf (person ++ "[]") = .ok "People.Schema.Person[]" ∧
      r.KeepsArray person "People.Schema.Person" ∧
      r.typeOf nothing = .ok "void" ∧ r.typeOf (nothing ++ "[]") = .ok "Schema.Empty[]" ∧
      ¬r.KeepsArray nothing "void" := by
  intro r person nothing
  have hperson : r.typeOf person = .ok "People.Schema.Person" := by decide +kernel
  have hpeople : r.typeOf (person ++ "[]") = .ok "People.Schema.Person[]" := by decide +kernel
  have hnothing : r.typeOf nothing = .ok "void" := by decide +kernel
  have hnothings : r.typeOf (nothing ++ "[]") = .ok "Schema.Empty[]" := by decide +kernel
  refine ⟨hperson, hpeople, ?_, hnothing, hnothings, ?_⟩
  · exact (typeOf_array_iff hperson hpeople).1.1 (by decide)
  · intro h
    exact absurd ((typeOf_array_iff hnothing hnothings).1.2 h) (by decide)

/-- A dotted token with an irregular type of its own, and its array with another. -/
theorem typeOf_array_of_irregular :
    (QualifiedName.parse? "Bigquery.V2.Schema.JsonValue").isSome ∧
      builtin.irregular? "Bigquery.V2.Schema.JsonValue" = some "any" ∧
      builtin.typeOf "Bigquery.V2.Schema.JsonValue" = .ok "any" ∧
      builtin.typeOf ("Bigquery.V2.Schema.JsonValue" ++ "[]") = .ok "Schema.JsonValue[]" ∧
      "Schema.JsonValue[]" ≠ "any" ++ "[]" := by
  decide +kernel

end Registry
end ServiceTypings
