import ServiceTypings.Proofs.Additions

/-! What resolution leaves of a dotted token. The start that a definition knows is cut off as a text, so the
rest consists of whole segments exactly if that start ends at a dot (`partsOf_isSuffix_append_iff`). Where
all abbreviated names end so, a dotted token has a dotted type: an id, the last segments of the token, or
an id and then such segments (`typeOf_cuts_at_dot`). -/

namespace ServiceTypings

/-- The text says nothing, or it ends at a dot. -/
def EndsAtDot (text : String) : Prop :=
  text = "" ∨ text.toList.getLast? = some '.'

instance (text : String) : Decidable (EndsAtDot text) :=
  inferInstanceAs (Decidable (_ ∨ _))

theorem endsAtDot_iff {text : String} : EndsAtDot text ↔ text = "" ∨ ∃ stem, text = stem ++ "." := by
  refine or_congr_right ?_
  rw [List.getLast?_eq_some_iff]
  constructor
  · rintro ⟨stem, h⟩
    refine ⟨String.ofList stem, ?_⟩
    rw [← String.toList_inj, h, String.toList_append, String.toList_ofList]
    rfl
  · rintro ⟨stem, rfl⟩
    exact ⟨stem.toList, by simp⟩

theorem endsAtDot_append_dot_append_iff (a b : String) : EndsAtDot (a ++ "." ++ b) ↔ EndsAtDot b := by
  unfold EndsAtDot
  by_cases hb : b = ""
  · simp [hb]
  · have hlast : b.toList.getLast? ≠ none := by simpa using hb
    obtain ⟨c, hc⟩ := Option.ne_none_iff_exists'.1 hlast
    have hwhole : (a ++ "." ++ b).toList.getLast? = some c := by
      rw [String.toList_append, List.getLast?_append, hc, Option.some_or]
    have hne : a ++ "." ++ b ≠ "" := by simp [hb]
    simp only [hwhole, hc, hb, hne, false_or]

namespace QualifiedName

/-- What is left of a text behind its start has whole segments of the text if the start ends at a dot, and
only then. -/
theorem partsOf_isSuffix_append_iff {start rest : String} :
    partsOf rest <:+ partsOf (start ++ rest) ↔ EndsAtDot start := by
  rw [endsAtDot_iff]
  constructor
  · rintro ⟨before, h⟩
    have hprint := congrArg (String.intercalate ".") h
    rw [intercalate_partsOf] at hprint
    by_cases hbefore : before = []
    · rw [hbefore, List.nil_append, intercalate_partsOf] at hprint
      have hstart : "" ++ rest = start ++ rest := String.empty_append.trans hprint
      exact Or.inl ((String.append_left_inj rest).1 hstart).symm
    · rw [String.intercalate_append_of_ne_nil hbefore (partsOf_ne_nil rest), intercalate_partsOf] at hprint
      exact Or.inr ⟨_, ((String.append_left_inj rest).1 hprint).symm⟩
  · rintro (rfl | ⟨stem, rfl⟩)
    · exact ⟨[], by rw [List.nil_append, String.empty_append]⟩
    · rw [partsOf_append]
      exact List.suffix_append _ _

end QualifiedName

open QualifiedName

theorem Definition.Reads.exists_rest {d : Definition} {token type : String} {length : Nat}
    (h : d.Reads token length type) : type = d.id ∨ ∃ abbreviated ∈ d.abbreviatedName, ∃ start rest,
      rest ≠ "" ∧ token = start ++ rest ∧ (EndsAtDot start ↔ EndsAtDot abbreviated) ∧
      (start = abbreviated ∧ type = rest ∨
        d.packageStart = some start ∧ type = d.id ++ "." ++ rest) := by
  cases h with
  | inner _ => exact Or.inl rfl
  | package _ _ _ => exact Or.inl rfl
  | @belowPackage inner abbreviated rest hi ha htoken hrest =>
    refine Or.inr ⟨abbreviated, ha, _, rest, hrest, htoken, ?_, Or.inr ⟨?_, rfl⟩⟩
    · exact endsAtDot_append_dot_append_iff inner abbreviated
    · exact packageStart_eq_some_iff.2 ⟨inner, abbreviated, hi, ha, rfl⟩
  | @abbreviated abbreviated _ ha htoken hrest =>
    exact Or.inr ⟨abbreviated, ha, abbreviated, type, hrest, htoken, Iff.rfl, Or.inl ⟨rfl, rfl⟩⟩

namespace Registry

variable {r : Registry} {token type : String}

/-- The type is the id of a definition, or the last segments of the token, or such segments below an id. -/
inductive Segmental (r : Registry) (token : String) : String → Prop
  | id {d : Definition} (hd : d ∈ r.definitions) : Segmental r token d.id
  | last {rest : String} (h : partsOf rest <:+ partsOf token) : Segmental r token rest
  | below {d : Definition} {rest : String} (hd : d ∈ r.definitions)
      (h : partsOf rest <:+ partsOf token) : Segmental r token (d.id ++ "." ++ rest)

theorem Segmental.isSome_parse? (h : r.Segmental token type)
    (hid : ∀ d ∈ r.definitions, (parse? d.id).isSome) (htoken : (parse? token).isSome) :
    (parse? type).isSome := by
  rw [isSome_parse?_iff] at htoken
  have hrest : ∀ rest, partsOf rest <:+ partsOf token → "" ∉ partsOf rest :=
    fun rest hsuffix hempty => htoken (hsuffix.subset hempty)
  cases h with
  | id hd => exact hid _ hd
  | last hsuffix => exact isSome_parse?_iff.2 (hrest _ hsuffix)
  | below hd hsuffix =>
    rw [isSome_parse?_iff, parts_nonempty_append_dot_iff, ← isSome_parse?_iff]
    exact ⟨hid _ hd, hrest _ hsuffix⟩

theorem exists_reads_of_typeOf (hopen : r.LeavesOpen token) (h : r.typeOf token = .ok type) :
    ∃ d ∈ r.definitions, ∃ length, d.Reads token length type := by
  rw [typeOf_of_leavesOpen hopen, resolve_eq_ok_iff] at h
  obtain ⟨length, ⟨d, hd, hreads⟩, _⟩ := h.1
  exact ⟨d, hd, length, hreads⟩

end Registry

theorem Settings.isSome_parse?_id {s : Settings} (h : ∀ d ∈ s.definitions, (parse? d.id).isSome) :
    ∀ d ∈ s.registry.definitions, (parse? d.id).isSome := by
  intro d hd
  rcases mem_registry_definitions hd with hd | hd
  · exact h d hd
  · exact isSome_parse?_iff.2 (Registry.builtin_id_parts_nonempty d hd)

theorem Settings.endsAtDot_abbreviatedName {s : Settings}
    (h : ∀ d ∈ s.definitions, ∀ abbreviated ∈ d.abbreviatedName, EndsAtDot abbreviated) :
    ∀ d ∈ s.registry.definitions, ∀ abbreviated ∈ d.abbreviatedName, EndsAtDot abbreviated := by
  intro d hd abbreviated ha
  rcases mem_registry_definitions hd with hd | hd
  · exact h d hd abbreviated ha
  · exact Or.inr (Registry.builtin_abbreviatedName_getLast? d hd abbreviated ha)

/-- Under settings whose ids are dotted names, a dotted token that is left to resolution means an id or
what stands behind the start that a definition knows, and these are whole segments of the token exactly if
the abbreviated name of that definition ends at a dot. If all that the settings give end so, the type is a
dotted name of an id, of last segments of the token, or of both. -/
theorem Settings.typeOf_cuts_at_dot {s : Settings} {token type : String}
    (hid : ∀ d ∈ s.definitions, (parse? d.id).isSome) (htoken : (parse? token).isSome)
    (hopen : s.registry.LeavesOpen token) (htype : s.registry.typeOf token = .ok type) :
    (∃ d ∈ s.registry.definitions, type = d.id ∨ ∃ abbreviated ∈ d.abbreviatedName, ∃ start rest,
      rest ≠ "" ∧ token = start ++ rest ∧
      (start = abbreviated ∧ type = rest ∨
        d.packageStart = some start ∧ type = d.id ++ "." ++ rest) ∧
      (partsOf rest <:+ partsOf token ↔ EndsAtDot abbreviated) ∧
      (EndsAtDot abbreviated → (parse? type).isSome ∧ s.registry.Segmental token type)) ∧
    ((∀ d ∈ s.definitions, ∀ abbreviated ∈ d.abbreviatedName, EndsAtDot abbreviated) →
      (parse? type).isSome ∧ s.registry.Segmental token type) := by
  have hdotted : s.registry.Segmental token type →
      (parse? type).isSome ∧ s.registry.Segmental token type :=
    fun h => ⟨h.isSome_parse? (isSome_parse?_id hid) htoken, h⟩
  obtain ⟨d, hd, length, hreads⟩ := Registry.exists_reads_of_typeOf hopen htype
  rcases hreads.exists_rest with rfl | ⟨abbreviated, ha, start, rest, hrest, rfl, hdot, hform⟩
  · exact ⟨⟨d, hd, Or.inl rfl⟩, fun _ => hdotted (.id hd)⟩
  · have hwhole : partsOf rest <:+ partsOf (start ++ rest) ↔ EndsAtDot abbreviated :=
      partsOf_isSuffix_append_iff.trans hdot
    have hsegmental : EndsAtDot abbreviated → s.registry.Segmental (start ++ rest) type := by
      intro h
      rcases hform with ⟨_, rfl⟩ | ⟨_, rfl⟩
      · exact .last (hwhole.2 h)
      · exact .below hd (hwhole.2 h)
    refine ⟨⟨d, hd, Or.inr ⟨abbreviated, ha, start, rest, hrest, rfl, hform, hwhole, fun h =>
      hdotted (hsegmental h)⟩⟩, fun hall => ?_⟩
    exact hdotted (hsegmental (endsAtDot_abbreviatedName hall d hd abbreviated ha))

/-- A service of the settings, as documented with the dot at the end of its abbreviated name. -/
theorem Settings.typeOf_cuts_at_dot_below_package :
    let s : Settings := { definitions := [⟨"Chat", some "Chat_v1", some "Chat.V1.", "chat"⟩] }
    let token := "Chat_v1.Chat.V1.Schema.Message"
    (∀ d ∈ s.definitions, (parse? d.id).isSome) ∧ (parse? token).isSome ∧
      s.registry.LeavesOpen token ∧ s.registry.typeOf token = .ok "Chat.Schema.Message" ∧
      (∀ d ∈ s.definitions, ∀ abbreviated ∈ d.abbreviatedName, EndsAtDot abbreviated) ∧
      (parse? "Chat.Schema.Message").isSome ∧ s.registry.Segmental token "Chat.Schema.Message" := by
  intro s token
  have hid : ∀ d ∈ s.definitions, (parse? d.id).isSome := by decide +kernel
  have htoken : (parse? token).isSome := by decide +kernel
  have hopen : s.registry.LeavesOpen token := ⟨by decide, by decide +kernel⟩
  have htype : s.registry.typeOf token = .ok "Chat.Schema.Message" := by decide +kernel
  have hdot : ∀ d ∈ s.definitions, ∀ abbreviated ∈ d.abbreviatedName, EndsAtDot abbreviated := by
    decide +kernel
  exact ⟨hid, htoken, hopen, htype, hdot, (typeOf_cuts_at_dot hid htoken hopen htype).2 hdot⟩

/-- Settings may leave out the dot, and then a dotted token has a type with an empty segment. -/
theorem Settings.typeOf_cuts_before_dot :
    ∃ s, Settings.ofText? ("[[definitions]]\nid = \"Chat\"\ninner_name = \"Chat_v1\"\n" ++
        "abbreviated_name = \"Chat.V1\"\nurl = \"chat\"\n") = some s ∧
      (∀ d ∈ s.definitions, (parse? d.id).isSome) ∧ (parse? "Chat.V1.Message").isSome ∧
      s.registry.LeavesOpen "Chat.V1.Message" ∧
      s.registry.typeOf "Chat.V1.Message" = .ok ".Message" ∧ parse? ".Message" = none := by
  refine ⟨{ definitions := [⟨"Chat", some "Chat_v1", some "Chat.V1", "chat"⟩] }, by decide +kernel,
    by decide +kernel, by decide +kernel, ⟨by decide, by decide +kernel⟩, by decide +kernel,
    by decide +kernel⟩

end ServiceTypings
