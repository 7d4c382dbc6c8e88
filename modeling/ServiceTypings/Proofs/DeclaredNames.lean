import ServiceTypings.Proofs.References
import ServiceTypings.Proofs.WholeSegments

/-! What the interface of an object is called. The object's own token is read as any other is, so what a
definition cuts off stands before the last segment, and this becomes the local name
(`Definition.Reads.localName_eq`). An irregular token has its type laid down, and the interface is called by
that type; among the tokens of the services known from the start these are the only ones that do not keep
their last segment (`interface_keeps_last_segment_iff`). -/

namespace ServiceTypings

open QualifiedName

namespace QualifiedName

theorem getLast?_segments (name : QualifiedName) : name.segments.getLast? = some name.localName :=
  List.getLast?_eq_some_getLast name.nonempty

theorem localName_eq_of_isSuffix {a b : QualifiedName} {parts : List String} (hne : parts ≠ [])
    (ha : parts <:+ a.segments) (hb : parts <:+ b.segments) : a.localName = b.localName := by
  have hlast : ∀ {name : QualifiedName}, parts <:+ name.segments →
      some name.localName = parts.getLast? := by
    rintro name ⟨before, hbefore⟩
    rw [← getLast?_segments, ← hbefore, List.getLast?_append_of_ne_nil before hne]
  exact Option.some.inj ((hlast ha).trans (hlast hb).symm)

theorem not_endsAtDot_of_parse? {text : String} {name : QualifiedName} (h : parse? text = some name) :
    ¬EndsAtDot text := by
  intro hdot
  have hsuffix : partsOf "" <:+ partsOf (text ++ "") := partsOf_isSuffix_append_iff.2 hdot
  rw [String.append_empty] at hsuffix
  have hempty : "" ∈ partsOf text := hsuffix.subset (by decide)
  exact isSome_parse?_iff.1 (Option.isSome_of_eq_some h) hempty

end QualifiedName

/-- A definition that cuts off a start of a dotted token, up to a dot, leaves its last segment alone. -/
theorem Definition.Reads.localName_eq {d : Definition} {token type : String} {length : Nat}
    (h : d.Reads token length type) (hdot : ∀ start ∈ d.abbreviatedName, EndsAtDot start)
    (hinner : d.innerName ≠ some token) {name typeName : QualifiedName}
    (hname : parse? token = some name) (htype : parse? type = some typeName) :
    typeName.localName = name.localName := by
  have hcut : ∀ {start rest : String}, EndsAtDot start → token = start ++ rest →
      partsOf rest <:+ name.segments := by
    rintro start rest hstart rfl
    rw [segments_of_parse? hname]
    exact partsOf_isSuffix_append_iff.2 hstart
  cases h with
  | inner hi => exact absurd hi hinner
  | @package inner abbreviated _ ha htoken =>
    -- a token that is a package ends at a dot, so it would be no dotted name
    have hends := (endsAtDot_append_dot_append_iff inner abbreviated).2 (hdot _ ha)
    exact absurd (htoken ▸ hends) (not_endsAtDot_of_parse? hname)
  | @belowPackage inner abbreviated rest _ ha htoken _ =>
    have hends := (endsAtDot_append_dot_append_iff inner abbreviated).2 (hdot _ ha)
    refine localName_eq_of_isSuffix (partsOf_ne_nil rest) ?_ (hcut hends htoken)
    rw [segments_of_parse? htype, partsOf_append]
    exact List.suffix_append _ _
  | abbreviated ha htoken _ =>
    refine localName_eq_of_isSuffix (partsOf_ne_nil type) ?_ (hcut (hdot _ ha) htoken)
    exact (segments_of_parse? htype).symm ▸ List.suffix_refl _

namespace Registry

theorem builtin_endsAtDot :
    ∀ d ∈ builtin.definitions, ∀ start ∈ d.abbreviatedName, EndsAtDot start :=
  fun d hd start hstart => Or.inr (builtin_abbreviatedName_getLast? d hd start hstart)

theorem builtin_dot_mem {d : Definition} (hd : d ∈ builtin.definitions) {start : String}
    (hstart : d.packageStart = some start ∨ d.abbreviatedName = some start) (rest : String) :
    '.' ∈ (start ++ rest).toList := by
  rcases hstart with hstart | hstart
  · exact Definition.dot_mem_of_packageStart hstart rest
  · rw [String.toList_append]
    exact List.mem_append_left _ (builtin_separated.abbreviated_dotted d hd start hstart)

/-- What is laid down for an irregular token is one segment, and not the token's last. -/
theorem builtin_irregular_replaces : ∀ entry ∈ builtin.irregular, entry.2 ∈ ["any", "void"] ∧
    (partsOf entry.1).getLast? ≠ some entry.2 := by
  decide +kernel

theorem builtin_replacement_parts : ∀ type ∈ ["any", "void"], partsOf type = [type] := by
  decide +kernel

end Registry

namespace Converter

variable {c : Converter}

theorem localName_of_leavesOpen (hc : c.registry = .builtin) {r : ObjectRecord} {i : Interface}
    (hi : c.interface r = .ok i) {token : QualifiedName} (htoken : parse? r.name = some token)
    (hdotted : '.' ∈ r.name.toList) (hopen : Registry.builtin.LeavesOpen r.name) :
    i.localName = token.localName := by
  obtain ⟨text, relative, htext, hrelative, hname⟩ := name_of_interface_eq_ok hi
  rw [hc] at htext
  obtain ⟨d, hd, length, hreads⟩ := Registry.exists_reads_of_typeOf hopen htext
  have hinner : d.innerName ≠ some r.name := fun h =>
    Registry.builtin_separated.inner_dotless d hd r.name h hdotted
  rw [Interface.localName, hname, localName_join]
  exact hreads.localName_eq (Registry.builtin_endsAtDot d hd) hinner htoken hrelative

theorem name_of_irregular (hc : c.registry = .builtin) {r : ObjectRecord} {i : Interface}
    (hi : c.interface r = .ok i) (hprimitive : TypeToken.primitive? r.name = none) {type : String}
    (hirregular : Registry.builtin.irregular? r.name = some type) :
    type ∈ ["any", "void"] ∧ i.name = c.root.child type ∧
      (partsOf r.name).getLast? ≠ some type := by
  obtain ⟨text, relative, htext, hrelative, hname⟩ := name_of_interface_eq_ok hi
  have htype : Registry.builtin.typeOf r.name = .ok type :=
    Registry.typeOf_eq_ok_iff.2 (Or.inr (Or.inl ⟨hprimitive, hirregular⟩))
  rw [hc, htype] at htext
  obtain rfl := Except.ok.inj htext
  obtain ⟨⟨key, laidDown⟩, hentry, rfl⟩ := Option.map_eq_some_iff.1 hirregular
  obtain rfl : key = r.name := by simpa using List.find?_some hentry
  obtain ⟨hreplacement, hlast⟩ :=
    Registry.builtin_irregular_replaces _ (List.mem_of_find?_eq_some hentry)
  refine ⟨hreplacement, ?_, hlast⟩
  rw [hname]
  apply eq_of_segments_eq
  rw [segments_join, segments_child, segments_of_parse? hrelative,
    Registry.builtin_replacement_parts _ hreplacement]

/-- Of the objects whose token is a dotted name that begins with the package or the abbreviated name of a
service known from the start, those whose token is not irregular, and no others, are declared under the
token's last segment. An irregular one is declared directly below the root, as the type laid down. -/
theorem interface_keeps_last_segment_iff {options : ConversionOptions} {c : Converter}
    (hc : ofOptions .builtin options = .ok c) {d : Definition}
    (hd : d ∈ Registry.builtin.definitions) {start rest : String}
    (hstart : d.packageStart = some start ∨ d.abbreviatedName = some start) {r : ObjectRecord}
    (hr : r.name = start ++ rest) {token : QualifiedName} (htoken : parse? r.name = some token)
    {i : Interface} (hi : c.interface r = .ok i) :
    (i.localName = token.localName ↔ Registry.builtin.irregular? r.name = none) ∧
    ∀ type, Registry.builtin.irregular? r.name = some type →
      type ∈ ["any", "void"] ∧ i.name = c.root.child type := by
  have hregistry : c.registry = .builtin := by
    obtain ⟨root, _, rfl⟩ := ofOptions_eq_ok_iff.1 hc
    rfl
  have hdotted : '.' ∈ r.name.toList := hr ▸ Registry.builtin_dot_mem hd hstart rest
  have hprimitive := TypeToken.primitive?_eq_none_of_dotted hdotted
  refine ⟨⟨fun hkept => ?_, fun hopen => ?_⟩, fun type hirregular => ?_⟩
  · by_contra hirregular
    obtain ⟨type, htype⟩ := Option.ne_none_iff_exists'.1 hirregular
    obtain ⟨_, hname, hlast⟩ := name_of_irregular hregistry hi hprimitive htype
    rw [← segments_of_parse? htoken, getLast?_segments, ← hkept, Interface.localName, hname,
      localName_child] at hlast
    exact hlast rfl
  · exact localName_of_leavesOpen hregistry hi htoken hdotted ⟨hprimitive, hopen⟩
  · obtain ⟨hreplacement, hname, _⟩ := name_of_irregular hregistry hi hprimitive hirregular
    exact ⟨hreplacement, hname⟩

def classroomService : Definition :=
  Registry.service "Classroom" "Classroom_v1" "Classroom.V1." "classroom/v1"

theorem classroomService_mem : classroomService ∈ Registry.builtin.definitions := by
  decide +kernel

def bareRecord (token : String) : ObjectRecord :=
  ⟨token, [], [], none⟩

theorem interface_course : scriptConverter.interface (bareRecord "Classroom.V1.Schema.Course") =
    .ok ⟨scriptConverter.root.join ⟨["Schema", "Course"], by decide⟩, [], [], none⟩ := by
  have htext : Registry.builtin.typeOf "Classroom.V1.Schema.Course" = .ok "Schema.Course" := by
    decide +kernel
  exact interface_of_no_members _ htext (by decide +kernel)

theorem interface_empty : scriptConverter.interface (bareRecord "Classroom.V1.Schema.Empty") =
    .ok ⟨scriptConverter.root.join ⟨["void"], by decide⟩, [], [], none⟩ := by
  have htext : Registry.builtin.typeOf "Classroom.V1.Schema.Empty" = .ok "void" := by decide +kernel
  exact interface_of_no_members _ htext (by decide +kernel)

theorem parse?_emptyToken : parse? "Classroom.V1.Schema.Empty" =
    some ⟨["Classroom", "V1", "Schema", "Empty"], by decide⟩ := by
  decide +kernel

theorem irregular?_emptyToken :
    Registry.builtin.irregular? "Classroom.V1.Schema.Empty" = some "void" := by
  decide +kernel

/-- A class that keeps its name, and one whose token is irregular. -/
theorem interface_keeps_last_segment_of_course :
    (∃ i, scriptConverter.interface (bareRecord "Classroom.V1.Schema.Course") = .ok i ∧
        i.localName = "Course") ∧
      ∃ i, scriptConverter.interface (bareRecord "Classroom.V1.Schema.Empty") = .ok i ∧
        i.localName ≠ "Empty" ∧ i.name = scriptConverter.root.child "void" := by
  have hcourse : (bareRecord "Classroom.V1.Schema.Course").name = "Classroom.V1." ++ "Schema.Course" := by
    decide
  have hempty : (bareRecord "Classroom.V1.Schema.Empty").name = "Classroom.V1." ++ "Schema.Empty" := by
    decide
  have hparse : parse? (bareRecord "Classroom.V1.Schema.Course").name =
      some ⟨["Classroom", "V1", "Schema", "Course"], by decide⟩ := by decide +kernel
  obtain ⟨hkept, _⟩ := interface_keeps_last_segment_iff build_archiveFile.1 classroomService_mem
    (Or.inr rfl) hcourse hparse interface_course
  obtain ⟨hreplaced, hplace⟩ := interface_keeps_last_segment_iff build_archiveFile.1
    classroomService_mem (Or.inr rfl) hempty parse?_emptyToken interface_empty
  refine ⟨⟨_, interface_course, hkept.2 (by decide +kernel)⟩, _, interface_empty, fun h => ?_, ?_⟩
  · exact Option.some_ne_none _ (irregular?_emptyToken.symm.trans (hreplaced.1 h))
  · exact (hplace "void" irregular?_emptyToken).2

/-- A class of a service known from the start that is declared as `void`. -/
theorem interface_called_void :
    ofOptions .builtin {} = .ok scriptConverter ∧
      classroomService ∈ Registry.builtin.definitions ∧
      classroomService.abbreviatedName = some "Classroom.V1." ∧
      "Classroom.V1.Schema.Empty" = "Classroom.V1." ++ "Schema.Empty" ∧
      (parse? "Classroom.V1.Schema.Empty").map QualifiedName.localName = some "Empty" ∧
      ∃ i, scriptConverter.interface (bareRecord "Classroom.V1.Schema.Empty") = .ok i ∧
        i.localName = "void" :=
  ⟨build_archiveFile.1, classroomService_mem, rfl, by decide, by decide +kernel, _, interface_empty, rfl⟩

end Converter
end ServiceTypings
