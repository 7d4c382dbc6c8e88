import ServiceTypings.Proofs.FirstFault
import ServiceTypings.Proofs.PackageTokens
import ServiceTypings.Proofs.Split

/-! When all tokens are read in one way only. Two longest matches of a token know the same start of it; so
they agree where no name by which a whole token or a package is known belongs to two definitions
(`typeOf_ne_ambiguous`). The services known from the start are so named, and what they make of a dotted
name is a dotted name again (`parts_nonempty_of_builtin_typeOf`). -/

namespace ServiceTypings

open TypeToken

theorem eq_of_append_eq_append {a b restA restB : String} (h : a ++ restA = b ++ restB)
    (hlength : a.length = b.length) : a = b := by
  have hlist : a.toList ++ restA.toList = b.toList ++ restB.toList := by
    rw [← String.toList_append, ← String.toList_append, h]
  rw [← String.length_toList, ← String.length_toList] at hlength
  exact String.toList_inj.1 (List.append_inj_left hlist hlength)

theorem eq_of_append_eq_append_of_size {a b restA restB : String} (h : a ++ restA = b ++ restB)
    (hsize : a.utf8ByteSize = b.utf8ByteSize) : a = b := by
  have hab := (length_le_iff_utf8ByteSize_le h).2 (Nat.le_of_eq hsize)
  have hba := (length_le_iff_utf8ByteSize_le h.symm).2 (Nat.le_of_eq hsize.symm)
  exact eq_of_append_eq_append h (Nat.le_antisymm hab hba)

theorem Keyed.nodup_map_put {α κ : Type} [DecidableEq κ] (key : α → κ) (x : α) {entries : List α}
    (h : (entries.map key).Nodup) : ((put key x entries).map key).Nodup := by
  rw [put, map_alter key (key x) (fun _ => x) entries rfl]
  split
  next => exact h
  next hnew =>
    refine List.nodup_append.2 ⟨h, List.nodup_singleton _, ?_⟩
    rintro k hk k' hk' rfl
    rw [List.mem_singleton.1 hk'] at hk
    exact hnew hk

namespace Definition

variable {d : Definition} {start : String}

theorem innerName_ne_packageStart (h : d.packageStart = some start) : d.innerName ≠ some start := by
  obtain ⟨inner, abbreviated, hi, _, rfl⟩ := packageStart_eq_some_iff.1 h
  intro hself
  have hlength := congrArg String.length (Option.some.inj (hi.symm.trans hself))
  have hdot : ".".length = 1 := rfl
  rw [String.length_append, String.length_append, hdot] at hlength
  omega

theorem abbreviatedName_ne_packageStart (h : d.packageStart = some start) :
    d.abbreviatedName ≠ some start := by
  obtain ⟨inner, abbreviated, _, ha, rfl⟩ := packageStart_eq_some_iff.1 h
  intro hself
  have hlength := congrArg String.length (Option.some.inj (ha.symm.trans hself))
  have hdot : ".".length = 1 := rfl
  rw [String.length_append, String.length_append, hdot] at hlength
  omega

/-- What a definition makes of a dotted name is one, if its id is one and its abbreviated name ends at a
dot. -/
theorem Reads.parts_nonempty {token type : String} {length : Nat} (h : d.Reads token length type)
    (hid : "" ∉ QualifiedName.partsOf d.id)
    (hdot : ∀ start ∈ d.abbreviatedName, start.toList.getLast? = some '.')
    (htoken : "" ∉ QualifiedName.partsOf token) : "" ∉ QualifiedName.partsOf type := by
  have hstem : ∀ start ∈ d.abbreviatedName, ∃ stem, start = stem ++ "." := by
    intro start hstart
    obtain ⟨stem, hstem⟩ := List.getLast?_eq_some_iff.1 (hdot start hstart)
    refine ⟨String.ofList stem, ?_⟩
    rw [← String.toList_inj, hstem, String.toList_append, String.toList_ofList]
    rfl
  cases h with
  | inner _ => exact hid
  | package _ _ _ => exact hid
  | belowPackage _ ha htext _ =>
    obtain ⟨stem, rfl⟩ := hstem _ ha
    rw [htext, ← String.append_assoc, QualifiedName.parts_nonempty_append_dot_iff] at htoken
    exact QualifiedName.parts_nonempty_append_dot_iff.2 ⟨hid, htoken.2⟩
  | abbreviated ha htext _ =>
    obtain ⟨stem, rfl⟩ := hstem _ ha
    rw [htext, QualifiedName.parts_nonempty_append_dot_iff] at htoken
    exact htoken.2

end Definition

/-- Looking for the type of a token, one never finds fault with a name. -/
theorem Registry.typeOf_ne_invalidName (r : Registry) (token name : String) :
    r.typeOf token ≠ .error (.invalidName name) := by
  intro h
  rcases r.typeOf_cases token with ⟨_, hok⟩ | hunresolved | ⟨_, _, hambiguous⟩
  · simp [hok] at h
  · simp [hunresolved] at h
  · simp [hambiguous] at h

namespace Converter

variable {c : Converter}

theorem eq_of_name_mem_demands {r : ObjectRecord} {token : String} (h : .name token ∈ r.demands) :
    token = r.name := by
  simpa [ObjectRecord.demands, MethodRecord.demands, FieldRecord.demands] using h

theorem exists_name_of_fault? {d : Demand} {name : String}
    (h : c.fault? d = some (.invalidName name)) :
    ∃ token, d = .name token ∧ c.registry.typeOf token = .ok name ∧
      QualifiedName.parse? name = none := by
  cases d with
  | type token => exact absurd (error?_eq_some_iff.1 h) (c.registry.typeOf_ne_invalidName token name)
  | name token =>
    rw [fault?] at h
    cases htype : c.registry.typeOf token with
    | error e =>
      rw [htype] at h
      obtain rfl := Option.some.inj h
      exact absurd htype (c.registry.typeOf_ne_invalidName token name)
    | ok text =>
      rw [htype, Option.ite_none_left_eq_some] at h
      obtain ⟨hparse, hname⟩ := h
      obtain rfl := ConversionError.invalidName.inj (Option.some.inj hname)
      exact ⟨token, rfl, htype, Option.not_isSome_iff_eq_none.1 hparse⟩

/-- Only what an object's own token means can be refused as a name. -/
theorem exists_name_of_build_eq_invalidName {file : DefinitionFile} {name : String}
    (h : c.build file = .error (.invalidName name)) :
    ∃ r ∈ file.main :: file.classes, c.registry.typeOf r.name = .ok name ∧
      QualifiedName.parse? name = none := by
  rw [← error?_eq_some_iff, error?_build] at h
  obtain ⟨demand, hdemand, hfault⟩ := List.exists_of_findSome?_eq_some h
  obtain ⟨r, hr, hdemand⟩ := List.mem_flatMap.1 hdemand
  obtain ⟨token, rfl, htype, hparse⟩ := exists_name_of_fault? hfault
  rw [eq_of_name_mem_demands hdemand] at htype
  exact ⟨r, hr, htype, hparse⟩

end Converter

namespace Registry

theorem nodup_ids_addDefinitions {r : Registry} (h : (r.definitions.map Definition.id).Nodup)
    (ds : List Definition) : ((r.addDefinitions ds).definitions.map Definition.id).Nodup := by
  induction ds generalizing r with
  | nil => exact h
  | cons d ds ih => exact ih (Keyed.nodup_map_put Definition.id d h)

theorem definitions_extendIrregular (r : Registry) (entries : List (String × String)) :
    (r.extendIrregular entries).definitions = r.definitions := by
  induction entries generalizing r with
  | nil => rfl
  | cons entry entries ih => exact ih (r.addIrregular entry)

/-- An inner name and a package belong to one definition each, and no package is also the inner or the
abbreviated name of another definition. Abbreviated names may be shared. -/
structure DistinctNames (r : Registry) : Prop where
  inner : ∀ d ∈ r.definitions, ∀ e ∈ r.definitions, ∀ name ∈ d.innerName,
    e.innerName = some name → e = d
  package : ∀ d ∈ r.definitions, ∀ e ∈ r.definitions, ∀ start ∈ d.packageStart,
    e.packageStart = some start → e = d
  inner_apart : ∀ d ∈ r.definitions, ∀ e ∈ r.definitions, ∀ start ∈ d.packageStart,
    e.innerName = some start → e = d
  abbreviated_apart : ∀ d ∈ r.definitions, ∀ e ∈ r.definitions, ∀ start ∈ d.packageStart,
    e.abbreviatedName = some start → e = d

namespace DistinctNames

variable {r : Registry} {d e : Definition} {token : String} {m o : Match}

theorem type_eq_of_matchInner (h : r.DistinctNames) (hd : d ∈ r.definitions) (he : e ∈ r.definitions)
    (hm : d.matchInner token = some m) (ho : o ∈ e.matchesOf token) (hstart : m.start = o.start) :
    m.type = o.type := by
  obtain ⟨hi, rfl⟩ := Definition.matchInner_eq_some_iff.1 hm
  rcases Definition.mem_matchesOf_iff.1 ho with ho | ho | ho
  · obtain ⟨hi', rfl⟩ := Definition.matchInner_eq_some_iff.1 ho
    rw [h.inner d hd e he token hi hi']
  · obtain ⟨start, rest, hs, _, rfl⟩ := Definition.matchPackage_eq_some_iff.1 ho
    obtain rfl : token = start := hstart
    obtain rfl := h.inner_apart e he d hd token hs hi
    exact absurd hi (Definition.innerName_ne_packageStart hs)
  · obtain ⟨start, rest, _, htoken, hrest, rfl⟩ := Definition.matchAbbreviated_eq_some_iff.1 ho
    obtain rfl : token = start := hstart
    have hempty : token ++ rest = token ++ "" := htoken.symm.trans String.append_empty.symm
    rw [String.append_right_inj] at hempty
    exact absurd hempty hrest

/-- Of matches that know a package at the start of a token, none takes another view of the rest. -/
theorem type_eq_of_matchPackage (h : r.DistinctNames) (hd : d ∈ r.definitions)
    (he : e ∈ r.definitions) (hm : d.matchPackage token = some m)
    (ho : e.matchPackage token = some o ∨ e.matchAbbreviated token = some o)
    (hstart : m.start = o.start) : m.type = o.type := by
  obtain ⟨start, rest, hs, htoken, rfl⟩ := Definition.matchPackage_eq_some_iff.1 hm
  rcases ho with ho | ho
  · obtain ⟨start', rest', hs', htoken', rfl⟩ := Definition.matchPackage_eq_some_iff.1 ho
    obtain rfl : start = start' := hstart
    obtain rfl := h.package d hd e he start hs hs'
    rw [htoken, String.append_right_inj] at htoken'
    rw [htoken']
  · obtain ⟨start', rest', ha, _, _, rfl⟩ := Definition.matchAbbreviated_eq_some_iff.1 ho
    obtain rfl : start = start' := hstart
    obtain rfl := h.abbreviated_apart d hd e he start hs ha
    exact absurd ha (Definition.abbreviatedName_ne_packageStart hs)

theorem type_eq_of_start_eq (h : r.DistinctNames) (hd : d ∈ r.definitions) (he : e ∈ r.definitions)
    (hm : m ∈ d.matchesOf token) (ho : o ∈ e.matchesOf token) (hstart : m.start = o.start) :
    m.type = o.type := by
  rcases Definition.mem_matchesOf_iff.1 hm with hm' | hm'
  · exact h.type_eq_of_matchInner hd he hm' ho hstart
  rcases Definition.mem_matchesOf_iff.1 ho with ho' | ho'
  · exact (h.type_eq_of_matchInner he hd ho' hm hstart.symm).symm
  rcases hm' with hm' | hm'
  · exact h.type_eq_of_matchPackage hd he hm' ho' hstart
  rcases ho' with ho' | ho'
  · exact (h.type_eq_of_matchPackage he hd ho' (Or.inr hm') hstart.symm).symm
  -- two abbreviated names that are one leave the same rest, whosever they are
  obtain ⟨start, rest, _, htoken, _, rfl⟩ := Definition.matchAbbreviated_eq_some_iff.1 hm'
  obtain ⟨start', rest', _, htoken', _, rfl⟩ := Definition.matchAbbreviated_eq_some_iff.1 ho'
  obtain rfl : start = start' := hstart
  rw [htoken, String.append_right_inj] at htoken'
  exact htoken'

theorem eq_of_readsLongest (h : r.DistinctNames) {first second : String}
    (hfirst : r.ReadsLongest token first) (hsecond : r.ReadsLongest token second) :
    first = second := by
  obtain ⟨m, hm, rfl⟩ := readsLongest_iff_exists_longest.1 hfirst
  obtain ⟨o, ho, rfl⟩ := readsLongest_iff_exists_longest.1 hsecond
  rw [mem_longest_iff] at hm ho
  have hlength : m.length = o.length := Nat.le_antisymm (ho.2 m hm.1) (hm.2 o ho.1)
  obtain ⟨d, hd, hmd⟩ := List.mem_flatMap.1 hm.1
  obtain ⟨e, he, hoe⟩ := List.mem_flatMap.1 ho.1
  obtain ⟨restM, hrestM⟩ := d.exists_eq_start_append hmd
  obtain ⟨restO, hrestO⟩ := e.exists_eq_start_append hoe
  exact h.type_eq_of_start_eq hd he hmd hoe
    (eq_of_append_eq_append (hrestM.symm.trans hrestO) hlength)

theorem typeOf_ne_ambiguous (h : r.DistinctNames) (token other first second : String) :
    r.typeOf token ≠ .error (.ambiguousType other first second) := by
  intro hambiguous
  rcases r.typeOf_cases token with ⟨_, hok⟩ | hnone | ⟨a, b, hab⟩
  · simp [hok] at hambiguous
  · simp [hnone] at hambiguous
  · obtain ⟨_, a, b, ha, hb, hne⟩ := typeOf_eq_ambiguous_iff.1 ⟨a, b, hab⟩
    exact hne (h.eq_of_readsLongest ha hb)

theorem extendIrregular (h : r.DistinctNames) (entries : List (String × String)) :
    (r.extendIrregular entries).DistinctNames := by
  refine ⟨?_, ?_, ?_, ?_⟩ <;> rw [definitions_extendIrregular]
  · exact h.inner
  · exact h.package
  · exact h.inner_apart
  · exact h.abbreviated_apart

end DistinctNames

theorem Separated.distinctNames {r : Registry} (h : r.Separated) : r.DistinctNames := by
  have hfirst : ∀ d ∈ r.definitions, ∀ start ∈ d.packageStart, ∃ inner ∈ d.innerName,
      firstPart start = inner.toList := by
    intro d hd start hstart
    obtain ⟨inner, abbreviated, hi, _, rfl⟩ := Definition.packageStart_eq_some_iff.1 hstart
    exact ⟨inner, hi, firstPart_append_dot (h.inner_dotless d hd inner hi) abbreviated⟩
  refine ⟨fun d hd e he name hi hi' => h.inner_unique d hd name hi e he hi',
    fun d hd e he start hs hs' => ?_, fun d hd e he start hs hi => ?_, fun d hd e he start hs ha => ?_⟩
  · obtain ⟨inner, hi, hinner⟩ := hfirst d hd start hs
    obtain ⟨inner', hi', hinner'⟩ := hfirst e he start hs'
    obtain rfl := String.toList_inj.1 (hinner.symm.trans hinner')
    exact h.inner_unique d hd inner hi e he hi'
  · have hdot := Definition.dot_mem_of_packageStart hs ""
    rw [String.append_empty] at hdot
    exact absurd hdot (h.inner_dotless e he start hi)
  · obtain ⟨inner, hi, hinner⟩ := hfirst d hd start hs
    exact absurd hinner.symm (h.inner_apart d hd inner hi e he start ha)

theorem parts_nonempty_of_primitive? {token type : String} (h : primitive? token = some type) :
    "" ∉ QualifiedName.partsOf type := by
  unfold primitive? at h
  split at h <;> cases h <;> decide +kernel

theorem builtin_id_parts_nonempty :
    ∀ d ∈ builtin.definitions, "" ∉ QualifiedName.partsOf d.id := by
  decide +kernel

theorem builtin_abbreviatedName_getLast? :
    ∀ d ∈ builtin.definitions, ∀ start ∈ d.abbreviatedName, start.toList.getLast? = some '.' := by
  decide +kernel

theorem builtin_irregular_parts_nonempty :
    ∀ entry ∈ builtin.irregular, "" ∉ QualifiedName.partsOf entry.2 := by
  decide +kernel

/-- The services known from the start make a dotted name of every dotted name that has a type. -/
theorem parts_nonempty_of_builtin_typeOf {token text : String}
    (htoken : "" ∉ QualifiedName.partsOf token) (h : builtin.typeOf token = .ok text) :
    "" ∉ QualifiedName.partsOf text := by
  rcases typeOf_eq_ok_iff.1 h with hprimitive | ⟨_, hirregular⟩ | ⟨_, ⟨length, ⟨d, hd, hreads⟩, _⟩, _⟩
  · exact parts_nonempty_of_primitive? hprimitive
  · obtain ⟨entry, hentry, rfl⟩ := Option.map_eq_some_iff.1 hirregular
    exact builtin_irregular_parts_nonempty entry (List.mem_of_find?_eq_some hentry)
  · exact hreads.parts_nonempty (builtin_id_parts_nonempty d hd)
      (builtin_abbreviatedName_getLast? d hd) htoken

/-- Where names are distinct no token is ambiguous, and shared abbreviated names do no harm. The services
known from the start have distinct names, whatever irregular types are added; of a dotted name they make
a dotted name, so that a build can only refuse the name of an object whose own token has an empty part. -/
theorem typeOf_unambiguous_of_distinctNames :
    (∀ r : Registry, r.DistinctNames → ∀ token other first second,
      r.typeOf token ≠ .error (.ambiguousType other first second)) ∧
    (∀ definitions entries, (((empty.addDefinitions definitions).extendIrregular
      entries).definitions.map Definition.id).Nodup) ∧
    (∀ entries, (builtin.extendIrregular entries).DistinctNames ∧
      ((builtin.extendIrregular entries).definitions.map Definition.id).Nodup) ∧
    (∀ token text, (QualifiedName.parse? token).isSome → builtin.typeOf token = .ok text →
      (QualifiedName.parse? text).isSome) ∧
    ∀ (c : Converter) file name, c.registry = builtin → c.build file = .error (.invalidName name) →
      ∃ r ∈ file.main :: file.classes, builtin.typeOf r.name = .ok name ∧
        "" ∈ QualifiedName.partsOf r.name := by
  refine ⟨fun r h => h.typeOf_ne_ambiguous, fun definitions entries => ?_, fun entries => ?_, ?_, ?_⟩
  · rw [definitions_extendIrregular]
    exact nodup_ids_addDefinitions (r := empty) List.nodup_nil definitions
  · rw [definitions_extendIrregular]
    exact ⟨builtin_separated.distinctNames.extendIrregular entries, builtin_ids_nodup⟩
  · intro token text htoken h
    rw [QualifiedName.isSome_parse?_iff] at htoken ⊢
    exact parts_nonempty_of_builtin_typeOf htoken h
  · intro c file name hregistry h
    obtain ⟨r, hr, htype, hparse⟩ := Converter.exists_name_of_build_eq_invalidName h
    rw [hregistry] at htype
    refine ⟨r, hr, htype, ?_⟩
    by_contra hparts
    have hname := QualifiedName.isSome_parse?_iff.2 (parts_nonempty_of_builtin_typeOf hparts htype)
    rw [hparse] at hname
    exact absurd hname (by decide)

/-- Two services with one abbreviated name; and an object whose token has two dots in a row. -/
theorem typeOf_unambiguous_of_shared_abbreviation :
    let r : Registry := ⟨[⟨"One", some "One_v1", some "Shared.V1.", ""⟩,
      ⟨"Two", some "Two_v1", some "Shared.V1.", ""⟩], []⟩
    let c : Converter := ⟨builtin, ⟨["Root"], by decide⟩, 80⟩
    r.DistinctNames ∧ r.typeOf "Shared.V1.Item" = .ok "Item" ∧
      (∀ other first second, r.typeOf "Shared.V1.Item" ≠ .error (.ambiguousType other first second)) ∧
      builtin.typeOf "Admin.Reports_v1.Schema.Activity" = .ok "Schema.Activity" ∧
      (QualifiedName.parse? "Schema.Activity").isSome ∧
      c.build ⟨⟨"Tasks_v1.Tasks.V1..Task", [], [], none⟩, []⟩ = .error (.invalidName "Tasks..Task") ∧
      "" ∈ QualifiedName.partsOf "Tasks_v1.Tasks.V1..Task" := by
  intro r c
  obtain ⟨hunambiguous, _, _, hdotted, hrefused⟩ := typeOf_unambiguous_of_distinctNames
  have hr : r.DistinctNames :=
    ⟨by decide +kernel, by decide +kernel, by decide +kernel, by decide +kernel⟩
  have hactivity : builtin.typeOf "Admin.Reports_v1.Schema.Activity" = .ok "Schema.Activity" := by
    decide +kernel
  have hbuild : c.build ⟨⟨"Tasks_v1.Tasks.V1..Task", [], [], none⟩, []⟩ =
      .error (.invalidName "Tasks..Task") := by
    rw [← error?_eq_some_iff, Converter.error?_build]
    decide +kernel
  obtain ⟨record, hrecord, _, hparts⟩ := hrefused c _ _ rfl hbuild
  obtain rfl := List.mem_singleton.1 hrecord
  exact ⟨hr, by decide +kernel, hunambiguous r hr _, hactivity,
    hdotted _ _ (by decide +kernel) hactivity, hbuild, hparts⟩

end Registry
end ServiceTypings
