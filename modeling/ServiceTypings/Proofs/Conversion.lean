import ServiceTypings.Conversion
import ServiceTypings.Proofs.Success

/-! A conversion that succeeds, taken apart: each step has its result, and the parts of the result are
those of the records, one for one and in their order. -/

namespace ServiceTypings

namespace Converter

theorem ofOptions_eq_ok_iff {registry : Registry} {options : ConversionOptions} {c : Converter} :
    ofOptions registry options = .ok c ↔ ∃ root,
      QualifiedName.parse? options.rootNamespace = some root ∧
        c = ⟨registry, root, options.commentWidth⟩ := by
  unfold ofOptions
  cases QualifiedName.parse? options.rootNamespace with
  | none => simp
  | some root => simp [eq_comm]

variable {c : Converter}

theorem relativeName_eq_ok_iff {token : String} {name : QualifiedName} :
    c.relativeName token = .ok name ↔ ∃ text, c.registry.typeOf token = .ok text ∧
      QualifiedName.parse? text = some name := by
  rw [relativeName, bind_eq_ok_iff]
  refine exists_congr fun text => and_congr_right fun _ => ?_
  cases QualifiedName.parse? text with
  | none => simp
  | some _ => simp

theorem field_eq_ok_iff {r : FieldRecord} {f : Field} :
    c.field r = .ok f ↔ ∃ type, c.registry.typeOf r.typeToken = .ok type ∧
      f = ⟨Identifier.propertyKey r.name, type, r.comment⟩ := by
  simp only [field, bind_eq_ok_iff, pure_eq_ok_iff]

theorem parameter_eq_ok_iff {r : FieldRecord} {f : Field} :
    c.parameter r = .ok f ↔ ∃ type, c.registry.typeOf r.typeToken = .ok type ∧
      f = ⟨Identifier.parameterName r.name, type, r.comment⟩ := by
  simp only [parameter, bind_eq_ok_iff, pure_eq_ok_iff]

theorem method_eq_ok_iff {r : MethodRecord} {m : Method} :
    c.method r = .ok m ↔ ∃ params type,
      List.Forall₂ (fun record f => c.parameter record = .ok f) r.args params ∧
      c.registry.typeOf r.returnToken = .ok type ∧
      m = ⟨Identifier.propertyKey r.name, type, params, r.comment⟩ := by
  simp only [method, bind_eq_ok_iff, mapM_eq_ok_iff, pure_eq_ok_iff, exists_and_left]

theorem interface_eq_ok_iff {r : ObjectRecord} {i : Interface} :
    c.interface r = .ok i ↔ ∃ relative fields methods, c.relativeName r.name = .ok relative ∧
      List.Forall₂ (fun record f => c.field record = .ok f) r.fields fields ∧
      List.Forall₂ (fun record m => c.method record = .ok m) r.methods methods ∧
      i = ⟨c.root.join relative, fields, methods, r.comment⟩ := by
  simp only [interface, bind_eq_ok_iff, mapM_eq_ok_iff, pure_eq_ok_iff]
  constructor
  · rintro ⟨relative, hrelative, fields, hfields, methods, hmethods, hi⟩
    exact ⟨relative, fields, methods, hrelative, hfields, hmethods, hi⟩
  · rintro ⟨relative, fields, methods, hrelative, hfields, hmethods, hi⟩
    exact ⟨relative, hrelative, fields, hfields, methods, hmethods, hi⟩

/-- A record without members converts as soon as its token means a name. -/
theorem interface_of_no_members (token : String) {text : String} {relative : QualifiedName}
    (htext : c.registry.typeOf token = .ok text)
    (hparse : QualifiedName.parse? text = some relative) :
    c.interface ⟨token, [], [], none⟩ = .ok ⟨c.root.join relative, [], [], none⟩ :=
  interface_eq_ok_iff.2
    ⟨relative, [], [], relativeName_eq_ok_iff.2 ⟨text, htext, hparse⟩, .nil, .nil, rfl⟩

/-- An interface is named by what its record's token means, below the root. -/
theorem name_of_interface_eq_ok {r : ObjectRecord} {i : Interface} (h : c.interface r = .ok i) :
    ∃ text relative, c.registry.typeOf r.name = .ok text ∧
      QualifiedName.parse? text = some relative ∧ i.name = c.root.join relative := by
  obtain ⟨relative, fields, methods, hrelative, _, _, rfl⟩ := interface_eq_ok_iff.1 h
  obtain ⟨text, htext, hparse⟩ := relativeName_eq_ok_iff.1 hrelative
  exact ⟨text, relative, htext, hparse, rfl⟩

theorem build_eq_ok_iff {file : DefinitionFile} {d : Declarations} :
    c.build file = .ok d ↔ ∃ main classes,
      List.Forall₂ (fun record i => c.interface record = .ok i) (file.main :: file.classes)
        (main :: classes) ∧
      d = ⟨(Namespace.empty c.root).insertAll (main :: classes), main.name⟩ := by
  simp only [build, bind_eq_ok_iff, mapM_eq_ok_iff, pure_eq_ok_iff, List.forall₂_cons]
  constructor
  · rintro ⟨main, hmain, classes, hclasses, hd⟩
    exact ⟨main, classes, ⟨hmain, hclasses⟩, hd⟩
  · rintro ⟨main, classes, ⟨hmain, hclasses⟩, hd⟩
    exact ⟨main, hmain, classes, hclasses, hd⟩

theorem convert_eq_ok_iff {source content : String} :
    c.convert source = .ok content ↔ ∃ file d, DefinitionFile.ofText? source = some file ∧
      c.build file = .ok d ∧ content = d.print c.commentWidth := by
  unfold convert
  cases DefinitionFile.ofText? source with
  | none => simp
  | some file =>
    cases hbuild : c.build file with
    | error e => simp [Except.map, hbuild]
    | ok d => simp [Except.map, hbuild, eq_comm]

end Converter
end ServiceTypings
