import ServiceTypings.Proofs.MemberNames
import ServiceTypings.Proofs.Placement

/-! Which error a conversion ends with. A definition file makes demands on the registry, in a fixed order:
the main object before the classes, the name of an object before its fields and these before its methods,
the arguments of a method before what it returns. A build fails exactly if a demand is not met, and with
the error of the first of them (`error?_build`); if all are met, each interface says what its record says,
with the members' names as they are written in a declaration (`Declares`). -/

namespace ServiceTypings

/-- What a record asks of its tokens. -/
inductive Demand where
  /-- The token has a type. -/
  | type (token : String)
  /-- The token has a type, and this is a qualified name. -/
  | name (token : String)
  deriving DecidableEq, Repr

def FieldRecord.demands (r : FieldRecord) : List Demand :=
  [.type r.typeToken]

def MethodRecord.demands (r : MethodRecord) : List Demand :=
  r.args.flatMap FieldRecord.demands ++ [.type r.returnToken]

def ObjectRecord.demands (r : ObjectRecord) : List Demand :=
  [.name r.name] ++ r.fields.flatMap FieldRecord.demands ++ r.methods.flatMap MethodRecord.demands

def DefinitionFile.demands (file : DefinitionFile) : List Demand :=
  (file.main :: file.classes).flatMap ObjectRecord.demands

namespace Converter

def Meets (c : Converter) : Demand → Prop
  | .type token => ∃ type, c.registry.typeOf token = .ok type
  | .name token => ∃ text, c.registry.typeOf token = .ok text ∧ (QualifiedName.parse? text).isSome

/-- Why a demand is not met. -/
def fault? (c : Converter) : Demand → Option ConversionError
  | .type token => error? (c.registry.typeOf token)
  | .name token =>
    match c.registry.typeOf token with
    | .error e => some e
    | .ok text =>
      if (QualifiedName.parse? text).isSome then none else some (ConversionError.invalidName text)

variable {c : Converter}

theorem fault?_eq_none_iff {d : Demand} : c.fault? d = none ↔ c.Meets d := by
  cases d with
  | type token => exact error?_eq_none_iff
  | name token =>
    rw [fault?, Meets]
    cases c.registry.typeOf token with
    | error e => simp
    | ok text => simp [Option.isSome_iff_ne_none]

theorem error?_relativeName (token : String) :
    error? (c.relativeName token) = c.fault? (.name token) := by
  rw [relativeName, fault?]
  cases c.registry.typeOf token with
  | error e => rfl
  | ok text =>
    simp only [bind, Except.bind]
    cases QualifiedName.parse? text with
    | none => rfl
    | some name => rfl

theorem error?_field (r : FieldRecord) : error? (c.field r) = r.demands.findSome? c.fault? := by
  rw [FieldRecord.demands, List.findSome?_singleton]
  exact error?_bind_pure _ _

theorem error?_parameter (r : FieldRecord) :
    error? (c.parameter r) = r.demands.findSome? c.fault? := by
  rw [FieldRecord.demands, List.findSome?_singleton]
  exact error?_bind_pure _ _

theorem error?_method (r : MethodRecord) : error? (c.method r) = r.demands.findSome? c.fault? := by
  rw [MethodRecord.demands, List.findSome?_append, List.findSome?_singleton,
    ← error?_mapM error?_parameter]
  exact error?_bind fun params _ => error?_bind_pure _ _

theorem error?_interface (r : ObjectRecord) :
    error? (c.interface r) = r.demands.findSome? c.fault? := by
  rw [ObjectRecord.demands, List.append_assoc, List.findSome?_append, List.findSome?_append,
    List.findSome?_singleton, ← error?_relativeName, ← error?_mapM error?_field,
    ← error?_mapM error?_method]
  exact error?_bind fun relative _ => error?_bind fun fields _ => error?_bind_pure _ _

/-- A build fails with the fault of the first demand that is not met. -/
theorem error?_build (file : DefinitionFile) :
    error? (c.build file) = file.demands.findSome? c.fault? := by
  rw [DefinitionFile.demands, List.flatMap_cons, List.findSome?_append, ← error?_interface,
    ← error?_mapM error?_interface]
  exact error?_bind fun main _ => error?_bind_pure _ _

/-- The field says what its record says, with its name as it is written in that place. -/
structure DeclaresField (c : Converter) (Written : String → String → Prop) (r : FieldRecord)
    (f : Field) : Prop where
  name : Written r.name f.name
  type : c.registry.typeOf r.typeToken = .ok f.type
  comment : f.comment = r.comment

structure DeclaresMethod (c : Converter) (r : MethodRecord) (m : Method) : Prop where
  name : Identifier.WrittenAsKey r.name m.name
  params : List.Forall₂ (c.DeclaresField Identifier.WrittenAsParameter) r.args m.params
  returnType : c.registry.typeOf r.returnToken = .ok m.returnType
  comment : m.comment = r.comment

/-- The interface says what its record says, below the root and member by member. -/
structure Declares (c : Converter) (r : ObjectRecord) (i : Interface) : Prop where
  name : ∃ text relative, c.registry.typeOf r.name = .ok text ∧
    QualifiedName.parse? text = some relative ∧ i.name = c.root.join relative
  fields : List.Forall₂ (c.DeclaresField Identifier.WrittenAsKey) r.fields i.fields
  methods : List.Forall₂ c.DeclaresMethod r.methods i.methods
  comment : i.comment = r.comment

theorem declaresField_of_field_eq_ok {r : FieldRecord} {f : Field} (h : c.field r = .ok f) :
    c.DeclaresField Identifier.WrittenAsKey r f := by
  obtain ⟨type, htype, rfl⟩ := field_eq_ok_iff.1 h
  exact ⟨(Identifier.writtenAsKey_iff _ _).2 rfl, htype, rfl⟩

theorem declaresField_of_parameter_eq_ok {r : FieldRecord} {f : Field} (h : c.parameter r = .ok f) :
    c.DeclaresField Identifier.WrittenAsParameter r f := by
  obtain ⟨type, htype, rfl⟩ := parameter_eq_ok_iff.1 h
  exact ⟨(Identifier.writtenAsParameter_iff _ _).2 rfl, htype, rfl⟩

theorem declaresMethod_of_method_eq_ok {r : MethodRecord} {m : Method} (h : c.method r = .ok m) :
    c.DeclaresMethod r m := by
  obtain ⟨params, type, hparams, htype, rfl⟩ := method_eq_ok_iff.1 h
  exact ⟨(Identifier.writtenAsKey_iff _ _).2 rfl, hparams.imp fun _ _ => declaresField_of_parameter_eq_ok,
    htype, rfl⟩

theorem declares_of_interface_eq_ok {r : ObjectRecord} {i : Interface} (h : c.interface r = .ok i) :
    c.Declares r i := by
  have hname := name_of_interface_eq_ok h
  obtain ⟨relative, fields, methods, _, hfields, hmethods, rfl⟩ := interface_eq_ok_iff.1 h
  exact ⟨hname, hfields.imp fun _ _ => declaresField_of_field_eq_ok,
    hmethods.imp fun _ _ => declaresMethod_of_method_eq_ok, rfl⟩

theorem map_name_of_declaresField {Written : String → String → Prop} {spell : String → String}
    (hspell : ∀ name text, Written name text ↔ text = spell name) {records : List FieldRecord}
    {fields : List Field} (h : List.Forall₂ (c.DeclaresField Written) records fields) :
    fields.map Field.name = (records.map FieldRecord.name).map spell := by
  induction h with
  | nil => rfl
  | cons hfield _ ih => simp only [List.map_cons, (hspell _ _).1 hfield.name, ih]

theorem convert_eq_ok_iff_meets {source : String} :
    (∃ text, c.convert source = .ok text) ↔
      ∃ file, DefinitionFile.ofText? source = some file ∧ ∀ d ∈ file.demands, c.Meets d := by
  have hbuild : ∀ file, (∃ d, c.build file = .ok d) ↔ ∀ d ∈ file.demands, c.Meets d := by
    intro file
    rw [← error?_eq_none_iff, error?_build, List.findSome?_eq_none_iff]
    exact forall₂_congr fun d _ => fault?_eq_none_iff
  constructor
  · rintro ⟨text, h⟩
    obtain ⟨file, d, hfile, hd, _⟩ := convert_eq_ok_iff.1 h
    exact ⟨file, hfile, (hbuild file).1 ⟨d, hd⟩⟩
  · rintro ⟨file, hfile, hmeets⟩
    obtain ⟨d, hd⟩ := (hbuild file).2 hmeets
    exact ⟨_, convert_eq_ok_iff.2 ⟨file, d, hfile, hd, rfl⟩⟩

theorem convert_eq_error_iff {source : String} {file : DefinitionFile} {e : ConversionError}
    (hfile : DefinitionFile.ofText? source = some file) :
    c.convert source = .error e ↔ ∃ before demand after, file.demands = before ++ demand :: after ∧
      (∀ d ∈ before, c.Meets d) ∧ c.fault? demand = some e := by
  have hconvert : c.convert source = .error e ↔ c.build file = .error e := by
    rw [convert, hfile]
    cases hbuild : c.build file with
    | error e' => simp [Except.map, hbuild]
    | ok d => simp [Except.map, hbuild]
  rw [hconvert, ← error?_eq_some_iff, error?_build, List.findSome?_eq_some_iff]
  simp only [fault?_eq_none_iff]
  constructor
  · rintro ⟨before, demand, after, hsplit, hfault, hbefore⟩
    exact ⟨before, demand, after, hsplit, hbefore, hfault⟩
  · rintro ⟨before, demand, after, hsplit, hbefore, hfault⟩
    exact ⟨before, demand, after, hsplit, hfault, hbefore⟩

/-- How a conversion ends. It succeeds exactly if the source is a definition file whose demands are all
met, and then each interface says what its record says; a source that is no definition file is malformed
input; and any other fails with the fault of its first demand that is not met. -/
theorem convert_ends_at_first_fault (c : Converter) (source : String) :
    ((∃ text, c.convert source = .ok text) ↔
      ∃ file, DefinitionFile.ofText? source = some file ∧ ∀ d ∈ file.demands, c.Meets d) ∧
    (∀ text, c.convert source = .ok text → ∃ file d main classes,
      DefinitionFile.ofText? source = some file ∧ c.build file = .ok d ∧
      text = d.print c.commentWidth ∧ d.root.flatten.Perm (main :: classes) ∧
      List.Forall₂ c.Declares (file.main :: file.classes) (main :: classes)) ∧
    (DefinitionFile.ofText? source = none → c.convert source = .error .malformedInput) ∧
    ∀ file e, DefinitionFile.ofText? source = some file →
      (c.convert source = .error e ↔ ∃ before demand after,
        file.demands = before ++ demand :: after ∧ (∀ d ∈ before, c.Meets d) ∧
          c.fault? demand = some e) := by
  refine ⟨convert_eq_ok_iff_meets, fun text h => ?_, fun h => ?_, fun file e hfile => ?_⟩
  · obtain ⟨file, d, hfile, hd, htext⟩ := convert_eq_ok_iff.1 h
    obtain ⟨main, classes, hrecords, _, hgrown⟩ := grown_of_build_eq_ok hd
    exact ⟨file, d, main, classes, hfile, hd, htext, hgrown.flatten_perm,
      hrecords.imp fun _ _ => declares_of_interface_eq_ok⟩
  · rw [convert, h]
  · exact convert_eq_error_iff hfile

/-- The start of a file whose main object has one method of one argument. -/
def moveText (argument result : String) : String :=
  "\x7b\"1\":\x7b\"1\":\"Tasks_v1\",\"3\":[\x7b\"1\":\"move\",\"2\":\"" ++ result ++
    "\",\"3\":[\x7b\"1\":\"to\",\"2\":\"" ++ argument ++ "\"\x7d]\x7d]\x7d"

def moveRecord (argument result : String) : ObjectRecord :=
  ⟨"Tasks_v1", [], [⟨"move", result, [⟨"to", argument, none⟩], none⟩], none⟩

/-- A file whose main object has a field, a method and an argument with dashes in their names. -/
def dashedText : String :=
  "\x7b\"1\":\x7b\"1\":\"Tasks_v1\",\"2\":[\x7b\"1\":\"task-id\",\"2\":\"String\"\x7d]," ++
    "\"3\":[\x7b\"1\":\"move-to-end\",\"2\":\"void\"," ++
    "\"3\":[\x7b\"1\":\"to-list-id\",\"2\":\"String\"\x7d]\x7d]\x7d\x7d"

def dashedRecord : ObjectRecord :=
  ⟨"Tasks_v1", [⟨"task-id", "String", none⟩],
    [⟨"move-to-end", "void", [⟨"to-list-id", "String", none⟩], none⟩], none⟩

/-- Of three tokens without a type, the argument's, the result's and a class's, the first is reported. A
file with types for all its tokens is converted, and its names with dashes are written as they have to be. -/
theorem convert_ends_at_argument :
    let c : Converter := ⟨taskRegistry, ⟨["Root"], by decide⟩, 80⟩
    let faulty := moveText "Sooner" "Later" ++ ",\"2\":[\x7b\"1\":\"Nowhere\"\x7d]\x7d"
    DefinitionFile.ofText? faulty =
        some ⟨moveRecord "Sooner" "Later", [⟨"Nowhere", [], [], none⟩]⟩ ∧
      c.convert faulty = .error (.unresolvedType "Sooner") ∧
      c.convert "\x7b" = .error .malformedInput ∧
      DefinitionFile.ofText? dashedText = some ⟨dashedRecord, []⟩ ∧
      ∃ d main, c.build ⟨dashedRecord, []⟩ = .ok d ∧ c.convert dashedText = .ok (d.print 80) ∧
        d.root.flatten = [main] ∧ c.Declares dashedRecord main ∧
        main.fields.map Field.name = ["taskId"] ∧
        ∃ m, main.methods = [m] ∧ m.name = "\"moveTo-end\"" ∧ m.params.map Field.name = ["toList_id"] := by
  intro c faulty
  have hfaulty : DefinitionFile.ofText? faulty =
      some ⟨moveRecord "Sooner" "Later", [⟨"Nowhere", [], [], none⟩]⟩ := by decide +kernel
  have hdashed : DefinitionFile.ofText? dashedText = some ⟨dashedRecord, []⟩ := by decide +kernel
  have hname : c.Meets (.name "Tasks_v1") := ⟨"Tasks", by decide +kernel, by decide +kernel⟩
  have hmeets : ∀ d ∈ DefinitionFile.demands ⟨dashedRecord, []⟩, c.Meets d := by
    have hdemands : DefinitionFile.demands ⟨dashedRecord, []⟩ =
        [.name "Tasks_v1", .type "String", .type "String", .type "void"] := rfl
    have hstring : c.Meets (.type "String") := ⟨"string", by decide +kernel⟩
    have hvoid : c.Meets (.type "void") := ⟨"void", by decide +kernel⟩
    rw [hdemands]
    simp [hname, hstring, hvoid]
  obtain ⟨_, _, _, hfault⟩ := convert_ends_at_first_fault c faulty
  obtain ⟨_, _, hmalformed, _⟩ := convert_ends_at_first_fault c "\x7b"
  obtain ⟨hok, hdeclares, _, _⟩ := convert_ends_at_first_fault c dashedText
  refine ⟨hfaulty, (hfault _ _ hfaulty).2 ?_, hmalformed (by decide +kernel), hdashed, ?_⟩
  · refine ⟨[.name "Tasks_v1"], .type "Sooner", [.type "Later", .name "Nowhere"], rfl, ?_, ?_⟩
    · simpa using hname
    · decide +kernel
  · obtain ⟨text, htext⟩ := hok.2 ⟨_, hdashed, hmeets⟩
    obtain ⟨file, d, main, classes, hfile, hd, rfl, hflatten, hrecords⟩ := hdeclares text htext
    obtain rfl : file = ⟨dashedRecord, []⟩ := Option.some.inj (hfile.symm.trans hdashed)
    cases hrecords with
    | cons hmain hclasses =>
      obtain rfl := List.forall₂_nil_left_iff.1 hclasses
      refine ⟨d, main, hd, htext, List.perm_singleton.1 hflatten, hmain, ?_, ?_⟩
      · rw [map_name_of_declaresField Identifier.writtenAsKey_iff hmain.fields]
        decide +kernel
      · obtain ⟨m, methods, hm, hmethods, hlist⟩ := List.forall₂_cons_left_iff.1 hmain.methods
        obtain rfl := List.forall₂_nil_left_iff.1 hmethods
        refine ⟨m, hlist, ?_, ?_⟩
        · rw [(Identifier.writtenAsKey_iff _ _).1 hm.name]
          decide +kernel
        · rw [map_name_of_declaresField Identifier.writtenAsParameter_iff hm.params]
          decide +kernel

end Converter
end ServiceTypings
