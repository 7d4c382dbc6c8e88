import ServiceTypings.Proofs.PackageTokens
import ServiceTypings.Proofs.Placement
import ServiceTypings.Proofs.Split

/-! What the types of a declaration refer to. A dotted type is looked up from where it is written: the
innermost namespace around it that has a child of the type's first segment is the one from which the rest
is followed (`Namespace.referents`). Types are written as names below the root, so one of them reaches the
interface of that name exactly if no namespace in between has a child of the same first segment
(`Grown.mem_referents_iff`). -/

namespace ServiceTypings

/-- Where a type stands: at a field, at a method for what it returns, or at an argument of a method. -/
inductive TypeSite where
  | field (k : Nat)
  | result (k : Nat)
  | argument (k l : Nat)
  deriving DecidableEq

def ObjectRecord.tokenAt? (r : ObjectRecord) : TypeSite → Option String
  | .field k => r.fields[k]?.map FieldRecord.typeToken
  | .result k => r.methods[k]?.map MethodRecord.returnToken
  | .argument k l => r.methods[k]?.bind fun m => m.args[l]?.map FieldRecord.typeToken

def Interface.typeAt? (i : Interface) : TypeSite → Option String
  | .field k => i.fields[k]?.map Field.type
  | .result k => i.methods[k]?.map Method.returnType
  | .argument k l => i.methods[k]?.bind fun m => m.params[l]?.map Field.type

/-- The first segment. -/
def QualifiedName.head (name : QualifiedName) : String :=
  name.segments.head name.nonempty

theorem QualifiedName.exists_dropLast_eq_cons {name : QualifiedName} (h : 1 < name.depth) :
    ∃ rest, name.segments.dropLast = name.head :: rest := by
  have hne : name.segments.dropLast ≠ [] := by
    rw [ne_eq, ← List.length_eq_zero_iff, List.length_dropLast]
    rw [depth] at h
    omega
  obtain ⟨first, rest, hcons⟩ := List.exists_cons_of_ne_nil hne
  have hhead : name.head = first := by
    rw [head, ← List.head_dropLast hne]
    simp only [hcons, List.head_cons]
  exact ⟨rest, hhead ▸ hcons⟩

namespace Namespace

/-- The innermost namespace on the way down a path that has a child of that name. -/
def scope? (key : String) : List String → Namespace → Option Namespace
  | [], n => if (n.child? key).isSome then some n else none
  | step :: path, n =>
    ((n.child? step).bind (scope? key path)).or (if (n.child? key).isSome then some n else none)

/-- The interfaces that a dotted name means in the namespace at the end of a path. -/
def referents (n : Namespace) (path : List String) (reference : QualifiedName) : List Interface :=
  match (n.scope? reference.head path).bind (at? reference.segments.dropLast) with
  | none => []
  | some m => m.interfaces.filter fun i => i.localName = reference.localName

/-- No namespace on the way down, the first one excepted, has a child of that name. -/
def Unshadowed (n : Namespace) (path : List String) (key : String) : Prop :=
  ∀ p, p <+: path → p ≠ [] → ∀ m, n.at? p = some m → m.child? key = none

variable {n outer : Namespace} {step key : String} {path : List String}

theorem at?_append (p q : List String) (n : Namespace) :
    n.at? (p ++ q) = (n.at? p).bind (at? q) := by
  induction p generalizing n with
  | nil => rfl
  | cons step p ih =>
    rw [List.cons_append, at?, at?, Option.bind_assoc]
    exact Option.bind_congr fun c _ => ih c

theorem scope?_eq_none_iff : n.scope? key path = none ↔
    ∀ p, p <+: path → ∀ m, n.at? p = some m → m.child? key = none := by
  have hhere : ∀ n : Namespace,
      (if (n.child? key).isSome then some n else none) = none ↔ n.child? key = none := by
    intro n
    cases n.child? key <;> simp
  induction path generalizing n with
  | nil => simp [scope?, at?, hhere]
  | cons step path ih =>
    simp only [scope?, Option.or_eq_none_iff, hhere, List.prefix_cons_iff, Option.bind_eq_none_iff]
    constructor
    · rintro ⟨hbelow, hkey⟩ p (rfl | ⟨p, rfl, hp⟩) m hm
      · obtain rfl := Option.some.inj hm
        exact hkey
      · obtain ⟨c, hc, hm⟩ := Option.bind_eq_some_iff.1 hm
        exact ih.1 (hbelow c hc) p hp m hm
    · intro h
      refine ⟨fun c hc => ih.2 fun p hp m hm => ?_, ?_⟩
      · exact h (step :: p) (Or.inr ⟨p, rfl, hp⟩) m (by rw [at?, hc, Option.bind_some, hm])
      · exact h [] (Or.inl rfl) n rfl

theorem exists_at?_of_scope?_eq_some (h : n.scope? key path = some outer) :
    ∃ p, p <+: path ∧ n.at? p = some outer := by
  induction path generalizing n with
  | nil =>
    rw [scope?, Option.ite_none_right_eq_some] at h
    exact ⟨[], List.nil_prefix, h.2⟩
  | cons step path ih =>
    rw [scope?, Option.or_eq_some_iff, Option.bind_eq_some_iff] at h
    rcases h with ⟨c, hc, hbelow⟩ | ⟨_, hhere⟩
    · obtain ⟨p, hp, hat⟩ := ih hbelow
      exact ⟨step :: p, List.cons_prefix_cons.2 ⟨rfl, hp⟩, by rw [at?, hc, Option.bind_some, hat]⟩
    · rw [Option.ite_none_right_eq_some] at hhere
      exact ⟨[], List.nil_prefix, hhere.2⟩

theorem unshadowed_nil (n : Namespace) (key : String) : n.Unshadowed [] key :=
  fun _ hp hne => absurd (List.prefix_nil.1 hp) hne

theorem unshadowed_cons_iff :
    n.Unshadowed (step :: path) key ↔ (n.child? step).bind (scope? key path) = none := by
  rw [Option.bind_eq_none_iff]
  simp only [scope?_eq_none_iff]
  constructor
  · intro h c hc p hp m hm
    refine h (step :: p) (List.cons_prefix_cons.2 ⟨rfl, hp⟩) (List.cons_ne_nil _ _) m ?_
    rw [at?, hc, Option.bind_some, hm]
  · intro h p hp hne m hm
    rcases List.prefix_cons_iff.1 hp with rfl | ⟨p, rfl, hbelow⟩
    · exact absurd rfl hne
    · obtain ⟨c, hc, hm⟩ := Option.bind_eq_some_iff.1 hm
      exact h c hc p hbelow m hm

theorem scope?_of_unshadowed (h : n.Unshadowed path key) (hkey : (n.child? key).isSome) :
    n.scope? key path = some n := by
  cases path with
  | nil => rw [scope?, if_pos hkey]
  | cons step path => rw [scope?, unshadowed_cons_iff.1 h, Option.none_or, if_pos hkey]

theorem exists_scope?_of_not_unshadowed (h : ¬n.Unshadowed path key) :
    ∃ p outer, p ≠ [] ∧ n.at? p = some outer ∧ n.scope? key path = some outer := by
  cases path with
  | nil => exact absurd (unshadowed_nil n key) h
  | cons step path =>
    rw [unshadowed_cons_iff, ← ne_eq, Option.ne_none_iff_exists'] at h
    obtain ⟨outer, hbelow⟩ := h
    obtain ⟨c, hc, hscope⟩ := Option.bind_eq_some_iff.1 hbelow
    obtain ⟨p, _, hat⟩ := exists_at?_of_scope?_eq_some hscope
    refine ⟨step :: p, outer, List.cons_ne_nil _ _, by rw [at?, hc, Option.bind_some, hat], ?_⟩
    rw [scope?, hbelow, Option.some_or]

theorem mem_referents_iff {reference : QualifiedName} {i : Interface} :
    i ∈ n.referents path reference ↔ ∃ outer m, n.scope? reference.head path = some outer ∧
      outer.at? reference.segments.dropLast = some m ∧ i ∈ m.interfaces ∧
        i.localName = reference.localName := by
  unfold referents
  cases hfound : (n.scope? reference.head path).bind (at? reference.segments.dropLast) with
  | none =>
    rw [Option.bind_eq_none_iff] at hfound
    refine iff_of_false List.not_mem_nil ?_
    rintro ⟨outer, m, hscope, hm, _⟩
    exact absurd (hfound outer hscope) (by simp [hm])
  | some m =>
    obtain ⟨outer, hscope, hm⟩ := Option.bind_eq_some_iff.1 hfound
    rw [List.mem_filter, decide_eq_true_eq]
    constructor
    · rintro ⟨hi, hlocal⟩
      exact ⟨outer, m, hscope, hm, hi, hlocal⟩
    · rintro ⟨outer', m', hscope', hm', hi, hlocal⟩
      obtain rfl := Option.some.inj (hscope.symm.trans hscope')
      obtain rfl := Option.some.inj (hm.symm.trans hm')
      exact ⟨hi, hlocal⟩

/-- From wherever it is written, a dotted name below the root reaches the interface of that name exactly
if the way out to the root is free of its first segment. -/
theorem Grown.mem_referents_iff {root reference : QualifiedName} {is : List Interface}
    {tree : Namespace} (h : Grown root is tree) {i : Interface} (hi : i ∈ is)
    (hname : i.name = root.join reference) (hdotted : 1 < reference.depth) (path : List String) :
    i ∈ tree.referents path reference ↔ tree.Unshadowed path reference.head := by
  obtain ⟨n, hn, hmem, _⟩ := h.exists_at?_of_mem hi hname
  rw [Namespace.mem_referents_iff]
  constructor
  · rintro ⟨outer, m, hscope, hm, hmem', _⟩
    by_contra hshadowed
    obtain ⟨p, outer', hp, hat, hscope'⟩ := exists_scope?_of_not_unshadowed hshadowed
    obtain rfl := Option.some.inj (hscope.symm.trans hscope')
    -- what is found from `p` lies deeper than the interface does
    have hfound : tree.at? (p ++ reference.segments.dropLast) = some m := by
      rw [at?_append, hat, Option.bind_some, hm]
    rw [h.interfaces_at? hfound, List.mem_filter, decide_eq_true_eq,
      Interface.pathBelow_of_name_eq_join hname] at hmem'
    exact hp (List.self_eq_append_left.1 hmem'.2)
  · intro hfree
    have hkey : (tree.child? reference.head).isSome := by
      obtain ⟨rest, hrest⟩ := reference.exists_dropLast_eq_cons hdotted
      rw [hrest, Namespace.at?, Option.bind_eq_some_iff] at hn
      obtain ⟨c, hc, _⟩ := hn
      exact Option.isSome_iff_exists.2 ⟨c, hc⟩
    refine ⟨tree, n, scope?_of_unshadowed hfree hkey, hn, hmem, ?_⟩
    rw [Interface.localName, hname, QualifiedName.localName_join]

end Namespace

namespace Converter

variable {c : Converter}

/-- Each token of a record is the type at its place in the interface. -/
theorem exists_typeAt?_of_tokenAt? {r : ObjectRecord} {i : Interface} (h : c.interface r = .ok i)
    {site : TypeSite} {token : String} (htoken : r.tokenAt? site = some token) :
    ∃ type, i.typeAt? site = some type ∧ c.registry.typeOf token = .ok type := by
  obtain ⟨relative, fields, methods, _, hfields, hmethods, rfl⟩ := interface_eq_ok_iff.1 h
  cases site with
  | field k =>
    obtain ⟨record, hrecord, rfl⟩ := Option.map_eq_some_iff.1 htoken
    obtain ⟨f, hf, hfield⟩ := exists_of_forall₂_getElem? hfields.flip hrecord
    obtain ⟨type, htype, rfl⟩ := field_eq_ok_iff.1 hfield
    exact ⟨type, by simp [Interface.typeAt?, hf], htype⟩
  | result k =>
    obtain ⟨record, hrecord, rfl⟩ := Option.map_eq_some_iff.1 htoken
    obtain ⟨m, hm, hmethod⟩ := exists_of_forall₂_getElem? hmethods.flip hrecord
    obtain ⟨params, type, _, htype, rfl⟩ := method_eq_ok_iff.1 hmethod
    exact ⟨type, by simp [Interface.typeAt?, hm], htype⟩
  | argument k l =>
    obtain ⟨record, hrecord, hat⟩ := Option.bind_eq_some_iff.1 htoken
    obtain ⟨argument, hargument, rfl⟩ := Option.map_eq_some_iff.1 hat
    obtain ⟨m, hm, hmethod⟩ := exists_of_forall₂_getElem? hmethods.flip hrecord
    obtain ⟨params, _, hparams, _, rfl⟩ := method_eq_ok_iff.1 hmethod
    obtain ⟨f, hf, hparameter⟩ := exists_of_forall₂_getElem? hparams.flip hargument
    obtain ⟨type, htype, rfl⟩ := parameter_eq_ok_iff.1 hparameter
    exact ⟨type, by simp [Interface.typeAt?, hm, hf], htype⟩

/-- A type that names a class of the file through the package of a known service is written as the class's
name below the root. It reaches the class exactly if none of the namespaces around it, the root excepted,
has a child named like the service. -/
theorem reference_reaches_class_iff {options : ConversionOptions} {c : Converter}
    {file : DefinitionFile} {d : Declarations} (hc : ofOptions .builtin options = .ok c)
    (hd : c.build file = .ok d) {definition : Definition}
    (hdef : definition ∈ Registry.builtin.definitions) {start rest : String}
    (hstart : definition.packageStart = some start) (hrest : rest ≠ "")
    (hirregular : Registry.builtin.irregular? (start ++ rest) = none) {target r : ObjectRecord}
    (htarget : target ∈ file.classes) (hname : target.name = start ++ rest)
    (hr : r ∈ file.main :: file.classes) {site : TypeSite}
    (hsite : r.tokenAt? site = some (start ++ rest)) :
    ∃ declared i n type reference,
      c.interface target = .ok declared ∧ c.interface r = .ok i ∧
      d.root.at? (i.pathBelow c.root.depth) = some n ∧ i ∈ n.interfaces ∧
      i.typeAt? site = some type ∧ type = definition.id ++ "." ++ rest ∧
      QualifiedName.parse? type = some reference ∧
      (declared ∈ d.root.referents (i.pathBelow c.root.depth) reference ↔
        d.root.Unshadowed (i.pathBelow c.root.depth) definition.id) := by
  obtain ⟨root, _, rfl⟩ := ofOptions_eq_ok_iff.1 hc
  obtain ⟨main, classes, hrecords, -, hgrown⟩ := grown_of_build_eq_ok hd
  have htype := Registry.builtin_separated.typeOf_packageStart_append hdef hstart hrest hirregular
  obtain ⟨declared, hdeclared, htargetOk⟩ :=
    exists_mem_of_forall₂ hrecords (List.mem_cons_of_mem _ htarget)
  obtain ⟨i, hi, hrOk⟩ := exists_mem_of_forall₂ hrecords hr
  -- the class's own name is the type that the reference is written as
  obtain ⟨text, reference, htext, hparse, hjoin⟩ := name_of_interface_eq_ok htargetOk
  rw [hname] at htext
  obtain rfl := Except.ok.inj (htext.symm.trans htype)
  obtain ⟨type, hat, htypeAt⟩ := exists_typeAt?_of_tokenAt? hrOk hsite
  obtain rfl := Except.ok.inj (htypeAt.symm.trans htype)
  obtain ⟨_, relative, _, _, hplace⟩ := name_of_interface_eq_ok hrOk
  obtain ⟨n, hn, hmem, _⟩ := hgrown.exists_at?_of_mem hi hplace
  rw [← Interface.pathBelow_of_name_eq_join hplace] at hn
  have hsegments : reference.segments = definition.id :: QualifiedName.partsOf rest := by
    rw [QualifiedName.segments_of_parse? hparse, QualifiedName.partsOf_append,
      QualifiedName.partsOf_eq_singleton (Registry.builtin_id_dotless definition hdef),
      List.singleton_append]
  have hhead : reference.head = definition.id := by
    simp only [QualifiedName.head, hsegments, List.head_cons]
  have hdotted : 1 < reference.depth := by
    rw [QualifiedName.depth, hsegments, List.length_cons]
    have := List.length_pos_iff.2 (QualifiedName.partsOf_ne_nil rest)
    omega
  refine ⟨declared, i, n, _, reference, htargetOk, hrOk, hn, hmem, hat, rfl, hparse, ?_⟩
  rw [← hhead]
  exact hgrown.mem_referents_iff hdeclared hjoin hdotted _

/-- A class that mentions the class of tasks. -/
def mention (token : String) : ObjectRecord :=
  ⟨token, [⟨"task", "Tasks_v1.Tasks.V1.Schema.Task", none⟩], [], none⟩

/-- The class of tasks, and one in a namespace named like the service, both with a task in them. -/
def archiveFile : DefinitionFile :=
  ⟨⟨"Tasks_v1", [], [], none⟩,
    [mention "Tasks_v1.Tasks.V1.Schema.Task", mention "Tasks_v1.Tasks.V1.Archive.Tasks.Entry"]⟩

def scriptConverter : Converter :=
  ⟨.builtin, ⟨["GoogleAppsScript"], by decide⟩, 80⟩

/-- The interface of a class that mentions the class of tasks. -/
def mentioning (relative : QualifiedName) : Interface :=
  ⟨scriptConverter.root.join relative, [⟨"task", "Tasks.Schema.Task", none⟩], [], none⟩

def taskName : QualifiedName :=
  ⟨["Tasks", "Schema", "Task"], by decide⟩

def entryName : QualifiedName :=
  ⟨["Tasks", "Archive", "Tasks", "Entry"], by decide⟩

def archiveDeclarations : Declarations :=
  ⟨(Namespace.empty scriptConverter.root).insertAll
    [⟨⟨["GoogleAppsScript", "Tasks"], by decide⟩, [], [], none⟩, mentioning taskName,
      mentioning entryName], ⟨["GoogleAppsScript", "Tasks"], by decide⟩⟩

def tasksService : Definition :=
  Registry.service "Tasks" "Tasks_v1" "Tasks.V1." "tasks/v1"

theorem tasksService_mem : tasksService ∈ Registry.builtin.definitions := by
  decide +kernel

theorem packageStart_tasksService : tasksService.packageStart = some "Tasks_v1.Tasks.V1." := by
  decide +kernel

theorem irregular?_task :
    Registry.builtin.irregular? ("Tasks_v1.Tasks.V1." ++ "Schema.Task") = none := by
  decide +kernel

theorem typeOf_task :
    Registry.builtin.typeOf ("Tasks_v1.Tasks.V1." ++ "Schema.Task") = .ok "Tasks.Schema.Task" :=
  Registry.builtin_separated.typeOf_packageStart_append tasksService_mem packageStart_tasksService
    (by decide) irregular?_task

theorem typeOf_entry :
    Registry.builtin.typeOf ("Tasks_v1.Tasks.V1." ++ "Archive.Tasks.Entry") =
      .ok "Tasks.Archive.Tasks.Entry" :=
  Registry.builtin_separated.typeOf_packageStart_append tasksService_mem packageStart_tasksService
    (by decide) (by decide +kernel)

theorem interface_mention {token text : String} {relative : QualifiedName}
    (htext : Registry.builtin.typeOf token = .ok text)
    (hparse : QualifiedName.parse? text = some relative) :
    scriptConverter.interface (mention token) = .ok (mentioning relative) :=
  interface_eq_ok_iff.2 ⟨relative, _, [], relativeName_eq_ok_iff.2 ⟨text, htext, hparse⟩,
    .cons (field_eq_ok_iff.2 ⟨_, typeOf_task, rfl⟩) .nil, .nil, rfl⟩

theorem interface_task :
    scriptConverter.interface (mention "Tasks_v1.Tasks.V1.Schema.Task") = .ok (mentioning taskName) :=
  interface_mention typeOf_task (by decide +kernel)

theorem interface_entry : scriptConverter.interface (mention "Tasks_v1.Tasks.V1.Archive.Tasks.Entry") =
    .ok (mentioning entryName) :=
  interface_mention typeOf_entry (by decide +kernel)

theorem build_archiveFile :
    ofOptions .builtin {} = .ok scriptConverter ∧
      scriptConverter.build archiveFile = .ok archiveDeclarations := by
  have hroot : QualifiedName.parse? "GoogleAppsScript" = some ⟨["GoogleAppsScript"], by decide⟩ := by
    decide +kernel
  have hmain : scriptConverter.interface archiveFile.main =
      .ok ⟨⟨["GoogleAppsScript", "Tasks"], by decide⟩, [], [], none⟩ := by decide +kernel
  exact ⟨ofOptions_eq_ok_iff.2 ⟨_, hroot, rfl⟩, build_eq_ok_iff.2
    ⟨_, _, .cons hmain (.cons interface_task (.cons interface_entry .nil)), rfl⟩⟩

/-- The class that mentions itself is reached from where it stands. -/
theorem reference_reaches_own_class :
    (mention "Tasks_v1.Tasks.V1.Schema.Task").tokenAt? (.field 0) =
        some ("Tasks_v1.Tasks.V1." ++ "Schema.Task") ∧
      QualifiedName.parse? "Tasks.Schema.Task" = some taskName ∧
      (mentioning taskName).typeAt? (.field 0) = some "Tasks.Schema.Task" ∧
      mentioning taskName ∈ archiveDeclarations.root.referents ["Tasks", "Schema"] taskName := by
  have hclass : mention "Tasks_v1.Tasks.V1.Schema.Task" ∈ archiveFile.classes := List.mem_cons_self
  have hname : (mention "Tasks_v1.Tasks.V1.Schema.Task").name =
      "Tasks_v1.Tasks.V1." ++ "Schema.Task" := by decide +kernel
  have hsite : (mention "Tasks_v1.Tasks.V1.Schema.Task").tokenAt? (.field 0) =
      some ("Tasks_v1.Tasks.V1." ++ "Schema.Task") := by decide +kernel
  have hparse : QualifiedName.parse? "Tasks.Schema.Task" = some taskName := by decide +kernel
  have hpath : (mentioning taskName).pathBelow scriptConverter.root.depth = ["Tasks", "Schema"] := by
    decide +kernel
  have hfree : archiveDeclarations.root.Unshadowed ["Tasks", "Schema"] tasksService.id :=
    Namespace.unshadowed_cons_iff.2 (Option.isNone_iff_eq_none.1 (by decide +kernel))
  obtain ⟨declared, i, _, _, reference, hdeclared, hi, _, _, hat, rfl, hreference, hreach⟩ :=
    reference_reaches_class_iff build_archiveFile.1 build_archiveFile.2 tasksService_mem
      packageStart_tasksService (by decide) irregular?_task hclass hname
      (List.mem_cons_of_mem _ hclass) hsite
  obtain rfl := Except.ok.inj (hdeclared.symm.trans interface_task)
  obtain rfl := Except.ok.inj (hi.symm.trans interface_task)
  obtain rfl := Option.some.inj (hreference.symm.trans hparse)
  rw [hpath] at hreach
  exact ⟨hsite, hparse, hat, hreach.2 hfree⟩

/-- Inside a namespace named like the service, the type that names the class through its package does not
reach it. -/
theorem reference_shadowed :
    ofOptions .builtin {} = .ok scriptConverter ∧
      scriptConverter.build archiveFile = .ok archiveDeclarations ∧
      tasksService ∈ Registry.builtin.definitions ∧
      tasksService.packageStart = some "Tasks_v1.Tasks.V1." ∧
      Registry.builtin.irregular? ("Tasks_v1.Tasks.V1." ++ "Schema.Task") = none ∧
      archiveFile.classes = [mention ("Tasks_v1.Tasks.V1." ++ "Schema.Task"),
        mention "Tasks_v1.Tasks.V1.Archive.Tasks.Entry"] ∧
      (mention "Tasks_v1.Tasks.V1.Archive.Tasks.Entry").tokenAt? (.field 0) =
        some ("Tasks_v1.Tasks.V1." ++ "Schema.Task") ∧
      scriptConverter.interface (mention "Tasks_v1.Tasks.V1.Schema.Task") =
        .ok (mentioning taskName) ∧
      scriptConverter.interface (mention "Tasks_v1.Tasks.V1.Archive.Tasks.Entry") =
        .ok (mentioning entryName) ∧
      (mentioning entryName).typeAt? (.field 0) = some "Tasks.Schema.Task" ∧
      QualifiedName.parse? "Tasks.Schema.Task" = some taskName ∧
      mentioning taskName ∉ archiveDeclarations.root.referents
        ((mentioning entryName).pathBelow scriptConverter.root.depth) taskName := by
  -- from there the name leads to the namespace in the archive, which has no `Schema`
  have hnone : archiveDeclarations.root.referents
      ((mentioning entryName).pathBelow scriptConverter.root.depth) taskName = [] := by
    decide +kernel
  refine ⟨build_archiveFile.1, build_archiveFile.2, tasksService_mem, packageStart_tasksService,
    irregular?_task, by decide +kernel, by decide +kernel, interface_task, interface_entry,
    by decide +kernel, by decide +kernel, ?_⟩
  rw [hnone]
  exact List.not_mem_nil

end Converter
end ServiceTypings
