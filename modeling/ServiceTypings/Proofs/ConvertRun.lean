import ServiceTypings.CommandLine
import ServiceTypings.Proofs.FileIsolation

/-! A run of `convert` as it is seen from outside: its exit code, what it prints, its lines about failures
and the disk it leaves. Settings, converter and output directory come first, in this order, and whichever
of them fails ends the run before any input is read. A run that comes to its inputs accounts for each of
them once, whatever turns they take (`Invocation.run_convert_accounts`). It has to be given some input:
a run without any fails, though nothing went wrong (`Invocation.run_convert_fails_without_files`). -/

namespace ServiceTypings

variable {network : Network} {first d : Disk}

namespace FileOutcome

def isOk (o : FileOutcome) : Bool :=
  o.result.isOk

/-- What an input that succeeded adds to the output of the run. -/
def printed? (o : FileOutcome) : Option String :=
  match o.result with
  | .ok (.text content) => some content
  | .ok (.written path) => some (o.input ++ " -> " ++ path ++ "\n")
  | .error _ => none

/-- The line about an input that failed. -/
def report? (o : FileOutcome) : Option String :=
  match o.result with
  | .ok _ => none
  | .error e => some ("error: " ++ e.report o.input)

theorem isOk_item (o : FileOutcome) : o.item.isOk = o.isOk := by
  rcases o with ⟨input, _ | _ | _⟩ <;> rfl

theorem toOption_item (o : FileOutcome) : o.item.toOption = o.printed? := by
  rcases o with ⟨input, _ | _ | _⟩ <;> rfl

theorem map_error?_item (o : FileOutcome) : (error? o.item).map ("error: " ++ ·) = o.report? := by
  rcases o with ⟨input, _ | _ | _⟩ <;> rfl

end FileOutcome

namespace Transcript

/-- The line that ends the account of a batch in which something failed. -/
def summary (failed total : Nat) : List String :=
  if failed = 0 then []
  else ["error: " ++ toString failed ++ " of " ++ toString total ++ " file(s) failed"]

/-- Each input has one outcome, and the transcript tells of each outcome in its place. -/
structure Accounts (t : Transcript) (files : List String) (outcomes : List FileOutcome) : Prop where
  inputs : outcomes.map FileOutcome.input = files
  exit : t.exit = if outcomes.all FileOutcome.isOk then 0 else 1
  out : t.out = String.join (outcomes.filterMap FileOutcome.printed?)
  errors : t.errors = outcomes.filterMap FileOutcome.report? ++
    summary (outcomes.countP (!·.isOk)) files.length

theorem filterMap_toOption (items : List (Except String String)) :
    items.filterMap Except.toOption = items.filterMap fun
      | .ok text => some text
      | .error _ => none := by
  apply List.filterMap_congr
  intro item _
  cases item <;> rfl

theorem map_filterMap_error? (items : List (Except String String)) :
    (items.filterMap error?).map ("error: " ++ ·) = items.filterMap fun
      | .ok _ => none
      | .error line => some ("error: " ++ line) := by
  rw [List.map_filterMap]
  apply List.filterMap_congr
  intro item _
  cases item <;> rfl

theorem ofItems_eq_ite (items : List (Except String String)) :
    ofItems items =
      let out := String.join (items.filterMap Except.toOption)
      let errors := (items.filterMap error?).map ("error: " ++ ·)
      if errors.isEmpty then success out
      else ⟨1, out, errors ++ ["error: " ++ toString errors.length ++ " of " ++
        toString items.length ++ " file(s) failed"]⟩ := by
  rw [filterMap_toOption, map_filterMap_error?]
  rfl

/-- A transcript has as many lines about failures as items that failed, and the summary only behind such
a line. -/
theorem ofItems_eq (items : List (Except String String)) :
    ofItems items = ⟨if items.all Except.isOk then 0 else 1,
      String.join (items.filterMap Except.toOption),
      (items.filterMap error?).map ("error: " ++ ·) ++
        summary (items.countP (!·.isOk)) items.length⟩ := by
  have hlength : (items.filterMap error?).length = items.countP (!·.isOk) := by
    rw [List.length_filterMap_eq_countP]
    apply List.countP_congr
    intro item _
    cases item <;> simp [error?, Except.isOk, Except.toBool]
  have hall : items.all Except.isOk = true ↔ items.countP (!·.isOk) = 0 := by
    rw [List.all_eq_true, List.countP_eq_zero]
    simp
  rw [ofItems_eq_ite]
  by_cases h : items.countP (!·.isOk) = 0
  · have hnone : items.filterMap error? = [] := List.eq_nil_of_length_eq_zero (hlength.trans h)
    simp [hnone, hall.2 h, summary, h, success]
  · have hsome : items.filterMap error? ≠ [] := by
      intro hnil
      rw [hnil] at hlength
      exact h hlength.symm
    simp only [List.isEmpty_map, List.isEmpty_eq_false_iff.2 hsome, if_neg (mt hall.1 h), summary,
      if_neg h, List.length_map, hlength, Bool.false_eq_true, if_false]

theorem Accounts.exit_eq_zero_iff {t : Transcript} {files : List String} {outcomes : List FileOutcome}
    (h : t.Accounts files outcomes) : t.exit = 0 ↔ ∀ o ∈ outcomes, o.isOk := by
  rw [h.exit, ← List.all_eq_true]
  cases outcomes.all FileOutcome.isOk <;> simp

theorem Accounts.exit_eq_one {t : Transcript} {files : List String} {outcomes : List FileOutcome}
    (h : t.Accounts files outcomes) (hexit : t.exit ≠ 0) : t.exit = 1 := by
  rw [h.exit] at hexit ⊢
  exact if_neg fun hall => hexit (if_pos hall)

theorem Accounts.ofItems {files : List String} {outcomes : List FileOutcome}
    (h : outcomes.map FileOutcome.input = files) :
    (Transcript.ofItems (outcomes.map FileOutcome.item)).Accounts files outcomes := by
  have hlength : outcomes.length = files.length := by
    rw [← h, List.length_map]
  rw [ofItems_eq]
  refine ⟨h, ?_, ?_, ?_⟩
  · simp only [List.all_map, Function.comp_def, FileOutcome.isOk_item]
  · simp only [List.filterMap_map, Function.comp_def, FileOutcome.toOption_item]
  · simp only [List.map_filterMap, List.filterMap_map, List.countP_map, List.length_map,
      Function.comp_def, FileOutcome.isOk_item, FileOutcome.map_error?_item, hlength]

end Transcript

theorem Arguments.files_ne_nil_of_command {level : Level} {g : Given} {files : List String}
    {output : Option String} (h : command level g = .ok (.convert files output)) : files ≠ [] := by
  unfold command at h
  cases level with
  | convert =>
    by_cases hvalues : g.values.isEmpty
    · simp [hvalues] at h
    · simp only [hvalues, Bool.false_eq_true, if_false, Except.ok.injEq, Command.convert.injEq] at h
      rw [← h.1]
      exact mt List.isEmpty_iff.2 hvalues
  | program | download | list => simp at h

/-- The command line does not take a `convert` without input. -/
theorem Arguments.files_ne_nil_of_parse {arguments files : List String} {debug : Bool}
    {config output : Option String}
    (h : parse arguments = .ok ⟨debug, config, .convert files output⟩) : files ≠ [] := by
  simp only [parse, bind_eq_ok_iff] at h
  obtain ⟨⟨outer, named⟩, _, h⟩ := h
  split at h
  · simp at h
  · split at h
    · simp at h
    · simp only [bind_eq_ok_iff, pure_eq_ok_iff] at h
      obtain ⟨⟨inner, _⟩, _, command, hcommand, hinvocation⟩ := h
      obtain rfl : command = .convert files output := (congrArg Invocation.command hinvocation).symm
      exact files_ne_nil_of_command hcommand

/-- Loading settings asks the disk, and leaves it as it is. -/
theorem Settings.run_load_disk (config : Option String) (network : Network) (d : Disk) :
    ((Settings.load config).run network d).2 = d := by
  have hfrom : ∀ path, ((loadFrom path).run network d).2 = d := by
    intro path
    rw [loadFrom, Job.run]
    cases d.readText path with
    | error e => rfl
    | ok text => cases htext : ofText? text <;> simp only [htext, Job.run]
  cases config with
  | some path => exact hfrom path
  | none =>
    rw [load, Job.run]
    cases d.isFile usualFile with
    | false => rfl
    | true => exact hfrom usualFile

namespace Invocation

variable {config output : Option String} {files : List String} {settings : Settings} {c : Converter}

/-- The settings of a run, or why there are none. -/
def loaded (network : Network) (first : Disk) (config : Option String) :
    Except SettingsError Settings :=
  ((Settings.load config).run network first).1

/-- What a run of `convert` needs to come to its inputs: settings that load, with a root that is a name,
and the output directory, which is made if it is missing. -/
structure Ready (network : Network) (first : Disk) (config output : Option String) (c : Converter)
    (d : Disk) : Prop where
  converter : ∃ settings, loaded network first config = .ok settings ∧
    Converter.ofOptions settings.registry settings.options = .ok c
  directory : (Command.prepareOutput output).run network first = (.ok (), d)

theorem run_of_loaded_error {e : SettingsError} (h : loaded network first config = .error e)
    (debug : Bool) (command : Command) :
    (mk debug config command).run.run network first = (.failure e.fullMessage, first) := by
  rw [loaded] at h
  change (Job.bind _ _).run network first = _
  rw [Job.run_bind, Settings.run_load_disk, h]
  rfl

theorem run_of_loaded (h : loaded network first config = .ok settings) (debug : Bool)
    (command : Command) :
    (mk debug config command).run.run network first = (command.run settings).run network first := by
  rw [loaded] at h
  change (Job.bind _ _).run network first = _
  rw [Job.run_bind, Settings.run_load_disk, h]

/-- The root is seen to before the output directory is. -/
theorem run_convert_of_root (h : loaded network first config = .ok settings)
    (hroot : QualifiedName.parse? settings.options.rootNamespace = none) (hfiles : files ≠ [])
    (debug : Bool) :
    (mk debug config (.convert files output)).run.run network first =
      (.failure (ConversionError.invalidName settings.options.rootNamespace).message, first) := by
  rw [run_of_loaded h, Command.run, Command.runConvert, if_neg (mt List.isEmpty_iff.1 hfiles),
    Converter.ofOptions, hroot]
  rfl

/-- With settings and a converter, the output directory decides. -/
theorem run_convert_of_converter (h : loaded network first config = .ok settings)
    (hc : Converter.ofOptions settings.registry settings.options = .ok c) (hfiles : files ≠ [])
    (debug : Bool) :
    (mk debug config (.convert files output)).run.run network first =
      match (Command.prepareOutput output).run network first with
      | (.error message, d) => (.failure message, d)
      | (.ok (), d) =>
        (.ofItems (((c.convertFiles output files).run network d).1.map FileOutcome.item),
          ((c.convertFiles output files).run network d).2) := by
  rw [run_of_loaded h, Command.run, Command.runConvert, if_neg (mt List.isEmpty_iff.1 hfiles), hc]
  change (Job.bind _ _).run network first = _
  rw [Job.run_bind]
  rcases (Command.prepareOutput output).run network first with ⟨_ | _, d⟩
  · rfl
  · change (Job.bind _ _).run network d = _
    rw [Job.run_bind]
    rfl

theorem run_convert_of_ready (h : Ready network first config output c d) (hfiles : files ≠ [])
    (debug : Bool) :
    (mk debug config (.convert files output)).run.run network first =
      (.ofItems (((c.convertFiles output files).run network d).1.map FileOutcome.item),
        ((c.convertFiles output files).run network d).2) := by
  obtain ⟨settings, hsettings, hc⟩ := h.converter
  rw [run_convert_of_converter hsettings hc hfiles, h.directory]

theorem run_convert_of_not_ready (h : ¬ ∃ c d, Ready network first config output c d)
    (hfiles : files ≠ []) (debug : Bool) :
    ∃ message last,
      (mk debug config (.convert files output)).run.run network first = (.failure message, last) := by
  cases hload : loaded network first config with
  | error e => exact ⟨_, _, run_of_loaded_error hload debug _⟩
  | ok settings =>
    cases hc : Converter.ofOptions settings.registry settings.options with
    | error e =>
      cases hroot : QualifiedName.parse? settings.options.rootNamespace with
      | none => exact ⟨_, _, run_convert_of_root hload hroot hfiles debug⟩
      | some root => simp [Converter.ofOptions, hroot] at hc
    | ok c =>
      cases hprepare : (Command.prepareOutput output).run network first with
      | mk result d =>
        cases result with
        | ok made => exact absurd ⟨c, d, ⟨settings, hload, hc⟩, hprepare⟩ h
        | error message =>
          refine ⟨message, d, ?_⟩
          rw [run_convert_of_converter hload hc hfiles, hprepare]

end Invocation

/-- The first name that no service has is the error. -/
theorem Registry.exists_select_eq_error {r : Registry} {services : List String} {id : String}
    (hid : id ∈ services) (h : r.find? id = none) :
    ∃ unknown ∈ services, r.find? unknown = none ∧ r.select services = .error unknown := by
  have hnamed : services.isEmpty = false := List.isEmpty_eq_false_iff.2 (List.ne_nil_of_mem hid)
  cases hselect : r.select services with
  | ok definitions =>
    rw [select, hnamed, if_neg (by simp), mapM_eq_ok_iff] at hselect
    obtain ⟨d, _, hd⟩ := exists_mem_of_forall₂ hselect hid
    simp [h] at hd
  | error unknown =>
    have hfirst : error? (r.select services) =
        (services.flatMap fun id => [id]).findSome? fun id =>
          if r.find? id = none then some id else none := by
      rw [select, hnamed, if_neg (by simp)]
      refine error?_mapM (fun id => ?_) services
      cases hfind : r.find? id <;> simp [error?, hfind]
    rw [hselect] at hfirst
    obtain ⟨other, hmem, hother⟩ := List.exists_of_findSome?_eq_some hfirst.symm
    rw [List.flatMap_singleton'] at hmem
    by_cases hfind : r.find? other = none
    · rw [if_pos hfind] at hother
      obtain rfl := Option.some_inj.1 hother
      exact ⟨other, hmem, hfind, rfl⟩
    · simp [hfind] at hother

/-- A name that no service has is seen before the destination is made. -/
theorem Invocation.run_download_of_unknown {config : Option String} {settings : Settings}
    (h : loaded network first config = .ok settings) {services : List String} {id : String}
    (hid : id ∈ services) (hunknown : settings.registry.find? id = none) (debug : Bool)
    (destination : String) :
    ∃ unknown ∈ services, settings.registry.find? unknown = none ∧
      (mk debug config (.download destination services)).run.run network first =
        (.failure ("unknown service `" ++ unknown ++ "` (see `gas-dts list`)"), first) := by
  obtain ⟨unknown, hmem, hnone, hselect⟩ := Registry.exists_select_eq_error hid hunknown
  refine ⟨unknown, hmem, hnone, ?_⟩
  rw [run_of_loaded h, Command.run, Command.runDownload, hselect]
  rfl

/-- Whatever turns the files of a batch take, the outcomes come in the order of the inputs. -/
theorem Converter.input_eq_of_turns_batch {c : Converter} {directory : Option String}
    {inputs : List String} {schedule : List Nat} {outcomes : List FileOutcome}
    (h : (c.batch directory inputs first).turns network schedule = ⟨outcomes.map .done, d⟩) :
    outcomes.map FileOutcome.input = inputs := by
  cases directory with
  | none =>
    obtain ⟨_, rfl⟩ :=
      Unwritten.eq_map_alone (h ▸ (unwritten_start c network first inputs).turns schedule)
    rw [List.map_map]
    exact List.map_id'' (input_alone c network first) inputs
  | some directory =>
    have hlast : Reached c first directory inputs ⟨outcomes.map .done, d⟩ :=
      h ▸ (reached_start c first directory inputs).turns network schedule
    exact hlast.input_eq

namespace Invocation

section

variable {config output : Option String} {files : List String} {c : Converter}

theorem accounts_of_ready (h : Ready network first config output c d) (hfiles : files ≠ [])
    (debug : Bool) :
    ((mk debug config (.convert files output)).run.run network first).1.Accounts files
      ((c.convertFiles output files).run network d).1 := by
  -- to convert the files one after the other is one way to take turns
  obtain ⟨schedule, hturns⟩ := Converter.exists_turns_eq_convertFiles c output files network d
  rw [run_convert_of_ready h hfiles]
  exact .ofItems (Converter.input_eq_of_turns_batch hturns)

theorem ready_or_exit_eq_one (hfiles : files ≠ []) (debug : Bool) :
    (∃ c d, Ready network first config output c d) ∨
      ((mk debug config (.convert files output)).run.run network first).1.exit = 1 := by
  by_cases hready : ∃ c d, Ready network first config output c d
  · exact Or.inl hready
  · obtain ⟨message, last, hended⟩ := run_convert_of_not_ready hready hfiles debug
    exact Or.inr (congrArg (·.1.exit) hended)

theorem exit_convert_eq_zero_iff (hfiles : files ≠ []) (debug : Bool) :
    ((mk debug config (.convert files output)).run.run network first).1.exit = 0 ↔
      ∃ c d, Ready network first config output c d ∧
        ∀ o ∈ ((c.convertFiles output files).run network d).1, o.isOk := by
  constructor
  · intro hexit
    rcases ready_or_exit_eq_one hfiles debug with ⟨c, d, hready⟩ | hone
    · exact ⟨c, d, hready, (accounts_of_ready hready hfiles debug).exit_eq_zero_iff.1 hexit⟩
    · simp [hone] at hexit
  · rintro ⟨c, d, hready, hok⟩
    exact (accounts_of_ready hready hfiles debug).exit_eq_zero_iff.2 hok

theorem exit_convert_eq_one (hfiles : files ≠ []) {debug : Bool}
    (hexit : ((mk debug config (.convert files output)).run.run network first).1.exit ≠ 0) :
    ((mk debug config (.convert files output)).run.run network first).1.exit = 1 := by
  rcases ready_or_exit_eq_one hfiles debug with ⟨c, d, hready⟩ | hone
  · exact (accounts_of_ready hready hfiles debug).exit_eq_one hexit
  · exact hone

end

/-- The run fails before it does anything: it prints nothing, tells why, and leaves the disk as it is. -/
def FailsAtOnce (i : Invocation) (network : Network) (first : Disk) : Prop :=
  ∃ message, i.run.run network first = (.failure message, first)

/-- Given some input, a run of `convert` succeeds if it comes to its inputs and all of them have an
outcome that is no failure; otherwise its exit code is 1. If it comes to its inputs, what it leaves on the
terminal accounts for their outcomes, and so it would whatever turns the inputs had taken. If the
settings do not load, or their root is no name, the disk is as it was; and so it is after a `download` of
which some service is unknown. -/
theorem run_convert_accounts {files : List String} (hfiles : files ≠ []) (network : Network)
    (first : Disk) (debug : Bool) (config output : Option String) :
    let ended := (mk debug config (.convert files output)).run.run network first
    (ended.1.exit = 0 ↔ ∃ c d, Ready network first config output c d ∧
      ∀ o ∈ ((c.convertFiles output files).run network d).1, o.isOk) ∧
    (ended.1.exit ≠ 0 → ended.1.exit = 1) ∧
    (∀ c d, Ready network first config output c d →
      ended.1.Accounts files ((c.convertFiles output files).run network d).1 ∧
      ∀ (schedule : List Nat) (outcomes : List FileOutcome) (last : Disk),
        (c.batch output files d).turns network schedule = ⟨outcomes.map .done, last⟩ →
        (Transcript.ofItems (outcomes.map FileOutcome.item)).Accounts files outcomes) ∧
    (∀ e, loaded network first config = .error e → ∀ command,
      (mk debug config command).FailsAtOnce network first) ∧
    ∀ settings, loaded network first config = .ok settings →
      (QualifiedName.parse? settings.options.rootNamespace = none →
        (mk debug config (.convert files output)).FailsAtOnce network first) ∧
      ∀ (destination : String) (services : List String),
        (∃ id ∈ services, settings.registry.find? id = none) →
        (mk debug config (.download destination services)).FailsAtOnce network first := by
  intro ended
  refine ⟨exit_convert_eq_zero_iff hfiles debug, exit_convert_eq_one hfiles, fun c d hready => ?_,
    fun e hload command => ?_, fun settings hload => ⟨fun hroot => ?_, ?_⟩⟩
  · refine ⟨accounts_of_ready hready hfiles debug, fun schedule outcomes last hturns => ?_⟩
    exact .ofItems (Converter.input_eq_of_turns_batch hturns)
  · exact ⟨_, run_of_loaded_error hload debug command⟩
  · exact ⟨_, run_convert_of_root hload hroot hfiles debug⟩
  · rintro destination services ⟨id, hid, hunknown⟩
    obtain ⟨unknown, _, _, hended⟩ := run_download_of_unknown hload hid hunknown debug destination
    exact ⟨_, hended⟩

/-- Settings that lay down the type of one token. -/
def taskSettings : Settings :=
  { irregular := [("Tasks_v1", "Tasks")] }

/-- These settings in the usual place, and a definition file with that token. -/
def taskDisk : Disk :=
  ⟨[(["gas-dts.toml"], .text "[irregular]\n\"Tasks_v1\" = \"Tasks\"\n"),
    (["Tasks.json"], .text "\x7b\"1\":\x7b\"1\":\"Tasks_v1\"\x7d\x7d")], []⟩

theorem loaded_taskDisk : loaded Job.offline taskDisk none = .ok taskSettings := by
  decide +kernel

theorem exists_converter_of_taskSettings :
    ∃ c, Converter.ofOptions taskSettings.registry taskSettings.options = .ok c := by
  have hroot : QualifiedName.parse? "GoogleAppsScript" = some ⟨["GoogleAppsScript"], by decide⟩ := by
    decide +kernel
  exact ⟨_, Converter.ofOptions_eq_ok_iff.2 ⟨_, hroot, rfl⟩⟩

theorem run_taskDisk :
    ((mk false none (.convert ["Tasks.json", "Missing.json"] (some "out"))).run.run
      Job.offline taskDisk).1 =
    ⟨1, "Tasks.json -> out/Tasks.d.ts\n",
      ["error: Missing.json: [ReadError] failed to read input: No such file or directory (os error 2)",
        "error: 1 of 2 file(s) failed"]⟩ := by
  decide +kernel

/-- One file is written, and the run tells of the other that is not there; what is no service is not
fetched. -/
theorem run_convert_accounts_for_missing :
    let ended := (mk false none (.convert ["Tasks.json", "Missing.json"] (some "out"))).run.run
      Job.offline taskDisk
    (∃ c d, Ready Job.offline taskDisk none (some "out") c d ∧
      ended.1.Accounts ["Tasks.json", "Missing.json"]
        ((c.convertFiles (some "out") ["Tasks.json", "Missing.json"]).run Job.offline d).1) ∧
    ended.1 = ⟨1, "Tasks.json -> out/Tasks.d.ts\n",
      ["error: Missing.json: [ReadError] failed to read input: No such file or directory (os error 2)",
        "error: 1 of 2 file(s) failed"]⟩ ∧
    (mk false none (.download "definitions" ["Drive", "Driven"])).FailsAtOnce Job.offline taskDisk := by
  intro ended
  have hfiles : ["Tasks.json", "Missing.json"] ≠ [] := by
    simp
  obtain ⟨_, _, haccounts, _, hsettled⟩ :=
    run_convert_accounts hfiles Job.offline taskDisk false none (some "out")
  obtain ⟨c, hc⟩ := exists_converter_of_taskSettings
  have hready : Ready Job.offline taskDisk none (some "out") c (taskDisk.createDirectories "out").2 :=
    ⟨⟨taskSettings, loaded_taskDisk, hc⟩, by decide +kernel⟩
  have hunknown : ∃ id ∈ ["Drive", "Driven"], taskSettings.registry.find? id = none :=
    ⟨"Driven", by simp, by decide +kernel⟩
  exact ⟨⟨c, _, hready, (haccounts c _ hready).1⟩, run_taskDisk,
    (hsettled taskSettings loaded_taskDisk).2 "definitions" _ hunknown⟩

/-- Without any input nothing can go wrong, and still the run fails; the command line refuses it. -/
theorem run_convert_fails_without_files :
    (∃ c, Ready Job.offline taskDisk none none c taskDisk ∧
      ∀ o ∈ ((c.convertFiles none []).run Job.offline taskDisk).1, o.isOk) ∧
    ((mk false none (.convert [] none)).run.run Job.offline taskDisk).1.exit = 1 ∧
    ((CommandLine.run ["convert"]).run Job.offline taskDisk).1.exit = 2 := by
  obtain ⟨c, hc⟩ := exists_converter_of_taskSettings
  refine ⟨⟨c, ⟨⟨taskSettings, loaded_taskDisk, hc⟩, rfl⟩, fun o ho => ?_⟩, by decide +kernel,
    by decide +kernel⟩
  simp [Converter.convertFiles, Job.run] at ho

end Invocation
end ServiceTypings
