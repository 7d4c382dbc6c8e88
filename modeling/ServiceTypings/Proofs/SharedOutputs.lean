import ServiceTypings.Batch
import ServiceTypings.Proofs.Interleaving
import ServiceTypings.Proofs.Placement
import ServiceTypings.Proofs.Places
import ServiceTypings.Proofs.ShownLine

/-! What a batch leaves on the disk, in whatever order its inputs are read and its outputs written. An
input that is written was read before anything took its place, since declarations are never taken for a
definition file (`convert_of_convert_eq_ok`). What stands in an output file at the end is the conversion
of some input that was written there; inputs that share an output file lose all conversions but one. -/

namespace ServiceTypings

theorem Json.read?_eq_none_of_head? {text : String} (h : text.toList.head? = some 'd') :
    Json.read? text = none := by
  obtain ⟨rest, hrest⟩ := List.head?_eq_some_iff.1 h
  have hlength : text.length = rest.length + 1 := by
    rw [← String.length_toList, hrest, List.length_cons]
  have htoken : Token.next? ('d' :: rest) = none := by
    simp [Token.next?, number?, whole?, digits]
  have hspace : isSpace 'd' = false := rfl
  simp [Json.read?, hlength, hrest, Reader.run, htoken, hspace]

theorem Declarations.head?_print (width : Nat) (d : Declarations) :
    (d.print width).toList.head? = some 'd' := by
  have hheader := Namespace.shown_rootHeader d.root.localName
  rw [print, Namespace.lines_eq]
  simp only [List.cons_append, List.nil_append, List.map_cons, String.join_cons, Line.print_eq, hheader,
    String.toList_append]
  simp

/-- The outcome of an input that was written. -/
def FileOutcome.written (directory input : String) : FileOutcome :=
  ⟨input, .ok (.written (Path.output input directory))⟩

namespace Converter

/-- Declarations are no definition file. -/
theorem convert_of_convert_eq_ok {c other : Converter} {source content : String}
    (h : c.convert source = .ok content) : other.convert content = .error .malformedInput := by
  obtain ⟨_, d, _, _, rfl⟩ := convert_eq_ok_iff.1 h
  rw [convert, DefinitionFile.ofText?, Json.read?_eq_none_of_head? (d.head?_print _)]
  rfl

/-- On that disk the input holds a definition file whose conversion is `content`. -/
def Means (c : Converter) (d : Disk) (input content : String) : Prop :=
  ∃ source, d.readText input = .ok source ∧ c.convert source = .ok content

theorem Means.unique {c : Converter} {d : Disk} {input a b : String} (ha : c.Means d input a)
    (hb : c.Means d input b) : a = b := by
  obtain ⟨_, hread, hconvert⟩ := ha
  obtain ⟨_, hread', hconvert'⟩ := hb
  obtain rfl := Except.ok.inj (hread.symm.trans hread')
  exact Except.ok.inj (hconvert.symm.trans hconvert')

section

variable (c : Converter) (first : Disk) (directory : String)

/-- How far the conversion of an input can have come, if the disk was `first` when the batch began. -/
inductive Stage (input : String) : Job FileOutcome → Prop
  | waiting : Stage input (c.convertFile (some directory) input)
  | converted {content : String} {next : Except DiskError Unit → Job FileOutcome}
      (h : c.Means first input content) (hok : next (.ok ()) = .done (.written directory input))
      (herror : ∀ e, ∃ cause, next (.error e) = .done ⟨input, .error cause⟩) :
      Stage input (.writeText (Path.output input directory) content next)
  | failed (e : FileError) : Stage input (.done ⟨input, .error e⟩)
  | written {content : String} {place : Location} (h : c.Means first input content)
      (hplace : first.locate (Path.output input directory) = .ok place) :
      Stage input (.done (.written directory input))

/-- Some input that has been written goes to that place. -/
def WrittenAt (jobs : List (Job FileOutcome)) (place : Location) (content : String) : Prop :=
  ∃ input, .done (.written directory input) ∈ jobs ∧
    first.locate (Path.output input directory) = .ok place ∧ c.Means first input content

/-- What a batch can have come to. Each place holds what it held at first, or else the conversion of an
input that has been written there. -/
structure Reached (inputs : List String) (p : Job.Pool FileOutcome) : Prop where
  stages : List.Forall₂ (Stage c first directory) inputs p.jobs
  here : first.here = p.disk.here
  places : ∀ place,
    (p.disk.at? place = first.at? place ∧
      ∀ content, ¬WrittenAt c first directory p.jobs place content) ∨
    first.at? place ≠ some .directory ∧ ∃ content, WrittenAt c first directory p.jobs place content ∧
      p.disk.at? place = some (.text content)

end

variable {c : Converter} {first : Disk} {directory : String} {inputs : List String}
  {p : Job.Pool FileOutcome} {network : Network} {k : Nat} {job job' : Job FileOutcome}

theorem writtenAt_set_iff {jobs : List (Job FileOutcome)} {place : Location} {content : String}
    (hk : jobs[k]? = some job) (hjob : ∀ input, job ≠ .done (.written directory input))
    (hjob' : ∀ input, first.locate (Path.output input directory) = .ok place →
      job' ≠ .done (.written directory input)) :
    WrittenAt c first directory (jobs.set k job') place content ↔
      WrittenAt c first directory jobs place content := by
  refine exists_congr fun input => and_congr_left fun ⟨hplace, _⟩ => ⟨fun h => ?_, fun h => ?_⟩
  · exact (List.mem_or_eq_of_mem_set h).resolve_right fun hnew => hjob' input hplace hnew.symm
  · obtain ⟨n, hn⟩ := List.mem_iff_getElem?.1 h
    have hne : k ≠ n := by
      rintro rfl
      exact hjob input (Option.some_inj.1 (hk.symm.trans hn))
    exact List.mem_iff_getElem?.2 ⟨n, by rw [List.getElem?_set_ne hne, hn]⟩

theorem exists_step_convertFile (c : Converter) (first : Disk) (directory input : String)
    (network : Network) (d : Disk) :
    ∃ job', (c.convertFile (some directory) input).step network d = (job', d) ∧
      (∀ other, job' ≠ .done (.written directory other)) ∧
      ((∀ content, c.Means d input content → c.Means first input content) →
        Stage c first directory input job') := by
  refine ⟨_, rfl, ?_⟩
  cases hread : d.readText input with
  | error e => exact ⟨by simp [FileOutcome.written], fun _ => .failed _⟩
  | ok source =>
    simp only
    cases hconvert : c.convert source with
    | error e => exact ⟨by simp [FileOutcome.written], fun _ => .failed _⟩
    | ok content =>
      refine ⟨by simp, fun hmeans => ?_⟩
      exact .converted (hmeans content ⟨source, hread, hconvert⟩) rfl fun e => ⟨_, rfl⟩

namespace Reached

variable (h : Reached c first directory inputs p)

include h

theorem sameDirectories : Disk.SameDirectories first p.disk := by
  refine ⟨h.here, fun place => ?_⟩
  rcases h.places place with ⟨hsame, _⟩ | ⟨hfirst, _, _, hwritten⟩
  · rw [hsame]
  · simp [hfirst, hwritten]

/-- Whatever an input that can be converted holds now, it held at first. -/
theorem means_first {input content : String} (hmeans : c.Means p.disk input content) :
    c.Means first input content := by
  obtain ⟨source, hread, hconvert⟩ := hmeans
  obtain ⟨place, hplace, hat⟩ := Disk.readText_eq_ok_iff.1 hread
  rcases h.places place with ⟨hsame, _⟩ | ⟨_, content', ⟨_, _, _, _, _, hconvert'⟩, hwritten⟩
  · rw [hsame] at hat
    exact ⟨source, Disk.readText_eq_ok_iff.2 ⟨place, h.sameDirectories.locate_eq_ok_iff.2 hplace, hat⟩,
      hconvert⟩
  · obtain rfl : content' = source := by simpa using hwritten.symm.trans hat
    rw [convert_of_convert_eq_ok hconvert'] at hconvert
    simp at hconvert

theorem set_of_not_written (hk : p.jobs[k]? = some job)
    (hjob : ∀ input, job ≠ .done (.written directory input))
    (hjob' : ∀ input, job' ≠ .done (.written directory input))
    (hstage : ∀ input, inputs[k]? = some input → Stage c first directory input job') :
    Reached c first directory inputs ⟨p.jobs.set k job', p.disk⟩ := by
  refine ⟨forall₂_set h.stages hstage, h.here, fun place => ?_⟩
  simp only [writtenAt_set_iff hk hjob fun input _ => hjob' input]
  exact h.places place

theorem set_written {input content : String} {d : Disk} {next : Except DiskError Unit → Job FileOutcome}
    (hk : p.jobs[k]? = some (.writeText (Path.output input directory) content next))
    (hinput : inputs[k]? = some input) (hmeans : c.Means first input content)
    (hwrite : p.disk.writeText (Path.output input directory) content = .ok d) :
    Reached c first directory inputs ⟨p.jobs.set k (.done (.written directory input)), d⟩ := by
  obtain ⟨place, hplace, hfile, rfl⟩ := Disk.writeText_eq_ok_iff.1 hwrite
  have hplace := h.sameDirectories.locate_eq_ok_iff.2 hplace
  obtain ⟨hlength, _⟩ := List.getElem?_eq_some_iff.1 hk
  refine ⟨forall₂_set h.stages fun other hother => ?_, h.here, fun target => ?_⟩
  · obtain rfl := Option.some_inj.1 (hinput.symm.trans hother)
    exact .written hmeans hplace
  -- the place now holds what was written last, whatever was written there before
  by_cases htarget : target = place
  · subst htarget
    refine Or.inr ⟨fun hdirectory => hfile ((h.sameDirectories.directory_iff target).1 hdirectory),
      content, ⟨input, List.mem_set hlength _, hplace, hmeans⟩, ?_⟩
    exact Disk.at?_put_self _ (Disk.ne_nil_of_at?_ne_directory hfile) _
  · have hwritten : ∀ content', WrittenAt c first directory
        (p.jobs.set k (.done (.written directory input))) target content' ↔
          WrittenAt c first directory p.jobs target content' := by
      intro content'
      refine writtenAt_set_iff hk (by simp) fun other hother hsame => htarget ?_
      obtain rfl : input = other := congrArg FileOutcome.input (Job.done.inj hsame)
      exact Except.ok.inj (hother.symm.trans hplace)
    simp only [hwritten, Disk.at?_put_of_ne p.disk htarget]
    exact h.places target

theorem turn (k : Nat) : Reached c first directory inputs (p.turn network k) := by
  cases hk : p.jobs[k]? with
  | none => rwa [Job.Pool.turn_of_none hk]
  | some job =>
    obtain ⟨input, hinput, hstage⟩ := exists_of_forall₂_getElem? h.stages hk
    have hinput' : ∀ other, inputs[k]? = some other → other = input := fun other hother =>
      Option.some_inj.1 (hother.symm.trans hinput)
    cases hstage with
    | failed e => rwa [Job.Pool.turn_of_done hk]
    | written => rwa [Job.Pool.turn_of_done hk]
    | waiting =>
      obtain ⟨job', hstep, hnew, hstage⟩ :=
        exists_step_convertFile c first directory input network p.disk
      rw [Job.Pool.turn_of_some hk, hstep]
      refine h.set_of_not_written hk (by simp [convertFile]) hnew fun other hother => ?_
      rw [hinput' other hother]
      exact hstage fun content => h.means_first
    | @converted content next hmeans hok herror =>
      rw [Job.Pool.turn_of_some hk, Job.step]
      cases hwrite : p.disk.writeText (Path.output input directory) content with
      | ok d =>
        simp only [hok]
        exact h.set_written hk hinput hmeans hwrite
      | error e =>
        obtain ⟨cause, herror⟩ := herror e
        simp only [herror]
        refine h.set_of_not_written hk (by simp) (by simp [FileOutcome.written]) fun other hother => ?_
        rw [hinput' other hother]
        exact .failed cause

end Reached

theorem reached_start (c : Converter) (first : Disk) (directory : String) (inputs : List String) :
    Reached c first directory inputs ⟨inputs.map (c.convertFile (some directory)), first⟩ := by
  refine ⟨?_, rfl, fun place => Or.inl ⟨rfl, ?_⟩⟩
  · rw [List.forall₂_map_right_iff]
    exact List.forall₂_same.2 fun input _ => .waiting
  · rintro content ⟨input, hmem, _⟩
    obtain ⟨other, _, hother⟩ := List.mem_map.1 hmem
    simp [convertFile] at hother

theorem convertFiles_eq_inOrder (c : Converter) (directory : Option String) (inputs : List String) :
    c.convertFiles directory inputs = Job.inOrder (inputs.map (c.convertFile directory)) := by
  induction inputs with
  | nil => rfl
  | cons input inputs ih =>
    rw [convertFiles, ih]
    rfl

theorem exists_turns_eq_convertFiles (c : Converter) (directory : Option String)
    (inputs : List String) (network : Network) (d : Disk) :
    ∃ schedule, Job.Pool.turns network schedule ⟨inputs.map (c.convertFile directory), d⟩ =
      ⟨((c.convertFiles directory inputs).run network d).1.map .done,
        ((c.convertFiles directory inputs).run network d).2⟩ := by
  rw [convertFiles_eq_inOrder]
  exact Job.Pool.exists_turns_eq_inOrder network _ d

theorem Stage.outcome {input : String} {o : FileOutcome}
    (h : Stage c first directory input (.done o)) :
    o.input = input ∧ ∀ path, o.result = .ok (.written path) →
      o = .written directory input ∧ path = Path.output input directory ∧
      (∃ content, c.Means first input content) ∧ ∃ place, first.locate path = .ok place := by
  cases h with
  | failed e => exact ⟨rfl, fun path hpath => by simp at hpath⟩
  | @written content place hmeans hplace =>
    refine ⟨rfl, fun path hpath => ?_⟩
    obtain rfl : Path.output input directory = path := by simpa [FileOutcome.written] using hpath
    exact ⟨rfl, rfl, ⟨content, hmeans⟩, place, hplace⟩

theorem Reached.input_eq {outcomes : List FileOutcome} {d : Disk}
    (h : Reached c first directory inputs ⟨outcomes.map .done, d⟩) :
    outcomes.map FileOutcome.input = inputs := by
  have hstages := List.forall₂_map_right_iff.1 h.stages
  rw [← List.forall₂_eq_eq_eq, List.forall₂_map_left_iff]
  exact hstages.flip.imp fun o input hstage => hstage.outcome.1

/-- When all is done, an output file holds the conversion of some input that was written there. -/
theorem Reached.exists_readText {outcomes : List FileOutcome} {d : Disk}
    (h : Reached c first directory inputs ⟨outcomes.map .done, d⟩) {o : FileOutcome}
    (ho : o ∈ outcomes) {path : String} (hpath : o.result = .ok (.written path)) :
    path = Path.output o.input directory ∧ (∃ content, c.Means first o.input content) ∧
      ∃ other ∈ outcomes, other.result = .ok (.written path) ∧
        ∃ content, c.Means first other.input content ∧ d.readText path = .ok content := by
  have hstages := List.forall₂_map_right_iff.1 h.stages
  obtain ⟨k, hk⟩ := List.mem_iff_getElem?.1 ho
  obtain ⟨input, _, hstage⟩ := exists_of_forall₂_getElem? hstages hk
  obtain ⟨rfl, hwritten⟩ := hstage.outcome
  obtain ⟨hself, rfl, hmeans, place, hplace⟩ := hwritten path hpath
  refine ⟨rfl, hmeans, ?_⟩
  rcases h.places place with ⟨_, hnone⟩ | ⟨_, content, ⟨other, hmem, hother, hcontent⟩, hat⟩
  · obtain ⟨content, hcontent⟩ := hmeans
    exact absurd ⟨o.input, List.mem_map.2 ⟨o, ho, by rw [← hself]⟩, hplace, hcontent⟩ (hnone content)
  · obtain ⟨o', ho', hdone⟩ := List.mem_map.1 hmem
    obtain rfl := Job.done.inj hdone
    refine ⟨_, ho', ?_, content, hcontent, ?_⟩
    · rw [FileOutcome.written, Disk.output_eq_of_locate_eq hplace hother]
    · exact Disk.readText_eq_ok_iff.2 ⟨place, h.sameDirectories.locate_eq_ok_iff.1 hplace, hat⟩

/-- The file at `path` holds what the input's content on the disk `first` is converted to. -/
def OwnAt (c : Converter) (first d : Disk) (input path : String) : Prop :=
  ∃ content, c.Means first input content ∧ d.readText path = .ok content

/-- Whatever turns the files of a batch take: each outcome is that of its input, and the file of an input
that was written holds the conversion of what some input written there held at first. All have their own
conversions on disk exactly if those written to one path have the same. -/
theorem own_conversions_iff {c : Converter} {first d : Disk} {directory : String}
    {inputs : List String} {network : Network} {schedule : List Nat} {outcomes : List FileOutcome}
    (h : Job.Pool.turns network schedule ⟨inputs.map (c.convertFile (some directory)), first⟩ =
      ⟨outcomes.map .done, d⟩) :
    outcomes.map FileOutcome.input = inputs ∧
    (∀ o ∈ outcomes, ∀ path, o.result = .ok (.written path) →
      path = Path.output o.input directory ∧ (∃ content, c.Means first o.input content) ∧
      ∃ other ∈ outcomes, other.result = .ok (.written path) ∧ c.OwnAt first d other.input path) ∧
    ((∀ o ∈ outcomes, ∀ path, o.result = .ok (.written path) → c.OwnAt first d o.input path) ↔
      ∀ o ∈ outcomes, ∀ other ∈ outcomes, ∀ path, o.result = .ok (.written path) →
        other.result = .ok (.written path) →
        ∀ content, c.Means first o.input content ↔ c.Means first other.input content) := by
  have hreached : Reached c first directory inputs ⟨outcomes.map .done, d⟩ := by
    rw [← h]
    exact Job.Pool.turns_induction (fun p k hp => hp.turn k) (reached_start c first directory inputs)
      schedule
  refine ⟨hreached.input_eq, fun o ho path hpath => hreached.exists_readText ho hpath, ?_, ?_⟩
  · intro hown o ho other hother path hpath hpath' content
    obtain ⟨mine, hmine, hread⟩ := hown o ho path hpath
    obtain ⟨theirs, htheirs, hread'⟩ := hown other hother path hpath'
    obtain rfl := Except.ok.inj (hread.symm.trans hread')
    constructor
    · intro hcontent
      rwa [hcontent.unique hmine]
    · intro hcontent
      rwa [hcontent.unique htheirs]
  · intro hsame o ho path hpath
    obtain ⟨_, _, other, hother, hpath', content, hcontent, hread⟩ :=
      hreached.exists_readText ho hpath
    exact ⟨content, (hsame o ho other hother path hpath hpath' content).2 hcontent, hread⟩

/-- Two services in directories of their own, in files of one name, and a third file beside them. -/
def sharedNames : Disk :=
  ⟨[(["a"], .directory), (["a", "X.json"], .text "\x7b\"1\":\x7b\"1\":\"Tasks_v1\"\x7d\x7d"),
    (["b"], .directory), (["b", "X.json"], .text "\x7b\"1\":\x7b\"1\":\"Tasks.V1.Board\"\x7d\x7d"),
    (["b", "Y.json"], .text "\x7b\"1\":\x7b\"1\":\"Tasks.V1.Board\"\x7d\x7d"),
    (["out"], .directory)], []⟩

def taskConverter : Converter :=
  ⟨taskRegistry, ⟨["Root"], by decide⟩, 80⟩

/-- The declarations of one interface without members below the root of `taskConverter`. -/
def bareDeclarations (name : String) : String :=
  "declare namespace Root \x7b\n  export interface " ++ name ++ " \x7b\n  \x7d\n\x7d\n\ndeclare const " ++
    name ++ ": Root." ++ name ++ ";\n"

/-- Files of different names all have their own conversions. -/
theorem own_conversions_of_two_names :
    ∃ (schedule : List Nat) (outcomes : List FileOutcome) (d : Disk),
      Job.Pool.turns Job.offline schedule
        ⟨["a/X.json", "b/Y.json"].map (taskConverter.convertFile (some "out")), sharedNames⟩ =
          ⟨outcomes.map .done, d⟩ ∧
      outcomes.map FileOutcome.result =
        [.ok (.written "out/X.d.ts"), .ok (.written "out/Y.d.ts")] ∧
      ∀ o ∈ outcomes, ∀ path, o.result = .ok (.written path) →
        taskConverter.OwnAt sharedNames d o.input path := by
  obtain ⟨schedule, h⟩ := exists_turns_eq_convertFiles taskConverter (some "out")
    ["a/X.json", "b/Y.json"] Job.offline sharedNames
  obtain ⟨outcomes, houtcomes⟩ : ∃ outcomes, outcomes = ((taskConverter.convertFiles (some "out")
    ["a/X.json", "b/Y.json"]).run Job.offline sharedNames).1 := ⟨_, rfl⟩
  have hresults : outcomes.map FileOutcome.result =
      [.ok (.written "out/X.d.ts"), .ok (.written "out/Y.d.ts")] := by
    rw [houtcomes]
    decide +kernel
  have hinput : ∀ x ∈ outcomes.map fun o => (o.input, o.result),
      ∀ y ∈ outcomes.map fun o => (o.input, o.result), x.2 = y.2 → x.1 = y.1 := by
    rw [houtcomes]
    decide +kernel
  rw [← houtcomes] at h
  refine ⟨schedule, outcomes, _, h, hresults, (own_conversions_iff h).2.2.2 ?_⟩
  intro o ho other hother path hpath hpath' content
  have hsame : o.input = other.input :=
    hinput _ (List.mem_map.2 ⟨o, ho, rfl⟩) _ (List.mem_map.2 ⟨other, hother, rfl⟩)
      (hpath.trans hpath'.symm)
  rw [hsame]

/-- Of two files of one name the second takes the place of the first, and both count as written. -/
theorem convertFiles_loses_conversion :
    ∃ outcomes d, (taskConverter.convertFiles (some "out") ["a/X.json", "b/X.json"]).run Job.offline
        sharedNames = (outcomes, d) ∧
      outcomes.map FileOutcome.result =
        [.ok (.written "out/X.d.ts"), .ok (.written "out/X.d.ts")] ∧
      taskConverter.Means sharedNames "a/X.json" (bareDeclarations "Tasks") ∧
      d.readText "out/X.d.ts" = .ok (bareDeclarations "Board") ∧
      ¬taskConverter.OwnAt sharedNames d "a/X.json" "out/X.d.ts" := by
  have hmeans : taskConverter.Means sharedNames "a/X.json" (bareDeclarations "Tasks") :=
    ⟨"\x7b\"1\":\x7b\"1\":\"Tasks_v1\"\x7d\x7d", by decide +kernel, by decide +kernel⟩
  have hread : ((taskConverter.convertFiles (some "out") ["a/X.json", "b/X.json"]).run Job.offline
      sharedNames).2.readText "out/X.d.ts" = .ok (bareDeclarations "Board") := by decide +kernel
  refine ⟨_, _, rfl, by decide +kernel, hmeans, hread, ?_⟩
  rintro ⟨content, hown, hread'⟩
  obtain rfl := hown.unique hmeans
  exact absurd (Except.ok.inj (hread'.symm.trans hread)) (by decide +kernel)

end Converter
end ServiceTypings
