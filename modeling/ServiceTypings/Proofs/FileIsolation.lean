import ServiceTypings.Proofs.SharedOutputs

/-! The files of a batch on their own. Whatever turns they take, a batch comes to its end, with one outcome
for each input in the order of the inputs; an input that cannot be read or converted touches nothing, and
what changes on the disk is the output of an input that was converted. Without an output directory nothing
changes, and each outcome is what the input alone comes to (`convertFiles_isolated`). -/

namespace ServiceTypings

namespace Job

variable {α : Type} {network : Network} {d : Disk} {n : Nat} {job : Job α}

/-- The job is done after so many answers, whatever they are. -/
def EndsWithin : Nat → Job α → Prop
  | 0, job => ∃ result, job = .done result
  | n + 1, job => ∀ network d, EndsWithin n (job.step network d).1

theorem endsWithin_done (result : α) (n : Nat) : EndsWithin n (.done result) := by
  induction n with
  | zero => exact ⟨result, rfl⟩
  | succ n ih => exact fun _ _ => ih

theorem EndsWithin.succ (h : EndsWithin n job) : EndsWithin (n + 1) job := by
  induction n generalizing job with
  | zero =>
    obtain ⟨result, rfl⟩ := h
    exact endsWithin_done result 1
  | succ n ih => exact fun network d => ih (h network d)

theorem EndsWithin.mono {m : Nat} (h : EndsWithin n job) (hle : n ≤ m) : EndsWithin m job := by
  induction hle with
  | refl => exact h
  | step _ ih => exact ih.succ

theorem exists_eq_map_done {jobs : List (Job α)} (h : ∀ job ∈ jobs, ∃ result, job = .done result) :
    ∃ results : List α, jobs = results.map .done := by
  induction jobs with
  | nil => exact ⟨[], rfl⟩
  | cons job jobs ih =>
    obtain ⟨⟨result, rfl⟩, hjobs⟩ := List.forall_mem_cons.1 h
    obtain ⟨results, rfl⟩ := ih hjobs
    exact ⟨result :: results, rfl⟩

namespace Pool

variable {p : Pool α} {k : Nat} {result : α}

theorem length_turn (network : Network) (p : Pool α) (k : Nat) :
    (p.turn network k).jobs.length = p.jobs.length := by
  cases hk : p.jobs[k]? with
  | none => rw [turn_of_none hk]
  | some job => rw [turn_of_some hk, List.length_set]

theorem length_turns (network : Network) (schedule : List Nat) (p : Pool α) :
    (p.turns network schedule).jobs.length = p.jobs.length :=
  turns_induction (I := fun q => q.jobs.length = p.jobs.length)
    (fun q k h => (length_turn network q k).trans h) rfl schedule

theorem getElem?_turn_self (network : Network) (hk : p.jobs[k]? = some job) :
    (p.turn network k).jobs[k]? = some (job.step network p.disk).1 := by
  obtain ⟨hlength, _⟩ := List.getElem?_eq_some_iff.1 hk
  rw [turn_of_some hk, List.getElem?_set_self hlength]

theorem getElem?_turn_of_ne {l : Nat} (h : l ≠ k) : (p.turn network l).jobs[k]? = p.jobs[k]? := by
  cases hl : p.jobs[l]? with
  | none => rw [turn_of_none hl]
  | some job => rw [turn_of_some hl, List.getElem?_set_ne h]

/-- A job that has been given its turns is done. -/
theorem exists_getElem?_turns_eq_done (network : Network) (hk : p.jobs[k]? = some job)
    (hjob : EndsWithin n job) {schedule : List Nat} (hcount : n ≤ schedule.count k) :
    ∃ result, (p.turns network schedule).jobs[k]? = some (.done result) := by
  induction schedule generalizing p job n with
  | nil =>
    obtain rfl : n = 0 := Nat.le_zero.1 hcount
    obtain ⟨result, rfl⟩ := hjob
    exact ⟨result, hk⟩
  | cons l schedule ih =>
    by_cases hl : l = k
    · subst hl
      rw [List.count_cons_self] at hcount
      have hstep : EndsWithin (schedule.count l + 1) job := hjob.mono hcount
      exact ih (getElem?_turn_self network hk) (hstep network p.disk) (Nat.le_refl _)
    · rw [List.count_cons_of_ne hl] at hcount
      exact ih ((getElem?_turn_of_ne hl).trans hk) hjob hcount

/-- A job that is done stays so. -/
theorem getElem?_turns_of_done (network : Network) (hk : p.jobs[k]? = some (.done result))
    (schedule : List Nat) :
    (p.turns network schedule).jobs[k]? = some (.done result) := by
  refine turns_induction (I := fun q => q.jobs[k]? = some (.done result)) (fun q l h => ?_) hk schedule
  by_cases hl : l = k
  · subst hl
    rw [turn_of_done h, h]
  · rw [getElem?_turn_of_ne hl, h]

/-- Where every job ends within `n` answers and has as many turns, all are done. -/
theorem exists_turns_eq_done {jobs : List (Job α)} (hjobs : ∀ job ∈ jobs, EndsWithin n job)
    {schedule : List Nat} (hcount : ∀ k < jobs.length, n ≤ schedule.count k) (network : Network)
    (d : Disk) :
    ∃ (results : List α) (d' : Disk), turns network schedule ⟨jobs, d⟩ = ⟨results.map .done, d'⟩ := by
  obtain ⟨results, hresults⟩ : ∃ results : List α,
      (turns network schedule ⟨jobs, d⟩).jobs = results.map .done := by
    refine exists_eq_map_done fun job hjob => ?_
    obtain ⟨k, hk⟩ := List.mem_iff_getElem?.1 hjob
    have hlength : k < jobs.length := by
      rw [← length_turns network schedule ⟨jobs, d⟩]
      exact (List.getElem?_eq_some_iff.1 hk).1
    have hstart : (⟨jobs, d⟩ : Pool α).jobs[k]? = some jobs[k] := List.getElem?_eq_getElem hlength
    obtain ⟨result, hdone⟩ := exists_getElem?_turns_eq_done network hstart
      (hjobs _ (List.getElem_mem hlength)) (hcount k hlength)
    exact ⟨result, Option.some_inj.1 (hk.symm.trans hdone)⟩
  exact ⟨results, (turns network schedule ⟨jobs, d⟩).disk, by rw [← hresults]⟩

end Pool
end Job

/-- The input could not be read, or what it holds could not be converted. -/
def FileOutcome.Refused (o : FileOutcome) : Prop :=
  (∃ cause, o.result = .error (.read cause)) ∨ ∃ cause, o.result = .error (.conversion cause)

theorem FileOutcome.Refused.ne_written {o : FileOutcome} (h : o.Refused) (directory input : String) :
    o ≠ .written directory input := by
  rintro rfl
  rcases h with ⟨cause, h⟩ | ⟨cause, h⟩
  · simp [written] at h
  · simp [written] at h

namespace Converter

variable {c : Converter} {first : Disk} {inputs : List String} {p : Job.Pool FileOutcome}
  {network : Network} {k : Nat}

/-- A file is read, and perhaps written. -/
theorem endsWithin_convertFile (c : Converter) (directory : Option String) (input : String) :
    Job.EndsWithin 2 (c.convertFile directory input) := by
  intro network d
  rw [convertFile, Job.step]
  cases d.readText input with
  | error e => exact Job.endsWithin_done _ 1
  | ok source =>
    cases hconvert : c.convert source with
    | error e => simpa only [hconvert] using Job.endsWithin_done _ 1
    | ok content =>
      cases directory with
      | none => simpa only [hconvert] using Job.endsWithin_done _ 1
      | some directory =>
        intro network d
        simp only [hconvert, Job.step]
        split <;> exact Job.endsWithin_done _ 0

section WithDirectory

variable {directory : String}

/-- The disk changes only as an input is written. -/
theorem Stage.step_disk_eq_or_written {input : String} {job : Job FileOutcome}
    (h : Stage c first directory input job) (network : Network) (d : Disk) :
    (job.step network d).2 = d ∨ (job.step network d).1 = .done (.written directory input) := by
  cases h with
  | waiting | failed | written => exact Or.inl rfl
  | @converted content next _ hok _ =>
    rw [Job.step]
    cases d.writeText (Path.output input directory) content with
    | ok d' => exact Or.inr hok
    | error e => exact Or.inl rfl

theorem Reached.turns (h : Reached c first directory inputs p) (network : Network)
    (schedule : List Nat) :
    Reached c first directory inputs (p.turns network schedule) :=
  Job.Pool.turns_induction (fun _ k h => h.turn k) h schedule

/-- The turns of an input that is not written in the end leave the disk as it is. -/
theorem Reached.disk_turn_eq_of_not_written (h : Reached c first directory inputs p)
    (rest : List Nat) {o : FileOutcome}
    (ho : ((p.turn network k).turns network rest).jobs[k]? = some (.done o))
    (hwritten : ∀ input, o ≠ .written directory input) : (p.turn network k).disk = p.disk := by
  cases hk : p.jobs[k]? with
  | none => rw [Job.Pool.turn_of_none hk]
  | some job =>
    obtain ⟨input, _, hstage⟩ := exists_of_forall₂_getElem? h.stages hk
    rcases hstage.step_disk_eq_or_written network p.disk with hdisk | hdone
    · rw [Job.Pool.turn_of_some hk, hdisk]
    · have hnext := Job.Pool.getElem?_turn_self network hk
      rw [hdone] at hnext
      have hlast := Job.Pool.getElem?_turns_of_done network hnext rest
      exact absurd (Job.done.inj (Option.some_inj.1 (ho.symm.trans hlast))) (hwritten input)

/-- What is changed in the end is the output of an input that was converted. -/
theorem Reached.exists_written_of_at?_ne {outcomes : List FileOutcome} {d : Disk}
    (h : Reached c first directory inputs ⟨outcomes.map .done, d⟩) {place : Location}
    (hne : d.at? place ≠ first.at? place) :
    ∃ o ∈ outcomes, o.result = .ok (.written (Path.output o.input directory)) ∧
      d.locate (Path.output o.input directory) = .ok place ∧
      ∃ content, c.Means first o.input content := by
  rcases h.places place with ⟨hsame, _⟩ | ⟨_, content, ⟨input, hmem, hplace, hmeans⟩, _⟩
  · exact absurd hsame hne
  · obtain ⟨o, ho, hdone⟩ := List.mem_map.1 hmem
    obtain rfl := Job.done.inj hdone
    exact ⟨_, ho, rfl, h.sameDirectories.locate_eq_ok_iff.1 hplace, content, hmeans⟩

end WithDirectory

section WithoutDirectory

/-- What an input alone comes to if its declarations are not written. -/
def alone (c : Converter) (network : Network) (first : Disk) (input : String) : FileOutcome :=
  ((c.convertFile none input).run network first).1

theorem step_convertFile_none (c : Converter) (network : Network) (d : Disk) (input : String) :
    (c.convertFile none input).step network d = (.done (c.alone network d input), d) := by
  rw [alone, convertFile, Job.step, Job.run]
  cases d.readText input with
  | error e => rfl
  | ok source => cases hconvert : c.convert source <;> simp only [hconvert, Job.run]

/-- What a batch without an output directory can have come to: the disk is as it was, and each input waits
or has come to what it comes to alone. -/
structure Unwritten (c : Converter) (network : Network) (first : Disk) (inputs : List String)
    (p : Job.Pool FileOutcome) : Prop where
  disk : p.disk = first
  jobs : List.Forall₂ (fun input job => job = c.convertFile none input ∨
    job = .done (c.alone network first input)) inputs p.jobs

theorem unwritten_start (c : Converter) (network : Network) (first : Disk) (inputs : List String) :
    Unwritten c network first inputs ⟨inputs.map (c.convertFile none), first⟩ := by
  refine ⟨rfl, ?_⟩
  rw [List.forall₂_map_right_iff]
  exact List.forall₂_same.2 fun input _ => Or.inl rfl

theorem Unwritten.turn (h : Unwritten c network first inputs p) (k : Nat) :
    Unwritten c network first inputs (p.turn network k) := by
  cases hk : p.jobs[k]? with
  | none => rwa [Job.Pool.turn_of_none hk]
  | some job =>
    obtain ⟨input, hinput, hjob⟩ := exists_of_forall₂_getElem? h.jobs hk
    have hstep : job.step network p.disk = (.done (c.alone network first input), first) := by
      rcases hjob with rfl | rfl
      · rw [h.disk, step_convertFile_none]
      · rw [Job.step, h.disk]
    rw [Job.Pool.turn_of_some hk, hstep]
    refine ⟨rfl, forall₂_set h.jobs fun other hother => Or.inr ?_⟩
    rw [Option.some_inj.1 (hinput.symm.trans hother)]

theorem Unwritten.turns (h : Unwritten c network first inputs p) (schedule : List Nat) :
    Unwritten c network first inputs (p.turns network schedule) :=
  Job.Pool.turns_induction (fun _ k h => h.turn k) h schedule

theorem Unwritten.eq_map_alone {outcomes : List FileOutcome} {d : Disk}
    (h : Unwritten c network first inputs ⟨outcomes.map .done, d⟩) :
    d = first ∧ outcomes = inputs.map (c.alone network first) := by
  refine ⟨h.disk, ?_⟩
  have hjobs := List.forall₂_map_right_iff.1 h.jobs
  rw [← List.forall₂_eq_eq_eq, List.forall₂_map_right_iff]
  refine (hjobs.imp fun input o ho => ?_).flip
  rcases ho with hwaiting | hdone
  · simp [convertFile] at hwaiting
  · exact Job.done.inj hdone

theorem input_alone (c : Converter) (network : Network) (d : Disk) (input : String) :
    (c.alone network d input).input = input := by
  rw [alone, convertFile, Job.run]
  cases d.readText input with
  | error e => rfl
  | ok source => cases hconvert : c.convert source <;> simp only [hconvert, Job.run]

end WithoutDirectory

/-- The files of a batch before the first turn. -/
def batch (c : Converter) (directory : Option String) (inputs : List String) (first : Disk) :
    Job.Pool FileOutcome :=
  ⟨inputs.map (c.convertFile directory), first⟩

/-- Files that take turns come to their end once each has had two, and to convert them one after the other
is one way to take turns. In whatever order they took them: there is one outcome for each input, in the
order of the inputs; the turns of an input that could not be read or converted left the disk as it was;
what has changed on the disk is the output of an input that was converted; and without an output directory
nothing has, and each outcome is that of the input alone. -/
theorem convertFiles_isolated (c : Converter) (directory : Option String) (inputs : List String)
    (network : Network) (first : Disk) :
    (∃ schedule, (c.batch directory inputs first).turns network schedule =
      ⟨((c.convertFiles directory inputs).run network first).1.map .done,
        ((c.convertFiles directory inputs).run network first).2⟩) ∧
    (∀ schedule, (∀ k < inputs.length, 2 ≤ schedule.count k) → ∃ (outcomes : List FileOutcome) (d : Disk),
      (c.batch directory inputs first).turns network schedule = ⟨outcomes.map .done, d⟩) ∧
    ∀ (schedule : List Nat) (outcomes : List FileOutcome) (d : Disk),
      (c.batch directory inputs first).turns network schedule = ⟨outcomes.map .done, d⟩ →
      outcomes.map FileOutcome.input = inputs ∧
      (∀ before k after o, schedule = before ++ k :: after → outcomes[k]? = some o → o.Refused →
        (((c.batch directory inputs first).turns network before).turn network k).disk =
          ((c.batch directory inputs first).turns network before).disk) ∧
      (∀ place, d.at? place ≠ first.at? place → ∃ out, directory = some out ∧ ∃ o ∈ outcomes,
        o.result = .ok (.written (Path.output o.input out)) ∧
        d.locate (Path.output o.input out) = .ok place ∧ ∃ content, c.Means first o.input content) ∧
      (directory = none → d = first ∧ outcomes = inputs.map (c.alone network first)) := by
  refine ⟨exists_turns_eq_convertFiles c directory inputs network first, fun schedule hcount => ?_, ?_⟩
  · refine Job.Pool.exists_turns_eq_done (fun job hjob => ?_) (by rwa [List.length_map]) network first
    obtain ⟨input, _, rfl⟩ := List.mem_map.1 hjob
    exact endsWithin_convertFile c directory input
  · intro schedule outcomes d hend
    cases directory with
    | none =>
      have hstart : Unwritten c network first inputs (c.batch none inputs first) :=
        unwritten_start c network first inputs
      have hlast := hstart.turns schedule
      obtain ⟨rfl, houtcomes⟩ := Unwritten.eq_map_alone (hend ▸ hlast)
      refine ⟨?_, fun before k _ _ _ _ _ => ?_, fun place hne => absurd rfl hne, fun _ => ⟨rfl, houtcomes⟩⟩
      · rw [houtcomes, List.map_map]
        exact List.map_id'' (input_alone c network d) inputs
      · exact ((hstart.turns before).turn k).disk.trans (hstart.turns before).disk.symm
    | some out =>
      have hstart : Reached c first out inputs (c.batch (some out) inputs first) :=
        reached_start c first out inputs
      have hlast := hend ▸ hstart.turns network schedule
      refine ⟨hlast.input_eq, fun before k after o hschedule ho hrefused => ?_, fun place hne => ?_,
        fun hnone => absurd hnone (by simp)⟩
      · refine (hstart.turns network before).disk_turn_eq_of_not_written after ?_
          (hrefused.ne_written out)
        subst hschedule
        rw [Job.Pool.turns_append] at hend
        change ((Job.Pool.turns network before _).turn network k).turns network after = _ at hend
        rw [hend, List.getElem?_map, ho]
        rfl
      · obtain ⟨o, ho, hwritten⟩ := hlast.exists_written_of_at?_ne hne
        exact ⟨out, rfl, o, ho, hwritten⟩

/-- Of two files one is written and the other is not there. -/
theorem convertFiles_isolated_from_missing :
    ∃ (schedule : List Nat) (outcomes : List FileOutcome) (d : Disk),
      (taskConverter.batch (some "out") ["a/X.json", "b/Z.json"] sharedNames).turns Job.offline schedule =
        ⟨outcomes.map .done, d⟩ ∧
      outcomes.map FileOutcome.input = ["a/X.json", "b/Z.json"] ∧
      outcomes.map FileOutcome.result =
        [.ok (.written "out/X.d.ts"), .error (.read .notFound)] ∧
      d.at? ["out", "X.d.ts"] ≠ sharedNames.at? ["out", "X.d.ts"] ∧
      ∀ before after, schedule = before ++ 1 :: after →
        (((taskConverter.batch (some "out") ["a/X.json", "b/Z.json"] sharedNames).turns Job.offline
          before).turn Job.offline 1).disk =
        ((taskConverter.batch (some "out") ["a/X.json", "b/Z.json"] sharedNames).turns Job.offline
          before).disk := by
  obtain ⟨⟨schedule, h⟩, _, hall⟩ := convertFiles_isolated taskConverter (some "out")
    ["a/X.json", "b/Z.json"] Job.offline sharedNames
  obtain ⟨outcomes, houtcomes⟩ : ∃ outcomes, outcomes = ((taskConverter.convertFiles (some "out")
    ["a/X.json", "b/Z.json"]).run Job.offline sharedNames).1 := ⟨_, rfl⟩
  have hresults : outcomes.map FileOutcome.result =
      [.ok (.written "out/X.d.ts"), .error (.read .notFound)] := by
    rw [houtcomes]
    decide +kernel
  rw [← houtcomes] at h
  obtain ⟨hinput, hrefused, _⟩ := hall schedule outcomes _ h
  refine ⟨schedule, outcomes, _, h, hinput, hresults, by decide +kernel, ?_⟩
  intro before after hschedule
  obtain ⟨o, ho, hresult⟩ : ∃ o, outcomes[1]? = some o ∧ o.result = .error (.read .notFound) := by
    have hsecond := congrArg (·[1]?) hresults
    simpa using hsecond
  exact hrefused before 1 after o hschedule ho (Or.inl ⟨.notFound, hresult⟩)

end Converter
end ServiceTypings
