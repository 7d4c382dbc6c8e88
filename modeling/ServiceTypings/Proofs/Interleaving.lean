import Mathlib.Data.List.Forall2
import ServiceTypings.Job

/-! Jobs that share a disk and take turns. In each turn one of them has its next request answered; which
one is up to the schedule. What one turn keeps, every schedule keeps (`turns_induction`), and to run the
jobs one after the other is to follow one of the schedules (`exists_turns_eq_inOrder`). -/

namespace ServiceTypings

/-- A relation between two lists stays if an element is exchanged for one that fits as well. -/
theorem forall₂_set {α β : Type} {R : α → β → Prop} {xs : List α} {ys : List β}
    (h : List.Forall₂ R xs ys) {k : Nat} {y : β} (hy : ∀ x, xs[k]? = some x → R x y) :
    List.Forall₂ R xs (ys.set k y) := by
  induction h generalizing k with
  | nil => exact .nil
  | cons hxy hrest ih =>
    cases k with
    | zero => exact .cons (hy _ rfl) hrest
    | succ k => exact .cons hxy (ih hy)

namespace Job

variable {α : Type}

/-- Runs jobs one after the other. -/
def inOrder : List (Job α) → Job (List α)
  | [] => .done []
  | job :: jobs => do
    let result ← job
    let results ← inOrder jobs
    return result :: results

structure Pool (α : Type) where
  jobs : List (Job α)
  disk : Disk

namespace Pool

variable {network : Network} {p : Pool α} {k : Nat} {job : Job α}

/-- Answers the next request of the job at place `k`. -/
def turn (network : Network) (p : Pool α) (k : Nat) : Pool α :=
  match p.jobs[k]? with
  | some job => ⟨p.jobs.set k (job.step network p.disk).1, (job.step network p.disk).2⟩
  | none => p

/-- One turn after another, as the schedule says whose it is. -/
def turns (network : Network) (schedule : List Nat) (p : Pool α) : Pool α :=
  schedule.foldl (turn network) p

theorem turn_of_some (h : p.jobs[k]? = some job) :
    p.turn network k = ⟨p.jobs.set k (job.step network p.disk).1, (job.step network p.disk).2⟩ := by
  rw [turn, h]

theorem turn_of_none (h : p.jobs[k]? = none) : p.turn network k = p := by
  rw [turn, h]

/-- A job that is done has no request left. -/
theorem turn_of_done {result : α} (h : p.jobs[k]? = some (.done result)) :
    p.turn network k = p := by
  obtain ⟨hk, hget⟩ := List.getElem?_eq_some_iff.1 h
  rw [turn_of_some h, step, ← hget, List.set_getElem_self]

theorem turns_induction {I : Pool α → Prop} (hturn : ∀ p k, I p → I (p.turn network k)) (h : I p)
    (schedule : List Nat) : I (p.turns network schedule) := by
  induction schedule generalizing p with
  | nil => exact h
  | cons k schedule ih => exact ih (hturn p k h)

theorem turns_append (first second : List Nat) (p : Pool α) :
    p.turns network (first ++ second) = (p.turns network first).turns network second :=
  List.foldl_append

/-- The first job alone can be carried to its end. -/
theorem exists_turns_head (network : Network) (job : Job α) (jobs : List (Job α)) (d : Disk) :
    ∃ schedule, turns network schedule ⟨job :: jobs, d⟩ =
      ⟨.done (job.run network d).1 :: jobs, (job.run network d).2⟩ := by
  induction job generalizing d with
  | done result => exact ⟨[], rfl⟩
  | readText path next ih =>
    obtain ⟨schedule, h⟩ := ih (d.readText path) d
    exact ⟨0 :: schedule, h⟩
  | writeText path content next ih =>
    cases hwrite : d.writeText path content with
    | error e =>
      obtain ⟨schedule, h⟩ := ih (.error e) d
      exact ⟨0 :: schedule, by simpa [turns, turn, step, run, hwrite] using h⟩
    | ok d' =>
      obtain ⟨schedule, h⟩ := ih (.ok ()) d'
      exact ⟨0 :: schedule, by simpa [turns, turn, step, run, hwrite] using h⟩
  | createDirectories path next ih =>
    obtain ⟨schedule, h⟩ := ih (d.createDirectories path).1 (d.createDirectories path).2
    exact ⟨0 :: schedule, h⟩
  | isFile path next ih =>
    obtain ⟨schedule, h⟩ := ih (d.isFile path) d
    exact ⟨0 :: schedule, h⟩
  | fetch address next ih =>
    obtain ⟨schedule, h⟩ := ih (network address) d
    exact ⟨0 :: schedule, h⟩

theorem turn_cons_succ (job : Job α) (jobs : List (Job α)) (d : Disk) (k : Nat) :
    turn network ⟨job :: jobs, d⟩ (k + 1) =
      ⟨job :: (turn network ⟨jobs, d⟩ k).jobs, (turn network ⟨jobs, d⟩ k).disk⟩ := by
  unfold turn
  simp only [List.getElem?_cons_succ]
  split <;> rfl

/-- The jobs behind the first take their turns as they would without it. -/
theorem turns_map_succ (job : Job α) (jobs : List (Job α)) (d : Disk) (schedule : List Nat) :
    turns network (schedule.map (· + 1)) ⟨job :: jobs, d⟩ =
      ⟨job :: (turns network schedule ⟨jobs, d⟩).jobs, (turns network schedule ⟨jobs, d⟩).disk⟩ := by
  induction schedule generalizing jobs d with
  | nil => rfl
  | cons k schedule ih =>
    rw [List.map_cons, turns, List.foldl_cons, turn_cons_succ]
    exact ih _ _

theorem exists_turns_eq_inOrder (network : Network) (jobs : List (Job α)) (d : Disk) :
    ∃ schedule, turns network schedule ⟨jobs, d⟩ =
      ⟨((inOrder jobs).run network d).1.map .done, ((inOrder jobs).run network d).2⟩ := by
  induction jobs generalizing d with
  | nil => exact ⟨[], rfl⟩
  | cons job jobs ih =>
    obtain ⟨first, hfirst⟩ := exists_turns_head network job jobs d
    obtain ⟨rest, hrest⟩ := ih (job.run network d).2
    refine ⟨first ++ rest.map (· + 1), ?_⟩
    rw [turns_append, hfirst, turns_map_succ, hrest]
    have hrun : (inOrder (job :: jobs)).run network d =
        ((job.run network d).1 :: ((inOrder jobs).run network (job.run network d).2).1,
          ((inOrder jobs).run network (job.run network d).2).2) := by
      change (job.bind _).run network d = _
      rw [run_bind]
      change ((inOrder jobs).bind _).run network _ = _
      rw [run_bind]
      rfl
    rw [hrun, List.map_cons]

end Pool
end Job
end ServiceTypings
