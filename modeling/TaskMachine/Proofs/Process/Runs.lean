import TaskMachine.Proofs.Process.Reachable

/-!
Runs of a process. A run is made of events, one for each step. It does not leave its process
runnable, and once the process has stopped by itself it makes no difference how many more steps it
was allowed.
-/

namespace TaskMachine

/-- What a process is known by: its id, its name and its kind. -/
def Process.identity (p : Process) : Nat × String × ProcessKind :=
  (p.id, p.name, p.kind)

namespace Machine

variable {m : Machine}

-----------------------------------------------------------------------------------------
-- What a run keeps
-----------------------------------------------------------------------------------------

/-- What every step of a running process keeps is kept by any number of them, by induction on their
number.
-/
theorem runFor_keeps {P : Machine → Prop}
    (step : ∀ m, m.process.state = .running → P m → P m.advance) (fuel : Nat) (holds : P m)
    : P (runFor fuel m) := by
  induction fuel generalizing m with
  | zero => exact holds
  | succ fuel ih =>
      rw [runFor]
      split
      · rename_i running
        exact ih (step m running holds)
      · exact holds

/-- What taking up running and every step keep is kept by a run. -/
theorem run_keeps {P : Machine → Prop}
    (begin : ∀ m, m.process.state = .runnable → P m → P { m with process := m.process.begin })
    (step : ∀ m, m.process.state = .running → P m → P m.advance) (fuel : Nat) (holds : P m)
    : P (m.run fuel) := by
  rw [run]
  split
  · rename_i runnable
    exact runFor_keeps step fuel (begin m runnable holds)
  · exact holds

/-- A process that waits just if it has something that it waits for does so after a run. -/
theorem keyed_run (fuel : Nat) (keyed : m.process.Keyed) : (m.run fuel).process.Keyed :=
  run_keeps (fun _ runnable => (Event.begun runnable).keyed)
    (fun _ running keyed => keyed_advance keyed running) fuel keyed

private theorem identity_raise (p : Process) (fault : Fault) : (p.raise fault).identity = p.identity := by
  rcases p.raise_cases fault with ⟨-, _, _, _, _, _, -, -, -, raised⟩ | raised <;> rw [raised] <;> rfl

theorem SameLife.identity {m m' : Machine} (same : SameLife m m')
    : m'.process.identity = m.process.identity := by
  rw [Process.identity, same.id, same.name, same.kind]
  rfl

/-- A process keeps its identity through a step. -/
theorem identity_advance (m : Machine) : m.advance.process.identity = m.process.identity := by
  have advanced := m.advanced
  generalize m.advance = after at advanced ⊢
  cases advanced with
  | obeyed changes signal => cases signal <;> exact changes.sameLife.identity
  | raised changes fault => exact (identity_raise _ fault).trans changes.sameLife.identity
  | endless | ended | returned => rfl
  | overflowed => exact identity_raise _ _

/-- A process keeps its identity through a run. -/
theorem identity_run (fuel : Nat) (m : Machine)
    : (m.run fuel).process.identity = m.process.identity := by
  refine run_keeps (P := fun m' => m'.process.identity = m.process.identity) ?_ ?_ fuel rfl
  · intro m₁ _ same
    rw [← same, Process.begin]
    dsimp only
    split
    · exact identity_raise _ _
    · rfl
  · intro m₁ _ same
    rw [identity_advance, same]

theorem id_run (fuel : Nat) (m : Machine) : (m.run fuel).process.id = m.process.id :=
  congrArg (·.1) (identity_run fuel m)

-----------------------------------------------------------------------------------------
-- Where a run leaves its process
-----------------------------------------------------------------------------------------

/-- A fault leaves a process in the state that it was in, or lets it fail. -/
theorem state_raise (p : Process) (fault : Fault)
    : (p.raise fault).state = p.state ∨ (p.raise fault).state = .failed := by
  rcases p.raise_cases fault with ⟨-, _, _, _, _, _, -, -, -, raised⟩ | raised
  · exact .inl (by rw [raised])
  · exact .inr (by rw [raised])

/-- One step does not make a running process runnable. -/
theorem state_advance_ne_runnable (running : m.process.state = .running)
    : m.advance.process.state ≠ .runnable := by
  have raise (p : Process) (state : p.state = .running) (fault : Fault)
      : (p.raise fault).state ≠ .runnable := by
    rcases state_raise p fault with same | failed
    · simp [same, state]
    · simp [failed]
  have advanced := m.advanced
  generalize m.advance = after at advanced ⊢
  cases advanced with
  | obeyed changes signal =>
      have state := changes.sameLife.state.trans running
      cases signal <;> simp [obey, state]
  | raised changes fault => exact raise _ (changes.sameLife.state.trans running) fault
  | endless => simp [running]
  | ended => simp
  | returned => simp [withFrames, withStack, running]
  | @overflowed outer stack called fault =>
      exact raise ((m.withFrames outer).withStack stack).process running fault

/-- A run leaves no process runnable. -/
theorem state_run_ne_runnable (fuel : Nat) (m : Machine)
    : (m.run fuel).process.state ≠ .runnable := by
  unfold run
  split
  · refine runFor_keeps (P := fun m => m.process.state ≠ .runnable)
      (fun _ running _ => state_advance_ne_runnable running) fuel ?_
    have begun : m.process.begin.state = .running ∨ m.process.begin.state = .failed := by
      unfold Process.begin
      dsimp only
      split
      · exact state_raise ..
      · exact .inl rfl
    rcases begun with running | failed
    · simp [running]
    · simp [failed]
  · rename_i idle
    exact idle

-----------------------------------------------------------------------------------------
-- How many steps a run is allowed
-----------------------------------------------------------------------------------------

/-- A process that has stopped takes no further step. -/
theorem runFor_of_stopped (fuel : Nat) (stopped : m.process.state ≠ .running)
    : runFor fuel m = m := by
  cases fuel with
  | zero => rfl
  | succ fuel => rw [runFor, if_neg stopped]

/-- Steps are taken one after another, by induction on those that come first. -/
theorem runFor_add (fuel more : Nat) (m : Machine)
    : runFor (fuel + more) m = runFor more (runFor fuel m) := by
  induction fuel generalizing m with
  | zero => rw [Nat.zero_add, runFor]
  | succ fuel ih =>
      rw [Nat.succ_add, runFor, runFor]
      split
      · exact ih _
      · rename_i stopped
        exact (runFor_of_stopped more stopped).symm

/-- Steps that are allowed beyond those in which the process stops are not taken. -/
theorem runFor_of_le {fuel more : Nat} (le : fuel ≤ more)
    (stopped : (runFor fuel m).process.state ≠ .running)
    : runFor more m = runFor fuel m := by
  obtain ⟨left, rfl⟩ := Nat.exists_eq_add_of_le le
  rw [runFor_add, runFor_of_stopped left stopped]

/-- More fuel changes nothing once a run has stopped. -/
theorem run_of_le {fuel more : Nat} (le : fuel ≤ more)
    (stopped : (m.run fuel).process.state ≠ .running)
    : m.run more = m.run fuel := by
  unfold run at stopped ⊢
  split
  · rename_i runnable
    rw [if_pos runnable] at stopped
    exact runFor_of_le le stopped
  · rfl

end Machine
end TaskMachine
