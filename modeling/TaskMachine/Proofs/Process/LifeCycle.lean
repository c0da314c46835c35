import TaskMachine.Proofs.Process.Requests
import TaskMachine.Proofs.Process.Runs

/-!
The life cycle of a process. A host starts a process, lets it go on, hands it what it waits for, runs it
and ends it, in any order and in whatever surroundings. What is recorded of the process agrees with its
state at any time, the state changes in a few ways only, a process that has come to its end stays as it
is, and what is refused changes nothing.
-/

namespace TaskMachine

open Machine

-----------------------------------------------------------------------------------------
-- Starting that fails
-----------------------------------------------------------------------------------------

namespace Exec

variable {m m' : Machine} {e : Interruption}

/-- Looking does not fail, so what comes after it has. -/
theorem failed_after {α β : Type} {x : Exec α} {f : α → Exec β} {a : α} (looked : x.run m = .ok a m)
    (failed : (x >>= f).run m = .error e m')
    : (f a).run m = .error e m' := by
  rw [EStateM.run_bind, looked] at failed
  exact failed

/-- A routine that cannot be entered changes nothing. -/
theorem enter_eq_error {r : RoutineId} {args : List Value} {wantResult : Bool}
    (failed : (enter r args wantResult).run m = .error e m')
    : m' = m := by
  replace failed := failed_after (x := process) rfl failed
  dsimp only at failed
  split at failed
  · cases failed
    rfl
  replace failed := failed_after (x := heap) rfl failed
  split at failed
  · cases failed
    rfl
  split at failed
  · cases failed
  · cases failed

/-- A start that fails leaves the process as it is. All that may be left of it are copies of the
arguments on the heap.
-/
theorem start_eq_error {r : RoutineId} {args : List Value}
    (failed : (start r args).run m = .error e m')
    : m' = m
      ∨ ∃ h copies,
          m.world.heap.copyList args = some (h, copies)
          ∧ m' = { m with world := { m.world with heap := h } } := by
  replace failed := failed_after (x := process) rfl failed
  dsimp only at failed
  split at failed
  · cases failed
    exact .inl rfl
  replace failed := failed_after (x := heap) rfl failed
  split at failed
  · rename_i h copies copied
    exact .inr ⟨h, copies, copied, enter_eq_error failed⟩
  · cases failed
    exact .inl rfl

/-- Only a suspended process can be started. -/
theorem run_start_of_not_suspended (r : RoutineId) (args : List Value)
    (begun : m.process.state ≠ .suspended)
    : ∃ e, (start r args).run m = .error e m := by
  have refused : (!m.process.frames.isEmpty || m.process.state != .suspended) = true := by
    simp [begun]
  refine ⟨.fault (.internal s!"process {m.process.id} already started"), ?_⟩
  simp only [start, process, EStateM.run_bind, EStateM.run_get, EStateM.run_pure, refused, if_true]
  rfl

end Exec

-----------------------------------------------------------------------------------------
-- What is recorded of a process
-----------------------------------------------------------------------------------------

namespace Process

/-- What is recorded of a process agrees with its state: it has something that it waits for just if it
is waiting, and a fault that it failed with just if it has failed; only a process that has ended has a
result, and only a runnable one a fault to be raised; and nothing is kept of a process that has ended
or was terminated.
-/
structure Consistent (p : Process) : Prop where
  waitingFor : p.waitingFor.isSome ↔ p.state = .waiting
  failure : p.failure.isSome ↔ p.state = .failed
  result : p.result.isSome → p.state = .ended
  pendingFault : p.pendingFault.isSome → p.state = .runnable
  released : p.state = .ended ∨ p.state = .terminated → p.stack = [] ∧ p.frames = []

/-- Nothing is recorded of a process: it waits for nothing, it has no result, and there is no fault that
it has failed with or that is to be raised.
-/
structure Unmarked (p : Process) : Prop where
  waitingFor : p.waitingFor = none
  failure : p.failure = none
  result : p.result = none
  pendingFault : p.pendingFault = none

variable {p : Process}

/-- Nothing is recorded of a process that is suspended or just running. -/
theorem Consistent.unmarked (consistent : p.Consistent)
    (active : p.state = .suspended ∨ p.state = .running)
    : p.Unmarked := by
  obtain ⟨waitingFor, failure, result, pendingFault, -⟩ := consistent
  rcases active with state | state
  all_goals
    simp only [state, reduceCtorEq, iff_false, imp_false, Option.not_isSome_iff_eq_none]
      at waitingFor failure result pendingFault
    exact ⟨waitingFor, failure, result, pendingFault⟩

/-- Nothing needs to be recorded of a process that may go on. -/
theorem Unmarked.consistent (unmarked : p.Unmarked)
    (active : p.state = .suspended ∨ p.state = .runnable ∨ p.state = .running)
    : p.Consistent := by
  obtain ⟨waitingFor, failure, result, pendingFault⟩ := unmarked
  rcases active with state | state | state
  all_goals constructor <;> simp [waitingFor, failure, result, pendingFault, state]

/-- A fault is caught, or recorded of the process that fails. -/
theorem Unmarked.consistent_raise (unmarked : p.Unmarked) (running : p.state = .running) (fault : Fault)
    : (p.raise fault).Consistent := by
  obtain ⟨waitingFor, failure, result, pendingFault⟩ := unmarked
  rcases p.raise_cases fault with ⟨-, _, _, _, _, _, -, -, -, raised⟩ | raised
  · rw [raised]
    exact Unmarked.consistent ⟨waitingFor, failure, result, pendingFault⟩ (.inr (.inr running))
  · rw [raised]
    constructor <;> simp [waitingFor, result, pendingFault]

/-- A process without a fault that it has failed with is recorded to have ended, with any result. -/
theorem consistent_ended (failure : p.failure = none) (result : Option Value)
    : ({ p.release with state := .ended, result } : Process).Consistent := by
  constructor <;> simp [release, failure]

private theorem consistent_new (config : Config) (id : Nat) (name : String) (kind : ProcessKind)
    : ({ Process.new config id name with kind } : Process).Consistent :=
  Unmarked.consistent ⟨rfl, rfl, rfl, rfl⟩ (.inl rfl)

theorem Consistent.wake {p' : Process} (consistent : p.Consistent) (accepted : p.wake = .ok p')
    : p'.Consistent := by
  obtain ⟨suspended, rfl⟩ := wake_eq_ok.mp accepted
  obtain ⟨waitingFor, failure, result, pendingFault, -⟩ := consistent
  constructor <;> simp_all

/-- Resuming keeps the parts of a process in accordance with its state. -/
theorem Consistent.resume {v : Value} {p' : Process} (consistent : p.Consistent)
    (accepted : p.resume v = .ok p')
    : p'.Consistent := by
  obtain ⟨waiting, ⟨-, rfl⟩ | ⟨-, rfl⟩⟩ := resume_eq_ok.mp accepted
  all_goals
    obtain ⟨waitingFor, failure, result, pendingFault, -⟩ := consistent
    constructor <;> simp_all

theorem Consistent.terminate (consistent : p.Consistent) : p.terminate.Consistent := by
  rw [Process.terminate]
  split
  · exact consistent
  · rename_i going
    have failure : p.failure = none := by
      refine Option.not_isSome_iff_eq_none.mp fun some => going ?_
      rw [consistent.failure.mp some]
      rfl
    have result : p.result = none := by
      refine Option.not_isSome_iff_eq_none.mp fun some => going ?_
      rw [consistent.result some]
      rfl
    constructor <;> simp [release, failure, result]

/-- A process that takes up running has nothing recorded of it, unless a fault that was pending ends
it.
-/
theorem Consistent.begin (consistent : p.Consistent) (runnable : p.state = .runnable)
    : p.begin.Consistent := by
  obtain ⟨waitingFor, failure, result, -, -⟩ := consistent
  simp only [runnable, reduceCtorEq, iff_false, imp_false, Option.not_isSome_iff_eq_none]
    at waitingFor failure result
  simp only [Process.begin]
  split
  · refine Unmarked.consistent_raise ?_ rfl _
    exact ⟨waitingFor, failure, result, rfl⟩
  · rename_i none
    exact Unmarked.consistent ⟨waitingFor, failure, result, none⟩ (.inr (.inr rfl))

end Process

-----------------------------------------------------------------------------------------
-- Runs
-----------------------------------------------------------------------------------------

namespace Machine

variable {m m' : Machine}

private theorem Changes.unmarked (changes : Changes m m') (unmarked : m.process.Unmarked)
    : m'.process.Unmarked := by
  have same := changes.sameLife
  exact ⟨same.waitingFor.trans unmarked.waitingFor, same.failure.trans unmarked.failure,
    same.result.trans unmarked.result, same.pendingFault.trans unmarked.pendingFault⟩

/-- What an instruction asks for is recorded, by the kinds of signals. -/
theorem consistent_obey (unmarked : m.process.Unmarked) (running : m.process.state = .running)
    (signal : Signal)
    : (m.obey signal).process.Consistent := by
  obtain ⟨waitingFor, failure, result, pendingFault⟩ := unmarked
  cases signal with
  | next =>
      exact Process.Unmarked.consistent ⟨waitingFor, failure, result, pendingFault⟩
        (.inr (.inr running))
  | suspend =>
      exact Process.Unmarked.consistent ⟨waitingFor, failure, result, pendingFault⟩ (.inl rfl)
  | wait key => constructor <;> simp [obey, failure, result, pendingFault]
  | terminate => constructor <;> simp [obey, Process.release, failure, result]
  | ended => exact Process.consistent_ended failure m.process.result

/-- One step of a running process keeps the record consistent: only the outermost call leaves a result,
and that ends the process.
-/
theorem consistent_advance (consistent : m.process.Consistent) (running : m.process.state = .running)
    : m.advance.process.Consistent := by
  have unmarked := consistent.unmarked (.inr running)
  have kept (frames : List Frame) (stack : List Value)
      : ((m.withFrames frames).withStack stack).process.Unmarked :=
    ⟨unmarked.waitingFor, unmarked.failure, unmarked.result, unmarked.pendingFault⟩
  have advanced := m.advanced
  generalize m.advance = after at advanced ⊢
  cases advanced with
  | obeyed changes signal =>
      exact consistent_obey (changes.unmarked unmarked) (changes.sameLife.state.trans running) signal
  | raised changes fault =>
      exact (changes.unmarked unmarked).consistent_raise (changes.sameLife.state.trans running) fault
  | endless => exact consistent
  | ended result => exact Process.consistent_ended unmarked.failure result
  | returned => exact (kept _ _).consistent (.inr (.inr running))
  | @overflowed outer stack called fault =>
      exact (kept outer stack).consistent_raise running fault

/-- A run keeps the parts of a process in accordance with its state. -/
theorem consistent_run (fuel : Nat) (consistent : m.process.Consistent)
    : (m.run fuel).process.Consistent :=
  run_keeps (P := fun m => m.process.Consistent) (fun _ runnable consistent => consistent.begin runnable)
    (fun _ running consistent => consistent_advance consistent running) fuel consistent

-----------------------------------------------------------------------------------------
-- Calls of the host
-----------------------------------------------------------------------------------------

/-- What a host can do with a process: start it, make one of the requests that it answers, or end it. -/
inductive HostCall where
  | start (r : RoutineId) (args : List Value)
  | request (request : Request)
  | terminate

/-- The machine after a call of the host. -/
def carryOut (m : Machine) : HostCall → Machine
  | .start r args => stateOf ((Exec.start r args).run m)
  | .request request => m.answer request
  | .terminate => { m with process := m.process.terminate }

/-- The host gets an answer to its call: arguments are copied to their end, and a run stops after the
steps that it is allowed.
-/
def Returns (m : Machine) : HostCall → Prop
  | .start r args => ∀ m', (Exec.start r args).run m ≠ .error .endless m'
  | .request (.run fuel) => (m.run fuel).process.state ≠ .running
  | .request .wake | .request (.resume _) | .terminate => True

/-- The host is told that its call failed. -/
def Refuses (m : Machine) : HostCall → Prop
  | .start r args => ∃ e m', (Exec.start r args).run m = .error e m'
  | .request .wake => ∃ refusal, m.process.wake = .error refusal
  | .request (.resume v) => ∃ refusal, m.process.resume v = .error refusal
  | .request (.run _) | .terminate => False

/-- The ways in which calls of the host lead from one state of a process to another. -/
inductive Leads : HostCall → ProcessState → ProcessState → Prop
  | woken : Leads (.request .wake) .suspended .runnable
  | resumed (v : Value) : Leads (.request (.resume v)) .waiting .runnable
  | ran (fuel : Nat) (state : ProcessState)
    (stopped : state ∈ [.suspended, .waiting, .ended, .terminated, .failed])
    : Leads (.request (.run fuel)) .runnable state
  | terminated (state : ProcessState) (going : state.isTerminal = false)
    : Leads .terminate state .terminated

/-- No call leads to the state that a process is in while it runs. -/
theorem Leads.ne_running {call : HostCall} {state state' : ProcessState} (leads : Leads call state state')
    : state' ≠ .running := by
  cases leads with
  | woken | resumed | terminated => exact nofun
  | ran _ _ stopped =>
      rintro rfl
      exact absurd stopped (by decide)

/-- The process is new or has been through calls of the host that returned, one after another, each in
surroundings of its own.
-/
inductive Lived : Process → Prop
  | created (config : Config) (id : Nat) (name : String) (kind : ProcessKind)
    : Lived { Process.new config id name with kind }
  | called {p : Process} (lived : Lived p) (w : World) (call : HostCall)
    (returns : Returns ⟨w, p⟩ call)
    : Lived (carryOut ⟨w, p⟩ call).process

/-- A call that fails leaves the process as it is. -/
theorem carryOut_of_refuses {call : HostCall} (refuses : m.Refuses call)
    : (m.carryOut call).process = m.process := by
  cases call with
  | start r args =>
      obtain ⟨e, m', failed⟩ := refuses
      rw [carryOut, failed]
      rcases Exec.start_eq_error failed with rfl | ⟨h, copies, -, rfl⟩ <;> rfl
  | request request =>
      cases request with
      | wake =>
          obtain ⟨refusal, refused⟩ := refuses
          rw [carryOut, answer, refused, accept]
      | resume v =>
          obtain ⟨refusal, refused⟩ := refuses
          rw [carryOut, answer, refused, accept]
      | run fuel => exact refuses.elim
  | terminate => exact refuses.elim

/-- Starting leaves a suspended process suspended and unmarked, and any other one as it is. -/
theorem consistent_start (r : RoutineId) (args : List Value) (consistent : m.process.Consistent)
    : (m.carryOut (.start r args)).process.Consistent := by
  have started : Changes m (m.carryOut (.start r args)) := Exec.stays_start r args m
  by_cases suspended : m.process.state = .suspended
  · exact (started.unmarked (consistent.unmarked (.inl suspended))).consistent
      (.inl (started.sameLife.state.trans suspended))
  · obtain ⟨e, failed⟩ := Exec.run_start_of_not_suspended r args suspended
    have refuses : m.Refuses (.start r args) := ⟨e, m, failed⟩
    rwa [carryOut_of_refuses refuses]

/-- Every call of the host keeps the record consistent. -/
theorem consistent_carryOut (call : HostCall) (consistent : m.process.Consistent)
    : (m.carryOut call).process.Consistent := by
  cases call with
  | start r args => exact consistent_start r args consistent
  | request request =>
      cases request with
      | wake =>
          show (m.accept m.process.wake).process.Consistent
          cases answered : m.process.wake with
          | ok p => exact consistent.wake answered
          | error refusal => exact consistent
      | resume v =>
          show (m.accept (m.process.resume v)).process.Consistent
          cases answered : m.process.resume v with
          | ok p => exact consistent.resume answered
          | error refusal => exact consistent
      | run fuel => exact consistent_run fuel consistent
  | terminate => exact consistent.terminate

/-- A process that has come to its end stays as it is, by the kinds of calls. -/
theorem carryOut_of_terminal (call : HostCall) (terminal : m.process.state.isTerminal = true)
    : (m.carryOut call).process = m.process := by
  have ended : ∀ state : ProcessState, state.isTerminal = false → m.process.state ≠ state := by
    rintro state going rfl
    rw [terminal] at going
    cases going
  cases call with
  | start r args =>
      obtain ⟨e, failed⟩ := Exec.run_start_of_not_suspended r args (ended .suspended rfl)
      have refuses : m.Refuses (.start r args) := ⟨e, m, failed⟩
      exact carryOut_of_refuses refuses
  | request request =>
      cases request with
      | wake =>
          show (m.accept m.process.wake).process = m.process
          cases answered : m.process.wake with
          | ok p => exact absurd (Process.wake_eq_ok.mp answered).1 (ended .suspended rfl)
          | error refusal => rfl
      | resume v =>
          show (m.accept (m.process.resume v)).process = m.process
          cases answered : m.process.resume v with
          | ok p => exact absurd (Process.resume_eq_ok.mp answered).1 (ended .waiting rfl)
          | error refusal => rfl
      | run fuel =>
          show (m.run fuel).process = m.process
          rw [run, if_neg (ended .runnable rfl)]
  | terminate => exact if_pos terminal

/-- A call that returns leaves the state as it was or leads on in one of the ways of `Leads`, by the
kinds of calls.
-/
theorem leads_carryOut {call : HostCall} (returns : m.Returns call)
    : (m.carryOut call).process.state = m.process.state
      ∨ Leads call m.process.state (m.carryOut call).process.state := by
  cases call with
  | start r args => exact .inl (Exec.stays_start r args m).sameLife.state
  | request request =>
      cases request with
      | wake =>
          show (m.accept m.process.wake).process.state = m.process.state
            ∨ Leads _ m.process.state (m.accept m.process.wake).process.state
          cases answered : m.process.wake with
          | ok p =>
              obtain ⟨suspended, rfl⟩ := Process.wake_eq_ok.mp answered
              rw [suspended]
              exact .inr .woken
          | error refusal => exact .inl rfl
      | resume v =>
          show (m.accept (m.process.resume v)).process.state = m.process.state
            ∨ Leads _ m.process.state (m.accept (m.process.resume v)).process.state
          cases answered : m.process.resume v with
          | ok p =>
              obtain ⟨waiting, ⟨-, rfl⟩ | ⟨-, rfl⟩⟩ := Process.resume_eq_ok.mp answered
              all_goals
                rw [waiting]
                exact .inr (.resumed v)
          | error refusal => exact .inl rfl
      | run fuel =>
          show (m.run fuel).process.state = m.process.state
            ∨ Leads _ m.process.state (m.run fuel).process.state
          by_cases runnable : m.process.state = .runnable
          · have left := state_run_ne_runnable fuel m
            have stopped : (m.run fuel).process.state ≠ .running := returns
            rw [runnable]
            refine .inr (.ran fuel _ ?_)
            cases state : (m.run fuel).process.state with
            | runnable => exact absurd state left
            | running => exact absurd state stopped
            | suspended | waiting | ended | terminated | failed => decide
          · rw [run, if_neg runnable]
            exact .inl rfl
  | terminate =>
      show m.process.terminate.state = m.process.state ∨ Leads _ _ m.process.terminate.state
      rw [Process.terminate]
      split
      · exact .inl rfl
      · rename_i going
        exact .inr (.terminated _ (by simpa using going))

/-- Between calls no process is running, by induction on the calls. -/
theorem Lived.state_ne_running {p : Process} (lived : Lived p) : p.state ≠ .running := by
  induction lived with
  | created => exact nofun
  | @called p lived w call returns ih =>
      rcases leads_carryOut returns with same | leads
      · rw [same]
        exact ih
      · exact leads.ne_running

/-- Whatever has been asked of a process, its parts accord with its state. -/
theorem Lived.consistent {p : Process} (lived : Lived p) : p.Consistent := by
  induction lived with
  | created => exact Process.consistent_new ..
  | called _ w call _ ih => exact consistent_carryOut call ih

/-- Whatever calls a process has been through, what is recorded of it agrees with its state, and it is
not running. Whatever call comes next, in whatever surroundings: the state stays or changes in one of
the ways of `Leads`, a process that has come to its end stays as it is, and so does one whose call
fails.
-/
theorem lifeCycle_of_lived {p : Process} (lived : Lived p)
    : p.Consistent
      ∧ p.state ≠ .running
      ∧ ∀ (w : World) (call : HostCall), Returns ⟨w, p⟩ call →
          ((carryOut ⟨w, p⟩ call).process.state = p.state
            ∨ Leads call p.state (carryOut ⟨w, p⟩ call).process.state)
          ∧ (p.state.isTerminal = true → (carryOut ⟨w, p⟩ call).process = p)
          ∧ (Refuses ⟨w, p⟩ call → (carryOut ⟨w, p⟩ call).process = p) := by
  refine ⟨lived.consistent, lived.state_ne_running, fun w call returns => ⟨?_, ?_, ?_⟩⟩
  · exact leads_carryOut returns
  · exact fun terminal => carryOut_of_terminal (m := ⟨w, p⟩) call terminal
  · exact fun refuses => carryOut_of_refuses refuses

/-- A world with a routine that waits. -/
def waitingWorld : World :=
  { World.empty with heap := { Heap.empty with routines := #[
    { (default : Routine) with code := #[⟨.special, 5, 0⟩], literals := #[.string "key"] }] } }

/-- A process that can hold no value, after some calls. -/
def cramped (calls : List HostCall) : Process :=
  calls.foldl (fun p call => (carryOut ⟨waitingWorld, p⟩ call).process)
    (Process.new { maxStackSize := 0 } 1 "cramped")

/-- The process waits, is handed a value that it has no room for, refuses to be started again, and fails
in its next run.
-/
theorem cramped_lifeCycle
    : let waiting := cramped [.start ⟨0⟩ [], .request .wake, .request (.run 2)]
      let resumed := cramped
        [.start ⟨0⟩ [], .request .wake, .request (.run 2), .request (.resume (.integer 7))]
      let failed := (carryOut ⟨waitingWorld, resumed⟩ (.request (.run 2))).process
      waiting.state = .waiting
      ∧ waiting.waitingFor = some "key"
      ∧ Lived resumed
      ∧ resumed.state = .runnable
      ∧ resumed.pendingFault.isSome
      ∧ resumed.Consistent
      ∧ Leads (.request (.run 2)) .runnable .failed
      ∧ failed.state = .failed
      ∧ (carryOut ⟨waitingWorld, resumed⟩ (.start ⟨0⟩ [])).process = resumed := by
  intro waiting resumed failed
  have new := Lived.created { maxStackSize := 0 } 1 "cramped" .default
  have started := new.called waitingWorld (.start ⟨0⟩ []) (by
    intro m' failed
    cases failed)
  have woken := started.called waitingWorld (.request .wake) trivial
  have asked := woken.called waitingWorld (.request (.run 2)) (by
    show _ ≠ ProcessState.running
    decide)
  have lived : Lived resumed := asked.called waitingWorld (.request (.resume (.integer 7))) trivial
  obtain ⟨consistent, -, next⟩ := lifeCycle_of_lived lived
  have returns : Returns ⟨waitingWorld, resumed⟩ (.request (.run 2)) := by
    show _ ≠ ProcessState.running
    decide
  have refuses : Refuses ⟨waitingWorld, resumed⟩ (.start ⟨0⟩ []) := ⟨_, _, rfl⟩
  have leads := (next waitingWorld (.request (.run 2)) returns).1.resolve_left (by decide)
  have refused := (next waitingWorld (.start ⟨0⟩ []) (by
    intro m' failed
    cases failed)).2.2 refuses
  exact ⟨by decide, rfl, lived, by decide, rfl, consistent, leads, by decide, refused⟩

end Machine

end TaskMachine
