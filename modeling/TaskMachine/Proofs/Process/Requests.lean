import TaskMachine.Proofs.Process.Lockstep

/-!
What a host asks of a process, and how it answers. Machines that are alike stay alike whatever is asked
of them, as long as no two handles of one routine are compared; and what the host sees of processes that
are alike is the same.
-/

namespace TaskMachine

-----------------------------------------------------------------------------------------
-- Requests
-----------------------------------------------------------------------------------------

/-- What a host asks of a process. -/
inductive Request where
  | wake
  /-- Go on with a value that was waited for. -/
  | resume (v : Value)
  /-- Run for at most some number of steps. -/
  | run (fuel : Nat)

/-- The host hands no handle over. -/
def Request.Plain : Request → Prop
  | .resume v => ¬ v.IsHandle
  | .wake | .run _ => True

namespace Machine

/-- The machine after a request that its process has accepted or refused. A refused one changes
nothing.
-/
def accept (m : Machine) : Except Refusal Process → Machine
  | .ok p => { m with process := p }
  | .error _ => m

/-- The machine after a request. -/
def answer (m : Machine) : Request → Machine
  | .wake => m.accept m.process.wake
  | .resume v => m.accept (m.process.resume v)
  | .run fuel => m.run fuel

/-- The machine after some requests, one after another. -/
def answerAll (m : Machine) (requests : List Request) : Machine :=
  requests.foldl answer m

/-- No two handles of one routine are compared in the next `fuel` steps. -/
def KeepsApart : Nat → Machine → Prop
  | 0, _ => True
  | fuel + 1, m => m.process.state = .running → ¬ m.ComparesTwins ∧ KeepsApart fuel m.advance

/-- No two handles of one routine are compared in answer to the request. -/
def Indifferent (m : Machine) : Request → Prop
  | .run fuel =>
      m.process.state = .runnable → KeepsApart fuel { m with process := m.process.begin }
  | .wake | .resume _ => True

/-- No two handles of one routine are compared in answer to any of the requests. -/
def IndifferentAll : Machine → List Request → Prop
  | _, [] => True
  | m, request :: later => m.Indifferent request ∧ IndifferentAll (m.answer request) later

end Machine

/-- The host sees no difference between two processes: they are in the same state and wait for the same
thing, they have failed with the same fault, and their results are the same as far as they are no
handles.
-/
structure Process.LooksLike (p' p : Process) : Prop where
  state : p'.state = p.state
  waitingFor : p'.waitingFor = p.waitingFor
  failure : p'.failure = p.failure
  result : ∀ v, ¬ v.IsHandle → (p'.result = some v ↔ p.result = some v)

namespace Partners

variable {p : Partners} {m m' : Machine}

-----------------------------------------------------------------------------------------
-- Runs
-----------------------------------------------------------------------------------------

section
variable {x x' : Process}

/-- A handler catches the fault in both processes, or none does, by induction on the calls. -/
theorem catchFault_alike (fault : Fault) {stack stack' : List Value}
    (values : List.Forall₂ p.Values stack stack') {frames frames' : List Frame}
    (calls : List.Forall₂ p.Frames frames frames')
    : (∃ s s' fs fs', Process.catchFault fault stack frames = some (s, fs)
        ∧ Process.catchFault fault stack' frames' = some (s', fs')
        ∧ List.Forall₂ p.Values s s' ∧ List.Forall₂ p.Frames fs fs')
      ∨ (Process.catchFault fault stack frames = none
        ∧ Process.catchFault fault stack' frames' = none) := by
  induction calls with
  | nil => exact .inr ⟨rfl, rfl⟩
  | @cons f f' outer outer' first others ih =>
      have handlers : f'.handlers = f.handlers := by rw [first.rest]
      rw [Process.catchFault, Process.catchFault, handlers]
      cases latest : f.handlers with
      | nil => exact ih
      | cons handler rest =>
          refine .inl ⟨_, _, _, _, rfl, rfl, .cons (.plain id) (cut_alike values _), .cons ?_ others⟩
          refine ⟨?_, first.routine, first.locals⟩
          rw [first.rest]

/-- A fault is caught alike, as handlers stand at the same places. -/
theorem Processes.raise (alike : p.Processes x x') (fault : Fault)
    : p.Processes (x.raise fault) (x'.raise fault) := by
  have failed : p.Processes { x with failure := some fault, state := .failed }
      { x' with failure := some fault, state := .failed } :=
    { alike with failure := rfl, state := rfl }
  unfold Process.raise
  by_cases catchable : fault.isCatchable = true
  · simp only [catchable, if_true]
    rcases catchFault_alike fault alike.stack alike.frames with
      ⟨s, s', fs, fs', caught, caught', values, calls⟩ | ⟨none, none'⟩
    · simp only [caught, caught']
      exact (alike.withStack values).withFrames calls
    · simp only [none, none']
      exact failed
  · simp only [catchable]
    exact failed

theorem Processes.begin (alike : p.Processes x x') : p.Processes x.begin x'.begin := by
  have cleared : p.Processes { x with state := .running, pendingFault := none }
      { x' with state := .running, pendingFault := none } :=
    { alike with state := rfl, pendingFault := rfl }
  simp only [Process.begin, alike.pendingFault]
  cases x.pendingFault with
  | none => exact cleared
  | some fault => exact cleared.raise fault

theorem Processes.release (alike : p.Processes x x') : p.Processes x.release x'.release :=
  { alike with stack := .nil, frames := .nil, pendingFault := rfl, waitingFor := rfl }

end

/-- What a signal asks for is done alike. -/
theorem Machines.obey (machines : p.Machines m m') (signal : Signal)
    : p.Machines (m.obey signal) (m'.obey signal) := by
  obtain ⟨world, process⟩ := machines
  cases signal with
  | next => exact ⟨world, process⟩
  | suspend => exact ⟨world, { process with state := rfl }⟩
  | wait key => exact ⟨world, { process with state := rfl, waitingFor := rfl }⟩
  | terminate => exact ⟨world, { process.release with state := rfl }⟩
  | ended => exact ⟨world, { process.release with state := rfl }⟩

/-- A step is taken alike, with more partners if things are made in it. Where twins are compared, the
partners must be faithful.
-/
theorem Machines.advance (machines : p.Machines m m') (told : m.ComparesTwins → p.Faithful)
    : ∃ q, p ≤ q ∧ q.Machines m.advance m'.advance := by
  have agree := agree_step machines told
  rw [Machine.advance, Machine.advance]
  generalize Exec.step.run m = outcome at agree ⊢
  generalize Exec.step.run m' = outcome' at agree ⊢
  cases agree with
  | ok le machines same =>
      cases same
      exact ⟨_, le, machines.obey _⟩
  | error le later interruption =>
      cases interruption with
      | endless => exact ⟨p, le_rfl, machines⟩
      | fault fault => exact ⟨_, le, later.world, later.process.raise fault⟩

/-- Machines that are alike run alike if callables have one partner each, or else as long as no two
handles of one routine are compared. By induction on the steps.
-/
theorem Machines.runFor (machines : p.Machines m m') (fuel : Nat)
    (told : p.Faithful ∨ Machine.KeepsApart fuel m)
    : ∃ q, p ≤ q ∧ q.Machines (m.runFor fuel) (m'.runFor fuel) := by
  induction fuel generalizing p m m' with
  | zero => exact ⟨p, le_rfl, machines⟩
  | succ fuel ih =>
      rw [Machine.runFor, Machine.runFor, machines.process.state]
      by_cases running : m.process.state = .running
      · have now : m.ComparesTwins → p.Faithful := fun compares =>
          told.resolve_right fun apart => (apart running).1 compares
        obtain ⟨q, le, advanced⟩ := machines.advance now
        obtain ⟨q', le', done⟩ := ih advanced (told.imp le.faithful fun apart => (apart running).2)
        rw [if_pos running, if_pos running]
        exact ⟨q', le.trans le', done⟩
      · rw [if_neg running, if_neg running]
        exact ⟨p, le_rfl, machines⟩

/-- Alike machines run alike, by induction on the steps. -/
theorem Machines.run (machines : p.Machines m m') (fuel : Nat)
    (told : p.Faithful ∨ m.Indifferent (.run fuel))
    : ∃ q, p ≤ q ∧ q.Machines (m.run fuel) (m'.run fuel) := by
  rw [Machine.run, Machine.run, machines.process.state]
  by_cases runnable : m.process.state = .runnable
  · have begun : p.Machines { m with process := m.process.begin }
        { m' with process := m'.process.begin } := ⟨machines.world, machines.process.begin⟩
    rw [if_pos runnable, if_pos runnable]
    exact begun.runFor fuel (told.imp_right fun apart => apart runnable)
  · rw [if_neg runnable, if_neg runnable]
    exact ⟨p, le_rfl, machines⟩

-----------------------------------------------------------------------------------------
-- Answers
-----------------------------------------------------------------------------------------

/-- Both processes accept a request, or both refuse it. -/
inductive Accepted (p : Partners) : Except Refusal Process → Except Refusal Process → Prop
  | ok {x x' : Process} (alike : p.Processes x x') : Accepted p (.ok x) (.ok x')
  | error (refusal refusal' : Refusal) : Accepted p (.error refusal) (.error refusal')

section
variable {x x' : Process}

theorem Processes.transition (alike : p.Processes x x') (source target : ProcessState)
    : p.Accepted (x.transition source target) (x'.transition source target) := by
  rw [Process.transition, Process.transition, alike.state]
  split
  · exact .ok { alike with state := rfl }
  · exact .error _ _

theorem Processes.resume (alike : p.Processes x x') {v v' : Value} (same : p.Values v v')
    : p.Accepted (x.resume v) (x'.resume v') := by
  have pushed := alike.push same
  rw [Process.resume, Process.resume]
  by_cases waiting : x.state = .waiting
  · have waiting' : x'.state = .waiting := alike.state.trans waiting
    rw [if_neg (not_not_intro waiting), if_neg (not_not_intro waiting')]
    generalize x.push v = outcome at pushed ⊢
    generalize x'.push v' = outcome' at pushed ⊢
    cases pushed with
    | @ok y y' pushed =>
        have freed : p.Processes { y with waitingFor := none } { y' with waitingFor := none } :=
          { pushed with waitingFor := rfl }
        exact freed.transition .waiting .runnable
    | error fault =>
        have pending : p.Processes { x with pendingFault := some fault, waitingFor := none }
            { x' with pendingFault := some fault, waitingFor := none } :=
          { alike with pendingFault := rfl, waitingFor := rfl }
        exact pending.transition .waiting .runnable
  · have idle : x'.state ≠ .waiting := by rwa [alike.state]
    rw [if_pos waiting, if_pos idle]
    exact .error _ _

end

/-- A reply is taken alike. -/
theorem Machines.accept (machines : p.Machines m m') {reply reply' : Except Refusal Process}
    (accepted : p.Accepted reply reply')
    : p.Machines (m.accept reply) (m'.accept reply') := by
  cases accepted with
  | ok alike => exact ⟨machines.world, alike⟩
  | error => exact machines

/-- Machines that are alike answer alike. -/
theorem Machines.answer (machines : p.Machines m m') {request : Request} (plain : request.Plain)
    (apart : m.Indifferent request)
    : ∃ q, p ≤ q ∧ q.Machines (m.answer request) (m'.answer request) := by
  cases request with
  | wake => exact ⟨p, le_rfl, machines.accept (machines.process.transition ..)⟩
  | resume v => exact ⟨p, le_rfl, machines.accept (machines.process.resume (.plain plain))⟩
  | run fuel => exact machines.run fuel (.inr apart)

/-- Machines that are alike answer alike to all requests, by induction on the requests. -/
theorem Machines.answerAll (machines : p.Machines m m') {requests : List Request}
    (plain : ∀ request ∈ requests, request.Plain) (apart : m.IndifferentAll requests)
    : ∃ q, p ≤ q ∧ q.Machines (m.answerAll requests) (m'.answerAll requests) := by
  induction requests generalizing p m m' with
  | nil => exact ⟨p, le_rfl, machines⟩
  | cons request later ih =>
      obtain ⟨first, others⟩ := List.forall_mem_cons.mp plain
      obtain ⟨q, le, answered⟩ := machines.answer first apart.1
      obtain ⟨q', le', done⟩ := ih answered others apart.2
      exact ⟨q', le.trans le', done⟩

/-- The host sees no difference between processes that are alike. -/
theorem Processes.looksLike {x x' : Process} (alike : p.Processes x x') : x'.LooksLike x := by
  refine ⟨alike.state, alike.waitingFor, alike.failure, fun v standsAlone => ?_⟩
  have result := alike.result
  generalize x.result = left at result
  generalize x'.result = right at result
  cases result with
  | none => rfl
  | some same =>
      cases same with
      | plain => rfl
      | array | callable =>
          constructor
          all_goals
            rintro ⟨⟩
            exact absurd trivial standsAlone

end Partners
end TaskMachine
