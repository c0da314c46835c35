import TaskMachine.Proofs.Scheduler.Abreast

/-!
Independent processes. Processes that keep to themselves and are handed no handles do not affect
each other: each goes through its life as it would alone in a scheduler, where it gets only the calls
and the dispatches that are its own.
-/

namespace TaskMachine

/-- Values on two heaps are the same up to handles: some handles stand for each other, one for one,
these among them, and refer to what is the same up to handles.
-/
def Heap.SameUpToHandles (h h' : Heap) (v v' : Value) : Prop :=
  ∃ p : Partners, p.Faithful ∧ p.Heaps h h' ∧ p.Values v v'

namespace Scheduler

open Partners

-----------------------------------------------------------------------------------------
-- Calls in company and alone
-----------------------------------------------------------------------------------------

/-- Processes are started so that they have nothing to do with others, and are handed no handles. -/
def Call.Independent (h : Heap) : Call → Prop
  | .add r args | .addNamed _ _ r args => h.Independent r args
  | .resume _ v => ¬ v.IsHandle
  | .wake _ | .terminate _ | .runNext _ | .run _ => True
  | .adopt _ | .terminateAll => False

/-- The same call with another id. -/
def Call.on (id : Nat) : Call → Call
  | .wake _ => .wake id
  | .resume _ v => .resume id v
  | .terminate _ => .terminate id
  | call => call

/-- Does the call start the process with the id, or ask something of it, or dispatch it? -/
def concerns (s : Scheduler) (id : Nat) : Call → Bool
  | .wake k | .resume k _ | .terminate k => k == id
  | .runNext _ => s.upNext?.any (·.process.id == id)
  | .run _ => due s.processes id
  | call => (s.answer call).1.ids.contains id

/-- The scheduler after some calls. -/
def after (s : Scheduler) (calls : List Call) : Scheduler :=
  calls.foldl (fun s call => (s.answer call).2) s

/-- Those of some calls that concern a process, as they are made where it has another id. -/
def ownCalls (id id' : Nat) : Scheduler → List Call → List Call
  | _, [] => []
  | s, call :: later =>
    if s.concerns id call then call.on id' :: ownCalls id id' (s.answer call).2 later
    else ownCalls id id' (s.answer call).2 later

/-- Where a process is in its life, and what it waits for. -/
def status? (s : Scheduler) (id : Nat) : Option (ProcessState × Option String) :=
  (s.get? id).map fun p => (p.state, p.waitingFor)

/-- What happens in the schedulers of their own when a call is made: those that it concerns get it. -/
def alongside (s : Scheduler) (id' : Nat) (call : Call) (solo : Nat → Scheduler) (id : Nat)
    : Scheduler :=
  if s.concerns id call then ((solo id).answer (call.on id')).2 else solo id

variable {s₀ s : Scheduler} {solo : Nat → Scheduler} {P : Nat → Partners}

-----------------------------------------------------------------------------------------
-- All calls
-----------------------------------------------------------------------------------------

/-- A call is answered alike where it concerns a process among others and where it is passed on to its
double, and all goes on abreast.
-/
def AnsweredAbreast (s₀ s : Scheduler) (solo : Nat → Scheduler) (call : Call) : Prop :=
  ∃ P',
    Abreast s₀ (s.answer call).2 (s.alongside s₀.nextId call solo) P'
    ∧ ∀ id, s.concerns id call = true →
        (s.answer call).1.Like (P' id).Values id s₀.nextId ((solo id).answer (call.on s₀.nextId)).1

/-- It is enough to look at the process that a call concerns if there is only one. -/
theorem answeredAbreast_of_one {call : Call} (id : Nat)
    (only : ∀ k, s.concerns k call = true ↔ k = id)
    (one
      : ∃ P',
          Abreast s₀ (s.answer call).2
            (Function.update solo id ((solo id).answer (call.on s₀.nextId)).2) P'
          ∧ (s.answer call).1.Like (P' id).Values id s₀.nextId
              ((solo id).answer (call.on s₀.nextId)).1)
    : AnsweredAbreast s₀ s solo call := by
  obtain ⟨P', next, like⟩ := one
  have same : s.alongside s₀.nextId call solo
      = Function.update solo id ((solo id).answer (call.on s₀.nextId)).2 := by
    funext k
    unfold alongside
    by_cases this : k = id
    · rw [if_pos ((only k).mpr this), this, Function.update_self]
    · rw [if_neg (mt (only k).mp this), Function.update_of_ne this]
  refine ⟨P', same ▸ next, fun k concerned => ?_⟩
  obtain rfl := (only k).mp concerned
  exact like

private theorem answeredAbreast_of_nobody {call : Call} (nobody : ∀ k, s.concerns k call = false)
    (next : ∃ P', Abreast s₀ (s.answer call).2 solo P')
    : AnsweredAbreast s₀ s solo call := by
  obtain ⟨P', next⟩ := next
  have same : s.alongside s₀.nextId call solo = solo := by
    funext k
    rw [alongside, nobody]
    rfl
  refine ⟨P', ?_, fun k concerned => ?_⟩
  · rw [same]
    exact next
  · cases (nobody k).symm.trans concerned

/-- Processes are started under the same names, since the routines are the same. -/
theorem Abreast.add (abreast : Abreast s₀ s solo P) {call : Call} {name : String} {kind : ProcessKind}
    {r : RoutineId} {args : List Value} (independent : s₀.world.heap.Independent r args)
    (starts : s.answer call = Answer.ofStart (s.addNamed name kind r args))
    (starts₀ : s₀.answer (call.on s₀.nextId) = Answer.ofStart (s₀.addNamed name kind r args))
    (concerned : ∀ id, s.concerns id call = (s.answer call).1.ids.contains id)
    : AnsweredAbreast s₀ s solo call := by
  rcases abreast.start independent name kind with
    ⟨s', t', P', added, added', next⟩ | ⟨e, s', P', failed, next⟩
  · rw [added] at starts
    rw [added'] at starts₀
    refine answeredAbreast_of_one s.nextId (fun k => ?_) ⟨P', ?_⟩
    · rw [concerned, starts]
      simp [Answer.ofStart, Answer.ids]
    · rw [abreast.unused s.nextId (Nat.le_refl _), starts, starts₀]
      exact ⟨next, .added⟩
  · rw [failed] at starts
    refine answeredAbreast_of_nobody (fun k => ?_) ⟨P', ?_⟩
    · rw [concerned, starts]
      rfl
    · rw [starts]
      exact next

private theorem reportOf_of_doubles {p : Partners} {id' : Nat} {x x' : Process} (doubles : p.Doubles id' x x')
    : Answer.Like p.Values x.id id' (.dispatch (reportOf x)) (.dispatch (reportOf x')) := by
  unfold reportOf
  rw [doubles.state]
  split
  · exact .finished doubles.outcome
  · rw [doubles.id]
    exact .progress

/-- The first runnable process is dispatched as its double is. -/
theorem Abreast.runNext (abreast : Abreast s₀ s solo P) (fuel : Nat)
    : AnsweredAbreast s₀ s solo (.runNext fuel) := by
  rcases s.split_or_idle with ⟨before, x, after, split, idle, runnable⟩ | idle
  · refine answeredAbreast_of_one x.id (fun k => ?_) ?_
    · rw [concerns, upNext?_of_split split idle runnable]
      exact beq_iff_eq.trans eq_comm
    · obtain ⟨P', y', next, reported, doubles, -⟩ := abreast.dispatch fuel split runnable
      refine ⟨P', ?_⟩
      simp only [answer, Call.on]
      rw [runNext_eq split idle runnable, reported]
      refine ⟨next, ?_⟩
      have like := reportOf_of_doubles doubles
      rwa [Machine.id_run] at like
  · refine answeredAbreast_of_nobody (fun k => ?_) ⟨P, ?_⟩
    · simp [concerns, upNext?_eq_none idle]
    · simp only [answer, runNext_idle idle]
      exact abreast

/-- Every runnable process is dispatched as its double is. -/
theorem Abreast.run (abreast : Abreast s₀ s solo P) (fuel : Nat)
    : AnsweredAbreast s₀ s solo (.run fuel) := by
  obtain ⟨ms, w', ps', round, -, ran⟩ := round_of_length_le fuel (Nat.le_refl s.processes.length)
  obtain ⟨P', next⟩ := abreast.round round rfl (List.nil_append _).symm
  have all : s.run fuel = _ := ran
  refine ⟨P', ?_, fun id due => ?_⟩
  · simp only [answer, all]
    exact next.abreast
  · simp only [answer, all]
    exact .reports (next.reports id due)

/-- Processes that keep to themselves are abreast of their doubles through every call. -/
theorem Abreast.answer (abreast : Abreast s₀ s solo P) {call : Call}
    (independent : call.Independent s₀.world.heap)
    : AnsweredAbreast s₀ s solo call := by
  cases call with
  | add r args =>
      have name : (s.world.heap.routine r).name = (s₀.world.heap.routine r).name := by
        rw [Heap.routine_of_routines abreast.routines]
      refine abreast.add independent ?_ rfl fun _ => rfl
      rw [← name]
      rfl
  | addNamed name kind r args => exact abreast.add independent rfl rfl fun _ => rfl
  | wake id =>
      exact answeredAbreast_of_one id (fun _ => beq_iff_eq.trans eq_comm)
        (abreast.request id isRequest_wake)
  | resume id v =>
      exact answeredAbreast_of_one id (fun _ => beq_iff_eq.trans eq_comm)
        (abreast.request id (isRequest_resume independent))
  | terminate id =>
      exact answeredAbreast_of_one id (fun _ => beq_iff_eq.trans eq_comm) (abreast.terminate id)
  | runNext fuel => exact abreast.runNext fuel
  | run fuel => exact abreast.run fuel
  | adopt | terminateAll => exact independent.elim

/-- The doubles of processes that keep to themselves have been given the calls that were their own. -/
theorem Abreast.after (abreast : Abreast s₀ s solo P) {calls : List Call}
    (independent : ∀ call ∈ calls, call.Independent s₀.world.heap)
    : ∃ P',
        Abreast s₀ (s.after calls)
          (fun id => (solo id).after (ownCalls id s₀.nextId s calls)) P' := by
  induction calls generalizing s solo P with
  | nil => exact ⟨P, abreast⟩
  | cons call later ih =>
      obtain ⟨first, rest⟩ := List.forall_mem_cons.mp independent
      obtain ⟨P₁, abreast₁, -⟩ := abreast.answer first
      obtain ⟨P₂, abreast₂⟩ := ih abreast₁ rest
      refine ⟨P₂, ?_⟩
      have same
          : (fun id => (solo id).after (ownCalls id s₀.nextId s (call :: later)))
            = fun id =>
                (s.alongside s₀.nextId call solo id).after
                  (ownCalls id s₀.nextId (s.answer call).2 later) := by
        funext id
        rw [ownCalls, alongside]
        split <;> rfl
      rw [same]
      exact abreast₂

/-- A process and its double are where they are in their lives, and there is nothing but the double in
its scheduler.
-/
theorem Abreast.status (abreast : Abreast s₀ s solo P) (id : Nat)
    : (solo id).processes.length ≤ 1 ∧ s.status? id = (solo id).status? s₀.nextId := by
  rcases s.split_or_absent id with ⟨before, x, after, split, rfl⟩ | absent
  · obtain ⟨x', alone, doubles⟩ := abreast.held x (by simp [split])
    have found' : (solo x.id).get? s₀.nextId = some x' := doubles.id ▸ get?_of_alone alone
    refine ⟨by rw [alone, List.length_singleton], ?_⟩
    rw [status?, status?, get?_of_split abreast.distinct split, found', Option.map_some,
      Option.map_some, doubles.state, doubles.waitingFor]
  · have empty := abreast.gone id absent
    refine ⟨by rw [empty]; exact Nat.zero_le 1, ?_⟩
    rw [status?, status?, get?_of_absent absent, get?_of_absent (by simp [empty])]

/-- Processes that keep to themselves do not affect each other. After any calls a process is where it
would be alone in a scheduler that has got only the calls that are its own, and whatever concerns it
next, the answer is the same up to its id and to handles.
-/
theorem behaves_as_alone (empty : s₀.processes = []) {calls : List Call}
    (independent : ∀ call ∈ calls, call.Independent s₀.world.heap) (id : Nat)
    : let s := s₀.after calls
      let t := s₀.after (ownCalls id s₀.nextId s₀ calls)
      t.processes.length ≤ 1
      ∧ s.status? id = t.status? s₀.nextId
      ∧ ∀ call, call.Independent s₀.world.heap → s.concerns id call = true →
          (s.answer call).1.Like
            (Heap.SameUpToHandles (s.answer call).2.world.heap
              (t.answer (call.on s₀.nextId)).2.world.heap)
            id s₀.nextId (t.answer (call.on s₀.nextId)).1 := by
  intro s t
  obtain ⟨P, abreast⟩ := (abreast_of_empty empty).after independent
  obtain ⟨alone, status⟩ := abreast.status id
  refine ⟨alone, status, fun call next concerned => ?_⟩
  obtain ⟨P', abreast', like⟩ := abreast.answer next
  have mirrors := abreast'.mirrors id
  rw [alongside, if_pos concerned] at mirrors
  exact (like id concerned).imp fun v v' same => ⟨P' id, mirrors.faithful, mirrors.heaps, same⟩

/-- A routine that adds one to the cell of its array and suspends, and then returns the array, and an
array with one cell.
-/
def counting : Scheduler where
  config := {}
  processes := []
  nextId := 1
  world := { World.empty with
    heap := { Heap.empty with
      arrays := #[⟨[1], #[.integer 41]⟩]
      routines := #[
        { (default : Routine) with
          minArgs := 1
          maxArgs := 1
          localNames := #["cells"]
          code := #[
            ⟨.push, 2, 0⟩, ⟨.push, 0, 0⟩, ⟨.indirect, 2, 1⟩, ⟨.push, 2, 1⟩, ⟨.binary, 0, 0⟩,
            ⟨.push, 2, 0⟩, ⟨.push, 0, 0⟩, ⟨.indirect, 3, 1⟩, ⟨.special, 4, 0⟩, ⟨.push, 0, 0⟩,
            ⟨.special, 1, 1⟩] }] } }

/-- Two processes are started with the same array, and take turns. -/
def takingTurns : List Call :=
  [.add ⟨0⟩ [.array ⟨0⟩], .add ⟨0⟩ [.array ⟨0⟩], .wake 1, .wake 2, .runNext 20, .run 20, .wake 2]

private theorem independent_counting : counting.world.heap.Independent ⟨0⟩ [.array ⟨0⟩] := by
  have nameless : (counting.world.heap.routine ⟨0⟩).Nameless := by
    unfold Routine.Nameless Instruction.UsesName
    decide
  refine Heap.independent_of_flat (Heap.selfContained_of_plain nameless nofun) ?_ ?_
  · intro v given
    obtain rfl := List.mem_singleton.mp given
    exact .array Nat.zero_lt_one
  · intro a given v held
    obtain rfl : a = ⟨0⟩ := by simpa using given
    obtain rfl : v = .integer 41 := Array.mem_singleton.mp held
    exact ⟨.plain id, nofun⟩

/-- The second one counts in an array of its own, and ends as it would end alone. -/
theorem counts_as_alone
    : counting.processes = []
      ∧ (∀ call ∈ takingTurns, call.Independent counting.world.heap)
      ∧ ownCalls 2 1 counting takingTurns = [.add ⟨0⟩ [.array ⟨0⟩], .wake 1, .run 20, .wake 1]
      ∧ (counting.after takingTurns).concerns 2 (.runNext 20) = true
      ∧ ((counting.after takingTurns).answer (.runNext 20)).1.Like
          (Heap.SameUpToHandles ((counting.after takingTurns).answer (.runNext 20)).2.world.heap
            ((counting.after (ownCalls 2 1 counting takingTurns)).answer (.runNext 20)).2.world.heap)
          2 1 ((counting.after (ownCalls 2 1 counting takingTurns)).answer (.runNext 20)).1
      ∧ ((counting.after takingTurns).answer (.runNext 20)).1.outcomes.map
            (fun outcome => (outcome.state, outcome.result))
          = [(.ended, some (.array ⟨2⟩))]
      ∧ (((counting.after takingTurns).answer (.runNext 20)).2.world.heap.grid ⟨2⟩).cells
          = #[.integer 42] := by
  have independent : ∀ call ∈ takingTurns, call.Independent counting.world.heap := by
    simp only [takingTurns, List.forall_mem_cons]
    exact ⟨independent_counting, independent_counting, trivial, trivial, trivial, trivial, trivial,
      by simp⟩
  have concerned : (counting.after takingTurns).concerns 2 (.runNext 20) = true := rfl
  refine ⟨rfl, independent, rfl, concerned, ?_, rfl, rfl⟩
  exact (behaves_as_alone rfl independent 2).2.2 (.runNext 20) trivial concerned

end Scheduler
end TaskMachine
