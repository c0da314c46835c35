import TaskMachine.Proofs.Heap.Knots
import TaskMachine.Proofs.Process.Confinement
import TaskMachine.Proofs.Scheduler.Rounds

/-!
What a scheduler does, move by move. In a move one process acts while all others rest: it is
started, takes up running, makes one step, gets what it waits for, or is gone; or the host adds to
the world. A dispatch is many moves of one process, but moves of different processes may come in
any order.
-/

namespace TaskMachine

open Relation

/-- What copies of these values go through. -/
def Heap.Traversed (h : Heap) (values : List Value) (v : Value) : Prop :=
  ∃ w ∈ values, ReflTransGen h.Enters w v

/-- What a process has from outside when it is started with copies of arguments: the literals of
its routine, and what a copy shares with the original. That is every callable which is no closure,
and the base of every closure.
-/
inductive Heap.Given (h : Heap) (r : RoutineId) (args : List Value) : Value → Prop
  | literal {v : Value} (held : v ∈ (h.routine r).literals) : Given h r args v
  | direct {c : CallableId} {callee : Callee} (traversed : h.Traversed args (.callable c))
    (what : h.callable c = .direct callee)
    : Given h r args (.callable c)
  | base {c base : CallableId} {bound : List Value} (traversed : h.Traversed args (.callable c))
    (what : h.callable c = .closure base bound)
    : Given h r args (.callable base)

/-- What passes between a process and what is around it: the values that it takes in from outside,
and those that it stores in arrays.
-/
structure Dealings where
  takes : Value → Prop
  stores : ArrayId → Value → Prop

/-- A process takes in these values and stores none. -/
def Dealings.taking (takes : Value → Prop) : Dealings :=
  ⟨takes, fun _ _ => False⟩

/-- A process keeps to itself. -/
def Dealings.none : Dealings :=
  .taking fun _ => False

/-- The dealings of a process in its next step. -/
def Machine.dealings (m : Machine) : Dealings :=
  ⟨m.Takes, m.Stores⟩

/-- What one process may do to the world and itself, with its dealings. There is no process before
it is started, nor once it is gone.
-/
inductive Act : World → Option Process → Dealings → World → Option Process → Prop
  | started {config : Config} {id : Nat} {name : String} {kind : ProcessKind} {w : World}
    {r : RoutineId} {args : List Value} {m : Machine}
    (present : ∀ v, w.heap.Traversed args v → w.heap.Present v)
    (done : (Exec.start r args).run ⟨w, { Process.new config id name with kind }⟩ = .ok () m)
    : Act w none (.taking (w.heap.Given r args)) m.world (some m.process)
  | refused {config : Config} {id : Nat} {name : String} {kind : ProcessKind} {w : World}
    {r : RoutineId} {args : List Value} {e : Interruption} {m : Machine}
    (present : ∀ v, w.heap.Traversed args v → w.heap.Present v)
    (failed
      : (Exec.start r args).run ⟨w, { Process.new config id name with kind }⟩ = .error e m)
    : Act w none (.taking (w.heap.Given r args)) m.world none
  | begun {w : World} {p : Process} (runnable : p.state = .runnable)
    : Act w (some p) .none w (some p.begin)
  | stepped {w : World} {p : Process} (running : p.state = .running)
    : Act w (some p) (Machine.dealings ⟨w, p⟩) (Machine.advance ⟨w, p⟩).world
        (some (Machine.advance ⟨w, p⟩).process)
  | woken {w : World} {p p' : Process} (accepted : p.wake = .ok p')
    : Act w (some p) .none w (some p')
  | resumed {w : World} {p p' : Process} {v : Value} (accepted : p.resume v = .ok p')
    : Act w (some p) (.taking (· = v)) w (some p')
  | gone {w : World} {p : Process} : Act w (some p) .none w none

variable {I : Heap → Prop} {R : Value → Prop}

/-- A process that is started, or is refused, keeps to what is at home if all that it is given is.
-/
theorem Machine.disciplined_start [Heap.Discipline I R] {Writes : Heap → ArrayId → Value → Prop}
    {m m' : Machine} {r : RoutineId} {args : List Value}
    (outcome : stateOf ((Exec.start r args).run m) = m') (stack : m.process.stack = [])
    (frames : m.process.frames = []) (order : I m.world.heap)
    (present : ∀ v, m.world.heap.Traversed args v → m.world.heap.Present v)
    (takes : ∀ v, m.world.heap.Given r args v → m.world.heap.Owned R v)
    : m'.Disciplined I R ∧ m.world.heap.Edits R Writes m'.world.heap := by
  have encloses : m.world.heap.Encloses (m.world.heap.Traversed args) := {
    array := fun a traversed => present _ traversed
    callable := fun c traversed => present _ traversed
    cells := fun a ⟨v, given, way⟩ w held => ⟨v, given, way.tail (.cell held)⟩
    bound := fun c base bound ⟨v, given, way⟩ closure w held =>
      ⟨v, given, way.tail (.bound closure held)⟩
  }
  have shares : m.world.heap.Shares (m.world.heap.Traversed args) R := {
    direct := fun c callee traversed what => takes _ (.direct traversed what)
    base := fun c base bound traversed what => takes _ (.base traversed what)
  }
  have fresh : m.Disciplined I R := by
    refine ⟨order, fun v held => ?_⟩
    rcases held with onStack | ⟨f, active, -⟩
    · simp [stack] at onStack
    · simp [frames] at active
  obtain ⟨disciplined, edits, -⟩ :=
    Exec.confines_start encloses shares (fun v given => ⟨v, given, .refl⟩)
      (fun v held => takes v (.literal held)) fresh
  rw [outcome] at disciplined edits
  exact ⟨disciplined, edits⟩

/-- What an act writes, all of it while the heap is still as it was before. -/
def Dealings.Writes (dealings : Dealings) (before h : Heap) (a : ArrayId) (v : Value) : Prop :=
  h = before ∧ dealings.stores a v

/-- A process that acts keeps to what is at home if everything is that it holds, that it takes in
from outside, and that is behind what it calls. By the acts.
-/
theorem Act.disciplined [Heap.Discipline I R] {dealings : Dealings} {w w' : World}
    {actor actor' : Option Process} (act : Act w actor dealings w' actor') (order : I w.heap)
    (held : ∀ p, actor = some p → ∀ v, p.Holds w.heap v → w.heap.Owned R v)
    (takes : ∀ v, dealings.takes v → w.heap.Owned R v)
    (calls
      : ∀ p, actor = some p → p.state = .running
        → ∀ c, Machine.Calls ⟨w, p⟩ c → w.heap.Opens R c)
    : (∀ p, actor' = some p → (⟨w', p⟩ : Machine).Disciplined I R)
      ∧ w.heap.Edits R (dealings.Writes w.heap) w'.heap := by
  have idle (p : Process) (among : actor = some p) : (⟨w, p⟩ : Machine).Disciplined I R :=
    ⟨order, held p among⟩
  have alone {p : Process} {w' : World} (disciplined : (⟨w', p⟩ : Machine).Disciplined I R)
      : ∀ q, some p = some q → (⟨w', q⟩ : Machine).Disciplined I R := by
    intro q same
    cases same
    exact disciplined
  cases act with
  | started present done =>
      obtain ⟨disciplined, edits⟩ :=
        Machine.disciplined_start (congrArg stateOf done) rfl rfl order present takes
      exact ⟨alone disciplined, edits⟩
  | refused present failed =>
      obtain ⟨-, edits⟩ :=
        Machine.disciplined_start (congrArg stateOf failed) rfl rfl order present takes
      exact ⟨by simp, edits⟩
  | @begun _ p => exact ⟨alone (idle p rfl).begin, .refl⟩
  | @stepped _ p running =>
      obtain ⟨disciplined, edits⟩ := (idle p rfl).advance takes (calls p rfl running)
      exact ⟨alone disciplined, edits⟩
  | @woken _ p p' accepted => exact ⟨alone ((idle p rfl).wake accepted), .refl⟩
  | @resumed _ p p' v accepted =>
      exact ⟨alone ((idle p rfl).resume (takes v rfl) accepted), .refl⟩
  | gone => exact ⟨by simp, .refl⟩

/-- A process that acts keeps to a region if everything that it holds and takes in from outside is
at home there: what it calls is among what it holds.
-/
theorem Act.confined {dealings : Dealings} {w w' : World} {actor actor' : Option Process}
    (act : Act w actor dealings w' actor') (region : w.heap.Region R)
    (held : ∀ p, actor = some p → ∀ v, p.Holds w.heap v → w.heap.Owned R v)
    (takes : ∀ v, dealings.takes v → w.heap.Owned R v)
    : (∀ p, actor' = some p → (⟨w', p⟩ : Machine).Confined R)
      ∧ w.heap.Edits R (dealings.Writes w.heap) w'.heap := by
  refine act.disciplined region held takes fun p acting _ c called => ?_
  exact region.opens (held p acting _ called.held).1

namespace Scheduler

/-- One process acts in its place while the others rest. There may be none in this place before or
afterwards.
-/
inductive Turn : Scheduler → List Process → Dealings → Scheduler → Prop
  | acted {s : Scheduler} {before after : List Process} {actor actor' : Option Process}
    {dealings : Dealings} {w : World} (nextId : Nat)
    (split : s.processes = before ++ (actor.toList ++ after))
    (act : Act s.world actor dealings w actor')
    : Turn s (before ++ after) dealings
        { s with world := w, processes := before ++ (actor'.toList ++ after), nextId }

/-- The host does something while all processes rest. It may change anything but what there is on
the heap.
-/
structure Surrounds (s s' : Scheduler) : Prop where
  processes : s'.processes = s.processes
  kept : s.world.heap.Kept s'.world.heap
  routines : s'.world.heap.routines = s.world.heap.routines
  whole : s.world.heap.Whole → s'.world.heap.Whole

/-- A process acts, or the host does. -/
inductive Move (s s' : Scheduler) : Prop
  | turn {others : List Process} {dealings : Dealings} (turn : Turn s others dealings s')
  | host (surrounds : Surrounds s s')

/-- Any number of moves. -/
abbrev Moves : Scheduler → Scheduler → Prop :=
  ReflTransGen Move

variable {s s' : Scheduler} {before after : List Process} {p p' : Process} {w : World}

-----------------------------------------------------------------------------------------
-- What moves keep to
-----------------------------------------------------------------------------------------

/-- The heap is in order, and everything that processes hold is at home. -/
structure Disciplined (I : Heap → Prop) (R : Value → Prop) (s : Scheduler) : Prop where
  order : I s.world.heap
  held : ∀ p ∈ s.processes, ∀ v, p.Holds s.world.heap v → s.world.heap.Owned R v

/-- The process is the one that does not rest when these others do. -/
def Acts (s : Scheduler) (others : List Process) (p : Process) : Prop :=
  ∃ before after, s.processes = before ++ p :: after ∧ others = before ++ after

theorem Acts.mem {others : List Process} (acts : s.Acts others p) : p ∈ s.processes := by
  obtain ⟨before, after, split, -⟩ := acts
  simp [split]

/-- A turn keeps to what is at home if all is that is taken in from outside or is behind what is
called.
-/
theorem Turn.disciplined [Heap.Discipline I R] {others : List Process} {dealings : Dealings}
    (turn : Turn s others dealings s') (disciplined : s.Disciplined I R)
    (takes : ∀ v, dealings.takes v → s.world.heap.Owned R v)
    (calls
      : ∀ p, s.Acts others p → p.state = .running
        → ∀ c, Machine.Calls ⟨s.world, p⟩ c → s.world.heap.Opens R c)
    : s'.Disciplined I R
      ∧ s.world.heap.Edits R (dealings.Writes s.world.heap) s'.world.heap := by
  obtain ⟨nextId, split, act⟩ := turn
  rename_i before after actor actor' w
  have acts (p : Process) (acting : actor = some p) : s.Acts (before ++ after) p :=
    ⟨before, after, by simpa [acting] using split, rfl⟩
  have held (p : Process) (acting : actor = some p) : p ∈ s.processes := by
    simp [split, acting]
  obtain ⟨kept, edits⟩ := act.disciplined disciplined.order
    (fun p acting => disciplined.held p (held p acting)) takes
    (fun p acting => calls p (acts p acting))
  have changes := edits.changesIn
  have resting (q : Process) (among : q ∈ before ++ after) (v : Value) (holds : q.Holds w.heap v)
      : w.heap.Owned R v := by
    have before := (q.holds_of_routines changes.routines).mp holds
    refine changes.owned (disciplined.held q ?_ v before)
    rw [split]
    simp only [List.mem_append] at among ⊢
    exact among.imp_right .inr
  refine ⟨⟨edits.order disciplined.order, fun p among => ?_⟩, edits⟩
  simp only [List.mem_append, Option.mem_toList] at among
  rcases among with earlier | acting | later
  · exact resting p (List.mem_append_left after earlier)
  · exact (kept p acting).held
  · exact resting p (List.mem_append_right before later)

/-- What the host does keeps to what is at home if it leaves the heap in order. -/
theorem Surrounds.disciplined (surrounds : Surrounds s s') (disciplined : s.Disciplined I R)
    (order : I s'.world.heap)
    : s'.Disciplined I R where
  order := order
  held p among v holds := by
    rw [surrounds.processes] at among
    have before := (p.holds_of_routines surrounds.routines).mp holds
    exact surrounds.kept.owned (disciplined.held p among v before)

-----------------------------------------------------------------------------------------
-- All that a scheduler does is made of moves
-----------------------------------------------------------------------------------------

/-- An act of the process at a place is a move of the scheduler. -/
theorem moves_act {actor' : Option Process} {dealings : Dealings}
    (split : s.processes = before ++ p :: after) (act : Act s.world (some p) dealings w actor')
    : Moves s { s with world := w, processes := before ++ (actor'.toList ++ after) } := by
  have place : s.processes = before ++ ((some p).toList ++ after) := split
  exact .single (.turn (.acted s.nextId place act))

theorem moves_addNamed (name : String) (kind : ProcessKind) (r : RoutineId) {args : List Value}
    (present : ∀ v, s.world.heap.Traversed args v → s.world.heap.Present v)
    : Moves s (s.addNamed name kind r args).2 := by
  have split : s.processes = s.processes ++ ((none : Option Process).toList ++ []) := by simp
  unfold addNamed
  dsimp only
  cases done : (Exec.start r args).run
      ⟨s.world, { Process.new s.config s.nextId name with kind }⟩ with
  | ok _ m => exact .single (.turn (.acted (s.nextId + 1) split (.started present done)))
  | error e m =>
      have turn := Turn.acted s.nextId split (.refused present done)
      simp only [Option.toList_none, List.append_nil] at turn
      exact .single (.turn turn)

/-- A process that is started without arguments gets nothing that would have to be there. -/
theorem moves_addNamed_nil (name : String) (kind : ProcessKind) (r : RoutineId)
    : Moves s (s.addNamed name kind r []).2 := by
  refine moves_addNamed name kind r fun v traversed => ?_
  obtain ⟨w, never, -⟩ := traversed
  cases never

/-- Steps of the process at a place are moves, by induction on their number. -/
theorem moves_runFor (fuel : Nat) (split : s.processes = before ++ p :: after)
    : Moves s { s with
        world := (Machine.runFor fuel ⟨s.world, p⟩).world
        processes := before ++ (Machine.runFor fuel ⟨s.world, p⟩).process :: after } := by
  induction fuel generalizing s p with
  | zero =>
      have same : { s with processes := before ++ p :: after } = s := by rw [← split]
      rw [Machine.runFor, same]
  | succ fuel ih =>
      rw [Machine.runFor]
      split
      · rename_i running
        refine (moves_act split (.stepped running)).trans ?_
        exact @ih { s with
          world := (Machine.advance ⟨s.world, p⟩).world
          processes := before ++ (Machine.advance ⟨s.world, p⟩).process :: after }
          (Machine.advance ⟨s.world, p⟩).process rfl
      · have same : { s with processes := before ++ p :: after } = s := by rw [← split]
        rw [same]

/-- Steps of the only process lead to the machine that they end with. -/
theorem moves_of_runFor {m : Machine} (fuel : Nat) (alone : s.processes = [p])
    (ran : Machine.runFor fuel ⟨s.world, p⟩ = m)
    : Moves s { s with world := m.world, processes := [m.process] } := by
  have moves := @moves_runFor s [] [] p fuel alone
  rwa [ran] at moves

/-- A dispatch is made of moves of the process that is up next. -/
theorem moves_runNext (fuel : Nat) (s : Scheduler) : Moves s (s.runNext fuel).2 := by
  rcases s.split_or_idle with ⟨before, p, after, split, idle, runnable⟩ | idle
  · rw [runNext_of_split split idle runnable]
    have begun := moves_act split (.begun runnable)
    have ran := @moves_runFor { s with processes := before ++ p.begin :: after } before after
      p.begin fuel rfl
    have moves := begun.trans ran
    rw [Machine.run, if_pos runnable]
    split
    · refine moves.trans ?_
      exact @moves_act _ before after _ _ none _ rfl .gone
    · exact moves
  · rw [runNext_idle idle]

/-- A request to a process changes that process in its place, if all have ids of their own. -/
theorem update_eq_ok {id : Nat} {change : Process → Except Refusal Process}
    (distinct : (s.processes.map (·.id)).Nodup) (keeps : ∀ p p', change p = .ok p' → p'.id = p.id)
    (done : s.update id change = .ok s')
    : ∃ before p after p',
        s.processes = before ++ p :: after ∧ change p = .ok p'
        ∧ s' = { s with processes := before ++ p' :: after } := by
  unfold update at done
  split at done
  · cases done
  rename_i p found
  cases changed : change p with
  | error refusal =>
      rw [changed] at done
      cases done
  | ok p' =>
      rw [changed] at done
      cases done
      obtain ⟨same, before, after, split, -⟩ := List.find?_eq_some_iff_append.mp found
      refine ⟨before, p, after, p', split, changed, ?_⟩
      rw [split, List.map_append, List.map_cons, List.nodup_middle, List.nodup_cons] at distinct
      have others : ∀ q ∈ before ++ after, (if q.id = p'.id then p' else q) = q := by
        intro q member
        refine if_neg fun clash => distinct.1 ?_
        rw [← List.map_append, ← keeps p p' changed, ← clash]
        exact List.mem_map_of_mem member
      obtain ⟨earlier, later⟩ := List.forall_mem_append.mp others
      rw [put, split, List.map_append, List.map_cons, List.map_congr_left earlier,
        List.map_congr_left later, List.map_id', List.map_id', if_pos (keeps p p' changed).symm]

/-- Waking changes one process in its place. -/
theorem wake_eq_ok {id : Nat} (distinct : (s.processes.map (·.id)).Nodup) (done : s.wake id = .ok s')
    : ∃ before p after p',
        s.processes = before ++ p :: after ∧ p.wake = .ok p'
        ∧ s' = { s with processes := before ++ p' :: after } := by
  refine update_eq_ok distinct (fun p p' accepted => ?_) done
  obtain ⟨-, rfl⟩ := Process.wake_eq_ok.mp accepted
  rfl

/-- Resuming changes one process in its place. -/
theorem resume_eq_ok {id : Nat} {v : Value} (distinct : (s.processes.map (·.id)).Nodup)
    (done : s.resume id v = .ok s')
    : ∃ before p after p',
        s.processes = before ++ p :: after ∧ p.resume v = .ok p'
        ∧ s' = { s with processes := before ++ p' :: after } := by
  refine update_eq_ok distinct (fun p p' accepted => ?_) done
  obtain ⟨-, ⟨-, rfl⟩ | ⟨-, rfl⟩⟩ := Process.resume_eq_ok.mp accepted
  · rfl
  · rfl

/-- Terminating takes one process out and reports it. -/
theorem terminate_eq_ok {id : Nat} {outcome : Outcome} (distinct : (s.processes.map (·.id)).Nodup)
    (done : s.terminate id = .ok (outcome, s'))
    : ∃ before p after,
        s.processes = before ++ p :: after ∧ outcome = p.terminate.outcome
        ∧ s' = { s with processes := before ++ after } := by
  unfold terminate at done
  split at done
  · cases done
  rename_i p found
  cases done
  obtain ⟨same, before, after, split, -⟩ := List.find?_eq_some_iff_append.mp found
  obtain rfl : p.id = id := by simpa using same
  rw [split, List.map_append, List.map_cons, List.nodup_middle, List.nodup_cons,
    ← List.map_append] at distinct
  have others : ∀ q ∈ before ++ after, (q.id != p.id) = true := by
    intro q member
    refine bne_iff_ne.mpr fun clash => distinct.1 ?_
    rw [← clash]
    exact List.mem_map_of_mem member
  obtain ⟨earlier, later⟩ := List.forall_mem_append.mp others
  have left : s.processes.filter (·.id != p.id) = before ++ after := by
    rw [split, List.filter_append, List.filter_cons_of_neg (by simp),
      List.filter_eq_self.mpr earlier, List.filter_eq_self.mpr later]
  exact ⟨before, p, after, split, rfl, by rw [left]⟩

private theorem moves_wake {id : Nat} (distinct : (s.processes.map (·.id)).Nodup)
    (done : s.wake id = .ok s')
    : Moves s s' := by
  obtain ⟨before, p, after, p', split, accepted, rfl⟩ := wake_eq_ok distinct done
  exact moves_act split (.woken accepted)

/-- Waking a process is a move, and nothing happens if it is refused. -/
theorem moves_getD_wake {id : Nat} (distinct : (s.processes.map (·.id)).Nodup)
    : Moves s ((s.wake id).toOption.getD s) := by
  cases done : s.wake id with
  | ok s' => exact moves_wake distinct done
  | error refusal => exact .refl

end Scheduler
end TaskMachine
