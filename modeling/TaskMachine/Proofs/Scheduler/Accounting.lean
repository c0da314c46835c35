import TaskMachine.Proofs.Process.LifeCycle
import TaskMachine.Proofs.Scheduler.Moves
import TaskMachine.Proofs.Scheduler.Rounds

/-!
The books of a scheduler. Over all calls that a host makes, every id is handed out once, in order, and
is then either that of a process which the scheduler holds or that of one report. A call that fails
leaves everything as it is. And as long as the host hands in only processes that have not come to their
end, the scheduler holds none that is running or has ended.
-/

namespace TaskMachine

namespace Scheduler

-----------------------------------------------------------------------------------------
-- Calls and answers
-----------------------------------------------------------------------------------------

/-- What a host can ask of a scheduler. -/
inductive Call where
  | add (r : RoutineId) (args : List Value)
  | addNamed (name : String) (kind : ProcessKind) (r : RoutineId) (args : List Value)
  | adopt (p : Process)
  | wake (id : Nat)
  | resume (id : Nat) (v : Value)
  | terminate (id : Nat)
  | terminateAll
  | runNext (fuel : Nat)
  | run (fuel : Nat)

/-- What a scheduler answers. -/
inductive Answer where
  /-- A process was taken in under this id. -/
  | added (id : Nat)
  /-- A process could not be started. -/
  | interrupted (e : Interruption)
  /-- A request was passed on to a process. -/
  | accepted
  | refused (refusal : Refusal)
  | reports (outcomes : List Outcome)
  | dispatch (dispatch : Dispatch)

namespace Answer

/-- The ids that are handed out. -/
def ids : Answer → List Nat
  | added id => [id]
  | _ => []

/-- The reports that are handed back. -/
def outcomes : Answer → List Outcome
  | reports outcomes => outcomes
  | dispatch (.finished outcome) => [outcome]
  | _ => []

/-- The call has failed. -/
def IsError : Answer → Prop
  | interrupted _ | refused _ => True
  | _ => False

/-- The answer to an attempt to start a process. -/
def ofStart : Except Interruption Nat × Scheduler → Answer × Scheduler
  | (.ok id, s) => (added id, s)
  | (.error e, s) => (interrupted e, s)

/-- The answer to a request that a process accepts or refuses. -/
def ofRequest (s : Scheduler) : Except Refusal Scheduler → Answer × Scheduler
  | .ok s' => (accepted, s')
  | .error refusal => (refused refusal, s)

end Answer

/-- The answer to a call, and the scheduler after it. -/
def answer (s : Scheduler) : Call → Answer × Scheduler
  | .add r args => Answer.ofStart (s.add r args)
  | .addNamed name kind r args => Answer.ofStart (s.addNamed name kind r args)
  | .adopt p => (.added (s.adopt p).1, (s.adopt p).2)
  | .wake id => Answer.ofRequest s (s.wake id)
  | .resume id v => Answer.ofRequest s (s.resume id v)
  | .terminate id =>
    match s.terminate id with
    | .ok (outcome, s') => (.reports [outcome], s')
    | .error refusal => (.refused refusal, s)
  | .terminateAll => (.reports s.terminateAll.1, s.terminateAll.2)
  | .runNext fuel => (.dispatch (s.runNext fuel).1, (s.runNext fuel).2)
  | .run fuel => (.reports (s.run fuel).1, (s.run fuel).2)

/-- The host gets an answer: arguments are copied to their end, and every process that runs stops by
itself.
-/
def Returns (s : Scheduler) : Call → Prop
  | .add r args => (s.add r args).1 ≠ .error .endless
  | .addNamed name kind r args => (s.addNamed name kind r args).1 ≠ .error .endless
  | .runNext fuel => ∀ m ∈ s.upNext?, (m.run fuel).process.state ≠ .running
  | .run fuel => s.Settles fuel
  | .adopt _ | .wake _ | .resume .. | .terminate _ | .terminateAll => True

/-- What a host has asked of a scheduler so far, with the answers. Between calls the world may become
any other one.
-/
inductive History (config : Config) : List Call → List Answer → Scheduler → Prop
  | new : History config [] [] (Scheduler.new config)
  | surrounded {calls : List Call} {answers : List Answer} {s : Scheduler}
    (history : History config calls answers s) (w : World)
    : History config calls answers { s with world := w }
  | answered {calls : List Call} {answers : List Answer} {s : Scheduler}
    (history : History config calls answers s) (call : Call) (returns : s.Returns call)
    : History config (calls ++ [call]) (answers ++ [(s.answer call).1]) (s.answer call).2

-----------------------------------------------------------------------------------------
-- What calls do to the processes held
-----------------------------------------------------------------------------------------

/-- Some processes have been taken out and reported, and the others are still there in their order. -/
structure Thins (before : List Process) (outcomes : List Outcome) (after : List Process) : Prop where
  order : (after.map (·.id)).Sublist (before.map (·.id))
  each : (after.map (·.id) ++ outcomes.map (·.id)).Perm (before.map (·.id))

/-- What a call does to the books: it takes in some processes under the next ids, after all others, and
thins out the others.
-/
structure Turnover (s : Scheduler) (added : List Process) (outcomes : List Outcome) (s' : Scheduler)
    : Prop where
  nextId : s'.nextId = s.nextId + added.length
  numbered : added.map (·.id) = List.range' s.nextId added.length
  processes : ∃ left, s'.processes = left ++ added ∧ Thins s.processes outcomes left

variable {s s' : Scheduler} {ps ps' : List Process}

theorem Thins.refl (ps : List Process) : Thins ps [] ps :=
  ⟨.refl _, by rw [List.map_nil, List.append_nil]⟩

/-- Processes that keep their ids are not thinned out. -/
theorem Thins.of_ids (same : ps'.map (·.id) = ps.map (·.id)) : Thins ps [] ps' := by
  refine ⟨?_, ?_⟩
  · rw [same]
  · rw [same, List.map_nil, List.append_nil]

/-- Processes may be thinned out in front of others and among these. -/
theorem Thins.append {qs qs' : List Process} {outcomes outcomes' : List Outcome}
    (front : Thins ps outcomes ps') (back : Thins qs outcomes' qs')
    : Thins (ps ++ qs) (outcomes ++ outcomes') (ps' ++ qs') := by
  obtain ⟨frontOrder, frontEach⟩ := front
  obtain ⟨backOrder, backEach⟩ := back
  constructor
  · simp only [List.map_append]
    exact frontOrder.append backOrder
  · have both := frontEach.append backEach
    simp only [List.map_append, List.append_assoc] at both ⊢
    exact ((List.perm_append_comm_assoc ..).append_left _).trans both

theorem id_terminate (p : Process) : p.terminate.id = p.id := by
  rw [Process.terminate]
  split <;> rfl

/-- All processes are taken out and reported. -/
theorem Thins.all (ps : List Process) : Thins ps (ps.map fun p => p.terminate.outcome) [] := by
  have ids : (ps.map fun p => p.terminate.outcome).map (·.id) = ps.map (·.id) := by
    rw [List.map_map]
    exact List.map_congr_left fun p _ => id_terminate p
  refine ⟨List.nil_sublist _, ?_⟩
  rw [ids]
  exact .refl _

/-- One process is taken out and reported. -/
theorem Thins.one {before after : List Process} {p : Process} {outcome : Outcome}
    (reported : outcome.id = p.id)
    : Thins (before ++ p :: after) [outcome] (before ++ after) := by
  have gone : Thins [p] [outcome] [] := by
    refine ⟨List.nil_sublist _, ?_⟩
    simp only [List.map_nil, List.nil_append, List.map_cons, reported]
    exact .refl _
  exact (Thins.refl before).append (gone.append (Thins.refl after))

/-- A process is replaced by one with its id. -/
theorem Thins.replace {before after : List Process} {p p' : Process} (same : p'.id = p.id)
    : Thins (before ++ p :: after) [] (before ++ p' :: after) :=
  .of_ids (by simp only [List.map_append, List.map_cons, same])

/-- A round thins out the processes that come to their end in it. -/
theorem Round.thins {fuel : Nat} {w w' : World} {ms : List Machine} (round : Round fuel w ps ms w' ps')
    : Thins ps (Scheduler.reports fuel ms) ps' := by
  induction round with
  | done => exact .refl []
  | @passed w w' p ps ps' ms idle _ ih =>
      exact (Thins.refl [p]).append ih
  | @stayed w w' p ps ps' ms runnable going _ ih =>
      have same : Thins [p] [] [(Machine.run fuel ⟨w, p⟩).process] :=
        .of_ids (by simp [Machine.id_run])
      have reports : Scheduler.reports fuel (⟨w, p⟩ :: ms) = Scheduler.reports fuel ms := by
        simp [Scheduler.reports, going]
      rw [reports]
      exact same.append ih
  | @left w w' p ps ps' ms runnable final _ ih =>
      have gone : Thins [p] [(Machine.run fuel ⟨w, p⟩).process.outcome] [] :=
        @Thins.one [] [] p _ (Machine.id_run fuel ⟨w, p⟩)
      have reports
          : Scheduler.reports fuel (⟨w, p⟩ :: ms)
            = (Machine.run fuel ⟨w, p⟩).process.outcome :: Scheduler.reports fuel ms := by
        simp [Scheduler.reports, final]
      rw [reports]
      exact gone.append ih

/-- Nothing is taken in. -/
theorem Turnover.thinned {outcomes : List Outcome} (thins : Thins s.processes outcomes ps') (w : World)
    : Turnover s [] outcomes { s with world := w, processes := ps' } :=
  ⟨rfl, rfl, ps', (List.append_nil _).symm, thins⟩

theorem Turnover.refl (s : Scheduler) : Turnover s [] [] s :=
  .thinned (.refl s.processes) s.world

/-- A process is taken in under the next id. -/
theorem Turnover.one {p : Process} (id : p.id = s.nextId) (nextId : s'.nextId = s.nextId + 1)
    (processes : s'.processes = s.processes ++ [p])
    : Turnover s [p] [] s' :=
  ⟨nextId, by simp [id], s.processes, processes, .refl _⟩

-----------------------------------------------------------------------------------------
-- Single calls
-----------------------------------------------------------------------------------------

/-- Copies leave the routines and the objects of a heap as they are. -/
theorem survives_tables
    : Heap.Survives fun h h' => h'.routines = h.routines ∧ h'.objects = h.objects where
  refl _ := ⟨rfl, rfl⟩
  trans _ _ _ first next := ⟨next.1.trans first.1, next.2.trans first.2⟩
  array _ _ _ _ copied := copied
  closure _ _ _ _ _ _ _ copied := copied

/-- Nothing has changed but that there may be more on the heap. -/
structure Spares (s s' : Scheduler) : Prop where
  same : s' = { s with world := { s.world with heap := s'.world.heap } }
  kept : s.world.heap.Kept s'.world.heap
  routines : s'.world.heap.routines = s.world.heap.routines
  objects : s'.world.heap.objects = s.world.heap.objects

theorem Spares.refl (s : Scheduler) : Spares s s :=
  ⟨rfl, .refl _, rfl, rfl⟩

/-- A process is added under the next id, or nothing has happened. -/
theorem addNamed_cases (name : String) (kind : ProcessKind) (r : RoutineId) (args : List Value)
    (s : Scheduler)
    : (∃ m,
        (Exec.start r args).run ⟨s.world, { Process.new s.config s.nextId name with kind }⟩ = .ok () m
        ∧ s.addNamed name kind r args
          = (.ok s.nextId,
              { s with
                world := m.world
                processes := s.processes ++ [m.process]
                nextId := s.nextId + 1 }))
      ∨ ∃ e s', s.addNamed name kind r args = (.error e, s') ∧ Spares s s' := by
  unfold addNamed
  dsimp only
  cases done : (Exec.start r args).run
      ⟨s.world, { Process.new s.config s.nextId name with kind }⟩ with
  | ok _ m => exact .inl ⟨m, rfl, rfl⟩
  | error e m =>
      refine .inr ⟨e, _, rfl, ?_⟩
      rcases Exec.start_eq_error done with rfl | ⟨h, copies, copied, rfl⟩
      · exact .refl s
      · exact ⟨rfl, Heap.survives_kept.copyList copied, (survives_tables.copyList copied).1,
          (survives_tables.copyList copied).2⟩

/-- A process that was started is at the beginning of its life, with the id that it was given. -/
theorem id_of_started {name : String} {kind : ProcessKind} {r : RoutineId} {args : List Value}
    {m : Machine}
    (ran
      : (Exec.start r args).run ⟨s.world, { Process.new s.config s.nextId name with kind }⟩ = .ok () m)
    : m.process.id = s.nextId := by
  have entered :=
    Exec.stays_start r args ⟨s.world, { Process.new s.config s.nextId name with kind }⟩
  rw [Exec.Stays, ran] at entered
  exact entered.sameLife.id

/-- An attempt to start a process hands out the next id to it, or fails. -/
theorem turnover_ofStart (name : String) (kind : ProcessKind) (r : RoutineId) (args : List Value)
    (s : Scheduler)
    : ∃ added,
        (Answer.ofStart (s.addNamed name kind r args)).1.ids = added.map (·.id)
        ∧ Turnover s added (Answer.ofStart (s.addNamed name kind r args)).1.outcomes
            (Answer.ofStart (s.addNamed name kind r args)).2 := by
  rcases addNamed_cases name kind r args s with ⟨m, ran, done⟩ | ⟨e, s', failed, spares⟩
  · have id := id_of_started ran
    rw [done]
    exact ⟨[m.process], by simp [Answer.ofStart, Answer.ids, id], .one id rfl rfl⟩
  · rw [failed]
    refine ⟨[], rfl, ?_⟩
    have turnover := Turnover.thinned (.refl s.processes) { s.world with heap := s'.world.heap }
    rwa [← spares.same] at turnover

/-- A request to a process leaves the books as they are. -/
theorem turnover_ofRequest {reply : Except Refusal Scheduler}
    (replaces
      : ∀ s', reply = .ok s' → ∃ before p after p',
          s.processes = before ++ p :: after ∧ p'.id = p.id
          ∧ s' = { s with processes := before ++ p' :: after })
    : (Answer.ofRequest s reply).1.ids = []
      ∧ Turnover s [] (Answer.ofRequest s reply).1.outcomes (Answer.ofRequest s reply).2 := by
  cases reply with
  | error refusal => exact ⟨rfl, .refl s⟩
  | ok s' =>
      obtain ⟨before, p, after, p', split, id, rfl⟩ := replaces s' rfl
      have thins : Thins s.processes [] (before ++ p' :: after) := by
        rw [split]
        exact .replace id
      exact ⟨rfl, .thinned thins s.world⟩

/-- What a dispatch does to the books. -/
theorem turnover_runNext (fuel : Nat) (s : Scheduler)
    : Turnover s [] (Answer.dispatch (s.runNext fuel).1).outcomes (s.runNext fuel).2 := by
  rcases s.split_or_idle with ⟨before, p, after, split, idle, runnable⟩ | idle
  · have id := Machine.id_run fuel ⟨s.world, p⟩
    rw [runNext_of_split split idle runnable]
    cases (Machine.run fuel ⟨s.world, p⟩).process.state.isTerminal with
    | true =>
        refine .thinned ?_ _
        rw [split]
        exact .one id
    | false =>
        refine .thinned ?_ _
        rw [split]
        exact .replace id
  · rw [runNext_idle idle]
    exact .refl s

/-- Every call hands out the next ids to the processes that it takes in, and thins out the others, by
the kinds of calls.
-/
theorem turnover_answer (call : Call) (distinct : (s.processes.map (·.id)).Nodup)
    : ∃ added,
        (s.answer call).1.ids = added.map (·.id)
        ∧ Turnover s added (s.answer call).1.outcomes (s.answer call).2 := by
  cases call with
  | add r args => exact turnover_ofStart ..
  | addNamed name kind r args => exact turnover_ofStart ..
  | adopt p => exact ⟨[{ p with id := s.nextId }], rfl, .one rfl rfl rfl⟩
  | wake id =>
      refine ⟨[], turnover_ofRequest fun s' done => ?_⟩
      obtain ⟨before, p, after, p', split, accepted, rfl⟩ := wake_eq_ok distinct done
      refine ⟨before, p, after, p', split, ?_, rfl⟩
      obtain ⟨-, rfl⟩ := Process.wake_eq_ok.mp accepted
      rfl
  | resume id v =>
      refine ⟨[], turnover_ofRequest fun s' done => ?_⟩
      obtain ⟨before, p, after, p', split, accepted, rfl⟩ := resume_eq_ok distinct done
      refine ⟨before, p, after, p', split, ?_, rfl⟩
      obtain ⟨-, ⟨-, rfl⟩ | ⟨-, rfl⟩⟩ := Process.resume_eq_ok.mp accepted <;> rfl
  | terminate id =>
      rw [answer]
      cases done : s.terminate id with
      | error refusal => exact ⟨[], rfl, .refl s⟩
      | ok result =>
          obtain ⟨outcome, s'⟩ := result
          obtain ⟨before, p, after, split, rfl, rfl⟩ := terminate_eq_ok distinct done
          have thins : Thins s.processes [p.terminate.outcome] (before ++ after) := by
            rw [split]
            exact .one (id_terminate p)
          exact ⟨[], rfl, .thinned thins s.world⟩
  | terminateAll => exact ⟨[], rfl, .thinned (.all s.processes) s.world⟩
  | runNext fuel =>
      have none : (Answer.dispatch (s.runNext fuel).1).ids = [] := rfl
      exact ⟨[], none, turnover_runNext fuel s⟩
  | run fuel =>
      obtain ⟨ms, w', ps', round, -, ran⟩ := round_of_length_le fuel (Nat.le_refl s.processes.length)
      rw [answer, run, ran]
      exact ⟨[], rfl, .thinned round.thins w'⟩

/-- A call that fails leaves the scheduler as it is, by the kinds of calls. -/
theorem spares_of_error {call : Call} (error : (s.answer call).1.IsError)
    : Spares s (s.answer call).2 := by
  have start (name : String) (kind : ProcessKind) (r : RoutineId) (args : List Value)
      (error : (Answer.ofStart (s.addNamed name kind r args)).1.IsError)
      : Spares s (Answer.ofStart (s.addNamed name kind r args)).2 := by
    rcases addNamed_cases name kind r args s with ⟨m, -, done⟩ | ⟨e, s', failed, spares⟩
    · rw [done] at error
      exact error.elim
    · rw [failed]
      exact spares
  have request (reply : Except Refusal Scheduler) (error : (Answer.ofRequest s reply).1.IsError)
      : Spares s (Answer.ofRequest s reply).2 := by
    cases reply with
    | ok s' => exact error.elim
    | error refusal => exact .refl s
  cases call with
  | add r args => exact start _ _ _ _ error
  | addNamed name kind r args => exact start _ _ _ _ error
  | wake id => exact request _ error
  | resume id v => exact request _ error
  | terminate id =>
      rw [answer] at error ⊢
      cases done : s.terminate id with
      | ok result =>
          rw [done] at error
          exact error.elim
      | error refusal => exact .refl s
  | adopt | terminateAll | runNext | run => exact error.elim

-----------------------------------------------------------------------------------------
-- Ids that stand for one process each
-----------------------------------------------------------------------------------------

/-- A process is found under its id if all have ids of their own. -/
theorem get?_eq_some (distinct : (s.processes.map (·.id)).Nodup) (id : Nat) (p : Process)
    : s.get? id = some p ↔ p ∈ s.processes ∧ p.id = id := by
  constructor
  · intro found
    exact ⟨List.mem_of_find?_eq_some found, by simpa using List.find?_some found⟩
  · rintro ⟨held, rfl⟩
    have some : (s.get? p.id).isSome := List.find?_isSome.mpr ⟨p, held, by simp⟩
    obtain ⟨q, found⟩ := Option.isSome_iff_exists.mp some
    have same : q.id = p.id := by simpa using List.find?_some found
    rw [found, List.inj_on_of_nodup_map distinct (List.mem_of_find?_eq_some found) held same]

/-- If all processes have ids of their own, the others have other ids. -/
theorem others_of_split {before after : List Process} {p : Process}
    (distinct : (s.processes.map (·.id)).Nodup) (split : s.processes = before ++ p :: after)
    : ∀ q ∈ before ++ after, q.id ≠ p.id := by
  rw [split, List.map_append, List.map_cons, List.nodup_middle, List.nodup_cons,
    ← List.map_append] at distinct
  intro q member same
  exact distinct.1 (List.mem_map.mpr ⟨q, member, same⟩)

theorem get?_of_split {before after : List Process} {p : Process}
    (distinct : (s.processes.map (·.id)).Nodup) (split : s.processes = before ++ p :: after)
    : s.get? p.id = some p :=
  (get?_eq_some distinct _ _).mpr ⟨by simp [split], rfl⟩

/-- A request that the process accepts is accepted, if all processes have ids of their own. -/
theorem update_of_split {before after : List Process} {p p' : Process}
    {change : Process → Except Refusal Process}
    (distinct : (s.processes.map (·.id)).Nodup) (split : s.processes = before ++ p :: after)
    (keeps : p'.id = p.id) (accepted : change p = .ok p')
    : s.update p.id change = .ok { s with processes := before ++ p' :: after } := by
  have others : ∀ q ∈ before ++ after, (if q.id = p.id then p' else q) = q :=
    fun q member => if_neg (others_of_split distinct split q member)
  obtain ⟨earlier, later⟩ := List.forall_mem_append.mp others
  rw [update, get?_of_split distinct split]
  simp only [accepted, Except.map, put, keeps, split, List.map_append, List.map_cons, if_true,
    List.map_congr_left earlier, List.map_congr_left later, List.map_id']

-----------------------------------------------------------------------------------------
-- The books
-----------------------------------------------------------------------------------------

/-- All ids that were handed out, in order. -/
def handedOut (answers : List Answer) : List Nat :=
  answers.flatMap Answer.ids

/-- The ids of all reports that were handed back. -/
def reported (answers : List Answer) : List Nat :=
  (answers.flatMap Answer.outcomes).map (·.id)

/-- The books are in order: the ids that were handed out are the numbers from 1 on, the processes are
held in the order of their ids and found under them, and what was handed out is still held or was
reported, each id once.
-/
structure Accounts (answers : List Answer) (s : Scheduler) : Prop where
  numbered : handedOut answers = List.range' 1 (handedOut answers).length
  increasing : (handedOut answers).Pairwise (· < ·)
  nextId : s.nextId = (handedOut answers).length + 1
  ordered : (s.processes.map (·.id)).Pairwise (· < ·)
  found : ∀ id p, s.get? id = some p ↔ p ∈ s.processes ∧ p.id = id
  conserved : (s.processes.map (·.id) ++ reported answers).Perm (handedOut answers)

/-- Ordered ids that are the numbers from 1 on make up the books. -/
theorem Accounts.of_ordered {answers : List Answer}
    (numbered : handedOut answers = List.range' 1 (handedOut answers).length)
    (nextId : s.nextId = (handedOut answers).length + 1)
    (ordered : (s.processes.map (·.id)).Pairwise (· < ·))
    (conserved : (s.processes.map (·.id) ++ reported answers).Perm (handedOut answers))
    : Accounts answers s where
  numbered := numbered
  increasing := by
    rw [numbered]
    exact List.pairwise_lt_range'
  nextId := nextId
  ordered := ordered
  found := get?_eq_some (ordered.imp Nat.ne_of_lt)
  conserved := conserved

/-- The books stay in order when processes are taken in under the next ids and others are thinned out.
-/
theorem Accounts.turnover {answers : List Answer} {a : Answer} {added : List Process}
    (accounts : Accounts answers s) (ids : a.ids = added.map (·.id))
    (turnover : Turnover s added a.outcomes s')
    : Accounts (answers ++ [a]) s' := by
  obtain ⟨nextId, next, left, processes, order, each⟩ := turnover
  have handed : handedOut (answers ++ [a]) = handedOut answers ++ added.map (·.id) := by
    simp [handedOut, ids]
  have reports : reported (answers ++ [a]) = reported answers ++ a.outcomes.map (·.id) := by
    simp [reported]
  refine .of_ordered ?_ ?_ ?_ ?_
  · rw [handed, List.length_append, List.length_map, ← List.range'_append_1, ← accounts.numbered, next,
      accounts.nextId, Nat.add_comm]
  · rw [handed, nextId, accounts.nextId, List.length_append, List.length_map]
    omega
  · rw [processes, List.map_append, List.pairwise_append, next]
    refine ⟨accounts.ordered.sublist order, List.pairwise_lt_range', fun id held id' new => ?_⟩
    -- every id that was handed out before is below the next one
    have before : id ∈ handedOut answers :=
      accounts.conserved.subset (List.mem_append_left _ (order.subset held))
    rw [accounts.numbered, List.mem_range'_1] at before
    rw [accounts.nextId, List.mem_range'_1] at new
    omega
  · rw [processes, handed, reports]
    refine List.perm_iff_count.mpr fun id => ?_
    have taken := each.count_eq id
    have conserved := accounts.conserved.count_eq id
    simp only [List.map_append, List.count_append] at taken conserved ⊢
    omega

/-- Without calls nothing is held and nothing is owed. -/
theorem accounts_new (config : Config) : Accounts [] (Scheduler.new config) :=
  .of_ordered rfl rfl .nil (.refl _)

/-- The books are in order after any calls, by induction on the history. -/
theorem History.accounts {config : Config} {calls : List Call} {answers : List Answer}
    (history : History config calls answers s)
    : Accounts answers s := by
  induction history with
  | new => exact accounts_new config
  | surrounded _ w ih => exact .of_ordered ih.numbered ih.nextId ih.ordered ih.conserved
  | answered _ call _ ih =>
      obtain ⟨added, ids, turnover⟩ := turnover_answer call (ih.ordered.imp Nat.ne_of_lt)
      exact ih.turnover ids turnover

-----------------------------------------------------------------------------------------
-- Processes at rest
-----------------------------------------------------------------------------------------

/-- Between calls a process that is held is not running and has not come to its end, and it has
something that it waits for just if it is waiting.
-/
structure AtRest (p : Process) : Prop where
  keyed : p.Keyed
  going : p.state.isTerminal = false
  idle : p.state ≠ .running

/-- A process in the hands of a host: whatever has happened to it since the beginning of its life, it
is not in the middle of a run.
-/
def InHand (p : Process) : Prop :=
  ∃ m₀ m, m₀.Origin ∧ Relation.ReflTransGen Machine.Event m₀ m ∧ m.process = p ∧ p.state ≠ .running

/-- Between dispatches no process that is held is running. -/
theorem InHand.atRest {p : Process} (inHand : InHand p) (going : p.state.isTerminal = false)
    : AtRest p := by
  obtain ⟨m₀, m, origin, events, rfl, idle⟩ := inHand
  exact ⟨Machine.keyed_of_events origin events, going, idle⟩

/-- A process that stops in a run without coming to its end is at rest. -/
theorem AtRest.run {fuel : Nat} {w : World} {p : Process} (rest : AtRest p)
    (stopped : (Machine.run fuel ⟨w, p⟩).process.state ≠ .running)
    (going : (Machine.run fuel ⟨w, p⟩).process.state.isTerminal = false)
    : AtRest (Machine.run fuel ⟨w, p⟩).process :=
  ⟨Machine.keyed_run fuel rest.keyed, going, stopped⟩

/-- A round leaves all processes at rest if every turn ends by itself, by induction on the round. -/
theorem Round.atRest {fuel : Nat} {w w' : World} {ms : List Machine} (round : Round fuel w ps ms w' ps')
    (settles : ∀ m ∈ ms, (m.run fuel).process.state ≠ .running) (rest : ∀ p ∈ ps, AtRest p)
    : ∀ p ∈ ps', AtRest p := by
  induction round with
  | done => exact rest
  | passed _ _ ih =>
      obtain ⟨first, others⟩ := List.forall_mem_cons.mp rest
      exact List.forall_mem_cons.mpr ⟨first, ih settles others⟩
  | stayed _ going _ ih =>
      obtain ⟨first, others⟩ := List.forall_mem_cons.mp rest
      obtain ⟨stopped, settles⟩ := List.forall_mem_cons.mp settles
      exact List.forall_mem_cons.mpr ⟨first.run stopped going, ih settles others⟩
  | left _ _ _ ih =>
      obtain ⟨-, others⟩ := List.forall_mem_cons.mp rest
      obtain ⟨-, settles⟩ := List.forall_mem_cons.mp settles
      exact ih settles others

/-- A process that was started is at rest. -/
theorem atRest_of_started {config : Config} {id : Nat} {name : String} {kind : ProcessKind} {w : World}
    {r : RoutineId} {args : List Value} {m : Machine}
    (ran : (Exec.start r args).run ⟨w, { Process.new config id name with kind }⟩ = .ok () m)
    : AtRest m.process := by
  have entered := Exec.stays_start r args ⟨w, { Process.new config id name with kind }⟩
  rw [Exec.Stays, ran] at entered
  have suspended : m.process.state = .suspended := entered.sameLife.state
  refine ⟨(Machine.Origin.started ran).keyed, ?_, ?_⟩
  · rw [suspended]
    rfl
  · rw [suspended]
    decide

/-- Where all but one process are at rest, all are once that one is. -/
theorem forall_atRest_replace {before after : List Process} {p p' : Process}
    (rest : ∀ q ∈ before ++ p :: after, AtRest q) (next : AtRest p → AtRest p')
    : ∀ q ∈ before ++ p' :: after, AtRest q := by
  simp only [List.forall_mem_append, List.forall_mem_cons] at rest ⊢
  exact ⟨rest.1, next rest.2.1, rest.2.2⟩

/-- An attempt to start a process leaves all at rest. -/
theorem atRest_ofStart (name : String) (kind : ProcessKind) (r : RoutineId) (args : List Value)
    (rest : ∀ p ∈ s.processes, AtRest p)
    : ∀ p ∈ (Answer.ofStart (s.addNamed name kind r args)).2.processes, AtRest p := by
  rcases addNamed_cases name kind r args s with ⟨m, ran, done⟩ | ⟨e, s', failed, spares⟩
  · rw [done]
    exact List.forall_mem_append.mpr ⟨rest, List.forall_mem_singleton.mpr (atRest_of_started ran)⟩
  · have same : s'.processes = s.processes := by rw [spares.same]
    rw [failed]
    show ∀ p ∈ s'.processes, AtRest p
    rwa [same]

/-- A request to a process leaves all at rest if it does so with that one. -/
theorem atRest_ofRequest {reply : Except Refusal Scheduler}
    (replaces
      : ∀ s', reply = .ok s' → ∃ before p after p',
          s.processes = before ++ p :: after ∧ (AtRest p → AtRest p')
          ∧ s' = { s with processes := before ++ p' :: after })
    (rest : ∀ p ∈ s.processes, AtRest p)
    : ∀ p ∈ (Answer.ofRequest s reply).2.processes, AtRest p := by
  cases reply with
  | error refusal => exact rest
  | ok s' =>
      obtain ⟨before, p, after, p', split, next, rfl⟩ := replaces s' rfl
      rw [split] at rest
      exact forall_atRest_replace rest next

/-- A dispatch leaves all processes at rest if the one that it takes up stops by itself. -/
theorem atRest_runNext {fuel : Nat} (returns : s.Returns (.runNext fuel))
    (rest : ∀ p ∈ s.processes, AtRest p)
    : ∀ p ∈ (s.runNext fuel).2.processes, AtRest p := by
  rcases s.split_or_idle with ⟨before, p, after, split, idle, runnable⟩ | idle
  · have stopped := returns _ (upNext?_of_split split idle runnable)
    rw [split] at rest
    rw [runNext_of_split split idle runnable]
    cases going : (Machine.run fuel ⟨s.world, p⟩).process.state.isTerminal with
    | true =>
        simp only [List.forall_mem_append, List.forall_mem_cons] at rest
        exact List.forall_mem_append.mpr ⟨rest.1, rest.2.2⟩
    | false => exact forall_atRest_replace rest fun once => once.run stopped going
  · rw [runNext_idle idle]
    exact rest

/-- Every call leaves all processes at rest, if it adopts none but such, by the kinds of calls. -/
theorem atRest_answer {call : Call} (returns : s.Returns call)
    (distinct : (s.processes.map (·.id)).Nodup) (adopted : ∀ p, call = .adopt p → AtRest p)
    (rest : ∀ p ∈ s.processes, AtRest p)
    : ∀ p ∈ (s.answer call).2.processes, AtRest p := by
  cases call with
  | add r args => exact atRest_ofStart _ _ _ _ rest
  | addNamed name kind r args => exact atRest_ofStart _ _ _ _ rest
  | adopt p =>
      obtain ⟨keyed, going, idle⟩ := adopted p rfl
      have new : AtRest { p with id := s.nextId } := ⟨keyed, going, idle⟩
      exact List.forall_mem_append.mpr ⟨rest, List.forall_mem_singleton.mpr new⟩
  | wake id =>
      refine atRest_ofRequest (fun s' done => ?_) rest
      obtain ⟨before, p, after, p', split, accepted, rfl⟩ := wake_eq_ok distinct done
      refine ⟨before, p, after, p', split, fun once => ?_, rfl⟩
      have keyed := (Machine.Event.woken (m := ⟨s.world, p⟩) accepted).keyed once.keyed
      obtain ⟨-, rfl⟩ := Process.wake_eq_ok.mp accepted
      exact ⟨keyed, rfl, nofun⟩
  | resume id v =>
      refine atRest_ofRequest (fun s' done => ?_) rest
      obtain ⟨before, p, after, p', split, accepted, rfl⟩ := resume_eq_ok distinct done
      refine ⟨before, p, after, p', split, fun once => ?_, rfl⟩
      have keyed := (Machine.Event.resumed (m := ⟨s.world, p⟩) accepted).keyed once.keyed
      obtain ⟨-, ⟨-, rfl⟩ | ⟨-, rfl⟩⟩ := Process.resume_eq_ok.mp accepted
      all_goals exact ⟨keyed, rfl, nofun⟩
  | terminate id =>
      rw [answer]
      cases done : s.terminate id with
      | error refusal => exact rest
      | ok result =>
          obtain ⟨outcome, s'⟩ := result
          obtain ⟨before, p, after, split, -, rfl⟩ := terminate_eq_ok distinct done
          rw [split] at rest
          simp only [List.forall_mem_append, List.forall_mem_cons] at rest
          exact List.forall_mem_append.mpr ⟨rest.1, rest.2.2⟩
  | terminateAll => exact List.forall_mem_nil _
  | runNext fuel => exact atRest_runNext returns rest
  | run fuel =>
      obtain ⟨ms, w', ps', round, rfl, ran⟩ :=
        round_of_length_le fuel (Nat.le_refl s.processes.length)
      rw [answer, run, ran]
      exact round.atRest returns rest

/-- All processes are at rest after any calls that adopt none but such, by induction on the history. -/
theorem History.atRest {config : Config} {calls : List Call} {answers : List Answer}
    (history : History config calls answers s) (adopted : ∀ p, .adopt p ∈ calls → AtRest p)
    : ∀ p ∈ s.processes, AtRest p := by
  induction history with
  | new => exact List.forall_mem_nil _
  | surrounded _ _ ih => exact ih adopted
  | answered history call returns ih =>
      refine atRest_answer returns (history.accounts.ordered.imp Nat.ne_of_lt) (fun p last => ?_)
        (ih fun p earlier => adopted p (List.mem_append_left _ earlier))
      exact adopted p (List.mem_append_right _ (List.mem_singleton.mpr last.symm))

/-- The waiting processes are listed with what they wait for. -/
theorem waiting_of_atRest (rest : ∀ p ∈ s.processes, AtRest p)
    : s.waiting.map (fun (id, key) => (id, some key))
      = (s.processes.filter (·.state = .waiting)).map fun p => (p.id, p.waitingFor) := by
  rw [waiting]
  generalize s.processes = ps at rest
  induction ps with
  | nil => rfl
  | cons p ps ih =>
      obtain ⟨first, others⟩ := List.forall_mem_cons.mp rest
      by_cases waiting : p.state = .waiting
      · obtain ⟨key, asked⟩ := Option.isSome_iff_exists.mp (first.keyed.mpr waiting)
        simp [waiting, asked, ih others]
      · simp [waiting, ih others]

/-- Over any calls that a host makes, the books of the scheduler are in order: ids are handed out in
increasing order, each process is held under its id in that order, and every id that was handed out is
either that of a process held or of exactly one report. Any call that fails changes nothing but that
there may be more on the heap. And if the host hands in only processes that have not come to their end,
no process held is running or has come to its end, and the waiting ones are listed with what they wait
for.
-/
theorem accounts_of_history {config : Config} {calls : List Call} {answers : List Answer}
    (history : History config calls answers s)
    : Accounts answers s
      ∧ (∀ call, (s.answer call).1.IsError → Spares s (s.answer call).2)
      ∧ ((∀ p, .adopt p ∈ calls → InHand p ∧ p.state.isTerminal = false) →
          (∀ p ∈ s.processes, p.state ∉ [.running, .ended, .terminated, .failed])
          ∧ s.waiting.map (fun (id, key) => (id, some key))
            = (s.processes.filter (·.state = .waiting)).map fun p => (p.id, p.waitingFor)) := by
  refine ⟨history.accounts, fun _ error => spares_of_error error, fun adopted => ?_⟩
  have rest := history.atRest fun p member => (adopted p member).1.atRest (adopted p member).2
  refine ⟨fun p held => ?_, waiting_of_atRest rest⟩
  obtain ⟨-, going, idle⟩ := rest p held
  cases state : p.state with
  | running => exact absurd state idle
  | ended | terminated | failed =>
      rw [state] at going
      cases going
  | suspended | runnable | waiting => decide

/-- Two processes are taken in, between them one is refused; the first is woken and waits, nobody is
resumed, and the second is terminated.
-/
def bookkeeping : List Call :=
  [.add ⟨0⟩ [], .add ⟨0⟩ [.null], .adopt (Process.new {} 9 "guest"), .wake 1, .runNext 2,
    .resume 5 .null, .terminate 2]

theorem bookkeeping_accounts
    : ∃ answers s,
        History {} bookkeeping answers s
        ∧ handedOut answers = [1, 2]
        ∧ reported answers = [2]
        ∧ s.processes.map (·.id) = [1]
        ∧ Accounts answers s
        ∧ (s.answer (.wake 1)).1.IsError
        ∧ Spares s (s.answer (.wake 1)).2
        ∧ s.waiting = [(1, "key")]
        ∧ s.waiting.map (fun (id, key) => (id, some key))
          = (s.processes.filter (·.state = .waiting)).map (fun p => (p.id, p.waitingFor))
        ∧ ∀ p ∈ s.processes, p.state ∉ [.running, .ended, .terminated, .failed] := by
  have opened : History {} [] [] { Scheduler.new {} with world := Machine.waitingWorld } :=
    History.new.surrounded Machine.waitingWorld
  have first := opened.answered (.add ⟨0⟩ []) nofun
  have second := first.answered (.add ⟨0⟩ [.null]) nofun
  have third := second.answered (.adopt (Process.new {} 9 "guest")) trivial
  have fourth := third.answered (.wake 1) trivial
  have fifth := fourth.answered (.runNext 2) (by
    unfold Returns
    decide +kernel)
  have sixth := fifth.answered (.resume 5 .null) trivial
  have history := sixth.answered (.terminate 2) trivial
  have guest : ∀ p, Call.adopt p ∈ bookkeeping → InHand p ∧ p.state.isTerminal = false := by
    intro p member
    have same : p = Process.new {} 9 "guest" := by simpa [bookkeeping] using member
    subst same
    exact ⟨⟨_, _, .created {} 9 "guest" .default .empty, .refl, rfl, nofun⟩, rfl⟩
  obtain ⟨accounts, spares, rest⟩ := accounts_of_history history
  obtain ⟨states, waiting⟩ := rest guest
  exact ⟨_, _, history, by decide +kernel, by decide +kernel, by decide +kernel, accounts, trivial,
    spares (.wake 1) trivial, by decide +kernel, waiting, states⟩

end Scheduler
end TaskMachine
