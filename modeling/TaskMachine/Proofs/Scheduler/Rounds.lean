import Mathlib.Data.List.ReduceOption
import Mathlib.Data.List.TakeDrop
import Mathlib.Data.List.TakeWhile
import TaskMachine.Proofs.Process.Runs
import TaskMachine.Scheduler

/-!
Running a scheduler is one round over its processes: from the first to the last, each that is
runnable runs once, in the world as those before it have left it, and keeps its place unless it
has come to its end. The others are left alone. A round leaves no process runnable, so there is
nothing more to do.
-/

namespace TaskMachine

namespace Scheduler

variable {fuel : Nat} {s : Scheduler}

-----------------------------------------------------------------------------------------
-- Single dispatches
-----------------------------------------------------------------------------------------

/-- The process that a dispatch takes up, in the world as it is, if there is any to take up. -/
def upNext? (s : Scheduler) : Option Machine :=
  (s.processes.find? (·.state == .runnable)).map fun p => ⟨s.world, p⟩

/-- The turns that processes get one after another in at most `count` dispatches: each process as it
is taken up.
-/
def turns (fuel : Nat) : Nat → Scheduler → List Machine
  | 0, _ => []
  | count + 1, s =>
    match s.upNext? with
    | some m => m :: turns fuel count (s.runNext fuel).2
    | none => []

/-- The turns in a run of the scheduler. -/
def allTurns (fuel : Nat) (s : Scheduler) : List Machine :=
  s.turns fuel s.processes.length

/-- Every process that gets a turn in a run stops by itself. -/
def Settles (fuel : Nat) (s : Scheduler) : Prop :=
  ∀ m ∈ s.allTurns fuel, (m.run fuel).process.state ≠ .running

section
variable {before after : List Process} {p : Process}

theorem upNext?_eq_none (idle : ∀ q ∈ s.processes, q.state ≠ .runnable) : s.upNext? = none := by
  simpa [upNext?] using idle

theorem upNext?_of_split (split : s.processes = before ++ p :: after)
    (idle : ∀ q ∈ before, q.state ≠ .runnable) (runnable : p.state = .runnable)
    : s.upNext? = some ⟨s.world, p⟩ := by
  have skipped : before.find? (·.state == .runnable) = none := by simpa using idle
  simp [upNext?, split, skipped, runnable]

/-- Without a runnable process there is nothing to dispatch. -/
theorem runNext_idle (idle : ∀ q ∈ s.processes, q.state ≠ .runnable)
    : s.runNext fuel = (.idle, s) := by
  have all : s.processes.span (·.state != .runnable) = (s.processes, []) := by
    rw [List.span_eq_takeWhile_dropWhile]
    have kept : ∀ q ∈ s.processes, (q.state != .runnable) = true := by simpa using idle
    rw [List.takeWhile_eq_self_iff.mpr kept, List.dropWhile_eq_nil_iff.mpr kept]
  rw [runNext, all]

/-- A dispatch runs the first runnable process, which keeps its place unless it has come to its
end.
-/
theorem runNext_of_split (split : s.processes = before ++ p :: after)
    (idle : ∀ q ∈ before, q.state ≠ .runnable) (runnable : p.state = .runnable)
    : s.runNext fuel
      = if (Machine.run fuel ⟨s.world, p⟩).process.state.isTerminal then
          (.finished (Machine.run fuel ⟨s.world, p⟩).process.outcome,
            { s with
              world := (Machine.run fuel ⟨s.world, p⟩).world
              processes := before ++ after })
        else
          (.progress p.id,
            { s with
              world := (Machine.run fuel ⟨s.world, p⟩).world
              processes := before ++ (Machine.run fuel ⟨s.world, p⟩).process :: after }) := by
  have kept : ∀ q ∈ before, (q.state != .runnable) = true := by simpa using idle
  have stop : (p.state != .runnable) = false := by simp [runnable]
  have there : s.processes.span (·.state != .runnable) = (before, p :: after) := by
    rw [List.span_eq_takeWhile_dropWhile, split, List.takeWhile_append_of_pos kept,
      List.dropWhile_append_of_pos kept]
    simp [stop]
  rw [runNext, there]

end

-----------------------------------------------------------------------------------------
-- Rounds
-----------------------------------------------------------------------------------------

/-- A round over processes, from a world to the one in which it leaves them. -/
inductive Round (fuel : Nat) : World → List Process → List Machine → World → List Process → Prop
  | done {w : World} : Round fuel w [] [] w []
  | passed {w w' : World} {p : Process} {ps ps' : List Process} {ms : List Machine}
    (idle : p.state ≠ .runnable) (others : Round fuel w ps ms w' ps')
    : Round fuel w (p :: ps) ms w' (p :: ps')
  | stayed {w w' : World} {p : Process} {ps ps' : List Process} {ms : List Machine}
    (runnable : p.state = .runnable)
    (going : (Machine.run fuel ⟨w, p⟩).process.state.isTerminal = false)
    (others : Round fuel (Machine.run fuel ⟨w, p⟩).world ps ms w' ps')
    : Round fuel w (p :: ps) (⟨w, p⟩ :: ms) w' ((Machine.run fuel ⟨w, p⟩).process :: ps')
  | left {w w' : World} {p : Process} {ps ps' : List Process} {ms : List Machine}
    (runnable : p.state = .runnable)
    (final : (Machine.run fuel ⟨w, p⟩).process.state.isTerminal = true)
    (others : Round fuel (Machine.run fuel ⟨w, p⟩).world ps ms w' ps')
    : Round fuel w (p :: ps) (⟨w, p⟩ :: ms) w' ps'

/-- What is left of a process after these turns: all of one that got none, what its turn has made
of one that did, and nothing of one that has come to its end in its turn.
-/
inductive Rest (fuel : Nat) (turns : List Machine) (p : Process) : Option Process → Prop
  | idle (idle : p.state ≠ .runnable) : Rest fuel turns p (some p)
  | going {m : Machine} (turn : m ∈ turns) (process : m.process = p) (runnable : p.state = .runnable)
    (going : (m.run fuel).process.state.isTerminal = false)
    : Rest fuel turns p (some (m.run fuel).process)
  | gone {m : Machine} (turn : m ∈ turns) (process : m.process = p) (runnable : p.state = .runnable)
    (final : (m.run fuel).process.state.isTerminal = true)
    : Rest fuel turns p none

theorem Rest.later {turns : List Machine} {p : Process} {rest : Option Process} (m : Machine)
    (left : Rest fuel turns p rest)
    : Rest fuel (m :: turns) p rest := by
  cases left with
  | idle idle => exact .idle idle
  | going turn process runnable going =>
      exact .going (List.mem_cons_of_mem m turn) process runnable going
  | gone turn process runnable final =>
      exact .gone (List.mem_cons_of_mem m turn) process runnable final

namespace Round

variable {w w' : World} {ps ps' : List Process} {ms : List Machine}

/-- In a round each runnable process gets a turn, in order, and is as it was until then. -/
theorem turns (round : Round fuel w ps ms w' ps')
    : ms.map (·.process) = ps.filter (·.state == .runnable) := by
  induction round with
  | done => rfl
  | passed idle _ ih => simpa [idle] using ih
  | stayed runnable _ _ ih | left runnable _ _ ih => simpa [runnable] using ih

/-- A round leaves no process runnable. -/
theorem idle (round : Round fuel w ps ms w' ps') : ∀ p ∈ ps', p.state ≠ .runnable := by
  induction round with
  | done => simp
  | passed idle _ ih => exact List.forall_mem_cons.mpr ⟨idle, ih⟩
  | stayed _ _ _ ih => exact List.forall_mem_cons.mpr ⟨Machine.state_run_ne_runnable _ _, ih⟩
  | left _ _ _ ih => exact ih

/-- What is left of each process after a round. -/
theorem places (round : Round fuel w ps ms w' ps')
    : ∃ left : List (Option Process),
        ps' = left.reduceOption ∧ List.Forall₂ (Rest fuel ms) ps left := by
  induction round with
  | done => exact ⟨[], rfl, .nil⟩
  | @passed w w' p ps ps' ms idle _ ih =>
      obtain ⟨left, rfl, each⟩ := ih
      exact ⟨some p :: left, (List.reduceOption_cons_of_some ..).symm, .cons (.idle idle) each⟩
  | @stayed w w' p ps ps' ms runnable going _ ih =>
      obtain ⟨left, rfl, each⟩ := ih
      have turn : Rest fuel (⟨w, p⟩ :: ms) p (some (Machine.run fuel ⟨w, p⟩).process) :=
        .going List.mem_cons_self rfl runnable going
      exact ⟨_, (List.reduceOption_cons_of_some ..).symm, .cons turn (each.imp fun _ _ => .later _)⟩
  | @left w w' p ps ps' ms runnable final _ ih =>
      obtain ⟨left, rfl, each⟩ := ih
      have turn : Rest fuel (⟨w, p⟩ :: ms) p none := .gone List.mem_cons_self rfl runnable final
      exact ⟨_, (List.reduceOption_cons_of_none ..).symm, .cons turn (each.imp fun _ _ => .later _)⟩

/-- There is only one round over given processes from a given world. -/
theorem unique (round : Round fuel w ps ms w' ps') {w'' : World} {ps'' : List Process}
    {ms' : List Machine} (other : Round fuel w ps ms' w'' ps'')
    : ms' = ms ∧ w'' = w' ∧ ps'' = ps' := by
  induction round generalizing ms' ps'' with
  | done =>
      cases other
      exact ⟨rfl, rfl, rfl⟩
  | passed idle _ ih =>
      cases other with
      | passed _ others =>
          obtain ⟨rfl, rfl, rfl⟩ := ih others
          exact ⟨rfl, rfl, rfl⟩
      | stayed runnable | left runnable => exact absurd runnable idle
  | stayed runnable going _ ih =>
      cases other with
      | passed idle => exact absurd runnable idle
      | stayed _ _ others =>
          obtain ⟨rfl, rfl, rfl⟩ := ih others
          exact ⟨rfl, rfl, rfl⟩
      | left _ final => rw [going] at final; cases final
  | left runnable final _ ih =>
      cases other with
      | passed idle => exact absurd runnable idle
      | stayed _ going => rw [going] at final; cases final
      | left _ _ others =>
          obtain ⟨rfl, rfl, rfl⟩ := ih others
          exact ⟨rfl, rfl, rfl⟩

end Round

/-- The reports of those processes that came to their end in their turns. -/
def reports (fuel : Nat) (ms : List Machine) : List Outcome :=
  ((ms.map fun m => (m.run fuel).process).filter (·.state.isTerminal)).map Process.outcome

/-- As many dispatches as there are processes from some place on make a round over these, by
induction on them. Those before that place are not runnable.
-/
theorem round_of_split {before rest : List Process} {count : Nat}
    (split : s.processes = before ++ rest) (idle : ∀ q ∈ before, q.state ≠ .runnable)
    (enough : rest.length ≤ count)
    : ∃ ms w' rest',
        Round fuel s.world rest ms w' rest'
        ∧ turns fuel count s = ms
        ∧ runTimes fuel count s
          = (reports fuel ms, { s with world := w', processes := before ++ rest' }) := by
  induction rest generalizing s before count with
  | nil =>
      have none : ∀ q ∈ s.processes, q.state ≠ .runnable := by simpa [split] using idle
      have same : { s with processes := before ++ [] } = s := by rw [← split]
      refine ⟨[], s.world, [], .done, ?_, ?_⟩
      · cases count with
        | zero => rfl
        | succ count => rw [turns, upNext?_eq_none none]
      · rw [same]
        cases count with
        | zero => rfl
        | succ count => rw [runTimes, runNext_idle none]; rfl
  | cons p rest ih =>
      by_cases runnable : p.state = .runnable
      · obtain ⟨count, rfl⟩ : ∃ less, count = less + 1 :=
          Nat.exists_eq_add_one.mpr (Nat.lt_of_lt_of_le (Nat.succ_pos _) enough)
        have enough : rest.length ≤ count := by simpa using enough
        rw [turns, upNext?_of_split split idle runnable, runTimes,
          runNext_of_split split idle runnable]
        dsimp only
        cases final : (Machine.run fuel ⟨s.world, p⟩).process.state.isTerminal with
        | true =>
            obtain ⟨ms, w', rest', round, taken, ran⟩ :=
              @ih { s with
                world := (Machine.run fuel ⟨s.world, p⟩).world
                processes := before ++ rest } before count rfl idle enough
            refine ⟨_, w', rest', .left runnable final round, ?_, ?_⟩
            · simp only [if_true, taken]
            · simp only [if_true, ran]
              simp [reports, final]
        | false =>
            have stopped : ∀ q ∈ before ++ [(Machine.run fuel ⟨s.world, p⟩).process],
                q.state ≠ .runnable :=
              List.forall_mem_append.mpr
                ⟨idle, List.forall_mem_singleton.mpr (Machine.state_run_ne_runnable _ _)⟩
            obtain ⟨ms, w', rest', round, taken, ran⟩ :=
              @ih { s with
                world := (Machine.run fuel ⟨s.world, p⟩).world
                processes := before ++ (Machine.run fuel ⟨s.world, p⟩).process :: rest }
                (before ++ [(Machine.run fuel ⟨s.world, p⟩).process]) count (by simp) stopped enough
            refine ⟨_, w', _, .stayed runnable final round, ?_, ?_⟩
            · simp only [Bool.false_eq_true, if_false, taken]
            · simp only [Bool.false_eq_true, if_false, ran]
              simp [reports, final]
      · have passed : ∀ q ∈ before ++ [p], q.state ≠ .runnable :=
          List.forall_mem_append.mpr ⟨idle, List.forall_mem_singleton.mpr runnable⟩
        obtain ⟨ms, w', rest', round, taken, ran⟩ :=
          @ih s (before ++ [p]) count (by simp [split]) passed
            (Nat.le_of_succ_le (by simpa using enough))
        exact ⟨ms, w', p :: rest', .passed runnable round, taken, by simpa using ran⟩

-----------------------------------------------------------------------------------------
-- How many steps each turn is allowed
-----------------------------------------------------------------------------------------

/-- A process is runnable with none before it, or none is. -/
theorem split_or_idle (s : Scheduler)
    : (∃ before p after, s.processes = before ++ p :: after
        ∧ (∀ q ∈ before, q.state ≠ .runnable) ∧ p.state = .runnable)
      ∨ ∀ q ∈ s.processes, q.state ≠ .runnable := by
  cases found : s.processes.find? (·.state == .runnable) with
  | none => exact .inr (by simpa using found)
  | some p =>
      obtain ⟨runnable, before, after, split, idle⟩ := List.find?_eq_some_iff_append.mp found
      exact .inl ⟨before, p, after, split, by simpa using idle, by simpa using runnable⟩

/-- As many dispatches as there are processes make a round over all of them. -/
theorem round_of_length_le (fuel : Nat) {count : Nat} (enough : s.processes.length ≤ count)
    : ∃ ms w' ps',
        Round fuel s.world s.processes ms w' ps'
        ∧ turns fuel count s = ms
        ∧ runTimes fuel count s = (reports fuel ms, { s with world := w', processes := ps' }) :=
  round_of_split (List.nil_append _).symm (List.forall_mem_nil _) enough

/-- Dispatches beyond the number of processes find nothing to do: they are the same round. -/
theorem runTimes_of_length_le (fuel : Nat) {count : Nat} (enough : s.processes.length ≤ count)
    : turns fuel count s = s.allTurns fuel ∧ runTimes fuel count s = s.run fuel := by
  obtain ⟨ms, w', ps', round, taken, ran⟩ := round_of_length_le fuel enough
  obtain ⟨_, _, _, round', taken', ran'⟩ := round_of_length_le fuel (Nat.le_refl s.processes.length)
  obtain ⟨rfl, rfl, rfl⟩ := round.unique round'
  exact ⟨taken.trans taken'.symm, ran.trans ran'.symm⟩

/-- If all turns end by themselves, they are the same whatever is allowed beyond that, by
induction on their number.
-/
theorem runTimes_of_le {more count : Nat} (le : fuel ≤ more)
    (settles : ∀ m ∈ turns fuel count s, (m.run fuel).process.state ≠ .running)
    : turns more count s = turns fuel count s ∧ runTimes more count s = runTimes fuel count s := by
  induction count generalizing s with
  | zero => exact ⟨rfl, rfl⟩
  | succ count ih =>
      rcases s.split_or_idle with ⟨before, p, after, split, idle, runnable⟩ | idle
      · have next := upNext?_of_split split idle runnable
        rw [turns, next] at settles
        obtain ⟨first, others⟩ := List.forall_mem_cons.mp settles
        have same : s.runNext more = s.runNext fuel := by
          rw [runNext_of_split split idle runnable, runNext_of_split split idle runnable,
            Machine.run_of_le le first]
        obtain ⟨taken, ran⟩ := ih others
        rw [turns, turns, next, runTimes, runTimes, same]
        refine ⟨by dsimp only; rw [taken], ?_⟩
        cases outcome : s.runNext fuel with
        | mk dispatch s' =>
            rw [outcome] at ran
            cases dispatch <;> simp [ran]
      · rw [turns, turns, upNext?_eq_none idle, runTimes, runTimes, runNext_idle idle,
          runNext_idle idle]
        exact ⟨rfl, rfl⟩

-----------------------------------------------------------------------------------------
-- Each runnable process runs once
-----------------------------------------------------------------------------------------

/-- If every process that gets a turn stops by itself, a run is one round over the processes.
Those that are runnable to begin with get one turn each, in their order, and no others do. The
reports are those of the processes that come to their end in their turns, in the same order. These
are gone afterwards; one that got no turn is as it was, and all that are left keep their order.
Then no process is runnable, and nothing else happens however many more dispatches or steps are
allowed.
-/
theorem run_is_round {more count : Nat} (settles : s.Settles fuel) (le : fuel ≤ more)
    (enough : s.processes.length ≤ count)
    : ∃ w' ps',
        s.run more = (reports more (s.allTurns more), { s with world := w', processes := ps' })
        ∧ (s.allTurns more).map (·.process) = s.processes.filter (·.state == .runnable)
        ∧ Round more s.world s.processes (s.allTurns more) w' ps'
        ∧ (∃ left : List (Option Process),
            ps' = left.reduceOption
            ∧ List.Forall₂ (Rest more (s.allTurns more)) s.processes left)
        ∧ (∀ p ∈ ps', p.state ≠ .runnable)
        ∧ turns more count s = s.allTurns fuel
        ∧ runTimes more count s = s.run fuel := by
  obtain ⟨ms, w', ps', round, rfl, ran⟩ := round_of_length_le more (Nat.le_refl s.processes.length)
  obtain ⟨takenMore, ranMore⟩ := runTimes_of_length_le more enough
  obtain ⟨takenSame, ranSame⟩ := runTimes_of_le le settles
  exact ⟨w', ps', ran, round.turns, round, round.places, round.idle, takenMore.trans takenSame,
    ranMore.trans ranSame⟩

/-- A process that waits, one whose routine has no code, and one whose routine only suspends it. The
latter two are runnable.
-/
def threesome : Scheduler where
  config := {}
  nextId := 4
  world := { World.empty with heap := { Heap.empty with routines := #[default,
    { (default : Routine) with code := #[⟨.special, 4, 0⟩] }] } }
  processes :=
    [ { Process.new {} 1 "waits" with state := .waiting, waitingFor := some "key" },
      { Process.new {} 2 "ends" with
        state := .runnable
        frames := [{
          routine := ⟨0⟩, pc := 0, locals := #[], handlers := [], wantResult := false,
          stackBase := 0 }] },
      { Process.new {} 3 "suspends" with
        state := .runnable
        frames := [{
          routine := ⟨1⟩, pc := 0, locals := #[], handlers := [], wantResult := false,
          stackBase := 0 }] } ]

theorem threesome_round
    : (threesome.allTurns 2).map (·.process.id) = [2, 3]
      ∧ (threesome.run 2).1.map (fun report => (report.id, report.state)) = [(2, .ended)]
      ∧ (threesome.run 2).2.processes.map (fun p => (p.id, p.state))
        = [(1, .waiting), (3, .suspended)] := by
  have settles : threesome.Settles 2 := by
    unfold Settles
    decide
  obtain ⟨w', ps', ran, turned, -⟩ := run_is_round settles (Nat.le_refl 2) (Nat.le_refl 3)
  refine ⟨?_, rfl, rfl⟩
  have same := congrArg (List.map (·.id)) turned
  rwa [List.map_map] at same

end Scheduler
end TaskMachine
