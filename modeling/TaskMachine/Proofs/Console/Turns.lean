import TaskMachine.Console.Commands
import TaskMachine.Console.Sandbox
import TaskMachine.Proofs.ObjectFile.Restoration
import TaskMachine.Proofs.ObjectFile.Strict
import TaskMachine.Proofs.Scheduler.Accounting

/-!
The loop over turns. A turn wakes every suspended process once, lets processes run as long as one is
runnable, and only then reads a line, which goes to the first process that waits. It is over when
nothing is runnable and nothing waits. The end of the input ends the whole run.
-/

namespace TaskMachine

namespace Scheduler

variable {s s' : Scheduler} {before after : List Process} {p p' : Process}

-----------------------------------------------------------------------------------------
-- Requests that are accepted
-----------------------------------------------------------------------------------------

/-- A suspended process is woken. -/
theorem wake_of_split (distinct : (s.processes.map (·.id)).Nodup)
    (split : s.processes = before ++ p :: after) (suspended : p.state = .suspended)
    : s.wake p.id = .ok { s with processes := before ++ { p with state := .runnable } :: after } :=
  have accepted := Process.wake_eq_ok.mpr ⟨suspended, rfl⟩
  update_of_split distinct split rfl accepted

/-- A waiting process is resumed. -/
theorem resume_of_split (distinct : (s.processes.map (·.id)).Nodup)
    (split : s.processes = before ++ p :: after) (waiting : p.state = .waiting) (v : Value)
    : ∃ p', p.resume v = .ok p'
        ∧ s.resume p.id v = .ok { s with processes := before ++ p' :: after } := by
  by_cases room : p.stack.length < p.maxStackSize
  · have accepted := Process.resume_eq_ok (v := v).mpr ⟨waiting, .inl ⟨room, rfl⟩⟩
    exact ⟨_, accepted, update_of_split distinct split rfl accepted⟩
  · have accepted := Process.resume_eq_ok (v := v).mpr ⟨waiting, .inr ⟨Nat.le_of_not_lt room, rfl⟩⟩
    exact ⟨_, accepted, update_of_split distinct split rfl accepted⟩

/-- Nothing waits, or the first process that does is listed first. -/
theorem waiting_cases (keyed : ∀ p ∈ s.processes, p.Keyed)
    : (s.waiting = [] ∧ ∀ p ∈ s.processes, p.state ≠ .waiting)
      ∨ ∃ p key others, s.waiting = (p.id, key) :: others
          ∧ s.processes.find? (·.state == .waiting) = some p := by
  unfold waiting
  generalize s.processes = ps at keyed
  induction ps with
  | nil => exact .inl ⟨rfl, by simp⟩
  | cons p ps ih =>
      obtain ⟨keyedFirst, keyedOthers⟩ := List.forall_mem_cons.mp keyed
      by_cases waiting : p.state = .waiting
      · obtain ⟨key, waits⟩ := Option.isSome_iff_exists.mp (keyedFirst.mpr waiting)
        refine .inr ⟨p, key, _, List.filterMap_cons_some ?_, ?_⟩
        · simp [waiting, waits]
        · simp [waiting]
      · simp only [List.filterMap_cons, if_neg waiting]
        rcases ih keyedOthers with ⟨none, others⟩ | ⟨q, key, others, first, found⟩
        · exact .inl ⟨none, List.forall_mem_cons.mpr ⟨waiting, others⟩⟩
        · refine .inr ⟨q, key, others, first, ?_⟩
          rw [List.find?_cons_of_neg (by simpa using waiting), found]

-----------------------------------------------------------------------------------------
-- Processes in order
-----------------------------------------------------------------------------------------

/-- The processes have ids of their own, and their records are consistent. -/
structure Ordered (s : Scheduler) : Prop where
  distinct : (s.processes.map (·.id)).Nodup
  consistent : ∀ p ∈ s.processes, p.Consistent

/-- A process may be replaced by one with its id. -/
theorem Ordered.replace (ordered : s.Ordered) (split : s.processes = before ++ p :: after)
    (keeps : p'.id = p.id) (consistent : p.Consistent → p'.Consistent)
    (processes : s'.processes = before ++ p' :: after)
    : s'.Ordered := by
  obtain ⟨distinct, all⟩ := ordered
  rw [split] at distinct all
  constructor
  · rw [processes]
    simpa [keeps] using distinct
  · rw [processes]
    intro q member
    rcases List.mem_append.mp member with earlier | here
    · exact all q (List.mem_append_left _ earlier)
    · rcases List.mem_cons.mp here with rfl | later
      · exact consistent (all p (by simp))
      · exact all q (List.mem_append_right _ (List.mem_cons_of_mem _ later))

theorem Ordered.wake {id : Nat} (ordered : s.Ordered) (done : s.wake id = .ok s') : s'.Ordered := by
  obtain ⟨before, p, after, p', split, accepted, rfl⟩ := wake_eq_ok ordered.distinct done
  refine ordered.replace split ?_ (fun consistent => consistent.wake accepted) rfl
  obtain ⟨-, rfl⟩ := Process.wake_eq_ok.mp accepted
  rfl

theorem Ordered.resume {id : Nat} {v : Value} (ordered : s.Ordered) (done : s.resume id v = .ok s')
    : s'.Ordered := by
  obtain ⟨before, p, after, p', split, accepted, rfl⟩ := resume_eq_ok ordered.distinct done
  refine ordered.replace split ?_ (fun consistent => consistent.resume accepted) rfl
  obtain ⟨-, ⟨-, rfl⟩ | ⟨-, rfl⟩⟩ := Process.resume_eq_ok.mp accepted
  · rfl
  · rfl

/-- A process that runs is replaced by what becomes of it, or removed. -/
theorem Ordered.runNext (fuel : Nat) (ordered : s.Ordered) : (s.runNext fuel).2.Ordered := by
  rcases s.split_or_idle with ⟨before, p, after, split, idle, runnable⟩ | idle
  · rw [runNext_of_split split idle runnable]
    have id : (Machine.run fuel ⟨s.world, p⟩).process.id = p.id := Machine.id_run fuel _
    split
    · obtain ⟨distinct, all⟩ := ordered
      have fewer : (before ++ after).Sublist s.processes := by
        rw [split]
        exact (List.sublist_cons_self p after).append_left before
      exact ⟨(fewer.map _).nodup distinct, fun q member => all q (fewer.subset member)⟩
    · exact ordered.replace split id (Machine.consistent_run fuel (m := ⟨s.world, p⟩)) rfl
  · rwa [runNext_idle idle]

end Scheduler

namespace Turns

variable {fuel : Nat} {t t' : Turns} {input input' : List String}

-----------------------------------------------------------------------------------------
-- What is done in a turn
-----------------------------------------------------------------------------------------

/-- Something that is done in a run over turns. -/
inductive Deed where
  /-- A turn begins, in which these processes are woken one after another. -/
  | opens (turn : Nat) (woken : List Nat)
  /-- A process runs. -/
  | dispatches (id : Nat)
  /-- A line of input is read and handed to a process. -/
  | hands (line : String) (id : Nat)
  /-- A turn ends. -/
  | closes (turn : Nat)

/-- The turn that begins. -/
def Deed.opened? : Deed → Option Nat
  | opens turn _ => some turn
  | _ => none

/-- The line that is read. -/
def Deed.line? : Deed → Option String
  | hands line _ => some line
  | _ => none

/-- The processes that are suspended, in their order. -/
def suspended (s : Scheduler) : List Nat :=
  (s.processes.filter (·.state == .suspended)).map (·.id)

/-- The rules of a turn. All that are suspended when it begins are woken, each once and none in vain. As
long as a process is runnable, the first that is runs. If none is, a line is read for the first process
that waits, which takes it. If none waits either, the turn is over.
-/
inductive Follows (fuel : Nat) : Turns → List String → Deed → Turns → List String → Prop
  | opens {s s' : Scheduler} {last n : Nat} {input : List String} (due : n ≤ last)
    (once : (suspended s).Nodup) (woken : (suspended s).foldlM Scheduler.wake s = .ok s')
    : Follows fuel ⟨s, last, .opening n⟩ input (.opens n (suspended s)) ⟨s', last, .inside n⟩ input
  | dispatches {s : Scheduler} {last n : Nat} {input : List String} {p : Process}
    (first : s.processes.find? (·.state == .runnable) = some p)
    : Follows fuel ⟨s, last, .inside n⟩ input (.dispatches p.id)
        ⟨(collect (s.runNext fuel).2).2, last, .inside n⟩ input
  | hands {s s' : Scheduler} {last n : Nat} {line : String} {input : List String} {p : Process}
    (idle : ∀ q ∈ s.processes, q.state ≠ .runnable)
    (first : s.processes.find? (·.state == .waiting) = some p)
    (taken : s.resume p.id (Host.readInput line) = .ok s')
    : Follows fuel ⟨s, last, .inside n⟩ (line :: input) (.hands line p.id) ⟨s', last, .inside n⟩ input
  | closes {s : Scheduler} {last n : Nat} {input : List String}
    (idle : ∀ q ∈ s.processes, q.state ≠ .runnable) (none : ∀ q ∈ s.processes, q.state ≠ .waiting)
    (some : s.processes ≠ [])
    : Follows fuel ⟨s, last, .inside n⟩ input (.closes n) ⟨s, last, .opening (n + 1)⟩ input

/-- A run ends after its last turn, when no process is left, or when a process waits for a line at the
end of the input.
-/
inductive Halts : Turns → List String → Prop
  | turns {s : Scheduler} {last n : Nat} {input : List String} (past : last < n)
    : Halts ⟨s, last, .opening n⟩ input
  | processes {s : Scheduler} {last n : Nat} {input : List String} (none : s.processes = [])
    : Halts ⟨s, last, .inside n⟩ input
  | input {s : Scheduler} {last n : Nat} {p : Process}
    (idle : ∀ q ∈ s.processes, q.state ≠ .runnable)
    (first : s.processes.find? (·.state == .waiting) = some p)
    : Halts ⟨s, last, .inside n⟩ []

/-- What is done one after another. -/
inductive Journal (fuel : Nat) : Turns → List String → List Deed → Turns → List String → Prop
  | nil {t : Turns} {input : List String} : Journal fuel t input [] t input
  | cons {t t₁ t₂ : Turns} {input input₁ input₂ : List String} {deed : Deed} {deeds : List Deed}
    (first : Follows fuel t input deed t₁ input₁) (others : Journal fuel t₁ input₁ deeds t₂ input₂)
    : Journal fuel t input (deed :: deeds) t₂ input₂

-----------------------------------------------------------------------------------------
-- The loop keeps to the rules
-----------------------------------------------------------------------------------------

/-- Waking the suspended processes one after another wakes them all, by induction on the processes. -/
theorem foldlM_wake {s : Scheduler} (done : List Process) {rest : List Process}
    (distinct : (s.processes.map (·.id)).Nodup) (split : s.processes = done ++ rest)
    : ((rest.filter (·.state == .suspended)).map (·.id)).foldlM Scheduler.wake s
      = .ok { s with processes := done ++ rest.map fun p =>
          match p.wake with
          | .ok p => p
          | .error _ => p } := by
  induction rest generalizing s done with
  | nil =>
      rw [List.map_nil, ← split]
      rfl
  | cons p rest ih =>
      by_cases suspended : p.state = .suspended
      · have woken : p.wake = .ok { p with state := .runnable } :=
          Process.wake_eq_ok.mpr ⟨suspended, rfl⟩
        have ids : ((done ++ { p with state := ProcessState.runnable } :: rest).map (·.id)).Nodup := by
          simpa [split] using distinct
        have others := @ih { s with processes := done ++ { p with state := .runnable } :: rest }
          (done ++ [{ p with state := .runnable }]) ids (by simp)
        rw [List.filter_cons_of_pos (by simpa using suspended), List.map_cons, List.foldlM_cons,
          Scheduler.wake_of_split distinct split suspended]
        refine others.trans ?_
        simp only [List.append_assoc, List.singleton_append, List.map_cons, woken]
      · have refused : ∃ refusal, p.wake = .error refusal := by
          cases woken : p.wake with
          | ok p' => exact absurd (Process.wake_eq_ok.mp woken).1 suspended
          | error refusal => exact ⟨refusal, rfl⟩
        obtain ⟨refusal, refused⟩ := refused
        have others := ih (done ++ [p]) distinct (by simpa using split)
        rw [List.filter_cons_of_neg (by simpa using suspended), others]
        simp only [List.append_assoc, List.singleton_append, List.map_cons, refused]

private theorem wakeAll_eq {s : Scheduler} (distinct : (s.processes.map (·.id)).Nodup)
    : (suspended s).foldlM Scheduler.wake s = .ok (wakeAll s) :=
  foldlM_wake [] distinct rfl

/-- Within a turn a runnable process is dispatched, whatever comes of it. -/
theorem next_of_split {s : Scheduler} {last n : Nat} {before after : List Process} {p : Process}
    (split : s.processes = before ++ p :: after) (idle : ∀ q ∈ before, q.state ≠ .runnable)
    (runnable : p.state = .runnable)
    : ∃ notes,
        next fuel ⟨s, last, .inside n⟩
          = .on notes ⟨(collect (s.runNext fuel).2).2, last, .inside n⟩ := by
  have ran : s.runNext fuel = _ := Scheduler.runNext_of_split split idle runnable
  simp only [next]
  split
  · rename_i done
    rw [done]
    exact ⟨_, rfl⟩
  · rename_i done
    rw [done]
    exact ⟨_, rfl⟩
  · rename_i done
    rw [ran] at done
    split at done <;> cases done

/-- Whatever comes next in a run is done by the rules, needs a line that can be handed on by them, or is
the end.
-/
theorem next_cases (fuel : Nat) (ordered : t.scheduler.Ordered)
    : (∃ notes deed t', t.next fuel = .on notes t' ∧ ∀ input, Follows fuel t input deed t' input)
      ∨ (∃ (p : Process) (key : String), t.next fuel = .ask p.id key ∧ Halts t []
          ∧ ∀ line input,
              Follows fuel t (line :: input) (.hands line p.id) (t.answer p.id line) input)
      ∨ (t.next fuel = .over ∧ ∀ input, Halts t input) := by
  obtain ⟨s, last, stage⟩ := t
  obtain ⟨distinct, consistent⟩ := ordered
  cases stage with
  | opening n =>
      by_cases due : n ≤ last
      · have once : (suspended s).Nodup := (List.filter_sublist.map _).nodup distinct
        refine .inl ⟨[.turn n], .opens n (suspended s), _, if_pos due, fun input => ?_⟩
        exact .opens due once (wakeAll_eq distinct)
      · exact .inr (.inr ⟨if_neg due, fun input => .turns (Nat.lt_of_not_le due)⟩)
  | inside n =>
      rcases s.split_or_idle with ⟨before, p, after, split, idle, runnable⟩ | idle
      · have first : s.processes.find? (·.state == .runnable) = some p := by
          rw [split, List.find?_append, List.find?_eq_none.mpr (by simpa using idle)]
          simp [runnable]
        obtain ⟨notes, done⟩ := next_of_split split idle runnable
        exact .inl ⟨notes, .dispatches p.id, _, done, fun input => .dispatches first⟩
      · have none : s.runNext fuel = _ := Scheduler.runNext_idle idle
        have keyed : ∀ p ∈ s.processes, p.Keyed := fun p member => (consistent p member).waitingFor
        rcases Scheduler.waiting_cases keyed with ⟨nobody, waitless⟩ | ⟨p, key, others, first, found⟩
        · cases left : s.processes with
          | nil =>
              refine .inr (.inr ⟨?_, fun input => .processes left⟩)
              simp [next, none, nobody, left]
          | cons p ps =>
              refine .inl ⟨[], _, _, ?_, fun input => .closes idle waitless (by simp [left])⟩
              simp [next, none, nobody, left]
        · refine .inr (.inl ⟨p, key, ?_, .input idle found, fun line input => ?_⟩)
          · simp [next, none, first]
          · obtain ⟨waiting, before, after, split, -⟩ := List.find?_eq_some_iff_append.mp found
            obtain ⟨p', -, taken⟩ := Scheduler.resume_of_split distinct split (by simpa using waiting)
              (Host.readInput line)
            have answered : answer ⟨s, last, .inside n⟩ p.id line
                = ⟨{ s with processes := before ++ p' :: after }, last, .inside n⟩ := by
              simp only [answer, taken]
            rw [answered]
            exact .hands idle found taken

/-- The rules keep the processes in order. -/
theorem Follows.ordered {deed : Deed} (follows : Follows fuel t input deed t' input')
    (ordered : t.scheduler.Ordered)
    : t'.scheduler.Ordered := by
  cases follows with
  | @opens s s' last n _ due once woken =>
      clear once
      have all {ids : List Nat} {s₀ s₁ : Scheduler} (start : s₀.Ordered)
          (woken : ids.foldlM Scheduler.wake s₀ = .ok s₁)
          : s₁.Ordered := by
        induction ids generalizing s₀ with
        | nil =>
            cases woken
            exact start
        | cons id ids ih =>
            rw [List.foldlM_cons] at woken
            obtain ⟨s₂, first, others⟩ := bind_eq_ok.mp woken
            exact ih (start.wake first) others
      exact all ordered woken
  | dispatches first =>
      obtain ⟨distinct, consistent⟩ := ordered.runNext fuel
      exact ⟨distinct, consistent⟩
  | hands idle first taken => exact ordered.resume taken
  | closes => exact ordered

theorem Journal.ordered {deeds : List Deed} (journal : Journal fuel t input deeds t' input')
    (ordered : t.scheduler.Ordered)
    : t'.scheduler.Ordered := by
  induction journal with
  | nil => exact ordered
  | cons first others ih => exact ih (first.ordered ordered)

/-- Where a run ends, nothing more is done. -/
theorem Halts.last {deed : Deed} (halts : Halts t input)
    : ¬ Follows fuel t input deed t' input' := by
  intro follows
  cases halts with
  | turns past =>
      cases follows with
      | opens due => omega
  | processes none =>
      cases follows with
      | dispatches first => simp [none] at first
      | hands idle first => simp [none] at first
      | closes idle waitless some => exact some none
  | input idle first =>
      cases follows with
      | dispatches other =>
          have runnable := List.find?_some other
          exact idle _ (List.mem_of_find?_eq_some other) (by simpa using runnable)
      | closes _ waitless =>
          have waiting := List.find?_some first
          exact waitless _ (List.mem_of_find?_eq_some first) (by simpa using waiting)

-----------------------------------------------------------------------------------------
-- Whole runs
-----------------------------------------------------------------------------------------

/-- Other processes stay when one is replaced. -/
theorem mem_replaced {before after : List Process} {p q : Process} (member : p ∈ before ++ q :: after)
    (other : p ≠ q) (others : List Process)
    : p ∈ before ++ (others ++ after) := by
  rcases List.mem_append.mp member with earlier | here
  · exact List.mem_append_left _ earlier
  · exact List.mem_append_right _
      (List.mem_append_right _ ((List.mem_cons.mp here).resolve_left other))

/-- What is done within a turn leaves a suspended process alone: it stays as it is, it does not run, and
it is handed nothing.
-/
theorem Follows.keeps_suspended {deed : Deed} (follows : Follows fuel t input deed t' input')
    (ordered : t.scheduler.Ordered) (within : deed.opened? = none) {p : Process}
    (held : p ∈ t.scheduler.processes) (suspended : p.state = .suspended)
    : p ∈ t'.scheduler.processes ∧ deed ≠ .dispatches p.id ∧ ∀ line, deed ≠ .hands line p.id := by
  -- what has the id of the process is the process, so it is suspended as well
  have other {q : Process} (member : q ∈ t.scheduler.processes) (active : q.state ≠ .suspended)
      : q.id ≠ p.id := by
    intro same
    have unique : q = p := List.inj_on_of_nodup_map ordered.distinct member held same
    exact active (unique ▸ suspended)
  cases follows with
  | opens => cases within
  | @dispatches s last n _ q up =>
      obtain ⟨runnable, before, after, split, idle⟩ := List.find?_eq_some_iff_append.mp up
      have runnable : q.state = .runnable := by simpa using runnable
      have idle : ∀ r ∈ before, r.state ≠ .runnable := by simpa using idle
      have apart := other (List.mem_of_find?_eq_some up) (by simp [runnable])
      refine ⟨?_, fun same => apart (Deed.dispatches.inj same), nofun⟩
      have stays := mem_replaced (split ▸ held) fun same => apart (congrArg Process.id same).symm
      change p ∈ (s.runNext fuel).2.processes
      rw [Scheduler.runNext_of_split split idle runnable]
      split
      · exact stays []
      · exact stays [_]
  | @hands s s' last n line _ q idle up taken =>
      have waiting : q.state = .waiting := by simpa using List.find?_some up
      have apart := other (List.mem_of_find?_eq_some up) (by simp [waiting])
      refine ⟨?_, nofun, fun line same => apart (Deed.hands.inj same).2⟩
      obtain ⟨before, r, after, r', split, accepted, rfl⟩ :=
        Scheduler.resume_eq_ok ordered.distinct taken
      obtain ⟨waits, -⟩ := Process.resume_eq_ok.mp accepted
      refine mem_replaced (split ▸ held) (fun same => ?_) [r']
      rw [← same, suspended] at waits
      cases waits
  | closes => exact ⟨held, nofun, nofun⟩

/-- A suspended process is left alone until the next turn begins: it stays as it is, it does not run,
and it is handed nothing, by induction on what is done.
-/
theorem Journal.keeps_suspended {deeds : List Deed} (journal : Journal fuel t input deeds t' input')
    (ordered : t.scheduler.Ordered) (within : ∀ deed ∈ deeds, deed.opened? = none) {p : Process}
    (held : p ∈ t.scheduler.processes) (suspended : p.state = .suspended)
    : p ∈ t'.scheduler.processes ∧ .dispatches p.id ∉ deeds ∧ ∀ line, .hands line p.id ∉ deeds := by
  induction journal with
  | nil => exact ⟨held, by simp, by simp⟩
  | cons first others ih =>
      obtain ⟨here, later⟩ := List.forall_mem_cons.mp within
      obtain ⟨stays, idle, unread⟩ := first.keeps_suspended ordered here held suspended
      obtain ⟨kept, notRun, notHanded⟩ := ih (first.ordered ordered) later stays
      exact ⟨kept, List.not_mem_cons_of_ne_of_not_mem idle.symm notRun,
        fun line => List.not_mem_cons_of_ne_of_not_mem (unread line).symm (notHanded line)⟩

/-- Every line that is read is handed to one process, in the order of the input. -/
theorem Journal.lines {deeds : List Deed} (journal : Journal fuel t input deeds t' input')
    : input = deeds.filterMap Deed.line? ++ input' := by
  induction journal with
  | nil => rfl
  | cons first others ih => cases first <;> simp [List.filterMap_cons, Deed.line?, ih]

/-- The number of the turn that begins next. -/
def upcoming (t : Turns) : Nat :=
  match t.stage with
  | .opening n => n
  | .inside n => n + 1

/-- The turns begin in their order, and none after the last one. -/
theorem Journal.turns {deeds : List Deed} (journal : Journal fuel t input deeds t' input')
    : ∃ count, deeds.filterMap Deed.opened? = List.range' t.upcoming count
        ∧ ∀ turn ∈ List.range' t.upcoming count, turn ≤ t.last := by
  induction journal with
  | nil => exact ⟨0, rfl, by simp⟩
  | cons first others ih =>
      obtain ⟨count, same, within⟩ := ih
      cases first with
      | @opens _ _ last n _ due =>
          refine ⟨count + 1, ?_, ?_⟩
          · simp only [List.filterMap_cons, Deed.opened?, same]
            rfl
          · exact List.forall_mem_cons.mpr ⟨due, within⟩
      | dispatches | hands | closes =>
          exact ⟨count, same, within⟩

/-- What a run prints goes to the console, and what it reads comes from the input. -/
theorem follow_print {α : Type} (box : Sandbox) (text : String) (course : Unit → Course α)
    : (Course.print text >>= course).run.follow box
      = (course ()).run.follow { box with output := box.output ++ text } :=
  rfl

private theorem follow_ask {α : Type} (box : Sandbox) (course : Option String → Course α)
    : (Course.ask >>= course).run.follow box
      = match box.input with
        | [] => (course none).run.follow box
        | line :: rest => (course (some line)).run.follow { box with input := rest } := by
  change Dialogue.follow box (.ask _) = _
  rw [Dialogue.follow]
  cases box.input <;> rfl

/-- A run does what the rules ask for, one thing after another, and returns the scheduler at which it
ends or was told to stop, by induction on the number of moves.
-/
theorem play_follows (fuel : Nat) (trace : Bool) (rounds : Nat) (ordered : t.scheduler.Ordered)
    (box : Sandbox)
    : ∃ deeds t' input output,
        Journal fuel t box.input deeds t' input
        ∧ (t.play fuel trace rounds).run.follow box
          = (.ok t'.scheduler, { box with input, output })
        ∧ (deeds.length = rounds ∨ Halts t' input) := by
  induction rounds generalizing t box with
  | zero => exact ⟨[], t, box.input, box.output, .nil, rfl, .inl rfl⟩
  | succ rounds ih =>
      rcases next_cases fuel ordered with
        ⟨notes, deed, t₁, moved, follows⟩ | ⟨p, key, asked, halts, follows⟩ | ⟨done, halts⟩
      · have first := follows box.input
        obtain ⟨deeds, t', input, output, journal, followed, ends⟩ := ih (first.ordered ordered)
          { box with
            output := box.output ++ String.join (notes.map (Note.text trace t₁.scheduler)) }
        refine ⟨deed :: deeds, t', input, output, .cons first journal, ?_, ?_⟩
        · rw [play, moved]
          exact followed
        · exact ends.imp_left (congrArg Nat.succ)
      · obtain ⟨files, lines, text⟩ := box
        rw [play, asked]
        simp only [follow_print, follow_ask]
        cases lines with
        | nil => exact ⟨[], t, [], _, .nil, rfl, .inr halts⟩
        | cons line rest =>
            have first := follows line rest
            obtain ⟨deeds, t', input, output, journal, followed, ends⟩ := ih (first.ordered ordered)
              ⟨files, rest, text ++ s!"[{p.id}] {key} "⟩
            exact ⟨.hands line p.id :: deeds, t', input, output, .cons first journal, followed,
              ends.imp_left (congrArg Nat.succ)⟩
      · refine ⟨[], t, box.input, box.output, .nil, ?_, .inr (halts _)⟩
        rw [play, done]
        rfl

end Turns

-----------------------------------------------------------------------------------------
-- Runs of a file
-----------------------------------------------------------------------------------------

/-- A process that was loaded can go on, and its records are consistent. -/
theorem ObjectFile.consistent_of_load {config : Config} {charset : Charset} {file : ObjectFile}
    {h h' : Heap} {loaded : Loaded} (done : file.load config charset h = .ok (h', loaded))
    : ∀ p ∈ loaded.processes, p.Consistent := by
  obtain ⟨_, _, routines, arrays, processes, again, restored, -, listed, entered, -⟩ :=
    file.load_skipping config charset h
  rw [file.load_lenient done] at again
  cases again
  intro p member
  rw [restored.processesLoaded, List.mem_filterMap] at member
  obtain ⟨i, -, entry⟩ := member
  obtain ⟨record, there, denotes⟩ := restored.process i p entry
  have present : Restoring.Entered routines arrays processes (.process, i) :=
    Option.isSome_iff_exists.mpr ⟨p, entry⟩
  have made : file.WellMade charset (.process, i) := by
    obtain ⟨has, unlisted⟩ := (entered _).mp present
    by_contra bad
    exact unlisted ((listed _).mpr (.malformed has bad))
  obtain ⟨record', there', goesOn, -⟩ := made
  rw [there] at there'
  cases there'
  rw [denotes.rest]
  rcases goesOn with state | state | ⟨state, key⟩
  · exact Process.Unmarked.consistent ⟨by simp [state], rfl, rfl, rfl⟩ (.inl state)
  · exact Process.Unmarked.consistent ⟨by simp [state], rfl, rfl, rfl⟩ (.inr (.inl state))
  · constructor <;> simp [state, key, Process.new]

namespace Turns

/-- A run over the processes that were loaded, before its first turn. -/
def start (config : Config) (h : Heap) (loaded : Loaded) (last : Nat) : Turns :=
  let s := Scheduler.new config
  let s := { s with world := Host.register { s.world with heap := h } }
  ⟨loaded.processes.foldl (fun s p => (s.adopt p).2) s, last, .opening 1⟩

/-- The command that runs a file loads it, plays its run, and does the rest with what is left then. -/
theorem run_eq
    : ∃ after : Option String → Config → Scheduler → Course Unit,
        ∀ path trace turns save config,
          Console.run path trace turns save config
          = Console.loadObjects path config >>= fun loaded =>
              (start config loaded.1 loaded.2 turns).play Machine.patience trace Machine.patience
                >>= after save config :=
  ⟨_, fun _ _ _ _ _ => rfl⟩

/-- Processes that are taken in one after another get ids of their own, by induction on them. -/
theorem ordered_adopted {s : Scheduler} {ps : List Process} (ordered : s.Ordered)
    (below : ∀ p ∈ s.processes, p.id < s.nextId) (consistent : ∀ p ∈ ps, p.Consistent)
    : (ps.foldl (fun s p => (s.adopt p).2) s).Ordered := by
  induction ps generalizing s with
  | nil => exact ordered
  | cons p ps ih =>
      obtain ⟨first, others⟩ := List.forall_mem_cons.mp consistent
      refine ih ⟨?_, ?_⟩ ?_ others
      · simp only [Scheduler.adopt, List.map_append, List.map_cons, List.map_nil]
        refine List.nodup_append.mpr ⟨ordered.distinct, by simp, ?_⟩
        intro id member id' last same
        obtain ⟨q, held, rfl⟩ := List.mem_map.mp member
        rw [List.mem_singleton.mp last] at same
        exact absurd (below q held) (by omega)
      · intro q member
        rcases List.mem_append.mp member with held | last
        · exact ordered.consistent q held
        · rw [List.mem_singleton.mp last]
          exact { first with }
      · intro q member
        rcases List.mem_append.mp member with held | last
        · exact Nat.lt_succ_of_lt (below q held)
        · rw [List.mem_singleton.mp last]
          exact Nat.lt_succ_self _

private theorem ordered_start {config : Config} {h : Heap} {loaded : Loaded}
    (consistent : ∀ p ∈ loaded.processes, p.Consistent) (last : Nat)
    : (start config h loaded last).scheduler.Ordered :=
  ordered_adopted ⟨List.nodup_nil, by simp [Scheduler.new]⟩ (by simp [Scheduler.new]) consistent

/-- A run over the processes of a file, which is what the command for it plays (`run_eq`), keeps to the
rules until it ends. Every line that it reads goes to one process, in the order of the input, and the
turns begin in their order. A process that is suspended is left alone until the next turn begins.
After the end of a run nothing more is done, so a process that was waiting at the end of the input
still waits.
-/
theorem play_by_rules {config : Config} {charset : Charset} {file : ObjectFile} {h h' : Heap}
    {loaded : Loaded} (done : file.load config charset h = .ok (h', loaded)) (last fuel rounds : Nat)
    (trace : Bool) (box : Sandbox)
    : (∃ deeds t input output,
        Journal fuel (start config h' loaded last) box.input deeds t input
        ∧ ((start config h' loaded last).play fuel trace rounds).run.follow box
          = (.ok t.scheduler, { box with input, output })
        ∧ (deeds.length = rounds ∨ Halts t input))
      ∧ ∀ deeds t input,
          Journal fuel (start config h' loaded last) box.input deeds t input
          → box.input = deeds.filterMap Deed.line? ++ input
            ∧ (∃ count ≤ last, deeds.filterMap Deed.opened? = List.range' 1 count)
            ∧ (∀ more t' input',
                Journal fuel t input more t' input'
                → (∀ deed ∈ more, deed.opened? = none)
                → ∀ p ∈ t.scheduler.processes,
                    p.state = .suspended
                    → p ∈ t'.scheduler.processes
                      ∧ .dispatches p.id ∉ more ∧ ∀ line, .hands line p.id ∉ more)
            ∧ (Halts t input → ∀ deed t' input', ¬ Follows fuel t input deed t' input') := by
  have ordered : (start config h' loaded last).scheduler.Ordered :=
    ordered_start (ObjectFile.consistent_of_load done) last
  refine ⟨play_follows fuel trace rounds ordered box, fun deeds t input journal => ?_⟩
  refine ⟨journal.lines, ?_, ?_, fun halts deed t' input' => halts.last⟩
  · obtain ⟨count, same, within⟩ := journal.turns
    refine ⟨count, ?_, same⟩
    by_contra more
    have member : last + 1 ∈ List.range' 1 count :=
      List.mem_range'_1.mpr ⟨by omega, by omega⟩
    exact absurd (within _ member) (Nat.not_succ_le_self last)
  · intro more t' input' journal' within p held suspended
    exact journal'.keeps_suspended (journal.ordered ordered) within held suspended

/-- A call of the first routine of a file, at its beginning. -/
def calledFirst : FrameRecord where
  routine := 0
  pc := 0
  wantResult := false
  stackBase := 0
  handlers := []
  locals := ⟨0, []⟩

/-- A file with a process that is suspended and one that waits, both in calls of a routine without
code.
-/
def busyRun : ObjectFile :=
  { ObjectFile.empty with
    routines := [{
      name := "task", flags := 1, minArgs := 0, maxArgs := 0, localNames := [], names := [],
      code := [], literals := ⟨0, []⟩, fileName := "", lines := [] }]
    processes := [
      { name := "rest", kind := .default, state := .suspended, waitingFor := none, stack := ⟨0, []⟩,
        frames := [calledFirst] },
      { name := "ask", kind := .default, state := .waiting, waitingFor := some "key",
        stack := ⟨0, []⟩, frames := [calledFirst] }] }

/-- In the only turn the suspended process is woken and ends, a line goes to the one that waits, and
this ends as well, so that nothing more is done.
-/
theorem busyRun_ends
    : ∃ h loaded,
        busyRun.load {} .utf8 .empty = .ok (h, loaded)
        ∧ (∃ deeds t input output,
            Journal 5 (start {} h loaded 1) ["7\n"] deeds t input
            ∧ ((start {} h loaded 1).play 5 false 9).run.follow ⟨⟨[]⟩, ["7\n"], ""⟩
              = (.ok t.scheduler, ⟨⟨[]⟩, input, output⟩)
            ∧ (deeds.length = 9 ∨ Halts t input))
        ∧ ∃ t,
            Journal 5 (start {} h loaded 1) ["7\n"]
              [.opens 1 [1], .dispatches 1, .hands "7\n" 2, .dispatches 2] t []
            ∧ t.scheduler.processes = []
            ∧ ∀ deed t' input', ¬ Follows 5 t [] deed t' input' := by
  have loads : ∃ h loaded, busyRun.load {} .utf8 .empty = .ok (h, loaded)
      ∧ ∃ t,
          Journal 5 (start {} h loaded 1) ["7\n"]
            [.opens 1 [1], .dispatches 1, .hands "7\n" 2, .dispatches 2] t []
          ∧ t.stage = .inside 1 ∧ t.scheduler.processes = [] := by
    have runs {s : Scheduler} {input : List String} {p : Process} {id : Nat}
        (first : s.processes.find? (·.state == .runnable) = some p) (same : p.id = id)
        : Follows 5 ⟨s, 1, .inside 1⟩ input (.dispatches id)
            ⟨(collect (s.runNext 5).2).2, 1, .inside 1⟩ input :=
      same ▸ .dispatches first
    have takes {s s' : Scheduler} {line : String} {input : List String} {p : Process} {id : Nat}
        (first : s.processes.find? (·.state == .waiting) = some p) (same : p.id = id)
        (idle : ∀ q ∈ s.processes, q.state ≠ .runnable)
        (taken : s.resume p.id (Host.readInput line) = .ok s')
        : Follows 5 ⟨s, 1, .inside 1⟩ (line :: input) (.hands line id) ⟨s', 1, .inside 1⟩ input :=
      same ▸ .hands idle first taken
    refine ⟨_, _, rfl, ?_⟩
    apply Exists.intro
    apply And.intro
    · apply Journal.cons (.opens ?due ?once ?woken)
      case due => exact Nat.le_refl 1
      case once => exact List.nodup_singleton 1
      case woken => rfl
      apply Journal.cons (runs ?first ?rest)
      case first | rest => rfl
      apply Journal.cons (takes ?waits ?ask ?idle ?taken)
      case waits | ask => rfl
      case idle => decide +kernel
      case taken => rfl
      apply Journal.cons (runs ?second ?asked) .nil
      case second | asked => rfl
    · exact ⟨rfl, by decide +kernel⟩
  obtain ⟨h, loaded, done, ⟨s, last, stage⟩, journal, rfl, gone⟩ := loads
  obtain ⟨played, rules⟩ := play_by_rules done 1 5 9 false ⟨⟨[]⟩, ["7\n"], ""⟩
  obtain ⟨-, -, -, ended⟩ := rules _ _ _ journal
  exact ⟨h, loaded, done, played, _, journal, gone, ended (.processes gone)⟩

end Turns
end TaskMachine
