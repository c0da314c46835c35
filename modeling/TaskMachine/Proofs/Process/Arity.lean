import TaskMachine.Proofs.Heap.Binding
import TaskMachine.Proofs.Process.Arguments

/-!
How many arguments a callable takes. Routines and functions of the host take any number from a least
one on, up to a most one if there is a limit, and each bound argument of a closure takes one away. All
who ask for it get the same answer: calls, the questions about callables, and the binding of values,
which goes on as long as there is a number of arguments left that a call may have. This holds of numbers
whose sum with the bound arguments does not wrap around; others are asked for after it has.
-/

namespace TaskMachine

open Relation (ReflTransGen)

-----------------------------------------------------------------------------------------
-- How callables are built
-----------------------------------------------------------------------------------------

/-- A heap goes on: the callables and routines on it stay as they are, and all closures on it are made
after their bases. It does so whatever processes do (`Scheduler.later_of_moves`).
-/
structure Heap.GoesOn (h h' : Heap) : Prop where
  callables : h.callables.size ≤ h'.callables.size
  callable : ∀ c : CallableId, c.index < h.callables.size → h'.callable c = h.callable c
  routines : h.routines.size ≤ h'.routines.size
  routine : ∀ r : RoutineId, r.index < h.routines.size → h'.routine r = h.routine r
  stacked : h'.Stacked

/-- While a closure is made, values are bound to it, and the heap goes on in between. -/
inductive Closure.Filling : Heap × Closure → Heap × Closure → Prop
  | bound {s s' : Heap × Closure} {v : Value} (done : (Closure.bind v).run s = .ok () s')
    : Filling s s'
  | between {h h' : Heap} {closure : Closure} (later : h.GoesOn h')
    : Filling (h, closure) (h', closure)

/-- The callables for routines and for functions of the host, whose most arguments are not fewer than
the least ones, and closures over such callables and such closures. What processes make by binding
values to them is built as well (`Exec.built_of_makeClosure`), and stays built in every run
(`Scheduler.built_of_moves`).
-/
inductive Heap.Built : Heap → CallableId → Prop
  | routine {h : Heap} {c : CallableId} {r : RoutineId} (stacked : h.Stacked)
    (present : c.index < h.callables.size) (what : h.callable c = .direct (.subroutine r))
    (there : r.index < h.routines.size) (provided : (h.routine r).Provided)
    : Built h c
  | native {h : Heap} {c : CallableId} {f : NativeFunction} (stacked : h.Stacked)
    (present : c.index < h.callables.size) (what : h.callable c = .direct (.native f))
    (counted : f.minArgs < countLimit)
    (ordered : ∀ limit, f.maxArgs = some limit → f.minArgs ≤ limit)
    : Built h c
  | closure {h h' h'' : Heap} {base c : CallableId} {closure : Closure} (built : Built h base)
    (filled : ReflTransGen Closure.Filling (h, ⟨base, []⟩) (h', closure))
    (made : closure.toValue h' = (h'', .callable c))
    : Built h'' c
  | later {h h' : Heap} {c : CallableId} (built : Built h c) (later : h.GoesOn h') : Built h' c

namespace Heap

variable {h h' h'' : Heap} {c base : CallableId} {callee : Callee} {least count : Nat} {v v' : Value}
  {bound : List Value}

/-- Changes to arrays and objects let the heap go on. -/
theorem ChangesIn.goesOn {R : Value → Prop} (changes : h.ChangesIn R h') (stacked : h'.Stacked)
    : h.GoesOn h' := by
  have routines := changes.routines
  refine ⟨changes.callables, changes.callable, ?_, fun r _ => ?_, stacked⟩
  · rw [routines]
  · rw [routine, routines, ← routine]

/-- A copy adds callables on top only. -/
theorem goesOn_copy (stacked : h.Stacked) (copies : h.copy v = some (h', v')) : h.GoesOn h' := by
  obtain ⟨kept, still⟩ := survives_stacked.copy copies
  have changes : h.ChangesIn (fun _ => True) h' := kept.changesIn (evolves_copy copies).routines
  exact changes.goesOn (still stacked)

/-- A callable that is no closure comes to what it is. -/
theorem resolve_direct (what : h.callable c = .direct callee) : h.resolve c = (callee, []) :=
  resolveFrom_direct what _ _

/-- A closure becomes a new callable. -/
theorem toValue_eq_iff
    : Closure.toValue h ⟨base, bound⟩ = (h', .callable c)
      ↔ h' = (h.addCallable (.closure base bound)).1 ∧ c = ⟨h.callables.size⟩ := by
  constructor
  · intro made
    cases made
    exact ⟨rfl, rfl⟩
  · rintro ⟨rfl, rfl⟩
    rfl

/-- A closure goes on top of its base. -/
theorem goesOn_addClosure (stacked : h.Stacked) (present : base.index < h.callables.size)
    (bound : List Value)
    : h.GoesOn (h.addCallable (.closure base bound)).1 := by
  have kept := (Kept.refl h).addCallable (.closure base bound)
  have changes : h.ChangesIn (fun _ => True) (h.addCallable (.closure base bound)).1 :=
    kept.changesIn rfl
  exact changes.goesOn (stacked.addClosure present bound)

-----------------------------------------------------------------------------------------
-- The numbers of arguments that are accepted
-----------------------------------------------------------------------------------------

/-- A number of arguments for a callable and those that are bound along the chain are counted together
without the sum wrapping around.
-/
def Counts (h : Heap) (c : CallableId) (count : Nat) : Prop :=
  count + (h.resolve c).2.length < countLimit

/-- A callee takes any number of arguments from a least one on, up to the most if there is a limit,
which is not below the least. The least one can be counted.
-/
structure Takes (h : Heap) (callee : Callee) (least : Nat) : Prop where
  counted : least < countLimit
  accepts
    : ∀ count,
        h.calleeAccepts count callee = true
        ↔ least ≤ count ∧ ∀ limit, h.calleeMaxArguments callee = some limit → count ≤ limit
  ordered : ∀ limit, h.calleeMaxArguments callee = some limit → least ≤ limit

/-- Routines on the heap with their declarations in order, and functions of the host with their limits
in order.
-/
inductive Regular (h : Heap) : Callee → Prop
  | routine {r : RoutineId} (there : r.index < h.routines.size)
    (counted : (h.routine r).minArgs < countLimit) (sound : (h.routine r).Sound)
    : Regular h (.subroutine r)
  | native {f : NativeFunction} (counted : f.minArgs < countLimit)
    (ordered : ∀ limit, f.maxArgs = some limit → f.minArgs ≤ limit)
    : Regular h (.native f)

/-- A sound routine takes the least number of its arguments. -/
theorem takes_routine {r : RoutineId} (counted : (h.routine r).minArgs < countLimit)
    (sound : (h.routine r).Sound)
    : h.Takes (.subroutine r) (h.routine r).minArgs := by
  have args := sound.args
  refine ⟨counted, fun count => ?_, fun limit most => ?_⟩
  · rw [calleeAccepts, Routine.accepts_iff, Routine.Suits, calleeMaxArguments, Routine.maxArguments]
    cases (h.routine r).isVarargs <;> simp
  · rw [calleeMaxArguments, Routine.maxArguments] at most
    split at most
    · cases most
    · cases most
      exact args

/-- A function of the host takes the least number of its arguments if that is not above the most. -/
theorem takes_native {f : NativeFunction} (counted : f.minArgs < countLimit)
    (ordered : ∀ limit, f.maxArgs = some limit → f.minArgs ≤ limit)
    : h.Takes (.native f) f.minArgs := by
  refine ⟨counted, fun count => ?_, ordered⟩
  rw [calleeAccepts, NativeFunction.accepts, calleeMaxArguments]
  cases f.maxArgs <;> simp

theorem Regular.takes (regular : h.Regular callee) : ∃ least, h.Takes callee least := by
  cases regular with
  | routine there counted sound => exact ⟨_, takes_routine counted sound⟩
  | native counted ordered => exact ⟨_, takes_native counted ordered⟩

/-- A callee is asked the same as the heap goes on. -/
theorem Regular.goesOn (regular : h.Regular callee) (later : h.GoesOn h')
    : h'.Regular callee ∧ h'.calleeMaxArguments callee = h.calleeMaxArguments callee
      ∧ ∀ count, h'.calleeAccepts count callee = h.calleeAccepts count callee := by
  cases regular with
  | @routine r there counted sound =>
      have same := later.routine r there
      have still := Nat.lt_of_lt_of_le there later.routines
      refine ⟨.routine still (same.symm ▸ counted) (same.symm ▸ sound), ?_, fun count => ?_⟩
      · rw [calleeMaxArguments, calleeMaxArguments, same]
      · rw [calleeAccepts, calleeAccepts, same]
  | native counted ordered => exact ⟨.native counted ordered, rfl, fun _ => rfl⟩

/-- A callable comes to a regular callee that takes all that is bound along the chain to it. -/
structure Callability (h : Heap) (c : CallableId) : Prop where
  stacked : h.Stacked
  present : c.index < h.callables.size
  regular : h.Regular (h.resolve c).1
  room
    : ∀ limit,
        h.calleeMaxArguments (h.resolve c).1 = some limit → (h.resolve c).2.length ≤ limit

namespace Callability

/-- A callable is asked the same as the heap goes on. -/
theorem goesOn (able : h.Callability c) (later : h.GoesOn h')
    : h'.Callability c ∧ h'.callableMaxArguments c = h.callableMaxArguments c
      ∧ ∀ count, h'.callableAccepts c count = h.callableAccepts c count := by
  have same : h'.resolve c = h.resolve c :=
    resolveFrom_of_kept able.stacked later.callable able.present _ _
  obtain ⟨regular, most, accepts⟩ := able.regular.goesOn later
  refine ⟨⟨later.stacked, Nat.lt_of_lt_of_le able.present later.callables, ?_, ?_⟩, ?_, ?_⟩
  · rwa [same]
  · rw [same, most]
    exact able.room
  · simp only [callableMaxArguments, same, most]
  · simp only [callableAccepts, same, accepts, implies_true]

/-- What can be counted is accepted together with what is bound along the chain. -/
theorem accepts_iff (takes : h.Takes (h.resolve c).1 least) (counts : h.Counts c count)
    : h.callableAccepts c count = true
      ↔ least ≤ count + (h.resolve c).2.length
        ∧ ∀ limit, h.calleeMaxArguments (h.resolve c).1 = some limit
            → count + (h.resolve c).2.length ≤ limit := by
  change h.calleeAccepts ((count + (h.resolve c).2.length) % countLimit) (h.resolve c).1 = true ↔ _
  rw [Nat.mod_eq_of_lt counts]
  exact takes.accepts _

/-- The limit of a callable is that of its callee less what is bound. -/
theorem maximum_iff {most : Nat}
    : h.callableMaxArguments c = some most
      ↔ ∃ limit, h.calleeMaxArguments (h.resolve c).1 = some limit
          ∧ limit - (h.resolve c).2.length = most := by
  simp only [callableMaxArguments, Option.map_eq_some_iff]

/-- No more arguments are accepted than there is said to be room for. -/
theorem le_maximum (able : h.Callability c) (counts : h.Counts c count) {most : Nat}
    (accepted : h.callableAccepts c count = true) (maximum : h.callableMaxArguments c = some most)
    : count ≤ most := by
  obtain ⟨least, takes⟩ := able.regular.takes
  obtain ⟨limit, limited, rfl⟩ := maximum_iff.mp maximum
  have inside := ((accepts_iff takes counts).mp accepted).2 limit limited
  omega

/-- Some number of arguments above `more` is accepted just if there is said to be room for `more` of
them, which can be counted.
-/
theorem exists_accepted (able : h.Callability c) {more : Nat} (counts : h.Counts c more)
    : (∃ count, h.Counts c (count + more) ∧ h.callableAccepts c (count + more) = true)
      ↔ ∀ most, h.callableMaxArguments c = some most → more ≤ most := by
  obtain ⟨least, takes⟩ := able.regular.takes
  constructor
  · rintro ⟨count, together, accepted⟩ most maximum
    have inside := able.le_maximum together accepted maximum
    omega
  · intro room
    have small := takes.counted
    rw [Counts] at counts
    -- the least number for which there are enough arguments
    have together : h.Counts c (least - (h.resolve c).2.length - more + more) := by
      rw [Counts]
      omega
    refine ⟨_, together, (accepts_iff takes together).mpr ⟨by omega, fun limit limited => ?_⟩⟩
    have before := able.room limit limited
    have ordered := takes.ordered limit limited
    have fits := room _ (maximum_iff.mpr ⟨limit, limited, rfl⟩)
    omega

/-- A new closure comes to what its base came to, with its own arguments behind those of the base. -/
theorem resolve_made (able : h.Callability base)
    (made : Closure.toValue h ⟨base, bound⟩ = (h', .callable c))
    : h.GoesOn h' ∧ h'.callable c = .closure base bound
      ∧ h'.resolve c = ((h.resolve base).1, (h.resolve base).2 ++ bound) := by
  obtain ⟨rfl, rfl⟩ := toValue_eq_iff.mp made
  have later := goesOn_addClosure able.stacked able.present bound
  have what := callable_addCallable_new h (.closure base bound)
  have same : (h.addCallable (.closure base bound)).1.resolve base = h.resolve base :=
    resolveFrom_of_kept able.stacked later.callable able.present _ _
  exact ⟨later, what, same ▸ resolve_closure later.stacked what⟩

/-- A closure answers for its base, with its bound arguments taken away, and what can be counted with
them can be counted for the base.
-/
theorem accepts_closure (able : h.Callability base)
    (made : Closure.toValue h ⟨base, bound⟩ = (h', .callable c))
    : (h'.Counts c count ↔ h.Counts base (count + bound.length))
      ∧ h'.callableAccepts c count = h.callableAccepts base (count + bound.length) := by
  obtain ⟨later, what, resolved⟩ := able.resolve_made made
  constructor
  · rw [Counts, Counts, resolved, List.length_append]
    omega
  · have answers := (answers_closure later.stacked what).accepts count
    exact answers.trans ((able.goesOn later).2.2 _)

/-- A closure is callable if no more arguments are bound than its base has room for. -/
theorem closure (able : h.Callability base)
    (room : ∀ most, h.callableMaxArguments base = some most → bound.length ≤ most)
    (made : Closure.toValue h ⟨base, bound⟩ = (h', .callable c))
    : h'.Callability c := by
  obtain ⟨later, what, resolved⟩ := able.resolve_made made
  obtain ⟨regular, most, -⟩ := able.regular.goesOn later
  refine ⟨later.stacked, index_lt_of_closure what, ?_, fun limit limited => ?_⟩
  · exact resolved.symm ▸ regular
  · rw [resolved] at limited ⊢
    rw [most] at limited
    have before := able.room limit limited
    have fits := room _ (maximum_iff.mpr ⟨limit, limited, rfl⟩)
    rw [List.length_append]
    omega

/-- While a closure is made, its base stays callable, with room for what is bound. By induction on the
steps.
-/
theorem filled (able : h.Callability base) {s : Heap × Closure}
    (filled : ReflTransGen Closure.Filling (h, ⟨base, []⟩) s)
    : s.2.base = base ∧ s.1.Callability base
      ∧ ∀ most, s.1.callableMaxArguments base = some most → s.2.bound.length ≤ most := by
  induction filled with
  | refl => exact ⟨rfl, able, fun most _ => Nat.zero_le most⟩
  | tail _ step ih =>
      obtain ⟨same, able, room⟩ := ih
      cases step with
      | @bound s _ v done =>
          obtain ⟨h₁, closure⟩ := s
          obtain ⟨more, h₂, v', copies, rfl⟩ := Closure.run_bind_iff.mp done
          obtain ⟨still, most, -⟩ := able.goesOn (goesOn_copy able.stacked copies)
          refine ⟨same, still, fun limit maximum => ?_⟩
          rw [most] at maximum
          simp only [List.length_append, List.length_singleton]
          exact more limit (same ▸ maximum)
      | between later =>
          obtain ⟨still, most, -⟩ := able.goesOn later
          exact ⟨same, still, fun limit maximum => room limit (most ▸ maximum)⟩

end Callability

/-- What has been built is callable, by induction on how it was built. -/
theorem Built.callability (built : h.Built c) : h.Callability c := by
  induction built with
  | routine stacked present what there provided =>
      have resolved := resolve_direct what
      refine ⟨stacked, present, ?_, fun limit _ => ?_⟩
      · rw [resolved]
        exact .routine there provided.counted provided.sound
      · rw [resolved]
        exact Nat.zero_le limit
  | native stacked present what counted ordered =>
      have resolved := resolve_direct what
      refine ⟨stacked, present, ?_, fun limit _ => ?_⟩
      · rw [resolved]
        exact .native counted ordered
      · rw [resolved]
        exact Nat.zero_le limit
  | closure _ filled made ih =>
      obtain ⟨rfl, able, room⟩ := ih.filled filled
      exact able.closure room made
  | later _ later ih => exact (ih.goesOn later).1

end Heap

/-- A value is refused if the base does not take one more. -/
theorem Closure.run_bind_refused {h : Heap} {closure : Closure} {v : Value}
    : (∃ f s, (bind v).run (h, closure) = .error (.fault f) s)
      ↔ ∃ most,
          h.callableMaxArguments closure.base = some most ∧ most < closure.bound.length + 1 := by
  simp only [bind, EStateM.run_bind, EStateM.run_get]
  cases most : h.callableMaxArguments closure.base with
  | none => rcases h.copy v with _ | ⟨h', v'⟩ <;> simp [EStateM.run_set]
  | some limit =>
      by_cases full : limit < closure.bound.length + 1
      · refine iff_of_true ?_ ⟨limit, rfl, full⟩
        simp only [if_pos full]
        exact ⟨_, _, rfl⟩
      · refine iff_of_false ?_ fun given => ?_
        · simp only [if_neg full]
          rintro ⟨f, s, failed⟩
          rcases copied : h.copy v with _ | ⟨h', v'⟩ <;> rw [copied] at failed <;> cases failed
        · obtain ⟨most, same, above⟩ := given
          cases same
          exact full above

-----------------------------------------------------------------------------------------
-- Calls
-----------------------------------------------------------------------------------------

/-- The callee with other code, if it is a function of the host. -/
def Callee.withCode (code : List Argument → HostReply) : Callee → Callee
  | .native f => .native { f with run := code }
  | callee => callee

/-- A call is refused for the number of its arguments, with the machine as it was. No code of the host
has been run, so that it is refused whatever that code is.
-/
def Machine.RefusesCount (m : Machine) (c : CallableId) (args : List Value) (wantResult : Bool)
    : Prop :=
  ∃ name count, ∀ code,
    (Exec.callCallee ((m.world.heap.resolve c).2 ++ args) wantResult
        ((m.world.heap.resolve c).1.withCode code)).run m
      = .error (.fault (.wrongArgumentCount name count)) m

/-- What is called takes over: a routine with a call of its own, a function of the host with its
answer.
-/
def Machine.TakesOver (m : Machine) (c : CallableId) (args : List Value) (wantResult : Bool) : Prop :=
  match m.world.heap.resolve c with
  | (.subroutine r, _) =>
      ∃ m' f,
        (Exec.call c args wantResult).run m = .ok () m'
        ∧ m'.process.frames = f :: m.process.frames ∧ f.routine = r
  | (.native f, bound) =>
      (Exec.call c args wantResult).run m
      = (Exec.accept (f.run ((bound ++ args).map m.world.heap.argument)) wantResult).run m
  | (.hosted _, _) => False

section

variable {m : Machine} {c : CallableId} {args : List Value} {wantResult : Bool}

/-- A function of the host is called if it accepts the number of arguments. -/
theorem Exec.run_callNative (args : List Value) {f : NativeFunction}
    (useful : wantResult = true → f.isProcedure = false)
    : (Exec.callCallee args wantResult (.native f)).run m
      = if f.accepts args.length then
          (Exec.accept (f.run (args.map m.world.heap.argument)) wantResult).run m
        else .error (.fault (.wrongArgumentCount f.name args.length)) m := by
  have ask : (wantResult && f.isProcedure) = false := by
    cases wantResult with
    | false => rfl
    | true => exact useful rfl
  simp only [Exec.callCallee, ask]
  cases f.accepts args.length with
  | false => rfl
  | true => rfl

/-- A routine is entered if a result is wanted of a function only. -/
theorem Exec.run_callRoutine {r : RoutineId}
    (useful : wantResult = true → (m.world.heap.routine r).isProcedure = false)
    : (Exec.callCallee args wantResult (.subroutine r)).run m
      = (Exec.enter r args wantResult).run m := by
  have heap : Exec.heap.run m = .ok m.world.heap m := rfl
  have ask : (wantResult && (m.world.heap.routine r).isProcedure) = false := by
    cases wantResult with
    | false => rfl
    | true => exact useful rfl
  simp only [Exec.callCallee, EStateM.run_bind, heap, ask]
  rfl

/-- A refused call fails with the machine as it was. -/
theorem Machine.RefusesCount.call (refused : m.RefusesCount c args wantResult)
    : ∃ name count,
        (Exec.call c args wantResult).run m
        = .error (.fault (.wrongArgumentCount name count)) m := by
  obtain ⟨name, count, fails⟩ := refused
  refine ⟨name, count, ?_⟩
  rw [Heap.run_call]
  cases callee : (m.world.heap.resolve c).1 with
  | native f =>
      have fails := fails f.run
      rwa [callee] at fails
  | subroutine _ | hosted _ =>
      have fails := fails fun _ => { outcome := .ok .null }
      rwa [callee] at fails

/-- A call is refused, or what is called takes over. -/
theorem Heap.Callability.call_cases (able : m.world.heap.Callability c) {args : List Value}
    (counts : m.world.heap.Counts c args.length)
    (room : m.process.frames.length < m.process.maxCallDepth)
    (useful : wantResult = true → m.world.heap.callableIsProcedure c = false)
    : (m.world.heap.callableAccepts c args.length = false ∧ m.RefusesCount c args wantResult)
      ∨ (m.world.heap.callableAccepts c args.length = true ∧ ¬ m.RefusesCount c args wantResult
        ∧ m.TakesOver c args wantResult) := by
  have regular := able.regular
  have same := Nat.mod_eq_of_lt counts
  rw [Heap.callableIsProcedure] at useful
  rcases resolved : m.world.heap.resolve c with ⟨callee, bound⟩
  have called : (Exec.call c args wantResult).run m
      = (Exec.callCallee (bound ++ args) wantResult callee).run m := by
    rw [Heap.run_call, resolved]
  rw [resolved] at regular useful same
  simp only [Heap.callableAccepts, Machine.RefusesCount, Machine.TakesOver, resolved, same, called]
  have length : (bound ++ args).length = args.length + bound.length := by
    rw [List.length_append, Nat.add_comm]
  cases regular with
  | @routine r there counted sound =>
      have entered := Exec.run_enter r (bound ++ args) wantResult m
      rw [if_neg (Nat.not_le.mpr room), length] at entered
      simp only [Callee.withCode, Exec.run_callRoutine useful, Heap.calleeAccepts, entered]
      cases (m.world.heap.routine r).accepts (args.length + bound.length) with
      | false => exact .inl ⟨rfl, _, _, fun _ => rfl⟩
      | true =>
          refine .inr ⟨rfl, ?_, _, _, rfl, rfl, rfl⟩
          rintro ⟨name, count, fails⟩
          cases fails fun _ => { outcome := .ok .null }
  | @native f counted ordered =>
      have each (code : List Argument → HostReply) :=
        Exec.run_callNative (m := m) (f := { f with run := code }) (bound ++ args) useful
      simp only [NativeFunction.accepts, length] at each
      simp only [Callee.withCode, each, Heap.calleeAccepts, NativeFunction.accepts]
      cases (decide (f.minArgs ≤ args.length + bound.length)
          && f.maxArgs.all fun limit => decide (args.length + bound.length ≤ limit)) with
      | false => exact .inl ⟨rfl, _, _, fun _ => rfl⟩
      | true =>
          refine .inr ⟨rfl, ?_, if_pos rfl⟩
          rintro ⟨name, count, fails⟩
          -- code that answers with another fault
          cases fails fun _ => { outcome := .error (.internal name) }

end

/-- The questions about a callable, its calls and the binding of further values agree on how many
arguments it takes, for numbers that can be counted together with the arguments bound along its chain. A
call is refused for its number of arguments just if that is not accepted, and what is called takes over
otherwise; no more are accepted than the most if that is known; a value is refused just if nothing would
be accepted once it is bound; and some number is accepted of whatever has been built.
-/
theorem arity_agrees {h : Heap} {c : CallableId} (built : h.Built c)
    : (∀ (m : Machine) (args : List Value) (wantResult : Bool),
          m.world.heap = h
          → m.process.frames.length < m.process.maxCallDepth
          → (wantResult = true → h.callableIsProcedure c = false)
          → h.Counts c args.length
          → (m.RefusesCount c args wantResult ↔ h.callableAccepts c args.length = false)
            ∧ (h.callableAccepts c args.length = false
              → ∃ name count,
                  (Exec.call c args wantResult).run m
                  = .error (.fault (.wrongArgumentCount name count)) m)
            ∧ (h.callableAccepts c args.length = true → m.TakesOver c args wantResult))
      ∧ (∀ count most,
          h.Counts c count
          → h.callableAccepts c count = true
          → h.callableMaxArguments c = some most
          → count ≤ most)
      ∧ (∀ (h' : Heap) (closure : Closure) (v : Value),
          ReflTransGen Closure.Filling (h, ⟨c, []⟩) (h', closure)
          → h'.Counts c (closure.bound.length + 1)
          → ((∃ f s, (Closure.bind v).run (h', closure) = .error (.fault f) s)
              ↔ ∀ h'' d,
                  Closure.toValue h' ⟨closure.base, closure.bound ++ [v]⟩ = (h'', .callable d)
                  → ∀ count, h''.Counts d count → h''.callableAccepts d count = false))
      ∧ (h.Counts c 0 → ∃ count, h.Counts c count ∧ h.callableAccepts c count = true) := by
  have able := built.callability
  refine ⟨?_, fun count most counts => able.le_maximum counts, ?_, ?_⟩
  · rintro m args wantResult rfl room useful counts
    rcases able.call_cases counts room useful with ⟨no, refused⟩ | ⟨yes, taken, takes⟩
    · refine ⟨iff_of_true refused no, fun _ => refused.call, fun yes => ?_⟩
      rw [no] at yes
      cases yes
    · refine ⟨iff_of_false taken (by simp [yes]), fun no => ?_, fun _ => takes⟩
      rw [yes] at no
      cases no
  · intro h' closure v filled counts
    obtain ⟨same, able, -⟩ := able.filled filled
    obtain ⟨base, bound⟩ := closure
    obtain rfl : c = base := same.symm
    have enough := able.exists_accepted counts
    have accepts (count : Nat) {h'' : Heap} {d : CallableId}
        (made : Closure.toValue h' ⟨c, bound ++ [v]⟩ = (h'', .callable d))
        : (h''.Counts d count ↔ h'.Counts c (count + (bound.length + 1)))
          ∧ h''.callableAccepts d count = h'.callableAccepts c (count + (bound.length + 1)) := by
      have length : (bound ++ [v]).length = bound.length + 1 := List.length_append
      rw [← length]
      exact able.accepts_closure made
    rw [Closure.run_bind_refused]
    constructor
    · rintro ⟨most, maximum, full⟩ h'' d made count counted
      obtain ⟨together, same⟩ := accepts count made
      rw [same, ← Bool.not_eq_true]
      intro accepted
      have room := enough.mp ⟨count, together.mp counted, accepted⟩ most maximum
      exact absurd room (Nat.not_le.mpr full)
    · intro none
      by_contra taken
      push Not at taken
      obtain ⟨count, counted, accepted⟩ := enough.mpr taken
      obtain ⟨together, same⟩ := accepts count rfl
      rw [← same, none _ _ rfl count (together.mpr counted)] at accepted
      cases accepted
  · exact fun counts => (able.exists_accepted counts).mpr fun most _ => Nat.zero_le most

/-- The heap with just a function of the host. -/
def Heap.hosting (f : NativeFunction) : Heap where
  arrays := #[]
  callables := #[.direct (.native f)]
  objects := #[]
  routines := #[]

private theorem Heap.built_hosting {f : NativeFunction} (counted : f.minArgs < countLimit)
    (ordered : ∀ limit, f.maxArgs = some limit → f.minArgs ≤ limit)
    : (hosting f).Built ⟨0⟩ := by
  have stacked : (hosting f).Stacked := by
    intro c base bound what
    have inside : c.index < 1 := index_lt_of_closure what
    obtain ⟨n⟩ := c
    obtain rfl : n = 0 := Nat.lt_one_iff.mp inside
    cases what
  exact .native stacked Nat.zero_lt_one rfl counted ordered

/-- A number is bound to a function of the host that takes some argument. -/
theorem Heap.built_oneBound (f : NativeFunction) (n : Int32) (counted : f.minArgs < countLimit)
    (ordered : ∀ limit, f.maxArgs = some limit → f.minArgs ≤ limit ∧ 0 < limit)
    : ((hosting f).addCallable (.closure ⟨0⟩ [.integer n])).1.Built ⟨1⟩ := by
  have function := built_hosting counted fun limit most => (ordered limit most).1
  have bound : (Closure.bind (.integer n)).run (hosting f, ⟨⟨0⟩, []⟩)
      = .ok () (hosting f, ⟨⟨0⟩, [.integer n]⟩) :=
    Closure.run_bind_iff.mpr ⟨fun limit most => by
      obtain ⟨limit', most', rfl⟩ := Callability.maximum_iff.mp most
      exact (ordered limit' most').2, _, _, copy_plain id _, rfl⟩
  exact .closure function (.single (.bound bound)) rfl

/-- A process in a world where the first argument of the function is bound. -/
def partialStart : Machine where
  world := { World.empty with heap := .threeArguments }
  process := .new {} 0 "p"

/-- With the first of three arguments bound, one argument is refused and two are not, and once the
other two are bound as well there is no room for another one.
-/
theorem arity_agrees_bound
    : partialStart.RefusesCount ⟨1⟩ [.integer 2] true
      ∧ ¬ partialStart.RefusesCount ⟨1⟩ [.integer 2, .integer 3] true
      ∧ partialStart.TakesOver ⟨1⟩ [.integer 2, .integer 3] true
      ∧ (∃ f s, (Closure.bind .null).run (.threeArguments, ⟨⟨1⟩, [.integer 2, .integer 3]⟩)
          = .error (.fault f) s)
      ∧ ∀ count,
          (Heap.threeArguments.addCallable
            (.closure ⟨1⟩ [.integer 2, .integer 3, .null])).1.Counts ⟨2⟩ count
          → (Heap.threeArguments.addCallable
              (.closure ⟨1⟩ [.integer 2, .integer 3, .null])).1.callableAccepts ⟨2⟩ count = false := by
  have built : Heap.threeArguments.Built ⟨1⟩ :=
    Heap.built_oneBound ⟨"SUM", 3, some 3, false, fun _ => { outcome := .ok .null }⟩ 1 (by decide)
      fun limit most => by
        cases most
        decide
  have others : ReflTransGen Closure.Filling (.threeArguments, ⟨⟨1⟩, []⟩)
      (.threeArguments, ⟨⟨1⟩, [.integer 2, .integer 3]⟩) :=
    .tail (.single (.bound (v := .integer 2) rfl)) (.bound (v := .integer 3) rfl)
  have counts (count : Nat) (few : count < 10) : Heap.threeArguments.Counts ⟨1⟩ count := by
    have bound : (Heap.threeArguments.resolve ⟨1⟩).2.length = 1 := rfl
    rw [Heap.Counts, bound, countLimit]
    omega
  obtain ⟨calls, -, binding, -⟩ := arity_agrees built
  obtain ⟨fewer, -, -⟩ :=
    calls partialStart [.integer 2] true rfl (by decide) (fun _ => rfl) (counts 1 (by decide))
  obtain ⟨enough, -, takes⟩ :=
    calls partialStart [.integer 2, .integer 3] true rfl (by decide) (fun _ => rfl)
      (counts 2 (by decide))
  have full := binding _ _ .null others (counts 3 (by decide))
  have refused
      : ∃ f s, (Closure.bind .null).run (.threeArguments, ⟨⟨1⟩, [.integer 2, .integer 3]⟩)
          = .error (.fault f) s :=
    ⟨_, _, rfl⟩
  refine ⟨fewer.mpr rfl, fun refuses => ?_, takes rfl, refused, full.mp refused _ _ rfl⟩
  cases enough.mp refuses

/-- The heap with a function of the host that takes up to three arguments, and a closure that binds one
to it.
-/
def upToThree : Heap :=
  ((Heap.hosting ⟨"MAX", 0, some 3, false, fun _ => { outcome := .ok .null }⟩).addCallable
    (.closure ⟨0⟩ [.integer 1])).1

/-- Two arguments are the most that the closure takes, but the greatest count is accepted: with the
bound argument it wraps around to none. For the same reason a further value is refused although some
number would be accepted once it is bound.
-/
theorem accepts_wrapped
    : upToThree.Built ⟨1⟩
      ∧ (upToThree.callableMaxArguments ⟨1⟩ = some 2
        ∧ upToThree.callableAccepts ⟨1⟩ (countLimit - 1) = true ∧ ¬ countLimit - 1 ≤ 2)
      ∧ (∃ f s, (Closure.bind (.integer 4)).run (upToThree, ⟨⟨1⟩, [.integer 2, .integer 3]⟩)
          = .error (.fault f) s)
      ∧ ∃ h d,
          Closure.toValue upToThree ⟨⟨1⟩, [.integer 2, .integer 3, .integer 4]⟩ = (h, .callable d)
          ∧ h.callableAccepts d (countLimit - 4) = true := by
  have built : upToThree.Built ⟨1⟩ := by
    refine Heap.built_oneBound _ 1 (by decide) fun limit most => ?_
    cases most
    decide
  exact ⟨built, ⟨rfl, rfl, by decide⟩, ⟨_, _, rfl⟩, _, _, rfl, rfl⟩

end TaskMachine
