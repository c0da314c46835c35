import TaskMachine.Proofs.Operators
import TaskMachine.Proofs.Process.Instructions

/-!
Two machines in step. Where the machines are alike up to the handles of partners, whatever the one does
the other does, too: they complete alike or are interrupted for the same reason, and are alike
afterwards. Each function of the machine has its lemma, put together like the function itself. An
instruction that compares two handles of one routine is the only one that may end differently.
-/

namespace TaskMachine

/-- A process that has entered a routine. -/
def Process.entered (x : Process) (r : RoutineId) (locals : Array Value) (wantResult : Bool)
    : Process :=
  { x with frames := ⟨r, 0, locals, [], wantResult, x.stack.length⟩ :: x.frames }

namespace Partners

-----------------------------------------------------------------------------------------
-- Machines that are alike
-----------------------------------------------------------------------------------------

/-- Calls are the same but for routines that are partners and local variables that are alike. -/
structure Frames (p : Partners) (f f' : Frame) : Prop where
  rest : f' = { f with routine := f'.routine, locals := f'.locals }
  routine : p.routines f.routine f'.routine
  locals : List.Forall₂ p.Values f.locals.toList f'.locals.toList

/-- Processes are at the same point of their lives, with values and calls that are alike. -/
structure Processes (p : Partners) (x x' : Process) : Prop where
  stack : List.Forall₂ p.Values x.stack x'.stack
  frames : List.Forall₂ p.Frames x.frames x'.frames
  result : Option.Rel p.Values x.result x'.result
  state : x'.state = x.state
  waitingFor : x'.waitingFor = x.waitingFor
  failure : x'.failure = x.failure
  pendingFault : x'.pendingFault = x.pendingFault
  maxCallDepth : x'.maxCallDepth = x.maxCallDepth
  maxStackSize : x'.maxStackSize = x.maxStackSize

/-- Globals of the same name have values that are alike. -/
def Globals (p : Partners) (g g' : String × Value) : Prop :=
  g'.1 = g.1 ∧ p.Values g.2 g'.2

/-- Worlds whose heaps are alike, and also their globals and hosts as far as names are used. -/
structure Worlds (p : Partners) (w w' : World) : Prop where
  heaps : p.Heaps w.heap w'.heap
  globals : p.named → List.Forall₂ p.Globals w.globals w'.globals
  lookup : p.named → ∀ key, Option.Rel p.Values (w.lookup key) (w'.lookup key)

/-- Machines whose worlds and processes are alike. -/
structure Machines (p : Partners) (m m' : Machine) : Prop where
  world : p.Worlds m.world m'.world
  process : p.Processes m.process m'.process

variable {p q : Partners}

theorem Frames.among {f f' : Frame} (alike : p.Frames f f') (more : p.Among q) : q.Frames f f' :=
  ⟨alike.rest, more.routines _ _ alike.routine, among_all alike.locals more⟩

theorem rel_imp {α β : Type} {R S : α → β → Prop} {a : Option α} {b : Option β}
    (alike : Option.Rel R a b) (weaker : ∀ a b, R a b → S a b)
    : Option.Rel S a b := by
  cases alike with
  | some one => exact .some (weaker _ _ one)
  | none => exact .none

private theorem rel_among {v v' : Option Value} (alike : Option.Rel p.Values v v') (more : p.Among q)
    : Option.Rel q.Values v v' :=
  rel_imp alike fun _ _ one => one.among more

/-- Processes stay alike among more partners, by their parts. -/
theorem Processes.among {x x' : Process} (alike : p.Processes x x') (more : p.Among q)
    : q.Processes x x' :=
  { alike with
    stack := among_all alike.stack more
    frames := alike.frames.imp fun _ _ one => one.among more
    result := rel_among alike.result more
  }

theorem Processes.mono {x x' : Process} (alike : p.Processes x x') (le : p ≤ q) : q.Processes x x' :=
  alike.among le.toAmong

/-- A world goes on with its heap. -/
theorem Worlds.goOn {w w' : World} (alike : p.Worlds w w') (le : p ≤ q) {h h' : Heap}
    (heaps : q.Heaps h h')
    : q.Worlds { w with heap := h } { w' with heap := h' } where
  heaps := heaps
  globals named := (alike.globals (le.named.mp named)).imp fun _ _ one => ⟨one.1, one.2.mono le⟩
  lookup named key := rel_among (alike.lookup (le.named.mp named) key) le.toAmong

section
variable {r r' : Routine}

theorem Routines.name (alike : p.Routines r r') : r'.name = r.name := by
  rw [alike.rest]

theorem Routines.isProcedure (alike : p.Routines r r') : r'.isProcedure = r.isProcedure := by
  rw [alike.rest]

theorem Routines.isVarargs (alike : p.Routines r r') : r'.isVarargs = r.isVarargs := by
  rw [alike.rest]

theorem Routines.maxArgs (alike : p.Routines r r') : r'.maxArgs = r.maxArgs := by
  rw [alike.rest]

theorem Routines.names (alike : p.Routines r r') : r'.names = r.names := by
  rw [alike.rest]

theorem Routines.code (alike : p.Routines r r') : r'.code = r.code := by
  rw [alike.rest]

theorem Routines.accepts (alike : p.Routines r r') (count : Nat)
    : r'.accepts count = r.accepts count := by
  rw [alike.rest]
  rfl

end

section
variable {x x' : Process}

theorem Processes.length_eq (alike : p.Processes x x') : x'.stack.length = x.stack.length :=
  alike.stack.length_eq.symm

private theorem Processes.base_eq (alike : p.Processes x x') : x'.base = x.base := by
  have frames := alike.frames
  rw [Process.base, Process.base]
  generalize x.frames = left at frames ⊢
  generalize x'.frames = right at frames ⊢
  cases frames with
  | nil => rfl
  | cons first _ => rw [first.rest]

theorem Processes.withStack (alike : p.Processes x x') {stack stack' : List Value}
    (same : List.Forall₂ p.Values stack stack')
    : p.Processes { x with stack } { x' with stack := stack' } :=
  { alike with stack := same }

theorem Processes.withFrames (alike : p.Processes x x') {frames frames' : List Frame}
    (same : List.Forall₂ p.Frames frames frames')
    : p.Processes { x with frames } { x' with frames := frames' } :=
  { alike with frames := same }

end

-----------------------------------------------------------------------------------------
-- Computations that agree
-----------------------------------------------------------------------------------------

section
variable {ε σ α α' β β' : Type}

/-- Two computations complete alike or are interrupted for the same reason. In both cases their states
are alike afterwards, perhaps with more partners.
-/
inductive Agree (p : Partners) (M : Partners → σ → σ → Prop) (R : Partners → α → α' → Prop)
    : EStateM.Result ε σ α → EStateM.Result ε σ α' → Prop
  | ok {q : Partners} (le : p ≤ q) {s s' : σ} (states : M q s s') {a : α} {a' : α'}
    (result : R q a a')
    : Agree p M R (.ok a s) (.ok a' s')
  | error {q : Partners} (le : p ≤ q) {s s' : σ} (states : M q s s') (e : ε)
    : Agree p M R (.error e s) (.error e s')

/-- From states that are alike, two computations agree. -/
def Simulates (p : Partners) (M : Partners → σ → σ → Prop) (R : Partners → α → α' → Prop)
    (x : EStateM ε σ α) (x' : EStateM ε σ α') : Prop :=
  ∀ s s', M p s s' → p.Agree M R (x.run s) (x'.run s')

/-- Results that are the same. -/
abbrev Same (_ : Partners) (a a' : α) : Prop :=
  a' = a

variable {M : Partners → σ → σ → Prop} {R : Partners → α → α' → Prop} {S : Partners → β → β' → Prop}

/-- What ends in agreement among more partners does so for the fewer ones, too. -/
theorem Agree.of_le {result : EStateM.Result ε σ α} {result' : EStateM.Result ε σ α'} (le : p ≤ q)
    (agree : q.Agree M R result result')
    : p.Agree M R result result' := by
  cases agree with
  | ok le' states result => exact .ok (le.trans le') states result
  | error le' states e => exact .error (le.trans le') states e

/-- Sequences agree if their parts do, the second parts from where the first ones have completed. -/
theorem Agree.bind {x : EStateM ε σ α} {x' : EStateM ε σ α'} {f : α → EStateM ε σ β}
    {f' : α' → EStateM ε σ β'} {s s' : σ} (first : p.Agree M R (x.run s) (x'.run s'))
    (next
      : ∀ q a a' s₁ s₁',
          p ≤ q
          → x.run s = .ok a s₁
          → M q s₁ s₁'
          → R q a a'
          → q.Agree M S ((f a).run s₁) ((f' a').run s₁'))
    : p.Agree M S ((x >>= f).run s) ((x' >>= f').run s') := by
  rw [EStateM.run_bind, EStateM.run_bind]
  generalize x'.run s' = outcome' at first ⊢
  cases ran : x.run s with
  | ok a s₁ =>
      rw [ran] at first
      obtain ⟨le, states, result⟩ := first
      exact (next _ _ _ _ _ le ran states result).of_le le
  | error e s₁ =>
      rw [ran] at first
      obtain _ | ⟨le, states⟩ := first
      exact .error le states e

/-- What follows may use the partners that the first part has made. -/
theorem Simulates.bind {x : EStateM ε σ α} {x' : EStateM ε σ α'} {f : α → EStateM ε σ β}
    {f' : α' → EStateM ε σ β'} (first : p.Simulates M R x x')
    (next : ∀ q a a', p ≤ q → R q a a' → q.Simulates M S (f a) (f' a'))
    : p.Simulates M S (x >>= f) (x' >>= f') :=
  fun s s' states => (first s s' states).bind fun q a a' s₁ s₁' le _ states result =>
    next q a a' le result s₁ s₁' states

theorem Simulates.pure {a : α} {a' : α'} (result : R p a a')
    : p.Simulates M R (pure a : EStateM ε σ α) (pure a') :=
  fun _ _ states => .ok le_rfl states result

theorem Simulates.throws (e : ε) : p.Simulates M R (throw e : EStateM ε σ α) (throw e) :=
  fun _ _ states => .error le_rfl states e

theorem Simulates.imp {T : Partners → α → α' → Prop} {x : EStateM ε σ α} {x' : EStateM ε σ α'}
    (first : p.Simulates M R x x') (weaker : ∀ q a a', R q a a' → T q a a')
    : p.Simulates M T x x' := by
  intro s s' states
  have agree := first s s' states
  generalize x.run s = outcome at agree ⊢
  generalize x'.run s' = outcome' at agree ⊢
  cases agree with
  | ok le states result => exact .ok le states (weaker _ _ _ result)
  | error le states e => exact .error le states e

/-- Nothing follows an interruption. -/
theorem Simulates.thrown (e : ε) {next : α → EStateM ε σ β} {next' : α' → EStateM ε σ β'}
    : p.Simulates M S (throw e >>= next) (throw e >>= next') :=
  .bind (.throws (R := fun _ _ _ => False) e) fun _ _ _ _ never => never.elim

theorem Simulates.discard {x : EStateM ε σ α} {x' : EStateM ε σ α'} (first : p.Simulates M R x x')
    : p.Simulates M Same (discard x) (discard x') := by
  intro s s' states
  have agree := first s s' states
  rw [run_discard, run_discard]
  generalize x.run s = outcome at agree ⊢
  generalize x'.run s' = outcome' at agree ⊢
  cases agree with
  | ok le states result => exact .ok le states rfl
  | error le states e => exact .error le states e

end

-----------------------------------------------------------------------------------------
-- What instructions are made of
-----------------------------------------------------------------------------------------

section
variable {α α' β β' : Type} {R : Partners → α → α' → Prop} {S : Partners → β → β' → Prop}

theorem Simulates.raise (f : Fault)
    : p.Simulates Machines R (Exec.raise f : Exec α) (Exec.raise f : Exec α') :=
  .throws (Interruption.fault f)

theorem Simulates.raised (f : Fault) {next : α → Exec β} {next' : α' → Exec β'}
    : p.Simulates Machines S (Exec.raise f >>= next) (Exec.raise f >>= next') :=
  .thrown (Interruption.fault f)

/-- Two computations answer alike, or fail for the same reason, and leave the machines as they are. -/
inductive Answers (R : α → α' → Prop) (m m' : Machine)
    : EStateM.Result Interruption Machine α → EStateM.Result Interruption Machine α' → Prop
  | ok {a : α} {a' : α'} (answer : R a a') : Answers R m m' (.ok a m) (.ok a' m')
  | error (e : Interruption) : Answers R m m' (.error e m) (.error e m')

/-- On machines that are alike, two computations that only look at them answer alike. -/
def Consults (p : Partners) (R : Partners → α → α' → Prop) (x : Exec α) (x' : Exec α') : Prop :=
  ∀ m m', p.Machines m m' → Answers (R p) m m' (x.run m) (x'.run m')

/-- Asking changes nothing, so what is asked alike is computed alike. -/
theorem Consults.simulates {x : Exec α} {x' : Exec α'} (consults : p.Consults R x x')
    : p.Simulates Machines R x x' := by
  intro m m' machines
  have answers := consults m m' machines
  generalize x.run m = outcome at answers ⊢
  generalize x'.run m' = outcome' at answers ⊢
  cases answers with
  | ok answer => exact .ok le_rfl machines answer
  | error e => exact .error le_rfl machines e

/-- After looking at the machines, everything is as it was, and no partners have been added. -/
theorem Simulates.after {x : Exec α} {x' : Exec α'} {f : α → Exec β} {f' : α' → Exec β'}
    (first : p.Consults R x x') (next : ∀ a a', R p a a' → p.Simulates Machines S (f a) (f' a'))
    : p.Simulates Machines S (x >>= f) (x' >>= f') := by
  intro m m' machines
  have answers := first m m' machines
  rw [EStateM.run_bind, EStateM.run_bind]
  generalize x.run m = outcome at answers ⊢
  generalize x'.run m' = outcome' at answers ⊢
  cases answers with
  | ok answer => exact next _ _ answer m m' machines
  | error e => exact .error le_rfl machines e

/-- A question may depend on the answer to another one. -/
theorem Consults.bind {x : Exec α} {x' : Exec α'} {f : α → Exec β} {f' : α' → Exec β'}
    (first : p.Consults R x x') (next : ∀ a a', R p a a' → p.Consults S (f a) (f' a'))
    : p.Consults S (x >>= f) (x' >>= f') := by
  intro m m' machines
  have answers := first m m' machines
  rw [EStateM.run_bind, EStateM.run_bind]
  generalize x.run m = outcome at answers ⊢
  generalize x'.run m' = outcome' at answers ⊢
  cases answers with
  | ok answer => exact next _ _ answer m m' machines
  | error e => exact .error e

theorem Consults.pure {a : α} {a' : α'} (answer : R p a a')
    : p.Consults R (pure a : Exec α) (pure a' : Exec α') :=
  fun _ _ _ => .ok answer

theorem Consults.raise (f : Fault)
    : p.Consults R (Exec.raise f : Exec α) (Exec.raise f : Exec α') :=
  fun _ _ _ => .error (Interruption.fault f)

theorem Consults.lift {outcome : Except Fault α} {outcome' : Except Fault α'}
    (alike : Outcomes (R p) outcome outcome')
    : p.Consults R (Exec.lift outcome) (Exec.lift outcome') := by
  cases alike with
  | ok answer => exact .pure answer
  | error fault => exact .raise fault

end

theorem Consults.process : p.Consults Processes Exec.process Exec.process :=
  fun _ _ machines => .ok machines.process

theorem Consults.world : p.Consults Worlds Exec.world Exec.world :=
  fun _ _ machines => .ok machines.world

theorem Consults.heap : p.Consults Heaps Exec.heap Exec.heap :=
  fun _ _ machines => .ok machines.world.heaps

theorem Consults.frame : p.Consults Frames Exec.frame Exec.frame := by
  refine .bind .process fun x x' alike => ?_
  have frames := alike.frames
  generalize x.frames = active at frames
  generalize x'.frames = active' at frames
  cases frames with
  | nil => exact .raise _
  | cons first others => exact .pure first

theorem Consults.peek (depth : Nat) : p.Consults Values (Exec.peek depth) (Exec.peek depth) := by
  refine .bind .process fun x x' alike => ?_
  rw [alike.base_eq, alike.length_eq]
  rcases getElem?_related alike.stack depth with ⟨v, v', found, found', same⟩ | ⟨none, none'⟩
  · rw [found, found']
    dsimp only
    split
    · exact .pure same
    · exact .raise _
  · rw [none, none']
    exact .raise _

theorem Simulates.setProcess {x x' : Process} (alike : p.Processes x x')
    : p.Simulates Machines Same (Exec.setProcess x) (Exec.setProcess x') :=
  fun _ _ machines => .ok le_rfl ⟨machines.world, alike⟩ rfl

/-- A world may be put in place whose things have more partners than before. -/
theorem Simulates.setWorld {w w' : World} (le : p ≤ q) (alike : q.Worlds w w')
    : p.Simulates Machines Same (Exec.setWorld w) (Exec.setWorld w') :=
  fun _ _ machines => .ok le ⟨alike, machines.process.mono le⟩ rfl

/-- The heap may go on to one with more partners, which are partners from then on. -/
theorem Simulates.setHeap {h h' : Heap} (le : p ≤ q) (alike : q.Heaps h h')
    : p.Simulates Machines (fun later _ _ => q ≤ later) (Exec.setHeap h) (Exec.setHeap h') :=
  fun _ _ machines => .ok le ⟨machines.world.goOn le alike, machines.process.mono le⟩ le_rfl

theorem Simulates.setFrame {f f' : Frame} (same : p.Frames f f')
    : p.Simulates Machines Same (Exec.setFrame f) (Exec.setFrame f') :=
  .after .process fun _ _ alike =>
    .setProcess (alike.withFrames (.cons same (List.forall₂_drop 1 alike.frames)))

-----------------------------------------------------------------------------------------
-- The operand stack
-----------------------------------------------------------------------------------------

/-- Both stacks have room for a value, or both are full. -/
theorem Processes.push {x x' : Process} (alike : p.Processes x x') {v v' : Value}
    (same : p.Values v v')
    : Outcomes p.Processes (x.push v) (x'.push v') := by
  by_cases full : x.maxStackSize ≤ x.stack.length
  · have full' : x'.maxStackSize ≤ x'.stack.length := by rwa [alike.maxStackSize, alike.length_eq]
    rw [Process.push, Process.push, if_pos full, if_pos full', alike.maxStackSize]
    exact .error _
  · have room : ¬ x'.maxStackSize ≤ x'.stack.length := by rwa [alike.maxStackSize, alike.length_eq]
    rw [Process.push, Process.push, if_neg full, if_neg room]
    exact .ok (alike.withStack (.cons same alike.stack))

theorem Simulates.push {v v' : Value} (same : p.Values v v')
    : p.Simulates Machines Same (Exec.push v) (Exec.push v') :=
  .after .process fun _ _ alike =>
    .after (.lift (R := Processes) (alike.push same)) fun _ _ pushed => .setProcess pushed

/-- Both stacks have a value above the base of the call, or both have none. -/
theorem Simulates.pop : p.Simulates Machines Values Exec.pop Exec.pop := by
  refine .after .process fun x x' alike => ?_
  have values := alike.stack
  rw [alike.base_eq, alike.length_eq]
  generalize x.stack.length = length
  generalize x.stack = stack at values
  generalize x'.stack = stack' at values
  cases values with
  | nil => exact .raise _
  | cons first others =>
      dsimp only
      split
      · exact .bind (.setProcess (alike.withStack others)) fun _ _ _ le _ => .pure (first.mono le)
      · exact .raise _

theorem Simulates.popMany (count : Nat)
    : p.Simulates Machines (fun q => List.Forall₂ q.Values) (Exec.popMany count)
        (Exec.popMany count) := by
  refine .after .process fun x x' alike => ?_
  rw [alike.base_eq, alike.length_eq]
  split
  · refine .bind (.setProcess (alike.withStack (List.forall₂_drop count alike.stack))) ?_
    intro _ _ _ le _
    have taken := List.forall₂_take count (mono_all alike.stack le)
    exact .pure (List.forall₂_reverse_iff.mpr taken)
  · exact .raise _

-----------------------------------------------------------------------------------------
-- Calls
-----------------------------------------------------------------------------------------

private theorem padded_alike {values values' : List Value} (same : List.Forall₂ p.Values values values')
    (n : Nat)
    : List.Forall₂ p.Values (values ++ List.replicate (n - values.length) .null)
        (values' ++ List.replicate (n - values'.length) .null) := by
  rw [same.length_eq]
  exact List.rel_append same (nulls_alike _)

/-- A call of partners begins with local variables that are alike. -/
theorem localsFor_alike {r r' : Routine} (routines : p.Routines r r')
    {arguments arguments' : List Value}
    (same : List.Forall₂ p.Values arguments arguments') {surplus surplus' : Option Value}
    (rest : Option.Rel p.Values surplus surplus')
    : List.Forall₂ p.Values (Exec.localsFor r arguments surplus).toList
        (Exec.localsFor r' arguments' surplus').toList := by
  have collected : List.Forall₂ p.Values surplus.toList surplus'.toList := by
    cases rest with
    | some one => exact .cons one .nil
    | none => exact .nil
  have given := padded_alike (List.forall₂_take r.maxArgs same) r.maxArgs
  rw [routines.rest]
  exact padded_alike (List.rel_append given collected) r.numLocals

/-- A call that the one routine refuses is refused by its partner for the same reason. -/
theorem Simulates.enter {r r' : RoutineId} (paired : p.routines r r')
    {arguments arguments' : List Value}
    (same : List.Forall₂ p.Values arguments arguments') (wantResult : Bool)
    : p.Simulates Machines Same (Exec.enter r arguments wantResult)
        (Exec.enter r' arguments' wantResult) := by
  refine .after .process fun x x' alike => ?_
  have deep : (x'.maxCallDepth ≤ x'.frames.length) = (x.maxCallDepth ≤ x.frames.length) := by
    rw [alike.frames.length_eq, alike.maxCallDepth]
  simp only [deep]
  split
  · rw [alike.maxCallDepth]
    exact .raised _
  refine .after .heap fun h h' heaps => ?_
  have routines := heaps.routine r r' paired
  rw [routines.accepts, routines.name, routines.isVarargs, routines.maxArgs, ← same.length_eq]
  split
  · exact .raised _
  have entered (q : Partners) (le : p ≤ q) (surplus surplus' : Option Value)
      (rest : Option.Rel q.Values surplus surplus')
      : q.Processes (x.entered r (Exec.localsFor (h.routine r) arguments surplus) wantResult)
          (x'.entered r' (Exec.localsFor (h'.routine r') arguments' surplus') wantResult) := by
    have alike := alike.mono le
    refine alike.withFrames (.cons ⟨?_, le.routines _ _ paired, ?_⟩ alike.frames)
    · rw [alike.length_eq]
    · exact localsFor_alike (routines.mono le) (mono_all same le) rest
  split
  · have row : p.Grids (Grid.row (arguments.drop (h.routine r).maxArgs))
        (Grid.row (arguments'.drop (h.routine r).maxArgs)) := by
      have dropped := List.forall₂_drop (h.routine r).maxArgs same
      refine ⟨?_, dropped⟩
      rw [Grid.row, Grid.row, dropped.length_eq]
    refine .bind (.setHeap heaps.le_withArrays (heaps.addArray row)) fun q _ _ le later => ?_
    have surplus : q.Values (.array ⟨h.arrays.size⟩) (.array ⟨h'.arrays.size⟩) :=
      .array (later.arrays _ _ (.inr ⟨rfl, rfl⟩))
    refine .after (.pure (R := fun q => Option.Rel q.Values) (.some surplus)) fun _ _ rest => ?_
    exact .setProcess (entered q le _ _ rest)
  · exact .after (.pure (R := fun q => Option.Rel q.Values) .none) fun _ _ rest =>
      .setProcess (entered p le_rfl _ _ rest)

theorem cut_alike {stack stack' : List Value} (same : List.Forall₂ p.Values stack stack')
    (height : Nat)
    : List.Forall₂ p.Values (Process.cut stack height) (Process.cut stack' height) := by
  rw [Process.cut, Process.cut, same.length_eq]
  exact List.forall₂_drop _ same

/-- The callers ask for a result both or not at all, as their calls are alike. -/
theorem Simulates.leave {v v' : Option Value} (same : Option.Rel p.Values v v')
    : p.Simulates Machines Same (Exec.leave v) (Exec.leave v') := by
  refine .after .process fun x x' alike => ?_
  have frames := alike.frames
  generalize x.frames = active at frames
  generalize x'.frames = active' at frames
  cases frames with
  | nil => exact .raise _
  | @cons f f' outer outer' first others =>
      rw [first.rest]
      have left := (alike.withFrames others).withStack (cut_alike alike.stack f.stackBase)
      dsimp only
      cases others with
      | nil => exact .bind (.setProcess { left with result := same }) fun _ _ _ _ _ => .pure rfl
      | cons =>
          refine .bind (.setProcess left) fun q _ _ le _ => ?_
          split
          · have value : q.Values (v.getD .null) (v'.getD .null) := by
              cases same with
              | some one => exact one.mono le
              | none => exact .plain id
            exact .bind (.push value) fun _ _ _ _ _ => .pure rfl
          · exact .pure rfl

/-- Partners resolve to routines, so no call reaches the host. -/
theorem Simulates.call {c c' : CallableId} (paired : p.callables c c')
    {arguments arguments' : List Value}
    (same : List.Forall₂ p.Values arguments arguments') (wantResult : Bool)
    : p.Simulates Machines Same (Exec.call c arguments wantResult)
        (Exec.call c' arguments' wantResult) := by
  refine .after .heap fun h h' heaps => ?_
  obtain ⟨r, r', bound, bound', resolved, resolved', routines, before⟩ := heaps.resolve paired
  rw [resolved, resolved']
  refine .after .heap fun h h' heaps => ?_
  have alike := heaps.routine r r' routines
  dsimp only
  rw [alike.isProcedure, alike.name]
  split
  · exact .raised _
  · exact .enter routines (List.rel_append before same) wantResult

-----------------------------------------------------------------------------------------
-- Globals
-----------------------------------------------------------------------------------------

/-- What a name stands for is alike as a global, and alike as something that the host knows. -/
theorem Worlds.get {w w' : World} (alike : p.Worlds w w') (named : p.named) (name : String)
    : Option.Rel p.Values (w.get? name) (w'.get? name) := by
  have found : Option.Rel p.Globals (w.globals.find? (·.1 == World.key name))
      (w'.globals.find? (·.1 == World.key name)) := by
    have globals := alike.globals named
    generalize w.globals = left at globals ⊢
    generalize w'.globals = right at globals ⊢
    induction globals with
    | nil => exact .none
    | @cons g g' _ _ first _ ih =>
        rw [List.find?_cons, List.find?_cons, first.1]
        cases g.1 == World.key name with
        | true => exact .some first
        | false => exact ih
  rw [World.get?, World.get?]
  generalize w.globals.find? _ = known at found
  generalize w'.globals.find? _ = known' at found
  cases found with
  | some global => exact .some global.2
  | none => exact alike.lookup named _

theorem Worlds.enter {w w' : World} (alike : p.Worlds w w') (stored : String) {v v' : Value}
    (same : p.Values v v')
    : p.Worlds (w.enter stored v) (w'.enter stored v') := by
  refine ⟨alike.heaps, fun named => .cons ⟨rfl, same⟩ ?_, alike.lookup⟩
  refine List.rel_filter ?_ (alike.globals named)
  intro g g' global
  simp [global.1]

/-- The copies that become globals are alike, or both never end. -/
theorem Simulates.setGlobal (name : String) {v v' : Value} (same : p.Values v v')
    : p.Simulates Machines Same (Exec.setGlobal name v) (Exec.setGlobal name v') := by
  refine .after .world fun w w' alike => ?_
  rcases alike.heaps.copy same with
    ⟨q, h, h', u, u', le, copied, copied', heaps, value⟩ | ⟨never, never'⟩
  · simp only [World.set, copied, copied', Option.map_some]
    exact .setWorld le ((alike.goOn le heaps).enter _ value)
  · simp only [World.set, never, never', Option.map_none]
    exact .throws Interruption.endless

-----------------------------------------------------------------------------------------
-- Closures
-----------------------------------------------------------------------------------------

/-- Closures under construction that are alike, on heaps that are. -/
structure Bindings (p : Partners) (s s' : Heap × Closure) : Prop where
  heaps : p.Heaps s.1 s'.1
  base : p.callables s.2.base s'.2.base
  bound : List.Forall₂ p.Values s.2.bound s'.2.bound

theorem Simulates.set {σ ε : Type} {M : Partners → σ → σ → Prop} {s s' : σ} (le : p ≤ q)
    (states : M q s s')
    : p.Simulates M Same (set s : EStateM ε σ PUnit) (set s') :=
  fun _ _ _ => .ok le states rfl

/-- Both closures take a further argument, or neither does; and the copies are alike or never end. -/
theorem Simulates.bindValue {v v' : Value} (same : p.Values v v')
    : p.Simulates Bindings Same (Closure.bind v) (Closure.bind v') := by
  refine .bind (fun s s' states => .ok le_rfl states states) fun q s s' le states => ?_
  dsimp only
  rw [states.heaps.callableMaxArguments states.base, states.heaps.callableName states.base,
    ← states.bound.length_eq]
  rcases states.heaps.copy (same.mono le) with
    ⟨q₁, h₁, h₁', u, u', le₁, copied, copied', heaps, value⟩ | ⟨never, never'⟩
  · have bound := List.rel_append (mono_all states.bound le₁) (.cons value .nil)
    have further : q₁.Bindings (h₁, { s.2 with bound := s.2.bound ++ [u] })
        (h₁', { s'.2 with bound := s'.2.bound ++ [u'] }) :=
      ⟨heaps, le₁.callables _ _ states.base, bound⟩
    rw [copied, copied']
    cases s.1.callableMaxArguments s.2.base with
    | none => exact .set le₁ further
    | some limit =>
        dsimp only
        split
        · exact .thrown (Interruption.fault _)
        · exact .set le₁ further
  · rw [never, never']
    cases s.1.callableMaxArguments s.2.base with
    | none => exact .throws Interruption.endless
    | some limit =>
        dsimp only
        split
        · exact .thrown (Interruption.fault _)
        · exact .throws Interruption.endless

/-- As many values are bound to the one closure as to the other before the first that is refused. -/
theorem Simulates.bindAll {values values' : List Value} (same : List.Forall₂ p.Values values values')
    : p.Simulates Bindings Same (Closure.bindAll values) (Closure.bindAll values') := by
  induction values generalizing p values' with
  | nil =>
      cases same
      exact .pure rfl
  | cons v rest ih =>
      obtain ⟨v', rest', first, others, rfl⟩ := List.forall₂_cons_left_iff.mp same
      exact .bind (.bindValue first) fun _ _ _ le _ => ih (mono_all others le)

theorem Simulates.bindLast {values values' : List Value}
    (same : List.Forall₂ p.Values values values') (count : Nat)
    : p.Simulates Bindings Same (Closure.bindLast values count) (Closure.bindLast values' count) := by
  simp only [Closure.bindLast, ← same.length_eq]
  split
  · exact .throws (Interruption.fault _)
  · exact .bindAll (List.forall₂_drop _ same)

/-- The closures that are made become partners, with copies of what is bound to them. -/
theorem Simulates.makeClosure {base base' : CallableId} (paired : p.callables base base')
    {values values' : List Value} (same : List.Forall₂ p.Values values values')
    : p.Simulates Machines Values (Exec.makeClosure base values) (Exec.makeClosure base' values') := by
  refine .after .heap fun h h' heaps => ?_
  have bound : p.Agree Bindings Same ((Closure.bindLast values values.length).run (h, ⟨base, []⟩))
      ((Closure.bindLast values' values'.length).run (h', ⟨base', []⟩)) := by
    rw [← same.length_eq]
    exact Simulates.bindLast same _ _ _ ⟨heaps, paired, .nil⟩
  generalize (Closure.bindLast values values.length).run _ = result at bound ⊢
  generalize (Closure.bindLast values' values'.length).run _ = result' at bound ⊢
  cases bound with
  | error le states interruption =>
      exact .bind (.setHeap le states.heaps) fun _ _ _ _ _ => .throws interruption
  | ok le states _ =>
      have made := states.heaps.addClosure states.base states.bound
      refine .bind (.setHeap (le.trans states.heaps.le_withCallables) made) fun _ _ _ _ later => ?_
      refine .pure ?_
      exact .callable (later.callables _ _ (.inr ⟨rfl, rfl⟩))

end Partners
end TaskMachine
