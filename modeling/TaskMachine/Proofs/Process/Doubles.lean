import TaskMachine.Proofs.Process.Runs
import TaskMachine.Proofs.Process.SelfContained

/-!
A process and its double. The double has another id and lives on a heap of its own, where it is as
the process is on the heap that it shares with others. Whatever is asked of both, they answer alike
and stay each other's doubles. Meanwhile the process changes only what belongs to it: its own arrays,
and those that it makes.
-/

namespace TaskMachine

/-- Two reports of a process that has one id here and another one there are the same, but for what
stands for the result.
-/
structure Outcome.Like (Same : Value → Value → Prop) (id id' : Nat) (o o' : Outcome) : Prop where
  ids : o.id = id ∧ o'.id = id'
  name : o'.name = o.name
  kind : o'.kind = o.kind
  state : o'.state = o.state
  result : Option.Rel Same o.result o'.result
  failure : o'.failure = o.failure

namespace Partners

variable {p q : Partners} {h h' : Heap} {id' : Nat} {x x' : Process}

/-- A process and its double are alike and are called the same, but for their ids. -/
structure Doubles (p : Partners) (id' : Nat) (x x' : Process) : Prop extends Processes p x x' where
  identity : x'.identity = (id', x.name, x.kind)

/-- The second heap has what the double needs: no names, and one handle for each. -/
structure Mirrors (p : Partners) (h h' : Heap) : Prop where
  heaps : p.Heaps h h'
  faithful : p.Faithful
  nameless : ¬ p.named

/-- Partners mirror each other as before if nothing changes in them on the one side. -/
theorem Mirrors.frame {R : Value → Prop} {h₁ : Heap} (mirrors : p.Mirrors h h')
    (changes : h.ChangesIn R h₁) (outside : ∀ a a', p.arrays a a' → ¬ R (.array a))
    : (p.renew h₁).Mirrors h₁ h' :=
  ⟨mirrors.heaps.frame changes outside, mirrors.faithful.renew h₁, mirrors.nameless⟩

theorem Doubles.among (doubles : p.Doubles id' x x') (more : p.Among q) : q.Doubles id' x x' :=
  ⟨doubles.toProcesses.among more, doubles.identity⟩

theorem Doubles.id (doubles : p.Doubles id' x x') : x'.id = id' :=
  congrArg (·.1) doubles.identity

/-- Processes that are alike and have kept their identities are still doubles. -/
theorem Doubles.goOn (doubles : p.Doubles id' x x') {y y' : Process} (alike : q.Processes y y')
    (same : y.identity = x.identity) (same' : y'.identity = x'.identity)
    : q.Doubles id' y y' := by
  simp only [Process.identity, Prod.mk.injEq] at same
  refine ⟨alike, same'.trans (doubles.identity.trans ?_)⟩
  rw [same.2.1, same.2.2]

/-- The reports of a process and its double are the same. -/
theorem Doubles.outcome (doubles : p.Doubles id' x x')
    : x.outcome.Like p.Values x.id id' x'.outcome := by
  have identity := doubles.identity
  simp only [Process.identity, Prod.mk.injEq] at identity
  exact ⟨⟨rfl, identity.1⟩, identity.2.1, identity.2.2, doubles.state, doubles.result,
    doubles.failure⟩

-----------------------------------------------------------------------------------------
-- Requests
-----------------------------------------------------------------------------------------

/-- A request is answered alike by processes that are alike. It is refused only for the state that the
process is in, and leaves the process its identity.
-/
structure IsRequest (request : Process → Except Refusal Process) : Prop where
  alike : ∀ p x x', Processes p x x' → p.Accepted (request x) (request x')
  identity : ∀ x y, request x = .ok y → y.identity = x.identity
  refusal : ∀ x refusal, request x = .error refusal → refusal = .invalidState x.id x.state

theorem isRequest_wake : IsRequest Process.wake where
  alike _ _ _ alike := alike.transition ..
  identity x y accepted := by
    obtain ⟨-, rfl⟩ := Process.wake_eq_ok.mp accepted
    rfl
  refusal x refusal refused := by
    unfold Process.wake Process.transition at refused
    split at refused
    · cases refused
    · cases refused
      rfl

/-- A value that refers to nothing may be handed to both. -/
theorem isRequest_resume {v : Value} (standsAlone : ¬ v.IsHandle)
    : IsRequest fun x => x.resume v where
  alike _ _ _ alike := alike.resume (.plain standsAlone)
  identity x y accepted := by
    obtain ⟨-, ⟨-, rfl⟩ | ⟨-, rfl⟩⟩ := Process.resume_eq_ok.mp accepted
    · rfl
    · rfl
  refusal x refusal refused := by
    by_cases waiting : x.state = .waiting
    · rcases Nat.lt_or_ge x.stack.length x.maxStackSize with room | full
      · rw [Process.resume_eq_ok.mpr ⟨waiting, .inl ⟨room, rfl⟩⟩] at refused
        cases refused
      · rw [Process.resume_eq_ok.mpr ⟨waiting, .inr ⟨full, rfl⟩⟩] at refused
        cases refused
    · simp only [Process.resume, if_pos waiting] at refused
      cases refused
      rfl

/-- A process and its double accept a request, or both refuse it because of the same state. -/
inductive Replies (p : Partners) (id id' : Nat)
    : Except Refusal Process → Except Refusal Process → Prop
  | accepted {y y' : Process} (kept : y.id = id) (doubles : p.Doubles id' y y')
    : Replies p id id' (.ok y) (.ok y')
  | refused (state : ProcessState)
    : Replies p id id' (.error (.invalidState id state)) (.error (.invalidState id' state))

/-- Doubles reply alike to a request. -/
theorem Doubles.replies (doubles : p.Doubles id' x x') {request : Process → Except Refusal Process}
    (asks : IsRequest request)
    : p.Replies x.id id' (request x) (request x') := by
  have replies := asks.alike p x x' doubles.toProcesses
  cases reply : request x with
  | ok y =>
      cases reply' : request x' with
      | ok y' =>
          rw [reply, reply'] at replies
          obtain ⟨alike⟩ := replies
          have same := asks.identity x y reply
          exact .accepted (congrArg (·.1) same)
            (doubles.goOn alike same (asks.identity x' y' reply'))
      | error =>
          rw [reply, reply'] at replies
          cases replies
  | error refusal =>
      cases reply' : request x' with
      | ok =>
          rw [reply, reply'] at replies
          cases replies
      | error refusal' =>
          rw [asks.refusal x refusal reply, asks.refusal x' refusal' reply', doubles.state,
            doubles.id]
          exact .refused x.state

theorem Doubles.terminate (doubles : p.Doubles id' x x')
    : p.Doubles id' x.terminate x'.terminate := by
  unfold Process.terminate
  rw [doubles.state]
  split
  · exact doubles
  · exact ⟨{ doubles.toProcesses.release with state := rfl }, doubles.identity⟩

-----------------------------------------------------------------------------------------
-- Runs
-----------------------------------------------------------------------------------------

/-- What belongs to a process: what has a partner, and what is not in use. -/
def Territory (p : Partners) (h : Heap) (v : Value) : Prop :=
  (∃ v', p.Values v v') ∨ ¬ h.Present v

/-- All arrays in a region have partners, or are not in use. -/
def Owns (p : Partners) (h : Heap) (R : Value → Prop) : Prop :=
  ∀ a, R (.array a) → (∃ a', p.arrays a a') ∨ h.arrays.size ≤ a.index

/-- Every array in the territory has a partner, or is not in use. -/
theorem owns_territory : p.Owns h (p.Territory h) := by
  rintro a (⟨_, same⟩ | absent)
  · cases same with
    | plain standsAlone => exact absurd trivial standsAlone
    | array own => exact .inl ⟨_, own⟩
  · exact .inr (Nat.not_lt.mp absent)

variable {w w' : World}

/-- A process and its double run alike, and the process changes only what belongs to it. -/
theorem Mirrors.run (mirrors : p.Mirrors w.heap w'.heap) (doubles : p.Doubles id' x x') (fuel : Nat)
    : ∃ q : Partners,
        q.Mirrors (Machine.run fuel ⟨w, x⟩).world.heap (Machine.run fuel ⟨w', x'⟩).world.heap
        ∧ q.Doubles id' (Machine.run fuel ⟨w, x⟩).process (Machine.run fuel ⟨w', x'⟩).process
        ∧ w.heap.ChangesIn (p.Territory w.heap) (Machine.run fuel ⟨w, x⟩).world.heap
        ∧ ∀ a a', q.arrays a a' → p.Territory w.heap (.array a) := by
  have machines : (p.renew w.heap).Machines ⟨w, x⟩ ⟨w', x'⟩ :=
    ⟨⟨mirrors.heaps.renew, fun named => absurd named mirrors.nameless,
      fun named => absurd named mirrors.nameless⟩, doubles.toProcesses.among (among_renew ..)⟩
  have faithful := mirrors.faithful.renew w.heap
  obtain ⟨q, le, ran⟩ := machines.run fuel (.inl faithful)
  refine ⟨q, ⟨ran.world.heaps, le.faithful faithful, fun named => ?_⟩, ?_, ?_, ?_⟩
  · exact mirrors.nameless (le.named.mp named)
  · exact doubles.goOn ran.process (Machine.identity_run fuel _) (Machine.identity_run fuel _)
  · have back : (p.renew w.heap).Among p := ⟨fun _ _ => id, fun _ _ => id, fun _ _ => id, Iff.rfl⟩
    exact (changesIn_among (ran.world.heaps.changesIn le) back).mono fun _ => .inl
  · intro a a' paired
    rcases le.fresh a a' paired with old | new
    · exact .inl ⟨_, .array old⟩
    · exact .inr (Nat.not_lt.mpr new)

-----------------------------------------------------------------------------------------
-- Beginnings
-----------------------------------------------------------------------------------------

/-- The pairs of which the first is in a region are enough for processes that hold nothing else. -/
theorem Processes.inside {R : Value → Prop} (alike : p.Processes x x') (result : x.result = none)
    (held : ∀ v, x.Holds h v → h.Owned R v)
    : (p.inside h R).Processes x x' :=
  { alike with
    stack := inside_all alike.stack h fun v onStack => (held v (.inl onStack)).1
    frames := related_of_mem alike.frames fun f active f' _ one => by
      refine ⟨one.rest, ⟨one.routine, fun v literal => ?_⟩, inside_all one.locals h fun v local_ => ?_⟩
      · exact (held v (.inr ⟨f, active, .inr literal⟩)).1
      · exact (held v (.inr ⟨f, active, .inl (Array.mem_toList_iff.mp local_)⟩)).1
    result := by
      have none' := alike.result
      rw [result] at none' ⊢
      generalize x'.result = result' at none' ⊢
      cases none'
      exact .none
  }

/-- What a process gets from outside when it is started in a world that has kept what it is started
with is on the heap, and is granted.
-/
theorem granted_of_given {h₀ h : Heap} {r : RoutineId} {args : List Value}
    (independent : h₀.Independent r args) (kept : h₀.Kept h) (routines : h.routines = h₀.routines)
    : (∀ v, h.Traversed args v → h.Present v)
      ∧ ∀ v, h.Given r args v → h.Owned (h₀.Granted h) v := by
  have harmless (v : Value) (traversed : h.Traversed args v) : h₀.Harmless v :=
    independent.arguments v (Heap.traversed_of_kept kept independent.arguments traversed)
  have same {c : CallableId} {s : RoutineId} (what : h₀.callable c = .direct (.subroutine s))
      : h.callable c = .direct (.subroutine s) :=
    (kept.callable c (Heap.index_lt_of_subroutine what)).trans what
  refine ⟨fun v traversed => ?_, fun v given => ?_⟩
  · cases harmless v traversed with
    | plain standsAlone => exact Heap.bare_of_not_handle standsAlone h
    | array present => exact Nat.lt_of_lt_of_le present kept.arrays
    | subroutine what => exact Heap.index_lt_of_subroutine (same what)
  · cases given with
    | literal held => exact Heap.owned_literal kept routines independent.routine held
    | direct traversed =>
        cases harmless _ traversed with
        | plain standsAlone => exact absurd trivial standsAlone
        | subroutine what contained =>
            exact ⟨fun _ => ⟨_, same what, contained⟩, Heap.index_lt_of_subroutine (same what)⟩
    | base traversed closure =>
        cases harmless _ traversed with
        | plain standsAlone => exact absurd trivial standsAlone
        | subroutine what => cases (same what).symm.trans closure

/-- A process that is started has a double that is started, with the same arguments, where nothing has
happened since the first heap. It gets only what no other process has.
-/
theorem doubles_start {h₀ : Heap} {r : RoutineId} {args : List Value} {config : Config} {id : Nat}
    (id' : Nat) {name : String} {kind : ProcessKind} {m : Machine} (independent : h₀.Independent r args)
    (kept : h₀.Kept w.heap) (routines : w.heap.routines = h₀.routines) (heap : w'.heap = h₀)
    (ran : (Exec.start r args).run ⟨w, { Process.new config id name with kind }⟩ = .ok () m)
    : ∃ (q : Partners) (m' : Machine),
        (Exec.start r args).run ⟨w', { Process.new config id' name with kind }⟩ = .ok () m'
        ∧ q.Mirrors m.world.heap m'.world.heap
        ∧ q.Doubles id' m.process m'.process
        ∧ w.heap.ChangesIn (h₀.Granted w.heap) m.world.heap
        ∧ ∀ a a', q.arrays a a' → h₀.Granted w.heap (.array a) := by
  subst heap
  have heaps := independent.heaps kept routines
  have new : (w'.heap.common w.heap args).Doubles id' { Process.new config id name with kind }
      { Process.new config id' name with kind } :=
    ⟨⟨.nil, .nil, .none, rfl, rfl, rfl, rfl, rfl, rfl⟩, rfl⟩
  have given : List.Forall₂ (w'.heap.common w.heap args).Values args args :=
    List.forall₂_same.mpr fun v member => independent.traversed ⟨v, member, .refl⟩
  have machines : (w'.heap.common w.heap args).Machines
      ⟨w, { Process.new config id name with kind }⟩ ⟨w', { Process.new config id' name with kind }⟩ :=
    ⟨⟨heaps, False.elim, False.elim⟩, new.toProcesses⟩
  have agree := agree_start machines rfl rfl ⟨rfl, independent.routine⟩ given
  rw [ran] at agree
  cases ran' : (Exec.start r args).run ⟨w', { Process.new config id' name with kind }⟩ with
  | error e m' =>
      rw [ran'] at agree
      cases agree
  | ok _ m' =>
      rw [ran'] at agree
      obtain ⟨le, machines, -⟩ := agree
      obtain ⟨present, takes⟩ := granted_of_given independent kept routines
      have region := Heap.region_granted kept routines
      obtain ⟨confined, edits⟩ : m.Confined (w'.heap.Granted w.heap)
          ∧ w.heap.Edits (w'.heap.Granted w.heap) (fun _ _ _ => True) m.world.heap :=
        Machine.disciplined_start (congrArg stateOf ran) rfl rfl region present takes
      have entered := Exec.stays_start r args ⟨w, { Process.new config id name with kind }⟩
      have entered' := Exec.stays_start r args ⟨w', { Process.new config id' name with kind }⟩
      rw [Exec.Stays, ran] at entered
      rw [Exec.Stays, ran'] at entered'
      have alike := machines.process.inside entered.sameLife.result confined.held
      refine ⟨_, m', rfl, ⟨machines.world.heaps.inside confined.order,
        (le.faithful Heap.faithful_common).inside _ _, le.named.mp⟩, ?_, edits.changesIn, ?_⟩
      · exact new.goOn alike entered.sameLife.identity entered'.sameLife.identity
      · exact fun a a' paired => paired.2

end Partners
end TaskMachine
