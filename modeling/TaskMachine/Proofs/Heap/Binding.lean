import TaskMachine.Process.Machine
import TaskMachine.Proofs.Codec.Items
import TaskMachine.Proofs.Heap.Disciplines

/-!
What a closure answers for. It hands every question on to its base with the bound arguments taken
into account: they come before the arguments of a call, and each takes a place away from those that
are left. So it makes no difference whether arguments are bound in stages or at once.
-/

namespace TaskMachine

namespace Heap

variable {h h' : Heap} {c base : CallableId} {bound : List Value}

-----------------------------------------------------------------------------------------
-- What a chain of closures comes to
-----------------------------------------------------------------------------------------

/-- Closures are made after their bases. They are so all along a run (`Scheduler.later_of_moves`). -/
def Stacked (h : Heap) : Prop :=
  ∀ c base bound, h.callable c = .closure base bound → base.index < c.index

/-- What comes later stays behind what is bound along the chain, by induction on its length. -/
theorem resolveFrom_later (h : Heap) (fuel : Nat) (c : CallableId) (later : List Value)
    : h.resolveFrom fuel c later
      = ((h.resolveFrom fuel c []).1, (h.resolveFrom fuel c []).2 ++ later) := by
  induction fuel generalizing c later with
  | zero =>
      cases what : h.callable c with
      | direct callee => simp only [resolveFrom_direct what, List.nil_append]
      | closure base bound => simp only [resolveFrom_zero what, List.append_nil]
  | succ fuel ih =>
      cases what : h.callable c with
      | direct callee => simp only [resolveFrom_direct what, List.nil_append]
      | closure base bound =>
          rw [resolveFrom_succ what, resolveFrom_succ what, ih base (bound ++ later),
            ih base (bound ++ []), List.append_nil, List.append_assoc]

/-- A chain that descends comes to its end with any fuel above its first handle, by induction on the
fuel.
-/
theorem resolveFrom_enough (stacked : h.Stacked) {fuel fuel' : Nat} (enough : c.index < fuel)
    (enough' : c.index < fuel') (later : List Value)
    : h.resolveFrom fuel c later = h.resolveFrom fuel' c later := by
  induction fuel generalizing fuel' c later with
  | zero => exact absurd enough (Nat.not_lt_zero _)
  | succ fuel ih =>
      cases fuel' with
      | zero => exact absurd enough' (Nat.not_lt_zero _)
      | succ fuel' =>
          cases what : h.callable c with
          | direct callee => rw [resolveFrom_direct what, resolveFrom_direct what]
          | closure base bound =>
              have below := stacked c base bound what
              rw [resolveFrom_succ what, resolveFrom_succ what]
              exact ih (by omega) (by omega) _

/-- A closure comes to what its base comes to, with its own arguments behind those of the base. -/
theorem resolve_closure (stacked : h.Stacked) (what : h.callable c = .closure base bound)
    : h.resolve c = ((h.resolve base).1, (h.resolve base).2 ++ bound) := by
  have below := stacked c base bound what
  rw [resolve, resolveFrom_succ what, List.append_nil,
    resolveFrom_enough stacked below (Nat.lt_succ_self base.index), resolveFrom_later, ← resolve]

/-- A callable comes to the same as long as its chain is there as it was, by induction on the length
of the chain.
-/
theorem resolveFrom_of_kept (stacked : h.Stacked)
    (kept : ∀ d : CallableId, d.index < h.callables.size → h'.callable d = h.callable d)
    (present : c.index < h.callables.size) (fuel : Nat) (later : List Value)
    : h'.resolveFrom fuel c later = h.resolveFrom fuel c later := by
  induction fuel generalizing c later with
  | zero =>
      have same := kept c present
      cases what : h.callable c with
      | direct callee => rw [resolveFrom_direct what, resolveFrom_direct (same.trans what)]
      | closure base bound => rw [resolveFrom_zero what, resolveFrom_zero (same.trans what)]
  | succ fuel ih =>
      have same := kept c present
      cases what : h.callable c with
      | direct callee => rw [resolveFrom_direct what, resolveFrom_direct (same.trans what)]
      | closure base bound =>
          rw [resolveFrom_succ what, resolveFrom_succ (same.trans what)]
          exact ih (Nat.lt_trans (stacked c base bound what) present) _

/-- What a callable takes at most does not change as the heap goes on. -/
theorem callableMaxArguments_of_later {R : Value → Prop} (stacked : h.Stacked)
    (later : h.ChangesIn R h') (present : c.index < h.callables.size)
    : h'.callableMaxArguments c = h.callableMaxArguments c := by
  have same : h'.resolve c = h.resolve c := resolveFrom_of_kept stacked later.callable present _ _
  rw [callableMaxArguments, callableMaxArguments, same]
  obtain ⟨callee, bound⟩ := h.resolve c
  cases callee with
  | subroutine r => simp only [calleeMaxArguments, routine, later.routines]
  | native f | hosted d => rfl

/-- A callable answers as another one does with some arguments bound to it. -/
structure Answers (h : Heap) (c base : CallableId) (bound : List Value) : Prop where
  call
    : ∀ (w : World) (p : Process) (args : List Value) (wantResult : Bool),
        w.heap = h
        → (Exec.call c args wantResult).run ⟨w, p⟩
          = (Exec.call base (bound ++ args) wantResult).run ⟨w, p⟩
  rank : h.callableDimension c 0 = h.callableDimension base 0 - bound.length
  dimension
    : ∀ n, 0 < n → h.callableDimension c n = h.callableDimension base (n + bound.length)
  accepts
    : ∀ count, h.callableAccepts c count = h.callableAccepts base (count + bound.length)
  maximum
    : h.callableMaxArguments c
      = (h.callableMaxArguments base).map fun limit => limit - bound.length

theorem run_call (c : CallableId) (args : List Value) (wantResult : Bool) (m : Machine)
    : (Exec.call c args wantResult).run m
      = (Exec.callCallee ((m.world.heap.resolve c).2 ++ args) wantResult
          (m.world.heap.resolve c).1).run m :=
  rfl

/-- A closure answers as its base does with the bound arguments. -/
theorem answers_closure (stacked : h.Stacked) (what : h.callable c = .closure base bound)
    : h.Answers c base bound := by
  have resolved := resolve_closure stacked what
  refine ⟨?_, ?_, ?_, ?_, ?_⟩
  · rintro w p args wantResult rfl
    rw [run_call, run_call, resolved, List.append_assoc]
  · simp only [callableDimension, resolved, List.length_append, if_true]
    omega
  · intro n positive
    have further : ¬ n + bound.length = 0 := by omega
    simp only [callableDimension, resolved, List.length_append, Nat.ne_of_gt positive, further,
      if_false]
    congr 2
    omega
  · intro count
    simp only [callableAccepts, resolved, List.length_append]
    congr 2
    omega
  · simp only [callableMaxArguments, resolved, List.length_append, Option.map_map]
    congr 1
    funext limit
    simp only [Function.comp_apply]
    omega

/-- Arguments that are bound later stand behind those that were bound before. -/
theorem Answers.trans {d : CallableId} {before : List Value} (later : h.Answers d c bound)
    (first : h.Answers c base before)
    : h.Answers d base (before ++ bound) where
  call w p args wantResult here := by
    rw [later.call w p args wantResult here, first.call w p _ wantResult here, List.append_assoc]
  rank := by
    rw [later.rank, first.rank, List.length_append]
    omega
  dimension n positive := by
    rw [later.dimension n positive, first.dimension _ (by omega), List.length_append]
    congr 1
    omega
  accepts count := by
    rw [later.accepts, first.accepts, List.length_append]
    congr 1
    omega
  maximum := by
    rw [later.maximum, first.maximum, Option.map_map, List.length_append]
    congr 1
    funext limit
    simp only [Function.comp_apply]
    omega

-----------------------------------------------------------------------------------------
-- Closures are made after their bases
-----------------------------------------------------------------------------------------

/-- A heap with the same callables is stacked if this one is. -/
theorem Stacked.of_callables (stacked : h.Stacked) (same : ∀ c, h'.callable c = h.callable c)
    : h'.Stacked :=
  fun c base bound what => stacked c base bound ((same c).symm.trans what)

/-- A closure leaves the heap stacked if its base is there. -/
theorem Stacked.addClosure (stacked : h.Stacked) (present : base.index < h.callables.size)
    (bound : List Value)
    : (h.addCallable (.closure base bound)).1.Stacked := by
  intro c base' bound' what
  by_cases old : c.index < h.callables.size
  · rw [callable_addCallable_of_lt h _ old] at what
    exact stacked c base' bound' what
  · rcases callable_addCallable h (.closure base bound) c with new | same
    · rw [new] at what
      cases what
      exact Nat.lt_of_lt_of_le present (Nat.not_lt.mp old)
    · exact stacked c base' bound' (same.symm.trans what)

/-- What is a closure is there. -/
theorem index_lt_of_closure (what : h.callable c = .closure base bound)
    : c.index < h.callables.size := by
  by_contra absent
  have none : h.callables[c.index]? = none := Array.getElem?_eq_none_iff.mpr (Nat.not_lt.mp absent)
  rw [callable, none] at what
  cases what

/-- Copies leave the heap stacked: a closure is copied after its base was made. -/
theorem survives_stacked : Survives fun h h' => h.Kept h' ∧ (h.Stacked → h'.Stacked) where
  refl h := ⟨.refl h, id⟩
  trans _ _ _ first next := ⟨first.1.trans next.1, next.2 ∘ first.2⟩
  array h a h₁ cells copied := by
    refine ⟨survives_kept.array h a h₁ cells copied.1, fun stacked => ?_⟩
    have shell : (h.withShell a).Stacked := stacked.of_callables fun _ => rfl
    exact (copied.2 shell).of_callables fun _ => rfl
  closure h c base bound h₁ bound₁ what copied := by
    refine ⟨copied.1.addCallable _, fun stacked => (copied.2 stacked).addClosure ?_ bound₁⟩
    have below := Nat.lt_trans (stacked c base bound what) (index_lt_of_closure what)
    exact Nat.lt_of_lt_of_le below copied.1.callables

variable {R : Value → Prop} {Writes : Heap → ArrayId → Value → Prop}

/-- Whatever is done to the heap leaves it stacked, by the things that are done. -/
theorem Edit.stacked (edit : Edit R Writes h h') (stacked : h.Stacked) : h'.Stacked := by
  cases edit with
  | array | write | object => exact stacked.of_callables fun _ => rfl
  | closure baseOwned => exact stacked.addClosure baseOwned.2 _
  | copy _ _ _ copies => exact (survives_stacked.copy copies).2 stacked

theorem Edits.stacked (edits : Edits R Writes h h') (stacked : h.Stacked) : h'.Stacked := by
  induction edits with
  | refl => exact stacked
  | tail _ edit ih => exact edit.stacked ih

-----------------------------------------------------------------------------------------
-- Values are bound
-----------------------------------------------------------------------------------------

/-- Binding values to a callable makes a closure. -/
def Binds (h : Heap) (base : CallableId) (values : List Value) (h' : Heap) (c : CallableId)
    : Prop :=
  ∃ h₁ closure,
    (Closure.bindAll values).run (h, ⟨base, []⟩) = .ok () (h₁, closure)
    ∧ Closure.toValue h₁ closure = (h', .callable c)

/-- A process that binds values does just this, if it succeeds. -/
theorem run_makeClosure_eq_ok {values : List Value} {m m' : Machine} {v : Value}
    : (Exec.makeClosure base values).run m = .ok v m'
      ↔ ∃ h' c,
          m.world.heap.Binds base values h' c ∧ v = .callable c
          ∧ m' = { m with world := { m.world with heap := h' } } := by
  have all : Closure.bindLast values values.length = Closure.bindAll values := by
    simp [Closure.bindLast]
  have heap : Exec.heap.run m = .ok m.world.heap m := rfl
  simp only [Exec.makeClosure, all, EStateM.run_bind, heap, Binds]
  cases done : (Closure.bindAll values).run (m.world.heap, ⟨base, []⟩) with
  | error e s => simp [Exec.setHeap, EStateM.run_modify, run_throw]
  | ok u s =>
      obtain ⟨h₁, closure⟩ := s
      constructor
      · intro ran
        cases ran
        exact ⟨_, _, ⟨h₁, closure, rfl, rfl⟩, rfl, rfl⟩
      · rintro ⟨h', c, ⟨h₂, closure', same, made⟩, rfl, rfl⟩
        cases same
        cases made
        rfl

/-- A value that is no handle is its own copy. -/
theorem copy_plain {v : Value} (plain : ¬ v.IsHandle) (h : Heap) : h.copy v = some (h, v) := by
  cases v with
  | array _ | callable _ | object _ => exact absurd trivial plain
  | null | integer _ | boolean _ | float _ | string _ => simp [copy, copyTo]

end Heap

namespace Closure

open Heap

/-- A value is bound if there is room for one more and its copy ends. -/
theorem run_bind_iff {v : Value} {h : Heap} {c : Closure} {s : Heap × Closure}
    : (bind v).run (h, c) = .ok () s
      ↔ (∀ limit, h.callableMaxArguments c.base = some limit → c.bound.length < limit)
        ∧ ∃ h' v', h.copy v = some (h', v') ∧ s = (h', { c with bound := c.bound ++ [v'] }) := by
  simp only [bind, EStateM.run_bind, EStateM.run_get]
  cases most : h.callableMaxArguments c.base with
  | none => rcases h.copy v with _ | ⟨h', v'⟩ <;> simp [EStateM.run_set, eq_comm]
  | some limit =>
      by_cases full : limit < c.bound.length + 1
      · have no : ¬ c.bound.length < limit := by omega
        simp [full, no]
      · have room : c.bound.length < limit := by omega
        rcases h.copy v with _ | ⟨h', v'⟩ <;> simp [full, room, EStateM.run_set, eq_comm]

/-- Values that are no handles are bound as they are if there is room for all of them. By induction
on the values.
-/
theorem run_bindAll_plain {values : List Value} (plain : ∀ v ∈ values, ¬ v.IsHandle) {h : Heap}
    {c : Closure} {s : Heap × Closure}
    : (bindAll values).run (h, c) = .ok () s
      ↔ (values ≠ [] → ∀ limit, h.callableMaxArguments c.base = some limit
          → c.bound.length + values.length ≤ limit)
        ∧ s = (h, { c with bound := c.bound ++ values }) := by
  induction values generalizing c with
  | nil => simp [bindAll, EStateM.run_pure, eq_comm]
  | cons v rest ih =>
      obtain ⟨first, others⟩ := List.forall_mem_cons.mp plain
      rw [bindAll, run_bind_eq_ok]
      constructor
      · rintro ⟨_, s₁, one, all⟩
        obtain ⟨room, h₁, v₁, copied, rfl⟩ := run_bind_iff.mp one
        rw [copy_plain first] at copied
        cases copied
        obtain ⟨more, rfl⟩ := (ih others).mp all
        refine ⟨fun _ limit most => ?_, by simp⟩
        have room := room limit most
        by_cases last : rest = []
        · simp only [last, List.length_cons, List.length_nil]
          omega
        · have more := more last limit most
          simp only [List.length_append, List.length_cons, List.length_nil] at more ⊢
          omega
      · rintro ⟨room, rfl⟩
        have room := room (List.cons_ne_nil v rest)
        simp only [List.length_cons] at room
        refine ⟨(), (h, { c with bound := c.bound ++ [v] }), ?_, ?_⟩
        · refine run_bind_iff.mpr ⟨fun limit most => ?_, h, v, copy_plain first h, rfl⟩
          have := room limit most
          omega
        · refine (ih others).mpr ⟨fun _ limit most => ?_, by simp⟩
          have := room limit most
          simp only [List.length_append, List.length_cons, List.length_nil]
          omega

end Closure

namespace Heap

variable {h h' h₁ h₁' h₂ h₃ : Heap} {c c₁ c₂ c₃ f base : CallableId} {values xs ys : List Value}

/-- The heap goes on: its callables and routines are there as they were, and closures are made after
their bases. It does so whatever processes do (`Scheduler.later_of_moves`).
-/
def Later (h h' : Heap) : Prop :=
  h.ChangesIn (fun _ => True) h' ∧ h'.Stacked

/-- There is room for values among the arguments of a callable. Where nothing is bound, nothing is
checked.
-/
def Room (h : Heap) (base : CallableId) (values : List Value) : Prop :=
  values ≠ [] → ∀ limit, h.callableMaxArguments base = some limit → values.length ≤ limit

/-- Values that are no handles are bound as they are, if there is room for them. -/
theorem binds_plain (plain : ∀ v ∈ values, ¬ v.IsHandle)
    : h.Binds base values h' c
      ↔ h.Room base values
        ∧ h' = (h.addCallable (.closure base values)).1
        ∧ c = (h.addCallable (.closure base values)).2 := by
  simp only [Binds, Closure.run_bindAll_plain plain, List.length_nil, Nat.zero_add,
    List.nil_append]
  constructor
  · rintro ⟨h₁, closure, ⟨room, same⟩, made⟩
    cases same
    cases made
    exact ⟨room, rfl, rfl⟩
  · rintro ⟨room, rfl, rfl⟩
    exact ⟨h, ⟨base, values⟩, ⟨room, rfl⟩, rfl⟩

/-- A closure that was made stays what it is. -/
theorem Binds.callable (plain : ∀ v ∈ values, ¬ v.IsHandle) (binds : h.Binds base values h₁ c)
    (later : h₁.Later h')
    : h'.callable c = .closure base values := by
  obtain ⟨-, rfl, rfl⟩ := (binds_plain plain).mp binds
  have made := callable_addCallable_new h (.closure base values)
  rw [← made]
  exact later.1.callable _ (by simp [addCallable])

/-- There is room for values behind others just if there is room for both together. -/
theorem room_append (stacked : h.Stacked) (present : f.index < h.callables.size)
    (plain : ∀ v ∈ xs, ¬ v.IsHandle) (binds : h.Binds f xs h₁ c₁) (later : h₁.Later h₁')
    : h₁'.Room c₁ ys ↔ h.Room f (xs ++ ys) := by
  obtain ⟨room, rfl, -⟩ := (binds_plain plain).mp binds
  have still : h.Later h₁' :=
    ⟨.trans (((Kept.refl h).addCallable (.closure f xs)).changesIn rfl) later.1, later.2⟩
  have most := (answers_closure later.2 (binds.callable plain later)).maximum
  rw [callableMaxArguments_of_later stacked still.1 present] at most
  cases limit : h.callableMaxArguments f with
  | none => simp [Room, most, limit]
  | some limit' =>
      simp only [Room, most, limit, Option.map_some, Option.some.injEq, forall_eq',
        List.length_append, ne_eq, List.append_eq_nil_iff] at room ⊢
      rw [← List.length_eq_zero_iff] at room ⊢
      rw [← List.length_eq_zero_iff]
      omega

/-- It makes no difference whether values are bound in stages or at once: both succeed or neither
does, and the closures answer alike, whatever is done between the stages and afterwards.
-/
theorem bind_in_stages (stacked : h.Stacked) (present : f.index < h.callables.size)
    (plain : ∀ v ∈ xs ++ ys, ¬ v.IsHandle)
    : ((∃ h₁ c₁ h₂ c₂, h.Binds f xs h₁ c₁ ∧ h₁.Binds c₁ ys h₂ c₂)
        ↔ ∃ h₃ c₃, h.Binds f (xs ++ ys) h₃ c₃)
      ∧ ∀ h₁ c₁ h₁' h₂ c₂ h₂' h₃ c₃ h',
          h.Binds f xs h₁ c₁ → h₁.Later h₁' → h₁'.Binds c₁ ys h₂ c₂
          → h.Later h₂' → h₂'.Binds f (xs ++ ys) h₃ c₃
          → h₂.Later h' → h₃.Later h'
          → h'.Answers c₂ f (xs ++ ys) ∧ h'.Answers c₃ f (xs ++ ys) := by
  obtain ⟨first, second⟩ := List.forall_mem_append.mp plain
  constructor
  · constructor
    · rintro ⟨h₁, c₁, h₂, c₂, binds, further⟩
      have made := (binds_plain first).mp binds
      have later : h₁.Later h₁ := ⟨.refl _ _, made.2.1 ▸ stacked.addClosure present xs⟩
      have more := ((binds_plain second).mp further).1
      have room := (room_append stacked present first binds later).mp more
      exact ⟨_, _, (binds_plain plain).mpr ⟨room, rfl, rfl⟩⟩
    · rintro ⟨h₃, c₃, atOnce⟩
      have room := ((binds_plain plain).mp atOnce).1
      have binds : h.Binds f xs _ _ := (binds_plain first).mpr ⟨fun some limit most => by
        have := room (by simp [some]) limit most
        rw [List.length_append] at this
        omega, rfl, rfl⟩
      have later := stacked.addClosure present xs
      have more := (room_append stacked present first binds ⟨.refl _ _, later⟩).mpr room
      exact ⟨_, _, _, _, binds, (binds_plain second).mpr ⟨more, rfl, rfl⟩⟩
  · intro h₁ c₁ h₁' h₂ c₂ h₂' h₃ c₃ h' binds between further _ atOnce later later'
    have grown : h₁'.ChangesIn (fun _ => True) h₂ := by
      obtain ⟨-, rfl, -⟩ := (binds_plain second).mp further
      exact ((Kept.refl h₁').addCallable _).changesIn rfl
    have inner := binds.callable first ⟨between.1.trans (grown.trans later.1), later.2⟩
    have outer := further.callable second later
    exact ⟨(answers_closure later.2 outer).trans (answers_closure later.2 inner),
      answers_closure later'.2 (atOnce.callable plain later')⟩

/-- The heap with a function of the host that takes three arguments, and a closure over it. -/
def threeArguments : Heap where
  arrays := #[]
  callables := #[
    .direct (.native ⟨"SUM", 3, some 3, false, fun _ => { outcome := .ok .null }⟩),
    .closure ⟨0⟩ [.integer 1]]
  objects := #[]
  routines := #[]

private theorem stacked_threeArguments : threeArguments.Stacked := by
  rintro ⟨n⟩ base bound what
  match n with
  | 0 => cases what
  | 1 =>
      cases what
      decide
  | n + 2 =>
      have none : threeArguments.callables[n + 2]? = none :=
        Array.getElem?_eq_none (by simp [threeArguments])
      rw [callable, none] at what
      cases what

/-- The last two arguments are bound in stages and at once. -/
theorem bind_in_stages_over_closure
    : ∃ h₁ h₂ h₃ : Heap,
        threeArguments.Binds ⟨1⟩ [.integer 2] h₁ ⟨2⟩
        ∧ h₁.Binds ⟨2⟩ [.integer 3] h₂ ⟨3⟩
        ∧ h₂.Binds ⟨1⟩ [.integer 2, .integer 3] h₃ ⟨4⟩
        ∧ h₃.Answers ⟨3⟩ ⟨1⟩ [.integer 2, .integer 3]
        ∧ h₃.Answers ⟨4⟩ ⟨1⟩ [.integer 2, .integer 3] := by
  let h₁ := (threeArguments.addCallable (.closure ⟨1⟩ [.integer 2])).1
  let h₂ := (h₁.addCallable (.closure ⟨2⟩ [.integer 3])).1
  let h₃ := (h₂.addCallable (.closure ⟨1⟩ [.integer 2, .integer 3])).1
  have stacked₁ : h₁.Stacked := stacked_threeArguments.addClosure (by decide) _
  have stacked₂ : h₂.Stacked := stacked₁.addClosure (by decide) _
  have stacked₃ : h₃.Stacked := stacked₂.addClosure (by decide) _
  have plain (n : Int32) : ¬ (Value.integer n).IsHandle := id
  have first : threeArguments.Binds ⟨1⟩ [.integer 2] h₁ ⟨2⟩ :=
    (binds_plain (by simp [plain])).mpr ⟨fun _ limit most => by cases most; decide, rfl, rfl⟩
  have second : h₁.Binds ⟨2⟩ [.integer 3] h₂ ⟨3⟩ :=
    (binds_plain (by simp [plain])).mpr ⟨fun _ limit most => by cases most; decide, rfl, rfl⟩
  have both : h₂.Binds ⟨1⟩ [.integer 2, .integer 3] h₃ ⟨4⟩ :=
    (binds_plain (by simp [plain])).mpr ⟨fun _ limit most => by cases most; decide, rfl, rfl⟩
  have grown (h : Heap) (what : Callable) : h.ChangesIn (fun _ => True) (h.addCallable what).1 :=
    ((Kept.refl h).addCallable what).changesIn rfl
  have alike := (@bind_in_stages _ ⟨1⟩ [.integer 2] [.integer 3] stacked_threeArguments
    (by decide) (by simp [plain])).2
  exact ⟨h₁, h₂, h₃, first, second, both,
    alike h₁ ⟨2⟩ h₁ h₂ ⟨3⟩ h₂ h₃ ⟨4⟩ h₃ first ⟨.refl _ _, stacked₁⟩ second
      ⟨(grown _ _).trans (grown _ _), stacked₂⟩ both ⟨grown _ _, stacked₃⟩ ⟨.refl _ _, stacked₃⟩⟩

end Heap
end TaskMachine
