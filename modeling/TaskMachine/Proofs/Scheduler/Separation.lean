import TaskMachine.Proofs.Scheduler.Moves

/-!
No two processes get at the same array. A process is started with copies, and whatever it makes is
its own, so what processes get at stays separate by itself. Only what comes in from outside can
bring them together: what names stand for, what host objects keep, what the host hands over, and
what a copy shares with the original. As long as no process takes in a value that leads to an
array of another one, no store of a process changes an array of another one.
-/

namespace TaskMachine

open Relation

/-- The values that others lead to. What host objects keep does not count, since it is for the
host to hand it out.
-/
def Heap.Carried (h : Heap) (roots : Value → Prop) (v : Value) : Prop :=
  ∃ w, roots w ∧ ReflTransGen h.Carries w v

/-- The values that a process gets at from its operand stack, and from the local variables and
literals of its calls.
-/
def Process.Reaches (p : Process) (h : Heap) : Value → Prop :=
  h.Carried (p.Holds h)

namespace Heap

variable {h h' : Heap} {roots R : Value → Prop} {v w : Value} {p q : Process}

-----------------------------------------------------------------------------------------
-- The region around values
-----------------------------------------------------------------------------------------

/-- What is at home wherever these values are: all that they lead to, what refers to nothing, and
the handles that are not in use.
-/
def Around (h : Heap) (roots : Value → Prop) (v : Value) : Prop :=
  Bare v ∨ ¬ h.Present v ∨ h.Carried roots v

private theorem Carried.of_root (root : roots v) : h.Carried roots v :=
  ⟨v, root, .refl⟩

/-- What leads on from something that is carried is carried. -/
theorem Carried.tail (carried : h.Carried roots v) (carries : h.Carries v w) : h.Carried roots w := by
  obtain ⟨u, root, way⟩ := carried
  exact ⟨u, root, way.tail carries⟩

/-- What holds of some values and wherever values with it lead to holds of all that they lead to, by
induction on the way.
-/
theorem Carried.induct {P : Value → Prop} (carried : h.Carried roots v) (first : ∀ v, roots v → P v)
    (next : ∀ v w, P v → h.Carries v w → P w)
    : P v := by
  obtain ⟨w, root, way⟩ := carried
  induction way with
  | refl => exact first w root
  | tail _ carries ih => exact next _ _ ih carries

/-- What is carried from some roots is a region if it is all there. -/
theorem region_around (present : ∀ v, h.Carried roots v → h.Present v)
    : h.Region (h.Around roots) where
  bare _ bare := .inl bare
  unused _ absent := .inr (.inl absent)
  closed v w inside carries := by
    rcases inside with bare | absent | carried
    · exact absurd carries bare.not_carries
    · exact absurd carries (not_carries_of_absent absent)
    · exact ⟨.inr (.inr (carried.tail carries)), present w (carried.tail carries)⟩

/-- A process that holds no handles gets at none. -/
theorem not_handle_of_reaches (held : ∀ v, p.Holds h v → ¬ v.IsHandle) (reaches : p.Reaches h v)
    : ¬ v.IsHandle :=
  Carried.induct reaches held fun _ _ plain carries =>
    absurd carries (bare_of_not_handle plain).not_carries

/-- A process that holds only what is at home in a region gets at nothing else. -/
theorem Region.owned_of_reaches (region : h.Region R) (held : ∀ v, p.Holds h v → h.Owned R v)
    (reaches : p.Reaches h v)
    : h.Owned R v :=
  Carried.induct reaches held fun v w owned carries => region.closed v w owned.1 carries

-----------------------------------------------------------------------------------------
-- Changes outside of what a process gets at
-----------------------------------------------------------------------------------------

/-- A process gets at the same values as before if nothing has changed but in a region that has
none of its arrays. By induction on the way to a value, there and back.
-/
theorem ChangesIn.reaches_iff (changes : h.ChangesIn R h')
    (present : ∀ v, p.Reaches h v → h.Present v)
    (outside : ∀ a, p.Reaches h (.array a) → ¬ R (.array a))
    : p.Reaches h' v ↔ p.Reaches h v := by
  have same {w : Value} (reaches : p.Reaches h w)
      : (∀ a, w = .array a → h'.grid a = h.grid a)
        ∧ ∀ c, w = .callable c → h'.callable c = h.callable c := by
    constructor
    · rintro a rfl
      exact changes.grid a (present _ reaches) (outside a reaches)
    · rintro c rfl
      exact changes.callable c (present _ reaches)
  have holds (v : Value) : p.Holds h' v ↔ p.Holds h v :=
    p.holds_of_routines changes.routines
  constructor
  · intro reaches
    refine Carried.induct reaches (fun v held => .of_root ((holds v).mp held)) ?_
    intro v w (before : p.Reaches h v) carries
    obtain ⟨grid, callable⟩ := same before
    refine Carried.tail before (carries.of_same ?_ ?_ changes.routines.symm)
    · exact fun a here => (grid a here).symm
    · exact fun c here => (callable c here).symm
  · intro reaches
    have both := Carried.induct (P := fun v => p.Reaches h v ∧ p.Reaches h' v) reaches
      (fun v held => ⟨.of_root held, .of_root ((holds v).mpr held)⟩) ?_
    · exact both.2
    · intro v w before carries
      obtain ⟨grid, callable⟩ := same before.1
      exact ⟨before.1.tail carries, before.2.tail (carries.of_same grid callable changes.routines)⟩

-----------------------------------------------------------------------------------------
-- Processes that are separate
-----------------------------------------------------------------------------------------

/-- The processes do not get at the same array. -/
def Apart (h : Heap) (p q : Process) : Prop :=
  ∀ a, p.Reaches h (.array a) → ¬ q.Reaches h (.array a)

theorem Apart.symm (apart : h.Apart p q) : h.Apart q p :=
  fun a second first => apart a first second

/-- Whatever the processes get at is on the heap, and no two of them get at the same array. -/
structure Separate (h : Heap) (ps : List Process) : Prop where
  present : ∀ p ∈ ps, ∀ v, p.Reaches h v → h.Present v
  apart : ps.Pairwise h.Apart

/-- A process may take in the value while others rest: all that it leads to is on the heap, and
none of it is an array that another process gets at.
-/
def Admitted (h : Heap) (others : List Process) (v : Value) : Prop :=
  ∀ w, ReflTransGen h.Carries v w →
    h.Present w ∧ ∀ a, w = .array a → ∀ q ∈ others, ¬ q.Reaches h (.array a)

/-- The process that may be at a place is separate from the others, and these are from each other.
-/
theorem separate_iff {before after : List Process} {actor : Option Process}
    : h.Separate (before ++ (actor.toList ++ after))
      ↔ h.Separate (before ++ after)
        ∧ ∀ p, actor = some p →
            (∀ v, p.Reaches h v → h.Present v) ∧ ∀ q ∈ before ++ after, h.Apart p q := by
  cases actor with
  | none => simp
  | some p =>
      have middle : (before ++ p :: after).Pairwise h.Apart
          ↔ (p :: (before ++ after)).Pairwise h.Apart :=
        List.pairwise_middle Apart.symm
      constructor
      · intro separate
        obtain ⟨first, others⟩ := List.pairwise_cons.mp (middle.mp separate.apart)
        refine ⟨⟨fun q among => separate.present q ?_, others⟩, fun q same => ?_⟩
        · simp only [Option.toList_some, List.mem_append, List.mem_singleton] at among ⊢
          tauto
        · cases same
          exact ⟨separate.present p (by simp), first⟩
      · intro separate
        obtain ⟨others, first⟩ := separate
        obtain ⟨present, apart⟩ := first p rfl
        refine ⟨fun q among => ?_, middle.mpr (List.pairwise_cons.mpr ⟨apart, others.apart⟩)⟩
        rcases List.mem_append.mp among with earlier | later
        · exact others.present q (List.mem_append_left after earlier)
        · rcases List.mem_cons.mp later with rfl | later
          · exact present
          · exact others.present q (List.mem_append_right before later)

/-- Processes are separate still if each of them gets at the same values as before. -/
theorem Separate.of_reaches_iff {ps : List Process} (separate : h.Separate ps)
    (present : ∀ v, h.Present v → h'.Present v)
    (same : ∀ q ∈ ps, ∀ v, q.Reaches h' v ↔ q.Reaches h v)
    : h'.Separate ps where
  present q among v reaches := present v (separate.present q among v ((same q among v).mp reaches))
  apart := separate.apart.imp_of_mem fun {p q} first second apart a reaches reaches' =>
    apart a ((same p first _).mp reaches) ((same q second _).mp reaches')

end Heap

-----------------------------------------------------------------------------------------
-- Moves keep processes separate
-----------------------------------------------------------------------------------------

variable {h h' : Heap} {v : Value} {a : ArrayId} {p q : Process}

/-- What others find after a process has acted: they get at the same values, and their arrays have
the same contents.
-/
structure Process.Spared (q : Process) (h h' : Heap) : Prop where
  reaches : ∀ v, q.Reaches h' v ↔ q.Reaches h v
  grid : ∀ a, q.Reaches h (.array a) → h'.grid a = h.grid a

/-- A process that takes in only what is admitted stays separate from the others and spares them.
All that it does is confined to the region around what it holds and takes in.
-/
theorem Act.separate {w w' : World} {actor actor' : Option Process} {dealings : Dealings}
    {before after : List Process} (act : Act w actor dealings w' actor')
    (separate : w.heap.Separate (before ++ (actor.toList ++ after)))
    (admitted : ∀ v, dealings.takes v → w.heap.Admitted (before ++ after) v)
    : w'.heap.Separate (before ++ (actor'.toList ++ after))
      ∧ ∀ q ∈ before ++ after, q.Spared w.heap w'.heap := by
  obtain ⟨others, first⟩ := Heap.separate_iff.mp separate
  -- The region is drawn before the act. What the act makes falls into it all the same, since it holds
  -- every handle that is not in use.
  let roots v := (∃ p, actor = some p ∧ p.Holds w.heap v) ∨ dealings.takes v
  have present (v : Value) (carried : w.heap.Carried roots v) : w.heap.Present v := by
    obtain ⟨u, ⟨p, acting, holds⟩ | root, way⟩ := carried
    · exact (first p acting).1 v ⟨u, holds, way⟩
    · exact (admitted u root v way).1
  have owned (v : Value) (root : roots v) : w.heap.Owned (w.heap.Around roots) v :=
    ⟨.inr (.inr (.of_root root)), present v (.of_root root)⟩
  have around := Heap.region_around present
  obtain ⟨confined, edits⟩ := act.confined around
    (fun p acting v holds => owned v (.inl ⟨p, acting, holds⟩)) (fun v root => owned v (.inr root))
  have changes := edits.changesIn
  have region := edits.region around
  have outside (q : Process) (among : q ∈ before ++ after) (a : ArrayId)
      (reaches : q.Reaches w.heap (.array a))
      : ¬ w.heap.Around roots (.array a) := by
    rintro (bare | absent | ⟨u, ⟨p, acting, holds⟩ | root, way⟩)
    · exact Nat.not_lt_zero _ (bare Heap.empty)
    · exact absent (others.present q among _ reaches)
    · exact (first p acting).2 q among a ⟨u, holds, way⟩ reaches
    · exact (admitted u root _ way).2 a rfl q among reaches
  have spared (q : Process) (among : q ∈ before ++ after) : q.Spared w.heap w'.heap := {
    reaches := fun v => changes.reaches_iff (others.present q among) (outside q among)
    grid := fun a reaches =>
      changes.grid a (others.present q among _ reaches) (outside q among a reaches)
  }
  refine ⟨Heap.separate_iff.mpr ⟨?_, fun p acting => ?_⟩, spared⟩
  · exact others.of_reaches_iff (fun v => changes.present) fun q among v => (spared q among).reaches v
  · have kept (v : Value) (reaches : p.Reaches w'.heap v) :=
      region.owned_of_reaches (confined p acting).held reaches
    refine ⟨fun v reaches => (kept v reaches).2, fun q among a reaches reaches' => ?_⟩
    exact outside q among a (((spared q among).reaches _).mp reaches') (kept _ reaches).1

namespace Scheduler

variable {s s' : Scheduler} {others : List Process} {dealings : Dealings}

/-- The processes of a scheduler are separate. -/
def Separate (s : Scheduler) : Prop :=
  s.world.heap.Separate s.processes

/-- A move in which only what is admitted is taken in. -/
inductive Guarded (s s' : Scheduler) : Prop
  | turn {others : List Process} {dealings : Dealings} (turn : Turn s others dealings s')
    (admitted : ∀ v, dealings.takes v → s.world.heap.Admitted others v)
  | host (surrounds : Surrounds s s')

/-- A process that takes in only what is admitted keeps the processes separate and spares those that
rest.
-/
theorem Turn.separate (turn : Turn s others dealings s') (separate : s.Separate)
    (admitted : ∀ v, dealings.takes v → s.world.heap.Admitted others v)
    : s'.Separate ∧ ∀ q ∈ others, q.Spared s.world.heap s'.world.heap := by
  obtain ⟨nextId, split, act⟩ := turn
  rw [Separate, split] at separate
  exact act.separate separate admitted

/-- What the host does keeps the processes separate. -/
theorem Surrounds.separate (surrounds : Surrounds s s') (separate : s.Separate) : s'.Separate := by
  have changes := surrounds.kept.changesIn (R := fun _ => False) surrounds.routines
  rw [Separate, surrounds.processes]
  exact Heap.Separate.of_reaches_iff separate (fun v => changes.present) fun q among v =>
    changes.reaches_iff (separate.present q among) fun _ _ => id

/-- Processes stay separate, by induction on the moves. -/
theorem separate_of_moves (separate : s.Separate) (run : ReflTransGen Guarded s s')
    : s'.Separate := by
  induction run with
  | refl => exact separate
  | tail _ guarded ih =>
      cases guarded with
      | turn turn admitted => exact (turn.separate ih admitted).1
      | host surrounds => exact surrounds.separate ih

/-- As long as processes take in only what is admitted, no two of them ever get at the same array. A
process that makes a step leaves all that another one gets at as it is, if it takes in only what is
admitted; so it does whenever it stores a value in an array, and this is no array that another one
gets at.
-/
theorem steps_spare_others {s₀ : Scheduler} (separate : s₀.Separate)
    (run : ReflTransGen Guarded s₀ s) {before after : List Process}
    (split : s.processes = before ++ p :: after) (running : p.state = .running)
    (other : q ∈ before ++ after)
    : s.world.heap.Apart p q
      ∧ ((∀ v, Machine.Takes ⟨s.world, p⟩ v → s.world.heap.Admitted (before ++ after) v)
          → q.Spared s.world.heap (Machine.advance ⟨s.world, p⟩).world.heap)
      ∧ ∀ a v, Machine.Stores ⟨s.world, p⟩ a v
          → ¬ q.Reaches s.world.heap (.array a)
            ∧ q.Spared s.world.heap (Machine.advance ⟨s.world, p⟩).world.heap := by
  have separate := separate_of_moves separate run
  have place : s.processes = before ++ ((some p).toList ++ after) := split
  rw [Separate, place] at separate
  obtain ⟨-, first⟩ := Heap.separate_iff.mp separate
  have apart := (first p rfl).2 q other
  have spared (admitted
      : ∀ v, Machine.Takes ⟨s.world, p⟩ v → s.world.heap.Admitted (before ++ after) v)
      : q.Spared s.world.heap (Machine.advance ⟨s.world, p⟩).world.heap :=
    ((Act.stepped running).separate separate admitted).2 q other
  refine ⟨apart, spared, fun a v stores => ⟨apart a ?_, ?_⟩⟩
  · obtain ⟨i, -, stores⟩ := stores
    exact .of_root (.inl (List.mem_of_getElem? stores.array))
  · exact spared fun w taken => absurd taken stores.takes_nothing

-----------------------------------------------------------------------------------------
-- A global that two processes get
-----------------------------------------------------------------------------------------

/-- Three routines and a global array with one cell. The first routine gets the array and
suspends, the second one gets it and stores a number in it, the third one stores the number in an
array of its own.
-/
def sharing : Scheduler where
  config := {}
  processes := []
  nextId := 1
  world := { World.empty with
    heap := { Heap.empty with
      arrays := #[⟨[1], #[.null]⟩]
      routines := #[
        { (default : Routine) with names := #["G"], code := #[⟨.push, 4, 0⟩, ⟨.special, 4, 0⟩] },
        { (default : Routine) with
          names := #["G"]
          code := #[⟨.push, 2, 7⟩, ⟨.push, 2, 0⟩, ⟨.push, 4, 0⟩, ⟨.indirect, 3, 1⟩] },
        { (default : Routine) with
          code := #[
            ⟨.push, 2, 7⟩, ⟨.push, 2, 0⟩, ⟨.push, 2, 1⟩, ⟨.special, 7, 1⟩, ⟨.indirect, 3, 1⟩] }] }
    globals := [("G", .array ⟨0⟩)] }

/-- A process of the first routine that has got the array and is suspended. -/
def keeper : Process := { Process.new {} 1 "" with
  stack := [.array ⟨0⟩]
  frames := [{
    routine := ⟨0⟩, pc := 2, locals := #[], handlers := [], wantResult := false, stackBase := 0 }] }

/-- A process of another routine that is at its fourth instruction, after three values were
pushed.
-/
def storer (r : RoutineId) (top : Value) : Process := { Process.new {} 2 "" with
  state := .running
  stack := [top, .integer 0, .integer 7]
  frames := [{
    routine := r, pc := 3, locals := #[], handlers := [], wantResult := false, stackBase := 0 }] }

/-- The first two routines have been started, and the second process is about to store. -/
def shared : Scheduler :=
  { sharing with nextId := 3, processes := [keeper, storer ⟨1⟩ (.array ⟨0⟩)] }

private theorem moves_sharing : Moves sharing shared := by
  have first : Moves sharing _ := moves_addNamed_nil "" .default ⟨0⟩
  have both := first.trans (moves_addNamed_nil "" .default ⟨1⟩)
  have one := both.trans (@moves_getD_wake _ 1 (by decide))
  have awake := one.trans (@moves_getD_wake _ 2 (by decide))
  have ran := (awake.trans (moves_runNext 10 _)).trans (moves_runNext 3 _)
  convert ran
  with_unfolding_all rfl

/-- Processes that get what a global stands for share its array, and a store of one of them
changes it for the other.
-/
theorem store_reaches_other
    : sharing.processes = []
      ∧ (∀ r ∈ sharing.world.heap.routines, r.literals = #[])
      ∧ Moves sharing shared
      ∧ shared.processes = [keeper, storer ⟨1⟩ (.array ⟨0⟩)]
      ∧ Machine.Stores ⟨shared.world, storer ⟨1⟩ (.array ⟨0⟩)⟩ ⟨0⟩ (.integer 7)
      ∧ keeper.Reaches shared.world.heap (.array ⟨0⟩)
      ∧ (shared.world.heap.grid ⟨0⟩).cells = #[.null]
      ∧ ((Machine.advance ⟨shared.world, storer ⟨1⟩ (.array ⟨0⟩)⟩).world.heap.grid ⟨0⟩).cells
        = #[.integer 7] := by
  refine ⟨rfl, ?_, moves_sharing, rfl, ?_, ?_, rfl, rfl⟩
  · simp only [sharing, List.mem_toArray, List.mem_cons, List.not_mem_nil, or_false]
    rintro r (rfl | rfl | rfl) <;> rfl
  · exact ⟨⟨.indirect, 3, 1⟩, rfl, rfl, rfl, rfl, rfl⟩
  · exact .of_root (.inl List.mem_cons_self)

private theorem keeper_reaches {v : Value} (reaches : keeper.Reaches sharing.world.heap v)
    : v = .array ⟨0⟩ ∨ ¬ v.IsHandle := by
  refine Heap.Carried.induct (P := fun v => v = .array ⟨0⟩ ∨ ¬ v.IsHandle) reaches ?_ ?_
  · intro v held
    rcases held with onStack | ⟨f, active, variable_ | literal⟩
    · exact .inl (List.mem_singleton.mp onStack)
    · cases List.mem_singleton.mp active
      simp at variable_
    · cases List.mem_singleton.mp active
      exact absurd literal (Array.not_mem_empty v)
  · rintro v w (rfl | plain) carries
    · obtain ⟨leads, -⟩ := carries
      cases leads with
      | cell held =>
          obtain rfl := Array.mem_singleton.mp held
          exact .inr id
    · exact absurd carries (Heap.bare_of_not_handle plain).not_carries

private theorem storer_reaches {v : Value}
    (reaches : (storer ⟨2⟩ (.integer 1)).Reaches sharing.world.heap v)
    : ¬ v.IsHandle := by
  refine Heap.not_handle_of_reaches (fun v held => ?_) reaches
  rcases held with onStack | ⟨f, active, variable_ | literal⟩
  · simp only [storer, List.mem_cons, List.not_mem_nil, or_false] at onStack
    rcases onStack with rfl | rfl | rfl <;> exact id
  · cases List.mem_singleton.mp active
    simp at variable_
  · cases List.mem_singleton.mp active
    exact absurd literal (Array.not_mem_empty v)

/-- The first routine and the third one have been started, and the second process is about to make
its array.
-/
def separated : Scheduler :=
  { sharing with nextId := 3, processes := [keeper, storer ⟨2⟩ (.integer 1)] }

private theorem separate_separated : separated.Separate := by
  refine ⟨fun p among v reaches => ?_, ?_⟩
  · rcases List.mem_pair.mp among with rfl | rfl
    · rcases keeper_reaches reaches with rfl | plain
      · exact Nat.zero_lt_one
      · exact Heap.bare_of_not_handle plain _
    · exact Heap.bare_of_not_handle (storer_reaches reaches) _
  · refine List.pairwise_pair.mpr fun a _ reaches => ?_
    exact absurd trivial (storer_reaches reaches)

/-- A process that makes an array of its own and stores in it spares the one that has got the
global.
-/
theorem maker_spares_keeper
    : (Machine.advance ⟨sharing.world, storer ⟨2⟩ (.integer 1)⟩).Stores ⟨1⟩ (.integer 7)
      ∧ keeper.Spared
          (Machine.advance ⟨sharing.world, storer ⟨2⟩ (.integer 1)⟩).world.heap
          (Machine.advance ⟨sharing.world, storer ⟨2⟩ (.integer 1)⟩).advance.world.heap := by
  have stores : (Machine.advance ⟨sharing.world, storer ⟨2⟩ (.integer 1)⟩).Stores ⟨1⟩ (.integer 7) :=
    ⟨⟨.indirect, 3, 1⟩, rfl, rfl, rfl, rfl, rfl⟩
  have running : (Machine.advance ⟨sharing.world, storer ⟨2⟩ (.integer 1)⟩).process.state
      = .running := rfl
  have act : Act separated.world (some (storer ⟨2⟩ (.integer 1))) _ _ _ := .stepped rfl
  have turn := @Turn.acted separated [keeper] [] _ _ _ _ 3 rfl act
  have nothing (v : Value)
      (taken : Machine.Takes ⟨sharing.world, storer ⟨2⟩ (.integer 1)⟩ v)
      : sharing.world.heap.Admitted [keeper] v := by
    obtain ⟨i, next, taken⟩ := taken
    obtain rfl : ⟨.special, 7, 1⟩ = i := Option.some.inj next
    cases taken with
    | named opcode | member opcode | reply opcode => cases opcode
  have spares := @steps_spare_others _ keeper _ _ separate_separated
    (.single (.turn turn nothing)) [keeper] [] rfl running List.mem_cons_self
  exact ⟨stores, (spares.2.2 _ _ stores).2⟩

end Scheduler
end TaskMachine
