import TaskMachine.Proofs.Heap.Twins
import TaskMachine.Proofs.Heap.Untied

/-!
How far a copy is independent of its original. A value spans what calls and element accesses can get
at through it. The copy of a value made of arrays spans arrays of its own, in the same shape, so
that no store through the one shows in the other. Through closures that holds only so far: a copy of
a closure has the same base, so both span whatever the base spans.
-/

namespace TaskMachine

namespace Heap

open Relation

variable {h h' h₁ h₂ : Heap} {v w u x y v' x' : Value}

/-- Through a value one gets at another one: a cell of an array, or what a closure passes on to a
call, which are its bound arguments and those of its base.
-/
inductive Spans (h : Heap) : Value → Value → Prop
  | cell {a : ArrayId} {v : Value} (held : v ∈ (h.grid a).cells) : Spans h (.array a) v
  | bound {c base : CallableId} {bound : List Value} {v : Value}
    (closure : h.callable c = .closure base bound) (held : v ∈ bound)
    : Spans h (.callable c) v
  | base {c base : CallableId} {bound : List Value} (closure : h.callable c = .closure base bound)
    : Spans h (.callable c) (.callable base)

private theorem Enters.spans (enters : h.Enters v w) : h.Spans v w := by
  cases enters with
  | cell held => exact .cell held
  | bound closure held => exact .bound closure held

/-- What the copy of a value comes to can be got at through the value. -/
theorem way_spans (way : ReflTransGen h.Enters v w) : ReflTransGen h.Spans v w :=
  ReflTransGen.mono (fun _ _ => Enters.spans) _ _ way

/-- A value spans directly what it did before if what it refers to is as it was. -/
theorem spans_iff_of_same (grid : ∀ a, v = .array a → h'.grid a = h.grid a)
    (callable : ∀ c, v = .callable c → h'.callable c = h.callable c)
    : h'.Spans v w ↔ h.Spans v w := by
  constructor
  · intro spans
    cases spans with
    | cell held => exact .cell (grid _ rfl ▸ held)
    | bound closure held => exact .bound ((callable _ rfl).symm.trans closure) held
    | base closure => exact .base ((callable _ rfl).symm.trans closure)
  · intro spans
    cases spans with
    | cell held => exact .cell ((grid _ rfl).symm ▸ held)
    | bound closure held => exact .bound ((callable _ rfl).trans closure) held
    | base closure => exact .base ((callable _ rfl).trans closure)

-----------------------------------------------------------------------------------------
-- Stores through one value that do not show in another
-----------------------------------------------------------------------------------------

/-- Whatever the value spans is as it was. -/
structure Spared (w : Value) (h h' : Heap) : Prop where
  grid : ∀ a, ReflTransGen h.Spans w (.array a) → h'.grid a = h.grid a
  callable : ∀ c, ReflTransGen h.Spans w (.callable c) → h'.callable c = h.callable c

/-- The values span things on the heap, and no array in common. -/
structure Detached (h : Heap) (v w : Value) : Prop where
  here : ∀ x, ReflTransGen h.Spans v x → h.Present x
  there : ∀ x, ReflTransGen h.Spans w x → h.Present x
  apart : ∀ a, ReflTransGen h.Spans v (.array a) → ¬ ReflTransGen h.Spans w (.array a)

/-- One thing that is done through `v`, while `w` is left alone: a value is stored in an array that
`v` spans by then, and it spans no array that `w` spans. Besides, anything may be made anew.
-/
inductive Through (v w : Value) (h : Heap) : Heap → Prop
  | make {h' : Heap} (kept : h.Kept h') : Through v w h h'
  | store {a : ArrayId} {indexes : List Value} {u : Value} {g : Grid}
    (reached : ReflTransGen h.Spans v (.array a))
    (present : ∀ x, ReflTransGen h.Spans u x → h.Present x)
    (clear : ∀ b, ReflTransGen h.Spans u (.array b) → ¬ ReflTransGen h.Spans w (.array b))
    (written : (h.grid a).set indexes u = .ok g)
    : Through v w h (h.setGrid a g)

theorem Detached.symm (apart : h.Detached v w) : h.Detached w v :=
  ⟨apart.there, apart.here, fun a there here => apart.apart a here there⟩

/-- A value spans the same as long as all that it spans is as it was, by induction on the way. -/
theorem Spared.spans (spared : Spared w h h')
    : ReflTransGen h'.Spans w x ↔ ReflTransGen h.Spans w x := by
  have same {x y : Value} (way : ReflTransGen h.Spans w x) : h'.Spans x y ↔ h.Spans x y := by
    refine spans_iff_of_same ?_ ?_
    · rintro a rfl
      exact spared.grid a way
    · rintro c rfl
      exact spared.callable c way
  constructor
  · intro way
    induction way with
    | refl => exact .refl
    | tail _ spans ih => exact ih.tail ((same ih).mp spans)
  · intro way
    induction way with
    | refl => exact .refl
    | tail before spans ih => exact ih.tail ((same before).mpr spans)

/-- What is spared twice is spared: the way to it is the same after the first time. -/
theorem Spared.trans (first : Spared w h h₁) (next : Spared w h₁ h₂) : Spared w h h₂ where
  grid a way := (next.grid a (first.spans.mpr way)).trans (first.grid a way)
  callable c way := (next.callable c (first.spans.mpr way)).trans (first.callable c way)

/-- Where all is kept that there was, everything that was there is spared. -/
theorem spared_of_kept (kept : h.Kept h') (present : ∀ x, ReflTransGen h.Spans w x → h.Present x)
    : Spared w h h' where
  grid a way := kept.grid a (present _ way)
  callable c way := kept.callable c (present _ way)

/-- After a store, each array spans what it did before, or is the one written and spans the value.
-/
theorem spans_setGrid {a : ArrayId} {indexes : List Value} {g : Grid}
    (written : (h.grid a).set indexes u = .ok g) (spans : (h.setGrid a g).Spans x y)
    : h.Spans x y ∨ (x = .array a ∧ y = u) := by
  cases spans with
  | bound closure held => exact .inl (.bound closure held)
  | base closure => exact .inl (.base closure)
  | cell held =>
      rcases mem_cells_store written held with before | ⟨rfl, rfl⟩
      · exact .inl (.cell before)
      · exact .inr ⟨rfl, rfl⟩

/-- One thing that is done through a value spares another one that is apart, and leaves the two
apart.
-/
theorem Through.spares (through : Through v w h h') (apart : h.Detached v w)
    : Spared w h h' ∧ h'.Detached v w := by
  cases through with
  | make kept =>
      have spared := spared_of_kept kept apart.there
      have spared' := spared_of_kept kept apart.here
      refine ⟨spared, fun x way => ?_, fun x way => ?_, fun a way way' => ?_⟩
      · exact kept.present (apart.here x (spared'.spans.mp way))
      · exact kept.present (apart.there x (spared.spans.mp way))
      · exact apart.apart a (spared'.spans.mp way) (spared.spans.mp way')
  | @store a _ u g reached present clear written =>
      have spared : Spared w h (h.setGrid a g) := by
        refine ⟨fun b way => grid_setGrid_of_ne h ?_ g, fun _ _ => rfl⟩
        rintro rfl
        exact apart.apart _ reached way
      have ways {x : Value} (way : ReflTransGen (h.setGrid a g).Spans v x)
          : ReflTransGen h.Spans v x ∨ ReflTransGen h.Spans u x :=
        (way_of_store (fun _ _ => spans_setGrid written) way).imp_right And.right
      refine ⟨spared, fun x way => ?_, fun x way => ?_, fun b way way' => ?_⟩
      · exact (present_setGrid h a g x).mpr ((ways way).elim (apart.here x) (present x))
      · exact (present_setGrid h a g x).mpr (apart.there x (spared.spans.mp way))
      · exact (ways way).elim (apart.apart b) (clear b) (spared.spans.mp way')

/-- Whatever is done through a value spares another one that is apart, by induction on what is done.
-/
theorem spared_of_through (through : ReflTransGen (Through v w) h h') (apart : h.Detached v w)
    : Spared w h h' ∧ h'.Detached v w := by
  induction through with
  | refl => exact ⟨⟨fun _ _ => rfl, fun _ _ => rfl⟩, apart⟩
  | tail _ once ih =>
      obtain ⟨spared, apart⟩ := ih
      obtain ⟨next, apart⟩ := once.spares apart
      exact ⟨spared.trans next, apart⟩

-----------------------------------------------------------------------------------------
-- What a copy has in common with its original
-----------------------------------------------------------------------------------------

/-- The value is behind the base of a closure that a copy of `v` comes across. -/
def Behind (h : Heap) (v x : Value) : Prop :=
  ∃ c base bound,
    ReflTransGen h.Enters v (.callable c) ∧ h.callable c = .closure base bound
    ∧ ReflTransGen h.Spans (.callable base) x

/-- What is behind a value can be got at through it. -/
theorem Behind.spans (behind : h.Behind v x) : ReflTransGen h.Spans v x := by
  obtain ⟨c, base, bound, way, closure, beyond⟩ := behind
  exact ((way_spans way).tail (.base closure)).trans beyond

variable {t : Twins}

/-- What is on the heap spans the same as before as long as it is kept. -/
theorem spans_iff_of_kept (kept : h.Kept h') (present : h.Present v)
    : h'.Spans v w ↔ h.Spans v w := by
  refine spans_iff_of_same ?_ ?_
  · rintro a rfl
    exact kept.grid a present
  · rintro c rfl
    exact kept.callable c present

/-- What a copy spans is a copy of something that its original leads to, or behind the base of a
closure there. By induction on the way: from a copy it goes on to copies and to bases, and from a
base to what the base spans.
-/
theorem copied_or_behind (between : t.Between h h') (pair : t.Values h v v')
    (present : ∀ x, ReflTransGen h.Spans v x → h.Present x) (way : ReflTransGen h'.Spans v' x')
    : (∃ x, ReflTransGen h.Enters v x ∧ t.Values h x x') ∨ h.Behind v x' := by
  induction way with
  | refl => exact .inl ⟨v, .refl, pair⟩
  | @tail x' y' _ spans ih =>
      rcases ih with ⟨x, way, pair⟩ | behind
      · have onward (enters : h'.Enters x' y')
            : (∃ y, ReflTransGen h.Enters v y ∧ t.Values h y y') ∨ h.Behind v y' := by
          obtain ⟨y, enters, pair⟩ := between.entered pair enters
          exact .inl ⟨y, way.tail enters, pair⟩
        cases spans with
        | cell held => exact onward (.cell held)
        | bound closure held => exact onward (.bound closure held)
        | base closure =>
            cases pair with
            | fixed fixed =>
                obtain ⟨inside, callee, direct⟩ := fixed
                rw [between.kept.callable _ inside, direct] at closure
                cases closure
            | closure paired =>
                obtain ⟨-, -, base, bound, bound', here, there, -⟩ := between.closures _ _ paired
                rw [closure] at there
                cases there
                exact .inr ⟨_, _, _, way, here, .refl⟩
      · have before := (spans_iff_of_kept between.kept (present x' behind.spans)).mp spans
        obtain ⟨c, base, bound, way, closure, beyond⟩ := behind
        exact .inr ⟨c, base, bound, way, closure, beyond.tail before⟩

/-- What is behind the base of a closure there, the copy spans as well. -/
theorem Behind.spans_copy (between : t.Between h h') (pair : t.Values h v v')
    (present : ∀ x, ReflTransGen h.Spans v x → h.Present x) (behind : h.Behind v x)
    : ReflTransGen h'.Spans v' x := by
  obtain ⟨c, base, bound, way, closure, beyond⟩ := behind
  obtain ⟨d', way', pair⟩ := between.way pair way
  cases pair with
  | fixed fixed =>
      obtain ⟨-, callee, direct⟩ := fixed
      rw [closure] at direct
      cases direct
  | closure paired =>
      obtain ⟨-, -, base', bound₁, bound', here, there, -⟩ := between.closures _ _ paired
      rw [closure] at here
      cases here
      have above : ReflTransGen h.Spans v (.callable base) := (way_spans way).tail (.base closure)
      have spared := spared_of_kept between.kept fun y further => present y (above.trans further)
      exact ((way_spans way').tail (.base there)).trans (spared.spans.mpr beyond)

/-- An array that the original and the copy both span is behind the base of a closure. -/
theorem behind_of_common (between : t.Between h h') (pair : t.Values h v v')
    (present : ∀ x, ReflTransGen h.Spans v x → h.Present x) {a : ArrayId}
    (here : ReflTransGen h.Spans v (.array a)) (there : ReflTransGen h'.Spans v' (.array a))
    : h.Behind v (.array a) := by
  refine (copied_or_behind between pair present there).resolve_left ?_
  rintro ⟨x, -, pair⟩
  cases pair with
  | fixed fixed => exact fixed
  | array paired => exact absurd (present _ here) (Nat.not_lt.mpr (between.arrays _ _ paired).1)

/-- A copy and its original are apart unless there is an array behind the base of a closure. -/
theorem detached_copy (between : t.Between h h') (pair : t.Values h v v')
    (present : ∀ x, ReflTransGen h.Spans v x → h.Present x)
    (free : ∀ a, ¬ h.Behind v (.array a))
    : h'.Detached v v' := by
  have spared := spared_of_kept between.kept present
  refine ⟨fun x way => ?_, fun x' way => ?_, fun a here there => ?_⟩
  · exact between.kept.present (present x (spared.spans.mp way))
  · rcases copied_or_behind between pair present way with ⟨x, there, pair⟩ | behind
    · cases pair with
      | fixed fixed => exact between.kept.present (present _ (way_spans there))
      | array paired => exact (between.arrays _ _ paired).2.1
      | closure paired => exact (between.closures _ _ paired).2.1
    · exact between.kept.present (present x' behind.spans)
  · exact free a (behind_of_common between pair present (spared.spans.mp here) there)

/-- The arrays that a copy of the value comes across have all the cells of their boxes. -/
def Boxed (h : Heap) (v : Value) : Prop :=
  ∀ a, ReflTransGen h.Enters v (.array a) → (h.grid a).cells.size = volume (h.grid a).dims

/-- A copy stays within what its way can enter. -/
theorem encloses_entered (present : ∀ x, ReflTransGen h.Enters v x → h.Present x)
    : h.Encloses fun x => ReflTransGen h.Enters v x where
  array _ way := present _ way
  callable _ way := present _ way
  cells _ way _ held := way.tail (.cell (Array.mem_toList_iff.mp (Array.mem_toList_iff.mpr held)))
  bound _ _ _ way closure _ held := way.tail (.bound closure held)

/-- What a copy comes across is paired with its copies. -/
theorem paired_copy (present : ∀ x, ReflTransGen h.Enters v x → h.Present x) (boxed : h.Boxed v)
    (copies : h.copy v = some (h', v'))
    : ∃ copied t, Paired h (fun x => ReflTransGen h.Enters v x) h h' [] copied [v] [v'] t := by
  obtain ⟨⟨h₁, copied, v₁⟩, done, same⟩ := Option.map_eq_some_iff.mp copies
  cases same
  obtain ⟨t, paired⟩ :=
    paired_copyTo (encloses_entered present) boxed .refl (.begin (.refl h)) done
  exact ⟨copied, t, paired⟩

/-- A copy spans just those arrays of its original that are behind the base of a closure. If there
are none, nothing that is done through the one shows in the other.
-/
theorem copy_shares_behind_bases (present : ∀ x, ReflTransGen h.Spans v x → h.Present x)
    (boxed : h.Boxed v) (copies : h.copy v = some (h', v'))
    : (∀ a,
        ReflTransGen h'.Spans v (.array a) ∧ ReflTransGen h'.Spans v' (.array a)
        ↔ h.Behind v (.array a))
      ∧ ((∀ a, ¬ h.Behind v (.array a))
        → (∀ h₁, ReflTransGen (Through v v') h' h₁ → Spared v' h' h₁)
          ∧ ∀ h₁, ReflTransGen (Through v' v) h' h₁ → Spared v h' h₁) := by
  obtain ⟨copied, t, paired⟩ := paired_copy (fun x way => present x (way_spans way)) boxed copies
  have between := Twins.between_of_paired (.refl h) paired
  have pair : t.Values h v v' := (List.forall₂_cons.mp paired.values).1
  have spared := spared_of_kept between.kept present
  refine ⟨fun a => ⟨fun both => ?_, fun behind => ?_⟩, fun free => ?_⟩
  · exact behind_of_common between pair present (spared.spans.mp both.1) both.2
  · exact ⟨spared.spans.mpr behind.spans, behind.spans_copy between pair present⟩
  · have apart := detached_copy between pair present free
    exact ⟨fun h₁ through => (spared_of_through through apart).1,
      fun h₁ through => (spared_of_through through apart.symm).1⟩

/-- The heap with a closure without arguments over a closure that binds an array. -/
def nested : Heap where
  arrays := #[⟨[1], #[.integer 1]⟩]
  callables := #[.direct default, .closure ⟨0⟩ [.array ⟨0⟩], .closure ⟨1⟩ []]
  objects := #[]
  routines := #[]

/-- The same after the outer closure has been copied. -/
def nestedCopy : Heap :=
  (nested.addCallable (.closure ⟨1⟩ [])).1

private theorem copy_nested : nested.copy (.callable ⟨2⟩) = some (nestedCopy, .callable ⟨3⟩) :=
  rfl

private theorem present_nested (way : ReflTransGen nested.Spans (.callable ⟨2⟩) x) : nested.Present x := by
  suffices known : x = .callable ⟨2⟩ ∨ x = .callable ⟨1⟩ ∨ x = .callable ⟨0⟩ ∨ x = .array ⟨0⟩
      ∨ x = .integer 1 by
    rcases known with rfl | rfl | rfl | rfl | rfl <;> simp [Present, nested]
  induction way with
  | refl => exact .inl rfl
  | tail _ spans ih =>
      rcases ih with rfl | rfl | rfl | rfl | rfl
      · cases spans with
        | bound closure held =>
            cases closure
            cases held
        | base closure =>
            cases closure
            exact .inr (.inl rfl)
      · cases spans with
        | bound closure held =>
            cases closure
            exact .inr (.inr (.inr (.inl (List.mem_singleton.mp held))))
        | base closure =>
            cases closure
            exact .inr (.inr (.inl rfl))
      · cases spans with
        | bound closure | base closure => cases closure
      · cases spans with
        | cell held => exact .inr (.inr (.inr (.inr (by simpa [nested, grid] using held))))
      · cases spans

/-- The array that the inner closure binds is behind the base of the outer one. -/
theorem behind_nested : nested.Behind (.callable ⟨2⟩) (.array ⟨0⟩) := by
  have inner : nested.callable ⟨1⟩ = .closure ⟨0⟩ [.array ⟨0⟩] := rfl
  exact ⟨⟨2⟩, ⟨1⟩, [], .refl, rfl, .single (.bound inner List.mem_cons_self)⟩

/-- The copy of the outer closure has the array in common with it. -/
theorem copy_shares_nested_array
    : ReflTransGen nestedCopy.Spans (.callable ⟨2⟩) (.array ⟨0⟩)
      ∧ ReflTransGen nestedCopy.Spans (.callable ⟨3⟩) (.array ⟨0⟩) := by
  have boxed : nested.Boxed (.callable ⟨2⟩) := by
    intro a way
    have inside : a.index < 1 := present_nested (way_spans way)
    obtain ⟨n⟩ := a
    obtain rfl : n = 0 := Nat.lt_one_iff.mp inside
    rfl
  have shares := copy_shares_behind_bases (fun x => present_nested) boxed copy_nested
  exact (shares.1 ⟨0⟩).mpr behind_nested

/-- So this copy is not independent of its original: both hand the same array on to the callee, and
what a call of the one stores there shows in a call of the other.
-/
theorem nested_copy_not_spared
    : nested.copy (.callable ⟨2⟩) = some (nestedCopy, .callable ⟨3⟩)
      ∧ nestedCopy.resolve ⟨2⟩ = (default, [.array ⟨0⟩])
      ∧ nestedCopy.resolve ⟨3⟩ = (default, [.array ⟨0⟩])
      ∧ ∃ h₁,
          Through (.callable ⟨2⟩) (.callable ⟨3⟩) nestedCopy h₁
          ∧ ¬ Spared (.callable ⟨3⟩) nestedCopy h₁ := by
  have inner : nestedCopy.callable ⟨1⟩ = .closure ⟨0⟩ [.array ⟨0⟩] := rfl
  have outer : nestedCopy.callable ⟨2⟩ = .closure ⟨1⟩ [] := rfl
  have outer' : nestedCopy.callable ⟨3⟩ = .closure ⟨1⟩ [] := rfl
  have original : ReflTransGen nestedCopy.Spans (.callable ⟨2⟩) (.array ⟨0⟩) :=
    .tail (.single (.base outer)) (.bound inner List.mem_cons_self)
  have copy : ReflTransGen nestedCopy.Spans (.callable ⟨3⟩) (.array ⟨0⟩) :=
    .tail (.single (.base outer')) (.bound inner List.mem_cons_self)
  have written : (nestedCopy.grid ⟨0⟩).set [.integer 0] (.integer 2) = .ok ⟨[1], #[.integer 2]⟩ :=
    rfl
  have nothing {x : Value} (way : ReflTransGen nestedCopy.Spans (.integer 2) x)
      : x = .integer 2 := by
    rcases ReflTransGen.cases_head way with rfl | ⟨y, spans, -⟩
    · rfl
    · cases spans
  refine ⟨rfl, rfl, rfl, _, .store original ?_ ?_ written, fun spared => ?_⟩
  · intro x way
    rw [nothing way]
    trivial
  · intro b way
    cases nothing way
  · have same := congrArg Grid.cells (spared.grid ⟨0⟩ copy)
    rw [grid_setGrid_self _ (by decide)] at same
    cases same

-----------------------------------------------------------------------------------------
-- Copies of arrays
-----------------------------------------------------------------------------------------

/-- The value is an array with all the cells of its box, or something that copies share. -/
def Plain (h : Heap) : Value → Prop
  | .array a => a.index < h.arrays.size ∧ (h.grid a).cells.size = volume (h.grid a).dims
  | v => h.Fixed v

/-- Values that are the same but for arrays that are paired. -/
inductive Alike (pairs : ArrayId → ArrayId → Prop) : Value → Value → Prop
  | array {a b : ArrayId} (paired : pairs a b) : Alike pairs (.array a) (.array b)
  | same {v : Value} (other : ∀ a, v ≠ .array a) : Alike pairs v v

/-- What two values lead to in their heaps is the same but for the arrays, which are paired one to
one and have the same dimensions and cells.
-/
structure Isomorphic (h : Heap) (v : Value) (h' : Heap) (v' : Value)
    (pairs : ArrayId → ArrayId → Prop)
    : Prop where
  roots : Alike pairs v v'
  forth : ∀ a, ReflTransGen h.Enters v (.array a) → ∃! b, pairs a b
  back : ∀ b, ReflTransGen h'.Enters v' (.array b) → ∃! a, pairs a b
  reached
    : ∀ a b, pairs a b
      → ReflTransGen h.Enters v (.array a) ∧ ReflTransGen h'.Enters v' (.array b)
  dims : ∀ a b, pairs a b → (h'.grid b).dims = (h.grid a).dims
  cells
    : ∀ a b, pairs a b
      → List.Forall₂ (Alike pairs) (h.grid a).cells.toList (h'.grid b).cells.toList

theorem Plain.present (plain : h.Plain v) : h.Present v := by
  cases v with
  | array _ | callable _ => exact plain.1
  | null | integer _ | boolean _ | float _ | string _ | object _ => trivial

/-- A plain value does not lead to a closure. -/
theorem Plain.not_closure {c base : CallableId} {bound : List Value} (plain : h.Plain (.callable c))
    : h.callable c ≠ .closure base bound := by
  obtain ⟨-, callee, direct⟩ := plain
  rw [direct]
  exact nofun

/-- Without closures a value spans what a copy of it comes across, by induction on the way. -/
theorem way_enters (plain : ∀ x, ReflTransGen h.Enters v x → h.Plain x)
    (way : ReflTransGen h.Spans v x)
    : ReflTransGen h.Enters v x := by
  induction way with
  | refl => exact .refl
  | tail _ spans ih =>
      cases spans with
      | cell held => exact ih.tail (.cell held)
      | bound closure held => exact ih.tail (.bound closure held)
      | base closure => exact absurd closure (plain _ ih).not_closure

/-- If each array has only one copy, the pairs of a copy make an isomorphism. -/
theorem isomorphic_of_between (between : t.Between h h') (pair : t.Values h v v')
    (alike : ∀ x y, t.Values h x y → Alike t.arrays x y)
    (within : ∀ a b, t.arrays a b → ReflTransGen h.Enters v (.array a))
    (once : ∀ a b b', t.arrays a b → t.arrays a b' → b = b')
    (apart : ∀ a a' b, t.arrays a b → t.arrays a' b → a = a')
    : h.Isomorphic v h' v' t.arrays where
  roots := alike v v' pair
  forth a way := by
    obtain ⟨w, -, pair⟩ := between.way pair way
    cases pair with
    | fixed fixed => exact absurd fixed id
    | array paired => exact ⟨_, paired, fun b' other => once a b' _ other paired⟩
  back b way := by
    obtain ⟨w, -, pair⟩ := between.way_back pair way
    cases pair with
    | fixed fixed => exact absurd fixed id
    | array paired => exact ⟨_, paired, fun a' other => apart a' _ b other paired⟩
  reached a b paired := by
    refine ⟨within a b paired, ?_⟩
    obtain ⟨w, way, pair⟩ := between.way pair (within a b paired)
    cases pair with
    | fixed fixed => exact absurd fixed id
    | array other => exact once a _ b other paired ▸ way
  dims a b paired := (between.arrays a b paired).2.2.dims
  cells a b paired := (between.arrays a b paired).2.2.cells.imp alike

/-- The copy of a value that leads to arrays and to values that copies share always ends. It leaves
everything on the heap as it was, and has the shape of the original with arrays of its own, so that
nothing that is done through the one shows in the other.
-/
theorem copy_isomorphic (plain : ∀ x, ReflTransGen h.Enters v x → h.Plain x)
    : ∃ h' v' pairs,
        h.copy v = some (h', v') ∧ h.Kept h' ∧ h.Isomorphic v h' v' pairs
        ∧ (∀ a b, pairs a b → h.arrays.size ≤ b.index)
        ∧ (∀ h₁, ReflTransGen (Through v v') h' h₁ → Spared v' h' h₁)
        ∧ ∀ h₁, ReflTransGen (Through v' v) h' h₁ → Spared v h' h₁ := by
  have present (x : Value) (way : ReflTransGen h.Enters v x) : h.Present x := (plain x way).present
  have ends : (h.copy v).isSome := by
    refine (isSome_copy_iff (encloses_entered present) .refl).mpr ?_
    refine (copyEnds_iff (encloses_entered present) .refl (.refl h)).mpr ?_
    rintro ⟨c, way, knot⟩
    obtain ⟨w, enters, -⟩ := TransGen.head'_iff.mp knot
    cases enters with
    | bound closure => exact (plain _ way).not_closure closure
  obtain ⟨⟨h', v'⟩, copies⟩ := Option.isSome_iff_exists.mp ends
  obtain ⟨copied, t, paired⟩ := paired_copy present (fun a way => (plain _ way).2) copies
  have between := Twins.between_of_paired (.refl h) paired
  have pair : t.Values h v v' := (List.forall₂_cons.mp paired.values).1
  have complete := paired.complete fun c base bound way => (plain _ way).not_closure
  have alike (x y : Value) (pair : t.Values h x y) : Alike t.arrays x y := by
    cases pair with
    | fixed fixed =>
        refine .same ?_
        rintro a rfl
        exact fixed
    | array paired => exact .array paired
    | closure both =>
        obtain ⟨way, -, -, base, bound, bound', closure, -⟩ := paired.closures _ _ both
        exact absurd closure (plain _ way).not_closure
  have apart : h'.Detached v v' := by
    refine detached_copy between pair (fun x way => present x (way_enters plain way)) ?_
    rintro a ⟨c, base, bound, way, closure, -⟩
    exact (plain _ way).not_closure closure
  refine ⟨h', v', t.arrays, copies, between.kept, ?_, fun a b pair => (between.arrays a b pair).1,
    fun h₁ through => (spared_of_through through apart).1,
    fun h₁ through => (spared_of_through through apart.symm).1⟩
  refine isomorphic_of_between between pair alike (fun a b pair => (paired.arrays a b pair).1) ?_ ?_
  · exact fun a b b' first second =>
      paired.once a b b' (complete a b first) (complete a b' second)
  · exact fun a a' b first second =>
      paired.apart a a' b (complete a b first) (complete a' b second)

/-- The heap with an array that holds itself and another array, which leads back to it. -/
def ring : Heap where
  arrays := #[⟨[2], #[.array ⟨0⟩, .array ⟨1⟩]⟩, ⟨[1, 1], #[.array ⟨0⟩]⟩]
  callables := #[]
  objects := #[]
  routines := #[]

private theorem plain_ring (way : ReflTransGen ring.Enters (.array ⟨0⟩) x) : ring.Plain x := by
  suffices known : x = .array ⟨0⟩ ∨ x = .array ⟨1⟩ by
    rcases known with rfl | rfl <;> simp [Plain, ring, grid, volume]
  induction way with
  | refl => exact .inl rfl
  | tail _ enters ih =>
      rcases ih with rfl | rfl
      · cases enters with
        | cell held => simpa [ring, grid] using held
      · cases enters with
        | cell held => exact .inl (by simpa [ring, grid] using held)

/-- The two arrays of the ring have copies that make a ring of the same shape. -/
theorem copy_isomorphic_ring
    : ∃ h' v' pairs,
        ring.copy (.array ⟨0⟩) = some (h', v') ∧ ring.Isomorphic (.array ⟨0⟩) h' v' pairs
        ∧ (∀ a b, pairs a b → 2 ≤ b.index)
        ∧ (∃! b, pairs ⟨0⟩ b) ∧ ∃! b, pairs ⟨1⟩ b := by
  obtain ⟨h', v', pairs, copies, -, iso, new, -⟩ := copy_isomorphic fun x => plain_ring
  have second : ring.Enters (.array ⟨0⟩) (.array ⟨1⟩) := .cell (by simp [ring, grid])
  exact ⟨h', v', pairs, copies, iso, new, iso.forth _ .refl, iso.forth _ (.single second)⟩

end Heap
end TaskMachine
