import TaskMachine.Proofs.Heap.Knots
import TaskMachine.Proofs.Heap.Disciplines

/-!
Where knots come from. What is made anew leads to nothing that is made later, and a copy leads
only to what was made for it, each of its closures only to what was made before that closure. So
neither making nor copying values ties a knot; only a store does, by putting a value into an array
that a closure behind this value leads back to.
-/

namespace TaskMachine

namespace Heap

open Relation

variable {h h' h₀ h₁ h₂ h₃ : Heap} {P : Value → Prop} {v w : Value}

theorem Enters.carries (enters : h.Enters v w) : h.Carries v w := by
  cases enters with
  | cell held => exact .array (.cell held)
  | bound closure held => exact .callable (.bound closure held)

/-- Where nothing dangles, what a copy enters is there. -/
theorem Whole.present_of_enters (whole : h.Whole) (enters : h.Enters v w) : h.Present w :=
  whole v w enters.carries

-----------------------------------------------------------------------------------------
-- What stays as it was
-----------------------------------------------------------------------------------------

/-- What is on the heap leads to the same as before as long as it is kept. -/
theorem Enters.of_kept (enters : h'.Enters v w) (kept : h.Kept h') (present : h.Present v)
    : h.Enters v w := by
  cases enters with
  | cell held => exact .cell (kept.grid _ present ▸ held)
  | bound closure held => exact .bound ((kept.callable _ present).symm.trans closure) held

/-- From what is on the heap there are no new ways, by induction on the way. -/
theorem way_of_kept (way : TransGen h'.Enters v w) (kept : h.Kept h') (whole : h.Whole)
    (present : h.Present v)
    : TransGen h.Enters v w ∧ h.Present w := by
  induction way with
  | single enters =>
      have before := enters.of_kept kept present
      exact ⟨.single before, whole.present_of_enters before⟩
  | tail _ enters ih =>
      have before := enters.of_kept kept ih.2
      exact ⟨ih.1.tail before, whole.present_of_enters before⟩

/-- A handle that nothing stands behind leads nowhere. -/
theorem not_enters_of_absent (absent : ¬ h.Present v) : ¬ h.Enters v w :=
  fun enters => not_carries_of_absent absent enters.carries

/-- If no new closure leads back to itself, then no closure does. -/
theorem Untied.of_kept (untied : h.Untied) (kept : h.Kept h') (whole : h.Whole)
    (new
      : ∀ c, ¬ h.Present (.callable c) → h'.Present (.callable c)
        → ¬ TransGen h'.Enters (.callable c) (.callable c))
    : h'.Untied := by
  intro c knot
  by_cases old : h.Present (.callable c)
  · exact untied c (way_of_kept knot kept whole old).1
  · by_cases made : h'.Present (.callable c)
    · exact new c old made knot
    · obtain ⟨w, enters, -⟩ := TransGen.head'_iff.mp knot
      exact not_enters_of_absent made enters

-----------------------------------------------------------------------------------------
-- What is made since some time
-----------------------------------------------------------------------------------------

/-- The value was made since the heap was `h₀`, or leads to nothing. -/
def Since (h₀ h : Heap) : Value → Prop
  | .array a => h₀.arrays.size ≤ a.index ∧ a.index < h.arrays.size
  | .callable c =>
    c.index < h.callables.size
    ∧ (h₀.callables.size ≤ c.index ∨ ∃ callee, h.callable c = .direct callee)
  | _ => True

theorem Since.present (since : Since h₀ h v) : h.Present v := by
  cases v with
  | array a => exact since.2
  | callable c => exact since.1
  | null | integer _ | boolean _ | float _ | string _ | object _ => trivial

private theorem since_of_atomic (atomic : Atomic v) : Since h₀ h v := by
  cases v with
  | array _ | callable _ => exact atomic.elim
  | null | integer _ | boolean _ | float _ | string _ | object _ => trivial

/-- What has been made since stays so while the heap is kept. -/
theorem Since.later (since : Since h₀ h₁ v) (kept : h₁.Kept h₂) : Since h₀ h₂ v := by
  cases v with
  | array a => exact ⟨since.1, Nat.lt_of_lt_of_le since.2 kept.arrays⟩
  | callable c =>
      refine ⟨Nat.lt_of_lt_of_le since.1 kept.callables, since.2.imp_right ?_⟩
      exact fun ⟨callee, what⟩ => ⟨callee, (kept.callable c since.1).trans what⟩
  | null | integer _ | boolean _ | float _ | string _ | object _ => trivial

theorem Since.earlier (since : Since h₁ h v) (kept : h₀.Kept h₁) : Since h₀ h v := by
  cases v with
  | array a => exact ⟨Nat.le_trans kept.arrays since.1, since.2⟩
  | callable c => exact ⟨since.1, since.2.imp_left (Nat.le_trans kept.callables)⟩
  | null | integer _ | boolean _ | float _ | string _ | object _ => trivial

/-- What was made since the heap was `h₀` leads to nothing else. -/
def Secluded (h₀ h : Heap) : Prop :=
  ∀ v w, Since h₀ h v → h.Enters v w → Since h₀ h w

/-- Each closure that was made since the heap was `h₀` leads only to what was made since then, and
to closures before it.
-/
def Layered (h₀ h : Heap) : Prop :=
  ∀ c, h₀.callables.size ≤ c.index → c.index < h.callables.size →
    ∀ w, TransGen h.Enters (.callable c) w →
      Since h₀ h w ∧ ∀ d, w = .callable d → d.index < c.index

/-- What was there at some time in between has been made before that time. -/
theorem Since.of_present (since : Since h₀ h₂ v) (kept : h₁.Kept h₂) (present : h₁.Present v)
    : Since h₀ h₁ v := by
  cases v with
  | array a => exact ⟨since.1, present⟩
  | callable c =>
      refine ⟨present, since.2.imp_right ?_⟩
      exact fun ⟨callee, what⟩ => ⟨callee, (kept.callable c present).symm.trans what⟩
  | null | integer _ | boolean _ | float _ | string _ | object _ => trivial

/-- What was not there at some time in between has been made after that time. -/
theorem Since.of_absent (since : Since h₀ h v) (absent : ¬ h₁.Present v) : Since h₁ h v := by
  cases v with
  | array a => exact ⟨Nat.not_lt.mp absent, since.2⟩
  | callable c => exact ⟨since.1, .inl (Nat.not_lt.mp absent)⟩
  | null | integer _ | boolean _ | float _ | string _ | object _ => trivial

/-- At first nothing has been made. -/
theorem secluded_self (h : Heap) : Secluded h h := by
  intro v w since enters
  cases enters with
  | cell => exact absurd since.2 (Nat.not_lt.mpr since.1)
  | bound closure =>
      obtain ⟨inside, new | ⟨callee, direct⟩⟩ := since
      · exact absurd inside (Nat.not_lt.mpr new)
      · rw [closure] at direct
        cases direct

/-- What was made since some time is secluded still if that holds of what is new now. -/
theorem Secluded.grow (secluded : Secluded h₀ h₁) (kept : h₁.Kept h₂)
    (new : ∀ v w, Since h₀ h₂ v → ¬ h₁.Present v → h₂.Enters v w → Since h₀ h₂ w)
    : Secluded h₀ h₂ := by
  intro v w since enters
  by_cases present : h₁.Present v
  · have before := enters.of_kept kept present
    exact (secluded v w (since.of_present kept present) before).later kept
  · exact new v w since present enters

/-- An array may be added whose cells have been made since. -/
theorem Secluded.addArray (secluded : Secluded h₀ h₁) {g : Grid}
    (cells : ∀ w ∈ g.cells, Since h₀ h₁ w)
    : Secluded h₀ (h₁.addArray g).1 := by
  have kept := (Kept.refl h₁).addArray g
  refine secluded.grow kept fun v w since absent enters => ?_
  cases enters with
  | cell held =>
      rcases grid_addArray h₁ g _ with new | old
      · rw [new] at held
        exact (cells w held).later kept
      · rw [old] at held
        exact absurd (.cell held) (not_enters_of_absent absent)
  | bound closure held => exact absurd (.bound closure held) (not_enters_of_absent absent)

/-- A closure may be added that binds what has been made since, whatever its base is. -/
theorem Secluded.addClosure (secluded : Secluded h₀ h₁) {base : CallableId} {bound : List Value}
    (boundSince : ∀ w ∈ bound, Since h₀ h₁ w)
    : Secluded h₀ (h₁.addCallable (.closure base bound)).1 := by
  have kept := (Kept.refl h₁).addCallable (.closure base bound)
  refine secluded.grow kept fun v w since absent enters => ?_
  cases enters with
  | cell held => exact absurd (.cell held) (not_enters_of_absent absent)
  | bound closure held =>
      rcases callable_addCallable h₁ (.closure base bound) _ with new | old
      · rw [new] at closure
        cases closure
        exact (boundSince w held).later kept
      · exact absurd (.bound (old.symm.trans closure) held) (not_enters_of_absent absent)

private theorem since_fill {a : ArrayId} {cells : List Value}
    : Since h₀ (h₁.fill a cells) v ↔ Since h₀ h₁ v := by
  cases v <;> simp [Since, Heap.fill, Heap.setGrid, Heap.callable]

/-- After an array has been filled it leads to its new cells, and everything else to the same as
before.
-/
theorem enters_fill {a : ArrayId} {cells : List Value} (enters : (h₁.fill a cells).Enters v w)
    : (v = .array a ∧ (w ∈ cells ∨ w = .null)) ∨ h₁.Enters v w := by
  cases enters with
  | bound closure held => exact .inr (.bound closure held)
  | cell held =>
      rcases mem_cells_setGrid held with ⟨rfl, filled⟩ | before
      · exact .inl ⟨rfl, (Grid.mem_resize filled).imp_left List.mem_toArray.mp⟩
      · exact .inr (.cell before)

/-- A new array may be filled with what has been made since. -/
theorem Secluded.fill (secluded : Secluded h₀ h₁) {a : ArrayId} {cells : List Value}
    (since : ∀ w ∈ cells, Since h₀ h₁ w)
    : Secluded h₀ (h₁.fill a cells) := by
  intro v w made enters
  rcases enters_fill enters with ⟨-, held | rfl⟩ | before
  · exact since_fill.mpr (since w held)
  · trivial
  · exact since_fill.mpr (secluded v w (since_fill.mp made) before)

-----------------------------------------------------------------------------------------
-- Closures that were made one after another
-----------------------------------------------------------------------------------------

private theorem layered_self (h : Heap) : Layered h h :=
  fun _ new made => absurd made (Nat.not_lt.mpr new)

/-- A closure leads to the same as before if all that was made leads to the same, by induction on
the way.
-/
theorem Layered.way_of_same (layered : Layered h₀ h₁)
    (same : ∀ v w, Since h₀ h₁ v → h₂.Enters v w → h₁.Enters v w) {c : CallableId}
    (new : h₀.callables.size ≤ c.index) (made : c.index < h₁.callables.size)
    (way : TransGen h₂.Enters (.callable c) w)
    : TransGen h₁.Enters (.callable c) w := by
  induction way with
  | single enters => exact .single (same _ _ ⟨made, .inl new⟩ enters)
  | tail _ enters ih => exact ih.tail (same _ _ (layered c new made _ ih).1 enters)

private theorem Layered.way_of_kept (layered : Layered h₀ h₁) (kept : h₁.Kept h₂) {c : CallableId}
    (new : h₀.callables.size ≤ c.index) (made : c.index < h₁.callables.size)
    (way : TransGen h₂.Enters (.callable c) w)
    : TransGen h₁.Enters (.callable c) w :=
  layered.way_of_same (fun _ _ since enters => enters.of_kept kept since.present) new made way

/-- Layers upon layers are layers. -/
theorem Layered.trans (first : Layered h₀ h₁) (next : Layered h₁ h₂) (base : h₀.Kept h₁)
    (kept : h₁.Kept h₂)
    : Layered h₀ h₂ := by
  intro c new made w way
  by_cases early : c.index < h₁.callables.size
  · obtain ⟨since, below⟩ := first c new early w (first.way_of_kept kept new early way)
    exact ⟨since.later kept, below⟩
  · obtain ⟨since, below⟩ := next c (Nat.not_lt.mp early) made w way
    exact ⟨since.earlier base, below⟩

/-- A closure that binds only what was made since some time is the last of the closures made
since.
-/
theorem Layered.addClosure (layered : Layered h₀ h₁) (secluded : Secluded h₀ h₁) {base : CallableId}
    {bound : List Value} (boundSince : ∀ w ∈ bound, Since h₀ h₁ w)
    : Layered h₀ (h₁.addCallable (.closure base bound)).1 := by
  have kept := (Kept.refl h₁).addCallable (.closure base bound)
  intro c new made w way
  by_cases early : c.index < h₁.callables.size
  · obtain ⟨since, below⟩ := layered c new early w (layered.way_of_kept kept new early way)
    exact ⟨since.later kept, below⟩
  · obtain rfl : c = ⟨h₁.callables.size⟩ := by
      simp only [Heap.addCallable, Array.size_push] at made
      exact congrArg CallableId.mk (by omega)
    have since : Since h₀ h₁ w := by
      induction way with
      | single enters =>
          cases enters with
          | bound closure held =>
              rw [callable_addCallable_new] at closure
              cases closure
              exact boundSince _ held
      | tail _ enters ih => exact secluded _ _ ih (enters.of_kept kept ih.present)
    refine ⟨since.later kept, ?_⟩
    rintro d rfl
    exact since.1

/-- Filling an array from before does not matter to closures made since. -/
theorem Layered.fill (layered : Layered h₀ h₁) {a : ArrayId} (old : a.index < h₀.arrays.size)
    (cells : List Value)
    : Layered h₀ (h₁.fill a cells) := by
  intro c new made w way
  have before := layered.way_of_same (fun v w since enters => by
    rcases enters_fill enters with ⟨rfl, -⟩ | before
    · exact absurd old (Nat.not_lt.mpr since.1)
    · exact before) new made way
  obtain ⟨since, below⟩ := layered c new made w before
  exact ⟨since_fill.mpr since, below⟩

-----------------------------------------------------------------------------------------
-- Copies are made anew
-----------------------------------------------------------------------------------------

/-- A copy on its way: what it copies is there as it was, and whatever was made since it began is
secluded, all arrays copied so far included.
-/
structure Afresh (h h₀ h₁ : Heap) (copied : Copied) : Prop where
  source : h.Kept h₁
  base : h₀.Kept h₁
  secluded : Secluded h₀ h₁
  copies : ∀ entry ∈ copied, Since h₀ h₁ (.array entry.2)

/-- What the copy has made by now, with closures one after another. -/
structure Renewed (h h₀ h₁ h₂ : Heap) (copied₂ : Copied) (values : List Value) : Prop
    extends Afresh h h₀ h₂ copied₂ where
  later : h₁.Kept h₂
  layered : Layered h₁ h₂
  values : ∀ v ∈ values, Since h₀ h₂ v

variable {copied copied₂ : Copied} {depth : Nat}

theorem Afresh.stay {values : List Value} (afresh : Afresh h h₀ h₁ copied)
    (since : ∀ v ∈ values, Since h₀ h₁ v)
    : Renewed h h₀ h₁ h₁ copied values :=
  { afresh with later := .refl h₁, layered := layered_self h₁, values := since }

/-- A copy of its own begins with nothing made. -/
theorem Afresh.alone (source : h.Kept h₁) : Afresh h h₁ h₁ [] where
  source
  base := .refl h₁
  secluded := secluded_self h₁
  copies := List.forall_mem_nil _

/-- Copies of several values are made anew if each of them is, by induction on the copies. -/
theorem renewed_each {S : Heap → Copied → Value → Heap → Copied → Value → Prop}
    {values values₂ : List Value} (copies : Each S h₁ copied values h₂ copied₂ values₂)
    (one
      : ∀ v ∈ values, ∀ h₁ copied h₂ copied₂ v₂, S h₁ copied v h₂ copied₂ v₂
        → Afresh h h₀ h₁ copied → Renewed h h₀ h₁ h₂ copied₂ [v₂])
    (afresh : Afresh h h₀ h₁ copied)
    : Renewed h h₀ h₁ h₂ copied₂ values₂ := by
  induction copies with
  | nil => exact afresh.stay (List.forall_mem_nil _)
  | cons once _ ih =>
      have first := one _ List.mem_cons_self _ _ _ _ _ once afresh
      have others := ih (fun v later => one v (List.mem_cons_of_mem _ later)) first.toAfresh
      exact { others with
        later := first.later.trans others.later
        layered := first.layered.trans others.layered first.later others.later
        values := List.forall_mem_cons.mpr
          ⟨(first.values _ List.mem_cons_self).later others.later, others.values⟩
      }

/-- An array that is filled with copies of the cells is made anew if these are. -/
theorem Afresh.array {a : ArrayId} {cells : List Value} (afresh : Afresh h h₀ h₁ copied)
    (inner
      : Afresh h h₀ (h₁.withShell a) ((a, ⟨h₁.arrays.size⟩) :: copied)
        → Renewed h h₀ (h₁.withShell a) h₃ copied₂ cells)
    : Renewed h h₀ h₁ (h₃.fill ⟨h₁.arrays.size⟩ cells) copied₂ [.array ⟨h₁.arrays.size⟩] := by
  have shell : h₁.Kept (h₁.withShell a) := (Kept.refl h₁).addArray _
  have since : Since h₀ (h₁.withShell a) (.array ⟨h₁.arrays.size⟩) :=
    ⟨afresh.base.arrays, by simp [withShell, Heap.addArray]⟩
  have made : Renewed h h₀ (h₁.withShell a) h₃ copied₂ cells := inner {
    source := afresh.source.trans shell
    base := afresh.base.trans shell
    secluded := afresh.secluded.addArray fun w member => by
      rcases Grid.mem_resize member with held | rfl
      · cases Array.not_mem_empty w held
      · trivial
    copies := List.forall_mem_cons.mpr
      ⟨since, fun entry old => (afresh.copies entry old).later shell⟩
  }
  have filled : Layered (h₁.withShell a) (h₃.fill ⟨h₁.arrays.size⟩ cells) :=
    made.layered.fill since.2 cells
  exact {
    source := made.source.fill afresh.source.arrays cells
    base := made.base.fill afresh.base.arrays cells
    secluded := made.secluded.fill made.values
    copies := fun entry member => since_fill.mpr (made.copies entry member)
    later := (shell.trans made.later).fill (Nat.le_refl _) cells
    layered := fun c new inside w way =>
      (filled c new inside w way).imp_left fun madeThen => madeThen.earlier shell
    values := List.forall_mem_singleton.mpr (since_fill.mpr (since.later made.later))
  }

/-- A closure that is made of copies of the bound arguments is made anew. For these the time is set
anew: the arrays that are being copied around the closure do not count as made since then.
-/
theorem Afresh.closure {bound : List Value} (afresh : Afresh h h₀ h₁ copied)
    (made : Renewed h h₁ h₁ h₃ [] bound) (base : CallableId)
    : Renewed h h₀ h₁ (h₃.addCallable (.closure base bound)).1 copied
        [.callable ⟨h₃.callables.size⟩] := by
  have grown := (Kept.refl h₃).addCallable (.closure base bound)
  have secluded : Secluded h₀ h₃ := afresh.secluded.grow made.later
    fun v w since absent enters =>
      (made.secluded v w (since.of_absent absent) enters).earlier afresh.base
  exact {
    source := made.source.trans grown
    base := afresh.base.trans (made.later.trans grown)
    secluded := secluded.addClosure fun w member => (made.values w member).earlier afresh.base
    copies := fun entry member => (afresh.copies entry member).later (made.later.trans grown)
    later := made.later.trans grown
    layered := made.layered.addClosure made.secluded made.values
    values := List.forall_mem_singleton.mpr
      ⟨by simp [Heap.addCallable], .inl (afresh.base.trans made.later).callables⟩
  }

/-- The copy of a value is made anew, by induction on the copy. Its arrays may lead to others of
the same copy that are not filled yet; but bound arguments are copied on their own, and so a
closure leads to none of these.
-/
theorem renewed_copyTo (encloses : h.Encloses P) {v v₂ : Value} (within : P v)
    (afresh : Afresh h h₀ h₁ copied) (copies : h₁.copyTo depth copied v = some (h₂, copied₂, v₂))
    : Renewed h h₀ h₁ h₂ copied₂ [v₂] := by
  refine copyTo_induction
    (motive := fun h₁ copied v h₂ copied₂ v₂ =>
      ∀ h₀, P v → Afresh h h₀ h₁ copied → Renewed h h₀ h₁ h₂ copied₂ [v₂])
    ?atomic ?direct ?entered ?array ?closure copies h₀ within afresh
  case atomic =>
    intro h₁ copied v atomic h₀ _ afresh
    exact afresh.stay (List.forall_mem_singleton.mpr (since_of_atomic atomic))
  case direct =>
    intro h₁ copied c callee what h₀ within afresh
    refine afresh.stay (List.forall_mem_singleton.mpr ?_)
    exact ⟨Nat.lt_of_lt_of_le (encloses.callable c within) afresh.source.callables,
      .inr ⟨callee, what⟩⟩
  case entered =>
    intro h₁ copied a b member h₀ _ afresh
    exact afresh.stay (List.forall_mem_singleton.mpr (afresh.copies (a, b) member))
  case array =>
    intro h₁ copied a h₃ copied₂ cells _ each h₀ within afresh
    rw [afresh.source.grid a (encloses.array a within)] at each
    refine afresh.array (renewed_each each fun v member _ _ _ _ _ once => once h₀ ?_)
    exact encloses.cells a within v (Array.mem_toList_iff.mp member)
  case closure =>
    intro h₁ copied c base bound h₃ bound₃ what each h₀ within afresh
    have what : h.callable c = .closure base bound :=
      (afresh.source.callable c (encloses.callable c within)).symm.trans what
    refine afresh.closure (renewed_each each ?_ (.alone afresh.source)) base
    rintro v member h₂ _ h₃ _ v₃ ⟨rfl, rfl, copied₄, once⟩ afresh
    have made := once h₁ (encloses.bound c base bound within what v member) afresh
    exact { made with copies := List.forall_mem_nil _ }

-----------------------------------------------------------------------------------------
-- What ties no knot
-----------------------------------------------------------------------------------------

/-- A copy ties no knot: its closures lead only to closures before them. -/
theorem Untied.copy (untied : h.Untied) (whole : h.Whole) (encloses : h.Encloses P) (within : P v)
    {v' : Value} (copies : h.copy v = some (h', v'))
    : h'.Untied := by
  obtain ⟨⟨h₁, copied, v₁⟩, done, same⟩ := Option.map_eq_some_iff.mp copies
  cases same
  have made := renewed_copyTo encloses within (.alone (.refl h)) done
  refine untied.of_kept made.later whole fun c old new knot => ?_
  exact Nat.lt_irrefl _ ((made.layered c (Nat.not_lt.mp old) new _ knot).2 c rfl)

/-- Nothing leads to a new array or closure yet. -/
theorem Untied.of_new (untied : h.Untied) (kept : h.Kept h') (whole : h.Whole)
    (new : ∀ v w, ¬ h.Present v → h'.Enters v w → h.Present w)
    : h'.Untied := by
  refine untied.of_kept kept whole fun c old _ knot => ?_
  obtain ⟨w, enters, way⟩ := TransGen.head'_iff.mp knot
  have present := new _ w old enters
  rcases Relation.reflTransGen_iff_eq_or_transGen.mp way with same | way
  · exact old (same ▸ present)
  · exact old (way_of_kept way kept whole present).2

/-- A value that is stored in an array ties a knot: a closure behind it leads back to the array. -/
def Ties (h : Heap) (a : ArrayId) (v : Value) : Prop :=
  ∃ c, ReflTransGen h.Enters v (.callable c) ∧ ReflTransGen h.Enters (.callable c) (.array a)

/-- After a store, a way is one from before or leads through the array to the value. By induction
on the way.
-/
theorem way_of_store {Before After : Value → Value → Prop} {a : ArrayId} {u x y : Value}
    (stored : ∀ x y, After x y → Before x y ∨ (x = .array a ∧ y = u)) (way : ReflTransGen After x y)
    : ReflTransGen Before x y
      ∨ (ReflTransGen Before x (.array a) ∧ ReflTransGen Before u y) := by
  induction way with
  | refl => exact .inl .refl
  | tail _ enters ih =>
      rcases stored _ _ enters with before | ⟨rfl, rfl⟩
      · exact ih.imp (·.tail before) (And.imp_right (·.tail before))
      · rcases ih with way | ⟨way, -⟩
        · exact .inr ⟨way, .refl⟩
        · exact .inr ⟨way, .refl⟩

/-- A store ties no knot unless a closure behind the value leads back to the array. -/
theorem Untied.store (untied : h.Untied) {a : ArrayId} {v : Value} {indexes : List Value} {g : Grid}
    (written : (h.grid a).set indexes v = .ok g) (apart : ¬ h.Ties a v)
    : (h.setGrid a g).Untied := by
  have stored (x y : Value) (enters : (h.setGrid a g).Enters x y)
      : h.Enters x y ∨ (x = .array a ∧ y = v) := by
    cases enters with
    | bound closure held => exact .inl (.bound closure held)
    | cell held =>
        rcases mem_cells_store written held with before | ⟨rfl, rfl⟩
        · exact .inl (.cell before)
        · exact .inr ⟨rfl, rfl⟩
  -- A new knot leads from its closure to the array, on to the value, and from there to the closure.
  intro c knot
  obtain ⟨w, enters, way⟩ := TransGen.head'_iff.mp knot
  rcases stored _ _ enters with before | ⟨never, -⟩
  · rcases way_of_store stored way with back | ⟨there, back⟩
    · exact untied c (.head' before back)
    · exact apart ⟨c, back, there.head before⟩
  · cases never

variable {R : Value → Prop} {Writes : Heap → ArrayId → Value → Prop}

/-- Nothing that is done to the heap ties a knot, except a store. -/
theorem Edit.untied (edit : Edit R Writes h h') (apart : ∀ a v, Writes h a v → ¬ h.Ties a v)
    (whole : h.Whole) (untied : h.Untied)
    : h'.Untied := by
  cases edit with
  | array cells =>
      refine untied.of_new ((Kept.refl h).addArray _) whole fun v w absent enters => ?_
      cases enters with
      | @cell a _ held =>
          rcases grid_addArray h _ a with new | old
          · rw [new] at held
            exact (cells w held).2
          · rw [old] at held
            exact absurd (.cell held) (not_enters_of_absent absent)
      | bound closure held => exact absurd (.bound closure held) (not_enters_of_absent absent)
  | @closure base bound _ boundOwned =>
      refine untied.of_new ((Kept.refl h).addCallable _) whole fun v w absent enters => ?_
      cases enters with
      | cell held => exact absurd (.cell held) (not_enters_of_absent absent)
      | @bound c _ _ _ closure held =>
          rcases callable_addCallable h (.closure base bound) c with new | old
          · rw [new] at closure
            cases closure
            exact (boundOwned w held).2
          · exact absurd (.bound (old.symm.trans closure) held) (not_enters_of_absent absent)
  | copy encloses _ within copies => exact untied.copy whole encloses within copies
  | write _ _ writes written => exact untied.store written (apart _ _ writes)
  | object o object =>
      have same (v w : Value) (enters : (h.setObject o object).Enters v w) : h.Enters v w := by
        cases enters with
        | cell held => exact .cell held
        | bound closure held => exact .bound closure held
      exact fun c knot => untied c (TransGen.mono same _ _ knot)

/-- Edits that tie no closure to itself leave the heap untied. -/
theorem Edits.untied (edits : Edits (fun _ => True) Writes h h')
    (apart : ∀ h a v, Writes h a v → ¬ h.Ties a v) (whole : h.Whole) (untied : h.Untied)
    : h'.Untied := by
  have region := region_true_iff.mpr whole
  induction edits with
  | refl => exact untied
  | tail first edit ih =>
      have whole := region_true_iff.mp (Edits.region first region)
      exact edit.untied (apart _) whole ih

end Heap
end TaskMachine
