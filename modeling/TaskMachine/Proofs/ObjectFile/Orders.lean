import TaskMachine.Proofs.ObjectFile.Refusal
import TaskMachine.Proofs.ObjectFile.Visits

/-!
The order in which processes are stored. A routine that leads back to itself is refused when it is met
before the array on the way back, and stored when that array comes first, so what is accepted after
another process need not be accepted alone. Where no routine leads back to itself through an array, the
order does not matter; and what is accepted alone is accepted after anything.
-/

namespace TaskMachine.Writer

open Relation

variable {charset : Charset} {h : Heap} {depth : Nat} {w w' v v' : Writer} {pending : List Part}

-----------------------------------------------------------------------------------------
-- What is stored is stored with all that it leads to
-----------------------------------------------------------------------------------------

/-- Whatever has a number can be stored, and what it refers to has a number too, unless it is an array
whose elements are pending. No routine with a number is a literal of itself, or of one of its literals
and so on.
-/
structure Explored (charset : Charset) (h : Heap) (pending : List Part) (w : Writer) : Prop where
  canStore : ∀ x, w.Has x → x ∉ pending → ∀ value ∈ x.values h, h.CanStore charset value
  parts : ∀ x, w.Has x → x ∉ pending → ∀ y ∈ h.parts x, w.Has y
  arrays : ∀ r, .routine r ∉ pending
  idle : ∀ r ∈ w.inProgress, ¬ w.Has (.routine r)
  untied : ∀ r, w.Has (.routine r) → ¬ TransGen h.Mentions r r

private theorem explored_new : Explored charset h [] new := by
  have nothing (x : Part) : ¬ new.Has x := by
    cases x <;> simp [new, Has, numberOf]
  refine ⟨?_, ?_, by simp, by simp [new], ?_⟩
  · exact fun x has => absurd has (nothing x)
  · exact fun x has => absurd has (nothing x)
  · exact fun r has => absurd has (nothing _)

/-- Everything that is stored leads to is stored. -/
theorem Explored.has_of_leads (explored : Explored charset h [] w) {x y : Part} (has : w.Has x)
    (leads : ReflTransGen h.Refers x y)
    : w.Has y := by
  induction leads with
  | refl => exact has
  | tail _ refers ih => exact explored.parts _ ih List.not_mem_nil _ refers

/-- The literals of a stored routine are stored, also while elements are pending. -/
theorem Explored.has_of_mentions (explored : Explored charset h pending w) {r q : RoutineId}
    (has : w.Has (.routine r)) (mentions : ReflTransGen h.Mentions r q)
    : w.Has (.routine q) := by
  induction mentions with
  | refl => exact has
  | tail _ refers ih => exact explored.parts _ ih (explored.arrays _) _ refers

private theorem has_opened {x y : Part} (has : (w.opened h x).Has y) : w.Has y ∨ y = x := by
  cases x with
  | routine r => exact .inl (has_withBusy.mp has)
  | array a => exact has_withArray.mp has

/-- What is in progress while a part is being stored. -/
theorem inProgress_opened (w : Writer) (h : Heap) (x : Part)
    : (∃ r, x = .routine r ∧ (w.opened h x).inProgress = r :: w.inProgress)
      ∨ (∃ a, x = .array a) ∧ (w.opened h x).inProgress = w.inProgress := by
  cases x with
  | routine r => exact .inl ⟨r, rfl, rfl⟩
  | array a => exact .inr ⟨⟨a, rfl⟩, rfl⟩

/-- An array that is entered has its elements pending. -/
theorem Explored.opened (explored : Explored charset h pending w) {x : Part} (new : ¬ w.Has x)
    : ∃ pending', (∀ y ∈ pending', y = x ∨ y ∈ pending)
        ∧ Explored charset h pending' (w.opened h x) := by
  cases x with
  | routine r =>
      refine ⟨pending, fun y => .inr, ?_⟩
      have same (y : Part) : (w.opened h (.routine r)).Has y ↔ w.Has y := has_withBusy
      refine ⟨?_, ?_, explored.arrays, ?_, ?_⟩
      · exact fun y has => explored.canStore y ((same y).mp has)
      · exact fun y has outside z refers =>
          (same z).mpr (explored.parts y ((same y).mp has) outside z refers)
      · intro q busy
        rw [same]
        rcases List.mem_cons.mp busy with rfl | before
        · exact new
        · exact explored.idle q before
      · exact fun q has => explored.untied q ((same _).mp has)
  | array a =>
      refine ⟨.array a :: pending, fun y => List.mem_cons.mp, ?_⟩
      have more (y : Part) : (w.opened h (.array a)).Has y ↔ w.Has y ∨ y = .array a := has_withArray
      have before {y : Part} (has : (w.opened h (.array a)).Has y) (outside : y ∉ .array a :: pending)
          : w.Has y ∧ y ∉ pending := by
        rw [List.mem_cons, not_or] at outside
        exact ⟨((more y).mp has).resolve_right outside.1, outside.2⟩
      refine ⟨?_, ?_, ?_, ?_, ?_⟩
      · intro y has outside
        obtain ⟨had, outside⟩ := before has outside
        exact explored.canStore y had outside
      · intro y has outside z refers
        obtain ⟨had, outside⟩ := before has outside
        exact (more z).mpr (.inl (explored.parts y had outside z refers))
      · intro r member
        rcases List.mem_cons.mp member with same | member
        · cases same
        · exact explored.arrays r member
      · intro r busy has
        rcases (more _).mp has with has | same
        · exact explored.idle r busy has
        · cases same
      · intro r has
        rcases (more _).mp has with has | same
        · exact explored.untied r has
        · cases same

/-- A part that is stored does not change what is known, by induction on the depth. A routine that got
a number was not among the literals that were stored before it, nor below them.
-/
theorem Explored.part {x : Part} {n : Nat} (explored : Explored charset h pending w)
    (ran : ((numberingTo charset h depth).part x).run w = .ok n w')
    : Explored charset h pending w' := by
  induction depth generalizing x n w w' pending with
  | zero => cases x <;> cases ran
  | succ depth ih =>
      by_cases known : w.Has x
      · rwa [eq_of_run_known known ran]
      obtain ⟨idle, can, w₁, visits, has, inProgress⟩ := visits_of_run known ran
      obtain ⟨pending', only, opened⟩ := explored.opened known
      have all {w₀ w₂ : Writer} {xs : List Part} (start : Explored charset h pending' w₀)
          (visits : Visits (numberingTo charset h depth) w₀ xs w₂)
          : Explored charset h pending' w₂ := by
        induction visits with
        | nil => exact start
        | cons first others ihVisits => exact ihVisits (ih start first)
      have explored₁ := all opened visits
      obtain ⟨grows, got⟩ := visits.grows (numbersOnce_numberingTo charset h depth)
      have before {y : Part} (outside : y ∉ pending) (other : y ≠ x) : y ∉ pending' :=
        fun member => (only y member).elim other outside
      refine ⟨?_, ?_, explored.arrays, ?_, ?_⟩
      · intro y known' outside
        by_cases same : y = x
        · rwa [same]
        · exact explored₁.canStore y (((has y).mp known').resolve_right same) (before outside same)
      · intro y known' outside z refers
        by_cases same : y = x
        · rw [same] at refers
          exact (has z).mpr (.inl (got z refers))
        · have has₁ := ((has y).mp known').resolve_right same
          exact (has z).mpr (.inl (explored₁.parts y has₁ (before outside same) z refers))
      · intro r busy known'
        rw [inProgress] at busy
        rcases inProgress_opened w h x with ⟨q, rfl, more⟩ | ⟨⟨a, rfl⟩, same⟩
        · have busy₁ : r ∈ w₁.inProgress := by
            rw [grows.inProgress, more]
            exact List.mem_cons_of_mem _ busy
          rcases (has _).mp known' with has₁ | same
          · exact explored₁.idle r busy₁ has₁
          · cases same
            exact idle busy
        · have busy₁ : r ∈ w₁.inProgress := by rwa [grows.inProgress, same]
          rcases (has _).mp known' with has₁ | same
          · exact explored₁.idle r busy₁ has₁
          · cases same
      · intro r known' tied
        rcases (has _).mp known' with has₁ | rfl
        · exact explored₁.untied r has₁ tied
        · obtain ⟨q, mentions, back⟩ := TransGen.head'_iff.mp tied
          have busy₁ : r ∈ w₁.inProgress := by
            rw [grows.inProgress]
            exact List.mem_cons_self
          exact explored₁.idle r busy₁ (explored₁.has_of_mentions (got _ mentions) back)

/-- What is visited is explored together with all that it refers to. -/
theorem Explored.visits {xs : List Part} (explored : Explored charset h pending w)
    (visits : Visits (numberingTo charset h depth) w xs w')
    : Explored charset h pending w' := by
  induction visits with
  | nil => exact explored
  | cons first others ih => exact ih (explored.part first)

-----------------------------------------------------------------------------------------
-- What can be stored is stored
-----------------------------------------------------------------------------------------

/-- Everything that the part leads to can be stored, and no routine among it leads to itself. -/
def Clear (charset : Charset) (h : Heap) (x : Part) : Prop :=
  ∀ y, ReflTransGen h.Refers x y →
    (∀ value ∈ y.values h, h.CanStore charset value)
    ∧ ∀ r, y = .routine r → ¬ TransGen h.Refers y y

/-- What is clear refers only to what is clear. -/
theorem Clear.of_refers {x y : Part} (clear : Clear charset h x) (refers : h.Refers x y)
    : Clear charset h y :=
  fun z leads => clear z (.head refers leads)

instance (w : Writer) (x : Part) : Decidable (w.Has x) :=
  match x with
  | .routine r => inferInstanceAs (Decidable ((numberOf w.routineIds r).isSome = true))
  | .array a => inferInstanceAs (Decidable ((numberOf w.arrayIds a).isSome = true))

instance (w : Writer) (x : Part) : Decidable (w.Busy x) :=
  match x with
  | .routine r => inferInstanceAs (Decidable (r ∈ w.inProgress))
  | .array _ => inferInstanceAs (Decidable False)

/-- The parts on the heap that have not been met yet. -/
def fresh (w : Writer) (h : Heap) : Finset Part :=
  h.allParts.filter fun x => ¬ w.Has x ∧ ¬ w.Busy x

theorem Grows.fresh (grows : Grows w w') : w'.fresh h ⊆ w.fresh h := by
  intro x member
  rw [Writer.fresh, Finset.mem_filter] at member ⊢
  obtain ⟨inside, new, idle⟩ := member
  refine ⟨inside, fun has => new (grows.has has), fun busy => idle ?_⟩
  cases x with
  | routine r =>
      rw [Busy, grows.inProgress]
      exact busy
  | array a => exact busy

/-- A part that is met is not fresh any more. -/
theorem card_fresh_opened {x : Part} (inside : x ∈ h.allParts) (new : ¬ w.Has x) (idle : ¬ w.Busy x)
    : ((w.opened h x).fresh h).card < (w.fresh h).card := by
  apply Finset.card_lt_card
  refine Finset.ssubset_iff_subset_ne.mpr ⟨fun y member => ?_, fun same => ?_⟩
  · rw [fresh, Finset.mem_filter] at member ⊢
    obtain ⟨inside, new, idle⟩ := member
    refine ⟨inside, fun has => new ?_, fun busy => idle ?_⟩
    · cases x with
      | routine r => exact has_withBusy.mpr has
      | array a => exact has_withArray.mpr (.inl has)
    · cases y with
      | array b => exact busy
      | routine q =>
          cases x with
          | routine r => exact List.mem_cons_of_mem _ busy
          | array a => exact busy
  · have member : x ∈ w.fresh h := Finset.mem_filter.mpr ⟨inside, new, idle⟩
    rw [← same, fresh, Finset.mem_filter] at member
    obtain ⟨-, new, idle⟩ := member
    cases x with
    | routine r => exact idle List.mem_cons_self
    | array a => exact new (has_withArray.mpr (.inr rfl))

/-- Parts are visited one after another if each can be, whatever has been met by then. -/
theorem visits_of_each {P : Writer → Part → Prop}
    (each : ∀ w x, P w x → ∃ n w', ((numberingTo charset h depth).part x).run w = .ok n w')
    (kept : ∀ w w' x, Grows w w' → P w x → P w' x) {xs : List Part} (all : ∀ x ∈ xs, P w x)
    : ∃ w', Visits (numberingTo charset h depth) w xs w' := by
  induction xs generalizing w with
  | nil => exact ⟨w, .nil⟩
  | cons x xs ih =>
      obtain ⟨n, w₁, first⟩ := each w x (all x List.mem_cons_self)
      have grows := (numbersOnce_numberingTo charset h depth).grows first
      obtain ⟨w', others⟩ := ih (w := w₁) fun y member =>
        kept w w₁ y grows (all y (List.mem_cons_of_mem _ member))
      exact ⟨w', .cons first others⟩

/-- The part can be stored by a writer: it is clear, it leads to nothing in progress, and there is
less to be met than the depth allows.
-/
structure Open (charset : Charset) (h : Heap) (depth : Nat) (w : Writer) (x : Part) : Prop where
  clear : Clear charset h x
  away : ∀ r ∈ w.inProgress, ¬ ReflTransGen h.Refers x (.routine r)
  deep : (w.fresh h).card < depth

theorem Open.grows {x : Part} (ready : Open charset h depth w x) (grows : Grows w w')
    : Open charset h depth w' x where
  clear := ready.clear
  away r busy := ready.away r (by rwa [grows.inProgress] at busy)
  deep := Nat.lt_of_le_of_lt (Finset.card_le_card grows.fresh) ready.deep

/-- A part that can be stored is stored, by induction on the depth. -/
theorem run_of_open {x : Part} (ready : Open charset h depth w x)
    : ∃ n w', ((numberingTo charset h depth).part x).run w = .ok n w' := by
  induction depth generalizing x w with
  | zero => exact absurd ready.deep (Nat.not_lt_zero _)
  | succ depth ih =>
      by_cases known : w.Has x
      · obtain ⟨n, ran⟩ := run_part_known known
        exact ⟨n, w, ran⟩
      have idle : ¬ w.Busy x := by
        cases x with
        | routine r => exact fun busy => ready.away r busy .refl
        | array a => exact id
      obtain ⟨can, -⟩ := ready.clear x .refl
      have all : ∀ y ∈ h.parts x, Open charset h depth (w.opened h x) y := by
        intro y refers
        have inside : x ∈ h.allParts := by
          by_contra outside
          rw [Heap.parts_eq_nil outside] at refers
          cases refers
        refine ⟨ready.clear.of_refers refers, fun r busy leads => ?_, ?_⟩
        · rcases inProgress_opened w h x with ⟨q, rfl, more⟩ | ⟨-, same⟩
          · rw [more] at busy
            rcases List.mem_cons.mp busy with rfl | before
            · exact (ready.clear _ .refl).2 r rfl (TransGen.head'_iff.mpr ⟨y, refers, leads⟩)
            · exact ready.away r before (.head refers leads)
          · rw [same] at busy
            exact ready.away r busy (.head refers leads)
        · exact Nat.lt_of_lt_of_le (card_fresh_opened inside known idle)
            (Nat.lt_succ_iff.mp ready.deep)
      obtain ⟨w₁, visits⟩ := visits_of_each (fun _ _ => ih) (fun _ _ _ grows one => one.grows grows) all
      exact run_of_visits known idle can visits

/-- The depth of the numbering allows for every part of the heap. -/
theorem card_fresh_lt (w : Writer) (h : Heap)
    : (w.fresh h).card < h.routines.size + h.arrays.size + 2 := by
  have some := (Finset.card_filter_le h.allParts fun x => ¬ w.Has x ∧ ¬ w.Busy x).trans
    h.card_allParts_le
  exact Nat.lt_succ_of_le (some.trans (Nat.le_succ _))

-----------------------------------------------------------------------------------------
-- More that is stored already
-----------------------------------------------------------------------------------------

/-- The second writer has stored the same as the first one, and some parts more. -/
structure Ahead (extra : Part → Prop) (w v : Writer) : Prop where
  inProgress : v.inProgress = w.inProgress
  has : ∀ y, v.Has y ↔ w.Has y ∨ extra y

theorem Ahead.opened {extra : Part → Prop} (ahead : Ahead extra w v) (x : Part)
    : Ahead extra (w.opened h x) (v.opened h x) := by
  cases x with
  | routine r =>
      refine ⟨congrArg (List.cons r) ahead.inProgress, fun y => ?_⟩
      exact has_withBusy.trans ((ahead.has y).trans (or_congr_left has_withBusy.symm))
  | array a =>
      refine ⟨ahead.inProgress, fun y => ?_⟩
      simp only [Writer.opened, has_withArray, ahead.has y, or_right_comm]

/-- Where a visit leads to depends on where it begins only. -/
theorem Visits.unique {numbering : Numbering Writer} {xs : List Part}
    (visits : Visits numbering w xs w') (again : Visits numbering w xs v)
    : v = w' := by
  induction visits with
  | nil =>
      cases again
      rfl
  | cons first others ih =>
      cases again with
      | cons first' others' =>
          rw [first] at first'
          cases first'
          exact ih others'

/-- Only what a part leads to gets a number along with it, by induction on the depth. -/
theorem has_of_run {x y : Part} {n : Nat}
    (ran : ((numberingTo charset h depth).part x).run w = .ok n w') (has : w'.Has y)
    : w.Has y ∨ ReflTransGen h.Refers x y := by
  induction depth generalizing x n w w' y with
  | zero => cases x <;> cases ran
  | succ depth ih =>
      by_cases known : w.Has x
      · rw [eq_of_run_known known ran] at has
        exact .inl has
      obtain ⟨-, -, w₁, visits, hasIff, -⟩ := visits_of_run known ran
      have all {w₀ w₂ : Writer} {xs : List Part}
          (visits : Visits (numberingTo charset h depth) w₀ xs w₂) (has : w₂.Has y)
          : w₀.Has y ∨ ∃ z ∈ xs, ReflTransGen h.Refers z y := by
        induction visits with
        | nil => exact .inl has
        | cons first others ihVisits =>
            rcases ihVisits has with has | ⟨z, member, leads⟩
            · rcases ih first has with has | leads
              · exact .inl has
              · exact .inr ⟨_, List.mem_cons_self, leads⟩
            · exact .inr ⟨z, List.mem_cons_of_mem _ member, leads⟩
      rcases (hasIff y).mp has with has₁ | rfl
      · rcases all visits has₁ with opened | ⟨z, refers, leads⟩
        · rcases has_opened opened with has | rfl
          · exact .inl has
          · exact .inr .refl
        · exact .inr (.head refers leads)
      · exact .inr .refl

/-- What is stored by one writer is stored by a writer that is ahead, if what that one has more leads
to nothing else, by induction on the depth.
-/
theorem Ahead.run {extra : Part → Prop} (closed : ∀ x y, extra x → h.Refers x y → extra y)
    (ahead : Ahead extra w v) {x : Part} {n : Nat}
    (ran : ((numberingTo charset h depth).part x).run w = .ok n w')
    : ∃ m v', ((numberingTo charset h depth).part x).run v = .ok m v' ∧ Ahead extra w' v' := by
  induction depth generalizing x n w w' v with
  | zero => cases x <;> cases ran
  | succ depth ih =>
      by_cases known : w.Has x
      · obtain ⟨m, again⟩ : ∃ m, ((numberingTo charset h (depth + 1)).part x).run v = .ok m v :=
          run_part_known ((ahead.has x).mpr (.inl known))
        rw [eq_of_run_known known ran]
        exact ⟨m, v, again, ahead⟩
      by_cases more : extra x
      · obtain ⟨m, again⟩ : ∃ m, ((numberingTo charset h (depth + 1)).part x).run v = .ok m v :=
          run_part_known ((ahead.has x).mpr (.inr more))
        have grows := (numbersOnce_numberingTo charset h (depth + 1)).grows ran
        have below {y : Part} (leads : ReflTransGen h.Refers x y) : extra y := by
          induction leads with
          | refl => exact more
          | tail _ refers ih => exact closed _ _ ih refers
        refine ⟨m, v, again, ahead.inProgress.trans grows.inProgress.symm, fun y => ?_⟩
        rw [ahead.has y]
        constructor
        · exact Or.imp_left grows.has
        · rintro (has | extra)
          · exact (has_of_run ran has).imp_right below
          · exact .inr extra
      obtain ⟨idle, can, w₁, visits, has, inProgress⟩ := visits_of_run known ran
      have all {w₀ w₂ v₀ : Writer} {xs : List Part} (start : Ahead extra w₀ v₀)
          (visits : Visits (numberingTo charset h depth) w₀ xs w₂)
          : ∃ v₂, Visits (numberingTo charset h depth) v₀ xs v₂ ∧ Ahead extra w₂ v₂ := by
        induction visits generalizing v₀ with
        | nil => exact ⟨v₀, .nil, start⟩
        | cons first others ihVisits =>
            obtain ⟨m, v₁, first', ahead₁⟩ := ih start first
            obtain ⟨v₂, others', ahead₂⟩ := ihVisits ahead₁
            exact ⟨v₂, .cons first' others', ahead₂⟩
      obtain ⟨v₁, visits', ahead₁⟩ := all (ahead.opened x) visits
      have new' : ¬ v.Has x := fun has => ((ahead.has x).mp has).elim known more
      have idle' : ¬ v.Busy x := by
        cases x with
        | routine r =>
            rw [Busy, ahead.inProgress]
            exact idle
        | array a => exact id
      obtain ⟨m, v', ran'⟩ := run_of_visits new' idle' can visits'
      obtain ⟨-, -, v₁', again, has', inProgress'⟩ := visits_of_run new' ran'
      rw [visits'.unique again] at has'
      refine ⟨m, v', ran', ?_, fun y => ?_⟩
      · rw [inProgress', inProgress, ahead.inProgress]
      · rw [has' y, has y, ahead₁.has y, or_right_comm]

/-- The same parts can be visited where more is stored already, if this includes what it refers to. -/
theorem Ahead.visits {extra : Part → Prop} (closed : ∀ x y, extra x → h.Refers x y → extra y)
    (ahead : Ahead extra w v) {xs : List Part}
    (visits : Visits (numberingTo charset h depth) w xs w')
    : ∃ v', Visits (numberingTo charset h depth) v xs v' ∧ Ahead extra w' v' := by
  induction visits generalizing v with
  | nil => exact ⟨v, .nil, ahead⟩
  | cons first others ih =>
      obtain ⟨m, v₁, first', ahead₁⟩ := ahead.run closed first
      obtain ⟨v', others', ahead'⟩ := ih ahead₁
      exact ⟨v', .cons first' others', ahead'⟩

-----------------------------------------------------------------------------------------
-- Processes in any order
-----------------------------------------------------------------------------------------

/-- A new writer accepts the processes one after another. -/
def Accepts (charset : Charset) (h : Heap) (ps : List Process) : Prop :=
  ∃ w, (ps.forM (addProcess charset h)).run new = .ok () w

/-- No routine that the processes lead to leads to an array that leads back to the routine. -/
def Untangled (h : Heap) (ps : List Process) : Prop :=
  ∀ p ∈ ps, ∀ x ∈ p.parts h, ∀ r a,
    ReflTransGen h.Refers x (.routine r)
    → ReflTransGen h.Refers (.routine r) (.array a)
    → ¬ ReflTransGen h.Refers (.array a) (.routine r)

/-- What a process is stored with can be stored, and so can all that it leads to. -/
structure Fit (charset : Charset) (h : Heap) (p : Process) : Prop where
  storable : isStorable p = true
  canStore : ∀ value ∈ p.storedValues, h.CanStore charset value
  clear : ∀ x ∈ p.parts h, Clear charset h x

/-- Between two processes nothing is in progress, and all that is stored is complete. -/
structure Settled (charset : Charset) (h : Heap) (w : Writer) : Prop where
  explored : Explored charset h [] w
  inProgress : w.inProgress = []

private theorem settled_new : Settled charset h new :=
  ⟨explored_new, rfl⟩

/-- A process is entered once its record has been made. -/
theorem addProcess_eq_ok {p : Process} {u : Unit}
    : (addProcess charset h p).run w = .ok u w'
      ↔ ∃ record w₁, (processRecord charset h p).run w = .ok record w₁
        ∧ w' = w₁.withProcess record := by
  rw [addProcess_eq, run_bind_eq_ok]
  constructor
  · rintro ⟨record, w₁, ran, done⟩
    cases done
    exact ⟨record, w₁, ran, rfl⟩
  · rintro ⟨record, w₁, ran, rfl⟩
    exact ⟨record, w₁, ran, rfl⟩

/-- What is known does not depend on the records of processes. -/
theorem Settled.withProcess (explored : Explored charset h [] w) (inProgress : w.inProgress = [])
    (record : ProcessRecord)
    : Settled charset h (w.withProcess record) :=
  ⟨{ explored with }, inProgress⟩

theorem Settled.visits (settled : Settled charset h w) {xs : List Part}
    (visits : Visits (numbering charset h) w xs w')
    : Explored charset h [] w' ∧ w'.inProgress = [] := by
  refine ⟨settled.explored.visits visits, ?_⟩
  rw [(visits.grows (numbersOnce charset h)).1.inProgress, settled.inProgress]

/-- Between processes everything that is entered is stored completely. -/
theorem Settled.addProcess (settled : Settled charset h w) {p : Process} {u : Unit}
    (ran : (addProcess charset h p).run w = .ok u w')
    : Settled charset h w' := by
  obtain ⟨record, w₁, stored, rfl⟩ := addProcess_eq_ok.mp ran
  obtain ⟨-, -, visits⟩ := processRecord_ok_iff.mp ⟨record, stored⟩
  obtain ⟨explored, inProgress⟩ := settled.visits visits
  exact .withProcess explored inProgress record

/-- What is stored is clear, unless a routine leads back to itself through an array. -/
theorem Explored.clear (explored : Explored charset h [] w) {x : Part} (has : w.Has x)
    (untangled : ∀ r a, ReflTransGen h.Refers x (.routine r)
      → ReflTransGen h.Refers (.routine r) (.array a)
      → ¬ ReflTransGen h.Refers (.array a) (.routine r))
    : Clear charset h x := by
  intro y leads
  have hasY := explored.has_of_leads has leads
  refine ⟨explored.canStore y hasY List.not_mem_nil, ?_⟩
  rintro r rfl back
  rcases Heap.through_array_or_mentions back with ⟨a, there, back⟩ | ⟨q, same, mentions⟩
  · exact untangled r a leads there back
  · cases same
    exact explored.untied r hasY mentions

/-- Where no routine leads back to itself through an array, exactly the processes that fit are
accepted, by induction on the processes.
-/
theorem Settled.accepts_iff {ps : List Process} (untangled : Untangled h ps)
    (settled : Settled charset h w)
    : (∃ w', (ps.forM (Writer.addProcess charset h)).run w = .ok () w')
      ↔ ∀ p ∈ ps, Fit charset h p := by
  induction ps generalizing w with
  | nil => exact ⟨fun _ => by simp, fun _ => ⟨w, rfl⟩⟩
  | cons p ps ih =>
      have later : Untangled h ps := fun q member => untangled q (List.mem_cons_of_mem _ member)
      rw [List.forall_mem_cons]
      constructor
      · rintro ⟨w', ran⟩
        obtain ⟨_, w₁, first, others⟩ := run_bind_eq_ok.mp ran
        refine ⟨?_, (ih later (settled.addProcess first)).mp ⟨w', others⟩⟩
        obtain ⟨record, w₂, stored, rfl⟩ := addProcess_eq_ok.mp first
        obtain ⟨storable, can, visits⟩ := processRecord_ok_iff.mp ⟨record, stored⟩
        have got := (visits.grows (numbersOnce charset h)).2
        exact ⟨storable, can, fun x member => (settled.visits visits).1.clear (got x member)
          (untangled p List.mem_cons_self x member)⟩
      · rintro ⟨fit, fits⟩
        have all : ∀ x ∈ p.parts h,
            Open charset h (h.routines.size + h.arrays.size + 2) w x := by
          intro x member
          refine ⟨fit.clear x member, ?_, card_fresh_lt w h⟩
          rw [settled.inProgress]
          exact fun r busy => absurd busy List.not_mem_nil
        obtain ⟨w₁, visits⟩ :=
          visits_of_each (fun _ _ => run_of_open) (fun _ _ _ grows one => one.grows grows) all
        obtain ⟨record, stored⟩ := processRecord_ok_iff.mpr ⟨fit.storable, fit.canStore, visits⟩
        have first := addProcess_eq_ok (u := ()).mpr ⟨record, w₁, stored, rfl⟩
        obtain ⟨w', others⟩ := (ih later (settled.addProcess first)).mpr fits
        exact ⟨w', run_bind_eq_ok.mpr ⟨(), _, first, others⟩⟩

/-- What a new writer accepts is accepted by every writer that has accepted processes only: it meets
less that is new.
-/
theorem Settled.accepts_after {p : Process} (settled : Settled charset h w)
    (alone : Accepts charset h [p])
    : ∃ w', (Writer.addProcess charset h p).run w = .ok () w' := by
  obtain ⟨w₁, ran⟩ := alone
  obtain ⟨_, w₂, ran, -⟩ := run_bind_eq_ok.mp ran
  obtain ⟨record, w₃, ran, -⟩ := addProcess_eq_ok.mp ran
  obtain ⟨storable, can, visits⟩ := processRecord_ok_iff.mp ⟨record, ran⟩
  have ahead : Ahead w.Has new w := by
    refine ⟨settled.inProgress, fun y => ⟨.inr, ?_⟩⟩
    rintro (has | has)
    · cases y <;> cases has
    · exact has
  obtain ⟨w', visits', -⟩ := ahead.visits
    (fun x y has refers => settled.explored.parts x has List.not_mem_nil y refers) visits
  obtain ⟨record', stored⟩ := processRecord_ok_iff.mpr ⟨storable, can, visits'⟩
  exact ⟨_, addProcess_eq_ok.mpr ⟨record', w', stored, rfl⟩⟩

/-- Processes that are accepted alone are accepted one after another, by induction on them. -/
theorem Settled.accepts_all {ps : List Process} (settled : Settled charset h w)
    (alone : ∀ p ∈ ps, Accepts charset h [p])
    : ∃ w', (ps.forM (Writer.addProcess charset h)).run w = .ok () w' := by
  induction ps generalizing w with
  | nil => exact ⟨w, rfl⟩
  | cons p ps ih =>
      obtain ⟨w₁, first⟩ := settled.accepts_after (alone p List.mem_cons_self)
      obtain ⟨w', others⟩ := ih (settled.addProcess first)
        fun q member => alone q (List.mem_cons_of_mem _ member)
      exact ⟨w', run_bind_eq_ok.mpr ⟨(), w₁, first, others⟩⟩

/-- Processes are accepted in every order exactly if each is accepted alone. Where no routine leads back
to itself through an array, the order does not matter at all: they are accepted in every order or in
none.
-/
theorem accepts_every_order_iff (charset : Charset) (h : Heap) (ps : List Process)
    : ((∀ qs, qs.Perm ps → Accepts charset h qs) ↔ ∀ p ∈ ps, Accepts charset h [p])
      ∧ (Untangled h ps →
          ∀ qs, qs.Perm ps →
            (Accepts charset h qs ↔ Accepts charset h ps)
            ∧ (Accepts charset h qs ↔ ∀ p ∈ ps, Accepts charset h [p])) := by
  refine ⟨⟨?_, ?_⟩, ?_⟩
  · intro every p member
    obtain ⟨before, after, rfl⟩ := List.append_of_mem member
    obtain ⟨w, ran⟩ := every (p :: (before ++ after)) List.perm_middle.symm
    obtain ⟨_, w₁, first, -⟩ := run_bind_eq_ok.mp ran
    exact ⟨w₁, run_bind_eq_ok.mpr ⟨(), w₁, first, rfl⟩⟩
  · intro alone qs perm
    exact settled_new.accepts_all fun p member => alone p (perm.mem_iff.mp member)
  · intro untangled qs perm
    have same (rs : List Process) (among : ∀ p ∈ rs, p ∈ ps)
        : Accepts charset h rs ↔ ∀ p ∈ rs, Fit charset h p :=
      settled_new.accepts_iff fun p member => untangled p (among p member)
    have fits : Accepts charset h qs ↔ ∀ p ∈ ps, Fit charset h p := by
      rw [same qs fun p => perm.mem_iff.mp]
      exact forall_congr' fun p => imp_congr_left perm.mem_iff
    refine ⟨fits.trans (same ps fun _ => id).symm, fits.trans ?_⟩
    refine forall₂_congr fun p member => ?_
    rw [same [p] (by simpa using member), List.forall_mem_singleton]

-----------------------------------------------------------------------------------------
-- A routine that is met on two ways
-----------------------------------------------------------------------------------------

/-- A process in a call of a routine, with values on its stack. -/
def callOf (r : RoutineId) (stack : List Value) : Process :=
  { Process.new {} 1 "p" with
    stack
    frames := [{
      routine := r, pc := 0, locals := #[], handlers := [], wantResult := false, stackBase := 0 }] }

/-- The second routine leads to nothing, so two calls of it are accepted in every order. -/
theorem calls_of_leaf_accepted
    : Untangled knotHeap [callOf ⟨1⟩ [], callOf ⟨1⟩ [.null]]
      ∧ Accepts .utf8 knotHeap [callOf ⟨1⟩ [.null], callOf ⟨1⟩ []]
      ∧ ∀ p ∈ [callOf ⟨1⟩ [], callOf ⟨1⟩ [.null]], Accepts .utf8 knotHeap [p] := by
  have untangled : Untangled knotHeap [callOf ⟨1⟩ [], callOf ⟨1⟩ [.null]] := by
    intro p among x member r a leads there
    have root : x = .routine ⟨1⟩ := by
      rcases List.mem_pair.mp among with rfl | rfl <;>
        simpa [callOf, Process.parts, Heap.part?] using member
    subst root
    have leaf (y : Part) : ¬ knotHeap.Refers (.routine ⟨1⟩) y := List.not_mem_nil
    rcases ReflTransGen.cases_head (leads.trans there) with same | ⟨y, refers, -⟩
    · cases same
    · exact absurd refers (leaf y)
  obtain ⟨-, every⟩ := accepts_every_order_iff .utf8 knotHeap [callOf ⟨1⟩ [], callOf ⟨1⟩ [.null]]
  obtain ⟨same, alone⟩ := every untangled _ (List.Perm.swap (callOf ⟨1⟩ []) (callOf ⟨1⟩ [.null]) [])
  have accepted : Accepts .utf8 knotHeap [callOf ⟨1⟩ [], callOf ⟨1⟩ [.null]] := ⟨_, rfl⟩
  exact ⟨untangled, same.mpr accepted, alone.mp (same.mpr accepted)⟩

/-- The first routine leads back to itself through the array. A call of it is accepted after a process
that has the array on its stack, and neither before that process nor alone.
-/
theorem acceptance_depends_on_order
    : ∃ h p q,
        isStorable p = true ∧ isStorable q = true
        ∧ Accepts .utf8 h [q, p] ∧ ¬ Accepts .utf8 h [p, q] ∧ ¬ Accepts .utf8 h [p] := by
  have refused (ps : List Process)
      : ¬ Accepts .utf8 knotHeap (callOf ⟨0⟩ [] :: ps) := by
    rintro ⟨w, ran⟩
    obtain ⟨u, w₁, first, -⟩ := run_bind_eq_ok.mp ran
    cases first
  exact ⟨knotHeap, callOf ⟨0⟩ [], callOf ⟨1⟩ [.array ⟨0⟩], rfl, rfl, ⟨_, rfl⟩, refused _, refused _⟩

end TaskMachine.Writer
