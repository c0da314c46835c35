import Mathlib.Data.List.Forall2

/-!
Computations that change a state and may fail. What such a computation does is the state in which it
stops, and for one that is put together of others, what those do one after another.
-/

namespace TaskMachine

variable {ε σ α β : Type}

/-- The state in which a computation stops, completed or not. -/
def stateOf : EStateM.Result ε σ α → σ
  | .ok _ s | .error _ s => s

@[simp]
theorem stateOf_ok (a : α) (s : σ)
    : stateOf (.ok a s : EStateM.Result ε σ α) = s :=
  rfl

@[simp]
theorem stateOf_error (e : ε) (s : σ)
    : stateOf (.error e s : EStateM.Result ε σ α) = s :=
  rfl

/-- A sequence completes if both its parts do, by the cases of the first one. -/
theorem run_bind_eq_ok {x : EStateM ε σ α} {f : α → EStateM ε σ β} {s s' : σ} {b : β}
    : (x >>= f).run s = .ok b s' ↔ ∃ a s₁, x.run s = .ok a s₁ ∧ (f a).run s₁ = .ok b s' := by
  rw [EStateM.run_bind]
  cases x.run s with
  | ok a s₁ =>
      constructor
      · exact fun done => ⟨a, s₁, rfl, done⟩
      · intro given
        obtain ⟨_, _, same, done⟩ := given
        cases same
        exact done
  | error e s₁ => simp

/-- A sequence fails if its first part does, or its second part after the first one. -/
theorem run_bind_eq_error {x : EStateM ε σ α} {f : α → EStateM ε σ β} {s s' : σ} {e : ε}
    : (x >>= f).run s = .error e s'
      ↔ x.run s = .error e s' ∨ ∃ a s₁, x.run s = .ok a s₁ ∧ (f a).run s₁ = .error e s' := by
  rw [EStateM.run_bind]
  cases x.run s with
  | ok a s₁ => simp
  | error e₁ s₁ => simp

/-- A computation for each member of a list completes if the first one does, and then the others. -/
theorem run_mapM_cons_eq_ok {f : α → EStateM ε σ β} {a : α} {rest : List α} {s s' : σ}
    {results : List β}
    : ((a :: rest).mapM f).run s = .ok results s'
      ↔ ∃ b s₁ others,
          (f a).run s = .ok b s₁ ∧ (rest.mapM f).run s₁ = .ok others s' ∧ results = b :: others := by
  rw [List.mapM_cons, run_bind_eq_ok]
  constructor
  · intro given
    obtain ⟨b, s₁, first, done⟩ := given
    obtain ⟨others, s₂, next, done⟩ := run_bind_eq_ok.mp done
    cases done
    exact ⟨b, s₁, others, first, next, rfl⟩
  · intro given
    obtain ⟨b, s₁, others, first, next, rfl⟩ := given
    exact ⟨b, s₁, first, run_bind_eq_ok.mpr ⟨others, s', next, rfl⟩⟩

/-- What only has a result completes where it began. -/
theorem exists_run_pure {a : α} {s s' : σ}
    : (∃ b, (pure a : EStateM ε σ α).run s = .ok b s') ↔ s' = s := by
  constructor
  · rintro ⟨b, ran⟩
    cases ran
    rfl
  · rintro rfl
    exact ⟨a, rfl⟩

/-- A computation completes as before when something is made of its result. -/
theorem exists_run_bind_pure {x : EStateM ε σ α} {f : α → β} {s s' : σ}
    : (∃ b, (x >>= fun a => pure (f a)).run s = .ok b s') ↔ ∃ a, x.run s = .ok a s' := by
  constructor
  · rintro ⟨b, ran⟩
    obtain ⟨a, s₁, ran, done⟩ := run_bind_eq_ok.mp ran
    cases done
    exact ⟨a, ran⟩
  · rintro ⟨a, ran⟩
    exact ⟨f a, run_bind_eq_ok.mpr ⟨a, s', ran, rfl⟩⟩

theorem bind_eq_ok {x : Except ε α} {f : α → Except ε β} {b : β}
    : (x >>= f) = .ok b ↔ ∃ a, x = .ok a ∧ f a = .ok b := by
  cases x with
  | ok a =>
      constructor
      · exact fun done => ⟨a, rfl, done⟩
      · intro given
        obtain ⟨_, same, done⟩ := given
        cases same
        exact done
  | error e =>
      constructor
      · intro done
        cases done
      · intro given
        obtain ⟨_, same, -⟩ := given
        cases same

/-- A computation that fails does so in the state that it is in. -/
theorem run_throw (e : ε) (s : σ)
    : (throw e : EStateM ε σ α).run s = .error e s :=
  rfl

theorem run_map (g : α → β) (x : EStateM ε σ α) (s : σ)
    : (g <$> x).run s
      = match x.run s with
        | .ok a s' => .ok (g a) s'
        | .error e s' => .error e s' :=
  rfl

/-- Dropping the result of a computation changes nothing else. -/
theorem run_discard (x : EStateM ε σ α) (s : σ)
    : (discard x).run s
      = match x.run s with
        | .ok _ s' => .ok () s'
        | .error e s' => .error e s' :=
  rfl

theorem stateOf_run_discard (x : EStateM ε σ α) (s : σ)
    : stateOf ((discard x).run s) = stateOf (x.run s) := by
  rw [run_discard]
  cases x.run s <;> rfl

/-- What is discarded was there. -/
theorem run_discard_eq_ok {x : EStateM ε σ α} {s s' : σ} {u : Unit}
    (done : (discard x).run s = .ok u s')
    : ∃ a, x.run s = .ok a s' := by
  rw [run_discard] at done
  cases outcome : x.run s with
  | ok a s₁ =>
      rw [outcome] at done
      cases done
      exact ⟨a, rfl⟩
  | error e s₁ =>
      rw [outcome] at done
      cases done

/-- Checking the members of a list succeeds if it does for each, by induction on the list. -/
theorem mapM_eq_ok {f : α → Except ε β} {items : List α} {results : List β}
    : items.mapM f = .ok results ↔ List.Forall₂ (fun a b => f a = .ok b) items results := by
  induction items generalizing results with
  | nil => simp [pure, Except.pure, eq_comm]
  | cons a rest ih =>
      rw [List.mapM_cons]
      cases first : f a with
      | error e =>
          constructor
          · intro done
            cases done
          · intro each
            obtain ⟨b, _, accepted, -, rfl⟩ := List.forall₂_cons_left_iff.mp each
            rw [first] at accepted
            cases accepted
      | ok b =>
          cases others : rest.mapM f with
          | error e =>
              constructor
              · intro done
                cases done
              · intro each
                obtain ⟨_, bs, -, accepted, rfl⟩ := List.forall₂_cons_left_iff.mp each
                rw [ih.mpr accepted] at others
                cases others
          | ok bs =>
              constructor
              · intro done
                cases done
                exact .cons first (ih.mp others)
              · intro each
                obtain ⟨b', bs', accepted, acceptedAll, rfl⟩ := List.forall₂_cons_left_iff.mp each
                rw [first] at accepted
                rw [ih.mpr acceptedAll] at others
                cases accepted
                cases others
                rfl

/-- Each member of a list that is related to another one has its partner there. -/
theorem exists_of_mem_left {R : α → β → Prop} {left : List α} {right : List β}
    (each : List.Forall₂ R left right)
    : ∀ a ∈ left, ∃ b ∈ right, R a b := by
  induction each with
  | nil => simp
  | cons related _ ih =>
      intro a member
      rcases List.mem_cons.mp member with rfl | later
      · exact ⟨_, List.mem_cons_self, related⟩
      · obtain ⟨b, there, relatedLater⟩ := ih a later
        exact ⟨b, List.mem_cons_of_mem _ there, relatedLater⟩

theorem exists_of_mem_right {R : α → β → Prop} {left : List α} {right : List β}
    (each : List.Forall₂ R left right)
    : ∀ b ∈ right, ∃ a ∈ left, R a b :=
  exists_of_mem_left each.flip

/-- A list has a related one if each of its members has a partner, by induction on the list. -/
theorem exists_related {R : α → β → Prop} {left : List α}
    : (∃ right, List.Forall₂ R left right) ↔ ∀ a ∈ left, ∃ b, R a b := by
  constructor
  · rintro ⟨right, each⟩ a member
    obtain ⟨b, -, related⟩ := exists_of_mem_left each a member
    exact ⟨b, related⟩
  · intro each
    induction left with
    | nil => exact ⟨[], .nil⟩
    | cons a rest ih =>
        obtain ⟨b, related⟩ := each a List.mem_cons_self
        obtain ⟨others, relatedAll⟩ := ih fun a' later => each a' (List.mem_cons_of_mem a later)
        exact ⟨b :: others, .cons related relatedAll⟩

/-- A relation of lists may be replaced by one that it implies between members. -/
theorem related_of_mem {R S : α → β → Prop} {left : List α} {right : List β}
    (each : List.Forall₂ R left right) (next : ∀ a ∈ left, ∀ b ∈ right, R a b → S a b)
    : List.Forall₂ S left right := by
  induction each with
  | nil => exact .nil
  | cons related _ ih =>
      refine .cons (next _ List.mem_cons_self _ List.mem_cons_self related) (ih ?_)
      exact fun a among b among' => next a (.tail _ among) b (.tail _ among')

/-- Lists that are related have related members at a place, or none, by induction on the lists. -/
theorem getElem?_related {R : α → β → Prop} {left : List α} {right : List β}
    (each : List.Forall₂ R left right) (n : Nat)
    : (∃ a b, left[n]? = some a ∧ right[n]? = some b ∧ R a b)
      ∨ (left[n]? = none ∧ right[n]? = none) := by
  induction each generalizing n with
  | nil => exact .inr ⟨rfl, rfl⟩
  | @cons a b _ _ related _ ih =>
      cases n with
      | zero => exact .inl ⟨a, b, rfl, rfl, related⟩
      | succ n => exact ih n

theorem set_related {R : α → β → Prop} {left : List α} {right : List β}
    (each : List.Forall₂ R left right) (n : Nat) {a : α} {b : β} (related : R a b)
    : List.Forall₂ R (left.set n a) (right.set n b) := by
  induction each generalizing n with
  | nil => exact .nil
  | cons first others ih =>
      cases n with
      | zero => exact .cons related others
      | succ n => exact .cons first (ih n)

/-- What is in a list stays at its place when something is put behind it. -/
theorem getElem?_append_of_some {list more : List α} {n : Nat} {a : α} (found : list[n]? = some a)
    : (list ++ more)[n]? = some a := by
  rw [List.getElem?_append_left (List.getElem?_eq_some_iff.mp found).1, found]

end TaskMachine
