import Mathlib.Logic.Function.Basic
import TaskMachine.Proofs.Process.Doubles
import TaskMachine.Proofs.Scheduler.Accounting

/-!
Processes in company. Each process of a scheduler has a double in a scheduler of its own. What
belongs to a process belongs to no other one, so whatever one of them does, and its double with it,
leaves all the others as they are, and their doubles. This is so for a request, for a dispatch, for a
round of dispatches and for a start.
-/

namespace TaskMachine

namespace Scheduler

open Partners

/-- What the first answer says of a process with one id, the second one says of it under another. -/
inductive Answer.Like (Same : Value → Value → Prop) (id id' : Nat) : Answer → Answer → Prop
  | added : Like Same id id' (.added id) (.added id')
  | accepted : Like Same id id' .accepted .accepted
  | notFound : Like Same id id' (.refused (.notFound id)) (.refused (.notFound id'))
  | invalidState (state : ProcessState)
    : Like Same id id' (.refused (.invalidState id state)) (.refused (.invalidState id' state))
  | reports {outcomes outcomes' : List Outcome}
    (same : List.Forall₂ (Outcome.Like Same id id') (outcomes.filter (·.id == id)) outcomes')
    : Like Same id id' (.reports outcomes) (.reports outcomes')
  | progress : Like Same id id' (.dispatch (.progress id)) (.dispatch (.progress id'))
  | finished {outcome outcome' : Outcome} (same : outcome.Like Same id id' outcome')
    : Like Same id id' (.dispatch (.finished outcome)) (.dispatch (.finished outcome'))

theorem Answer.Like.imp {Same Same' : Value → Value → Prop} {id id' : Nat} {a a' : Answer}
    (like : a.Like Same id id' a') (weaker : ∀ v v', Same v v' → Same' v v')
    : a.Like Same' id id' a' := by
  have outcome (o o' : Outcome) (like : o.Like Same id id' o') : o.Like Same' id id' o' :=
    { like with result := rel_imp like.result weaker }
  cases like with
  | added => exact .added
  | accepted => exact .accepted
  | notFound => exact .notFound
  | invalidState state => exact .invalidState state
  | reports same => exact .reports (same.imp outcome)
  | progress => exact .progress
  | finished same => exact .finished (outcome _ _ same)

/-- Every process of a scheduler has a double in a scheduler of its own, one for each id. All these
have begun as the same one. What belongs to a process has been made since then, and belongs to no
other one.
-/
structure Abreast (s₀ s : Scheduler) (solo : Nat → Scheduler) (P : Nat → Partners) : Prop where
  config : s.config = s₀.config
  kept : s₀.world.heap.Kept s.world.heap
  routines : s.world.heap.routines = s₀.world.heap.routines
  distinct : (s.processes.map (·.id)).Nodup
  below : ∀ x ∈ s.processes, x.id < s.nextId
  unused : ∀ id, s.nextId ≤ id → solo id = s₀
  held
    : ∀ x ∈ s.processes, ∃ x',
        (solo x.id).processes = [x'] ∧ (P x.id).Doubles s₀.nextId x x'
  gone : ∀ id, (∀ x ∈ s.processes, x.id ≠ id) → (solo id).processes = []
  mirrors : ∀ id, (P id).Mirrors s.world.heap (solo id).world.heap
  recent : ∀ id a a', (P id).arrays a a' → s₀.world.heap.arrays.size ≤ a.index
  apart : ∀ id k a a' b', (P id).arrays a a' → (P k).arrays a b' → id = k

variable {s₀ s : Scheduler} {solo : Nat → Scheduler} {P : Nat → Partners} {fuel : Nat}

-----------------------------------------------------------------------------------------
-- One process acts
-----------------------------------------------------------------------------------------

/-- Where a process changes only what is its own or new, no array of another one is changed. -/
theorem Abreast.outside (abreast : Abreast s₀ s solo P) {id k : Nat} {R : Value → Prop}
    (mine : (P id).Owns s.world.heap R) (other : k ≠ id) (a a' : ArrayId)
    (paired : (P k).arrays a a')
    : ¬ R (.array a) := by
  intro inside
  rcases mine a inside with ⟨b', own⟩ | new
  · exact other (abreast.apart k id a a' b' paired own)
  · have present := ((abreast.mirrors k).heaps.arrayIn a a' paired).1
    omega

/-- The arrays of the beginning belong to nobody. -/
theorem Abreast.untouched (abreast : Abreast s₀ s solo P) {id : Nat} {R : Value → Prop}
    (mine : (P id).Owns s.world.heap R) {a : ArrayId}
    (present : a.index < s₀.world.heap.arrays.size)
    : ¬ R (.array a) := by
  intro inside
  rcases mine a inside with ⟨a', own⟩ | new
  · have recent := abreast.recent id a a' own
    omega
  · have size := abreast.kept.arrays
    omega

/-- What was there in the beginning is kept where a process changes only what is its own or new. -/
theorem Abreast.keeps (abreast : Abreast s₀ s solo P) {id : Nat} {R : Value → Prop} {h : Heap}
    (changes : s.world.heap.ChangesIn R h) (mine : (P id).Owns s.world.heap R)
    : s₀.world.heap.Kept h where
  arrays := Nat.le_trans abreast.kept.arrays changes.arrays
  callables := Nat.le_trans abreast.kept.callables changes.callables
  grid a present :=
    (changes.grid a (Nat.lt_of_lt_of_le present abreast.kept.arrays)
      (abreast.untouched mine present)).trans (abreast.kept.grid a present)
  callable c present :=
    (changes.callable c (Nat.lt_of_lt_of_le present abreast.kept.callables)).trans
      (abreast.kept.callable c present)

/-- Ids stay distinct if a process is replaced by one with its id, or is added or gone. -/
theorem distinct_replace {before after : List Process} {actor : Option Process} {id : Nat}
    (actor' : Option Process)
    (distinct : ((before ++ (actor.toList ++ after)).map (·.id)).Nodup)
    (others : ∀ x ∈ before ++ after, x.id ≠ id) (acts : ∀ x ∈ actor', x.id = id)
    : ((before ++ (actor'.toList ++ after)).map (·.id)).Nodup := by
  have rest : ((before ++ after).map (·.id)).Nodup :=
    distinct.sublist (((List.sublist_append_right ..).append_left before).map _)
  cases actor' with
  | none => exact rest
  | some x =>
      simp only [Option.toList_some, List.singleton_append, List.map_append, List.map_cons]
      rw [List.nodup_middle, List.nodup_cons, ← List.map_append]
      refine ⟨fun clash => ?_, rest⟩
      obtain ⟨y, member, same⟩ := List.mem_map.mp clash
      exact others y member (same.trans (acts x rfl))

/-- One process acts, or is started or is gone, and the same happens where it is alone. All others are
as they were, and so are their doubles.
-/
theorem Abreast.turn (abreast : Abreast s₀ s solo P) (actor' : Option Process) (t : Scheduler)
    {id nextId : Nat} {before after : List Process} {actor : Option Process} {w : World}
    {q : Partners} {R : Value → Prop}
    (split : s.processes = before ++ (actor.toList ++ after))
    (acts : ∀ x ∈ actor, x.id = id) (others : ∀ x ∈ before ++ after, x.id ≠ id)
    (changes : s.world.heap.ChangesIn R w.heap) (mine : (P id).Owns s.world.heap R)
    (mirrors : q.Mirrors w.heap t.world.heap) (pairs : ∀ a a', q.arrays a a' → R (.array a))
    (stays : ∀ x ∈ actor', x.id = id ∧ ∃ x', t.processes = [x'] ∧ q.Doubles s₀.nextId x x')
    (leaves : actor' = none → t.processes = []) (later : s.nextId ≤ nextId)
    (used : id < nextId ∨ (actor' = none ∧ t = s₀))
    : Abreast s₀
        { s with world := w, processes := before ++ (actor'.toList ++ after), nextId }
        (Function.update solo id t) (Function.update (fun k => (P k).renew w.heap) id q) := by
  have held (x : Process) (member : x ∈ before ++ after) : x ∈ s.processes := by
    rw [split]
    rcases List.mem_append.mp member with earlier | rest
    · exact List.mem_append_left _ earlier
    · exact List.mem_append_right _ (List.mem_append_right _ rest)
  have among {x : Process} (member : x ∈ before ++ (actor'.toList ++ after))
      : x ∈ before ++ after ∨ x ∈ actor' := by
    simp only [List.mem_append, Option.mem_toList] at member ⊢
    tauto
  exact {
    config := abreast.config
    kept := abreast.keeps changes mine
    routines := changes.routines.trans abreast.routines
    distinct :=
      distinct_replace actor' (split ▸ abreast.distinct) others fun x acting => (stays x acting).1
    below := fun x member => by
      rcases among member with resting | acting
      · exact Nat.lt_of_lt_of_le (abreast.below x (held x resting)) later
      · rw [(stays x acting).1]
        rcases used with used | ⟨nobody, -⟩
        · exact used
        · cases nobody.symm.trans acting
    unused := fun k beyond => by
      by_cases this : k = id
      · subst this
        rw [Function.update_self]
        rcases used with used | ⟨-, same⟩
        · exact absurd beyond (Nat.not_le.mpr used)
        · exact same
      · rw [Function.update_of_ne this]
        exact abreast.unused k (Nat.le_trans later beyond)
    held := fun x member => by
      rcases among member with resting | acting
      · obtain ⟨x', alone, doubles⟩ := abreast.held x (held x resting)
        have other := others x resting
        rw [Function.update_of_ne other, Function.update_of_ne other]
        exact ⟨x', alone, doubles.among (among_renew ..)⟩
      · obtain ⟨rfl, there⟩ := stays x acting
        rw [Function.update_self, Function.update_self]
        exact there
    gone := fun k absent => by
      by_cases this : k = id
      · subst this
        rw [Function.update_self]
        refine leaves (Option.eq_none_iff_forall_ne_some.mpr fun x acting => ?_)
        exact absent x (by simp [acting]) (stays x acting).1
      · rw [Function.update_of_ne this]
        refine abreast.gone k fun x member same => ?_
        rw [split] at member
        simp only [List.mem_append, Option.mem_toList] at member
        rcases member with earlier | acting | rest
        · exact absent x (by simp [earlier]) same
        · exact this (same.symm.trans (acts x acting))
        · exact absent x (by simp [rest]) same
    mirrors := fun k => by
      by_cases this : k = id
      · subst this
        rw [Function.update_self, Function.update_self]
        exact mirrors
      · rw [Function.update_of_ne this, Function.update_of_ne this]
        exact (abreast.mirrors k).frame changes (abreast.outside mine this)
    recent := fun k a a' paired => by
      by_cases this : k = id
      · subst this
        rw [Function.update_self] at paired
        by_contra present
        exact abreast.untouched mine (Nat.not_le.mp present) (pairs a a' paired)
      · rw [Function.update_of_ne this] at paired
        exact abreast.recent k a a' paired
    apart := fun k l a a' b' first second => by
      by_cases this : k = id <;> by_cases that : l = id
      · rw [this, that]
      · subst this
        rw [Function.update_self] at first
        rw [Function.update_of_ne that] at second
        exact absurd (pairs a a' first) (abreast.outside mine that a b' second)
      · subst that
        rw [Function.update_self] at second
        rw [Function.update_of_ne this] at first
        exact absurd (pairs a b' second) (abreast.outside mine this a a' first)
      · rw [Function.update_of_ne this] at first
        rw [Function.update_of_ne that] at second
        exact abreast.apart k l a a' b' first second
  }

-----------------------------------------------------------------------------------------
-- Requests
-----------------------------------------------------------------------------------------

/-- The same schedulers may be seen as changed for one id. -/
theorem Abreast.same (abreast : Abreast s₀ s solo P) (id : Nat) {t : Scheduler} (same : t = solo id)
    : Abreast s₀ s (Function.update solo id t) P := by
  rw [same, Function.update_eq_self]
  exact abreast

/-- A process is among the others under its id, or there is none. -/
theorem split_or_absent (s : Scheduler) (id : Nat)
    : (∃ before x after, s.processes = before ++ x :: after ∧ x.id = id)
      ∨ ∀ x ∈ s.processes, x.id ≠ id := by
  by_cases held : ∃ x ∈ s.processes, x.id = id
  · obtain ⟨x, member, same⟩ := held
    obtain ⟨before, after, split⟩ := List.append_of_mem member
    exact .inl ⟨before, x, after, split, same⟩
  · exact .inr fun x member same => held ⟨x, member, same⟩

theorem get?_of_absent {id : Nat} (absent : ∀ x ∈ s.processes, x.id ≠ id) : s.get? id = none := by
  simpa [get?] using absent

theorem get?_of_alone {t : Scheduler} {x : Process} (alone : t.processes = [x])
    : t.get? x.id = some x := by
  simp [get?, alone]

/-- A process changes, or is gone, and its double with it. Nothing happens on the heaps. -/
theorem Abreast.settle (abreast : Abreast s₀ s solo P) {before after : List Process} {x : Process}
    (split : s.processes = before ++ x :: after) (actor' : Option Process) (ps : List Process)
    (stays : ∀ y ∈ actor', y.id = x.id ∧ ∃ y', ps = [y'] ∧ (P x.id).Doubles s₀.nextId y y')
    (leaves : actor' = none → ps = [])
    : ∃ P',
        Abreast s₀ { s with processes := before ++ (actor'.toList ++ after) }
          (Function.update solo x.id { solo x.id with processes := ps }) P'
        ∧ P' x.id = P x.id := by
  have place : s.processes = before ++ ((some x).toList ++ after) := split
  refine ⟨_, abreast.turn actor' _ place (by simp) (others_of_split abreast.distinct split)
    (.refl _ _) owns_territory (abreast.mirrors x.id)
    (fun a a' own => .inl ⟨_, .array own⟩) stays leaves (Nat.le_refl _)
    (.inl (abreast.below x (by simp [split]))), ?_⟩
  rw [Function.update_self]

/-- A process and its double answer a request alike, and nobody else is concerned. -/
theorem Abreast.request (abreast : Abreast s₀ s solo P) (id : Nat)
    {request : Process → Except Refusal Process} (asks : IsRequest request)
    : ∃ P',
        Abreast s₀ (Answer.ofRequest s (s.update id request)).2
          (Function.update solo id
            (Answer.ofRequest (solo id) ((solo id).update s₀.nextId request)).2) P'
        ∧ (Answer.ofRequest s (s.update id request)).1.Like (P' id).Values id s₀.nextId
            (Answer.ofRequest (solo id) ((solo id).update s₀.nextId request)).1 := by
  rcases s.split_or_absent id with ⟨before, x, after, split, rfl⟩ | absent
  · obtain ⟨x', alone, doubles⟩ := abreast.held x (by simp [split])
    have found := get?_of_split abreast.distinct split
    have found' : (solo x.id).get? s₀.nextId = some x' := doubles.id ▸ get?_of_alone alone
    have replies := doubles.replies asks
    cases reply : request x with
    | ok y =>
        cases reply' : request x' with
        | error =>
            rw [reply, reply'] at replies
            cases replies
        | ok y' =>
            rw [reply, reply'] at replies
            obtain ⟨kept, next⟩ | _ := replies
            have asked := update_of_split abreast.distinct split kept reply
            have asked' : (solo x.id).update x'.id request
                = .ok { solo x.id with processes := [] ++ y' :: [] } :=
              update_of_split (by simp [alone]) alone (next.id.trans doubles.id.symm) reply'
            rw [doubles.id] at asked'
            rw [asked, asked']
            obtain ⟨P', settled, -⟩ := abreast.settle split (some y) [y'] (fun z there => by
              obtain rfl : y = z := Option.some.inj there
              exact ⟨kept, y', rfl, next⟩) nofun
            exact ⟨P', settled, .accepted⟩
    | error refusal =>
        cases reply' : request x' with
        | ok =>
            rw [reply, reply'] at replies
            cases replies
        | error refusal' =>
            rw [reply, reply'] at replies
            have refused : s.update x.id request = .error refusal := by
              rw [update, found]
              simp only [reply, Except.map]
            have refused' : (solo x.id).update s₀.nextId request = .error refusal' := by
              rw [update, found']
              simp only [reply', Except.map]
            rw [refused, refused']
            refine ⟨P, abreast.same x.id rfl, ?_⟩
            cases replies with
            | refused state => exact .invalidState state
  · have empty := abreast.gone id absent
    have refused : s.update id request = .error (.notFound id) := by
      rw [update, get?_of_absent absent]
    have refused' : (solo id).update s₀.nextId request = .error (.notFound s₀.nextId) := by
      rw [update, get?_of_absent (by simp [empty])]
    rw [refused, refused']
    exact ⟨P, abreast.same id rfl, .notFound⟩

/-- A process that is held is ended and removed, and the others are left. -/
theorem terminate_of_split {before after : List Process} {x : Process}
    (distinct : (s.processes.map (·.id)).Nodup) (split : s.processes = before ++ x :: after)
    : s.terminate x.id
      = .ok (x.terminate.outcome, { s with processes := before ++ after }) := by
  obtain ⟨earlier, later⟩ := List.forall_mem_append.mp (others_of_split distinct split)
  have left : s.processes.filter (·.id != x.id) = before ++ after := by
    rw [split, List.filter_append, List.filter_cons_of_neg (by simp),
      List.filter_eq_self.mpr fun y member => by simpa using earlier y member,
      List.filter_eq_self.mpr fun y member => by simpa using later y member]
  rw [terminate, get?_of_split distinct split]
  simp only [left]

private theorem answer_of_terminated {id : Nat} {outcome : Outcome} {t : Scheduler}
    (gone : s.terminate id = .ok (outcome, t))
    : s.answer (.terminate id) = (.reports [outcome], t) := by
  simp only [answer, gone]

private theorem answer_of_unknown {id : Nat} (absent : ∀ x ∈ s.processes, x.id ≠ id)
    : s.answer (.terminate id) = (.refused (.notFound id), s) := by
  have refused : s.terminate id = .error (.notFound id) := by
    rw [terminate, get?_of_absent absent]
  simp only [answer, refused]

/-- A process and its double are terminated alike. -/
theorem Abreast.terminate (abreast : Abreast s₀ s solo P) (id : Nat)
    : ∃ P',
        Abreast s₀ (s.answer (.terminate id)).2
          (Function.update solo id ((solo id).answer (.terminate s₀.nextId)).2) P'
        ∧ (s.answer (.terminate id)).1.Like (P' id).Values id s₀.nextId
            ((solo id).answer (.terminate s₀.nextId)).1 := by
  rcases s.split_or_absent id with ⟨before, x, after, split, rfl⟩ | absent
  · obtain ⟨x', alone, doubles⟩ := abreast.held x (by simp [split])
    have gone := terminate_of_split abreast.distinct split
    have split' : (solo x.id).processes = [] ++ x' :: [] := alone
    have gone' := terminate_of_split (by simp [alone]) split'
    rw [doubles.id] at gone'
    rw [answer_of_terminated gone, answer_of_terminated gone']
    obtain ⟨P', settled, same⟩ := abreast.settle split none [] (by simp) fun _ => rfl
    refine ⟨P', settled, .reports ?_⟩
    have like := doubles.terminate.outcome
    rw [id_terminate, ← same] at like
    have mine : [x.terminate.outcome].filter (·.id == x.id) = [x.terminate.outcome] := by
      simp [like.ids.1]
    rw [mine]
    exact .cons like .nil
  · have empty := abreast.gone id absent
    rw [answer_of_unknown absent, answer_of_unknown (by simp [empty])]
    exact ⟨P, abreast.same id rfl, .notFound⟩

-----------------------------------------------------------------------------------------
-- Dispatches
-----------------------------------------------------------------------------------------

/-- What is left of a process that has run. -/
def left? (x : Process) : Option Process :=
  if x.state.isTerminal then none else some x

/-- What a dispatch reports of a process that has run. -/
def reportOf (x : Process) : Dispatch :=
  if x.state.isTerminal then .finished x.outcome else .progress x.id

/-- The first runnable process runs and is reported if it has ended. -/
theorem runNext_eq {before after : List Process} {x : Process}
    (split : s.processes = before ++ x :: after) (idle : ∀ y ∈ before, y.state ≠ .runnable)
    (runnable : x.state = .runnable)
    : s.runNext fuel
      = (reportOf (Machine.run fuel ⟨s.world, x⟩).process,
          { s with
            world := (Machine.run fuel ⟨s.world, x⟩).world
            processes :=
              before ++ ((left? (Machine.run fuel ⟨s.world, x⟩).process).toList ++ after) })
    := by
  rw [runNext_of_split split idle runnable, reportOf, left?]
  split
  · rfl
  · simp only [Machine.id_run, Option.toList_some, List.singleton_append]

/-- A process and its double are both left, or both gone. -/
theorem left?_of_doubles {p : Partners} {id' : Nat} {x x' : Process} (doubles : p.Doubles id' x x')
    : (left? x = some x ∧ left? x' = some x') ∨ (left? x = none ∧ left? x' = none) := by
  unfold left?
  rw [doubles.state]
  split
  · exact .inr ⟨rfl, rfl⟩
  · exact .inl ⟨rfl, rfl⟩

/-- A runnable process runs as its double does where it is alone, and the others are left alone. -/
theorem Abreast.dispatch (abreast : Abreast s₀ s solo P) (fuel : Nat) {before after : List Process}
    {x : Process} (split : s.processes = before ++ x :: after) (runnable : x.state = .runnable)
    : ∃ P' y',
        Abreast s₀
          { s with
            world := (Machine.run fuel ⟨s.world, x⟩).world
            processes := before ++ ((left? (Machine.run fuel ⟨s.world, x⟩).process).toList ++ after) }
          (Function.update solo x.id ((solo x.id).runNext fuel).2) P'
        ∧ ((solo x.id).runNext fuel).1 = reportOf y'
        ∧ (P' x.id).Doubles s₀.nextId (Machine.run fuel ⟨s.world, x⟩).process y'
        ∧ ∀ k, k ≠ x.id → (P k).Among (P' k) := by
  obtain ⟨x', alone, doubles⟩ := abreast.held x (by simp [split])
  have split' : (solo x.id).processes = [] ++ x' :: [] := alone
  have ran : (solo x.id).runNext fuel = _ :=
    runNext_eq split' (by simp) (doubles.state.trans runnable)
  obtain ⟨q, mirrors, next, changes, pairs⟩ : ∃ q : Partners, _ :=
    Mirrors.run (abreast.mirrors x.id) doubles fuel
  have place : s.processes = before ++ ((some x).toList ++ after) := split
  rw [ran]
  refine ⟨_, _, abreast.turn _ _ place (by simp) (others_of_split abreast.distinct split) changes
    owns_territory mirrors pairs (fun y stays => ?_) (fun leaves => ?_) (Nat.le_refl _)
    (.inl (abreast.below x (by simp [split]))), rfl, ?_, fun k other => ?_⟩
  · rcases left?_of_doubles next with ⟨here, there⟩ | ⟨nobody, -⟩
    · obtain rfl := Option.some.inj (here.symm.trans stays)
      refine ⟨Machine.id_run .., _, ?_, next⟩
      simp only [there, Option.toList_some, List.nil_append, List.append_nil]
    · cases nobody.symm.trans stays
  · rcases left?_of_doubles next with ⟨here, -⟩ | ⟨-, nobody⟩
    · cases here.symm.trans leaves
    · simp only [nobody, Option.toList_none, List.nil_append]
  · rw [Function.update_self]
    exact next
  · rw [Function.update_of_ne other]
    exact among_renew ..

-----------------------------------------------------------------------------------------
-- Rounds
-----------------------------------------------------------------------------------------

/-- What a round reports of a process that has run. -/
def report? (x : Process) : Option Outcome :=
  if x.state.isTerminal then some x.outcome else none

/-- Doubles are reported alike, or neither is. -/
theorem report?_of_doubles {p : Partners} {id' : Nat} {x x' : Process} (doubles : p.Doubles id' x x')
    : Option.Rel (Outcome.Like p.Values x.id id') (report? x) (report? x') := by
  unfold report?
  rw [doubles.state]
  split
  · exact .some doubles.outcome
  · exact .none

private theorem id_of_report {x : Process} {o : Outcome} (reported : o ∈ report? x) : o.id = x.id := by
  unfold report? at reported
  split at reported
  · exact Option.some.inj reported ▸ rfl
  · cases reported

private theorem reports_cons (m : Machine) (ms : List Machine)
    : reports fuel (m :: ms) = (report? (m.run fuel).process).toList ++ reports fuel ms := by
  unfold reports report?
  cases final : (m.run fuel).process.state.isTerminal <;> simp [final]

private theorem forall₂_toList {α β : Type} {R : α → β → Prop} {a : Option α} {b : Option β}
    (same : Option.Rel R a b)
    : List.Forall₂ R a.toList b.toList := by
  cases same with
  | some one => exact .cons one .nil
  | none => exact .nil

/-- Where there is one process, a run is one dispatch. -/
theorem run_of_alone {t : Scheduler} (alone : t.processes.length = 1) {y : Process}
    (ran : (t.runNext fuel).1 = reportOf y)
    : t.run fuel = ((report? y).toList, (t.runNext fuel).2) := by
  rw [run, alone, runTimes]
  generalize t.runNext fuel = next at ran ⊢
  obtain ⟨report, t'⟩ := next
  obtain rfl : report = reportOf y := ran
  unfold reportOf report?
  cases y.state.isTerminal <;> rfl

/-- There is a runnable process with the id. -/
def due (ps : List Process) (id : Nat) : Bool :=
  ps.any fun p => p.id == id && p.state == .runnable

/-- Some processes of a scheduler have had their turns in a round: those that were runnable have run
as their doubles have, and the others have kept their partners.
-/
structure RanAbreast (s₀ s' : Scheduler) (fuel : Nat) (ps : List Process) (outcomes : List Outcome)
    (solo : Nat → Scheduler) (P P' : Nat → Partners) : Prop where
  abreast : Abreast s₀ s' (fun id => if due ps id then ((solo id).run fuel).2 else solo id) P'
  reports
    : ∀ id, due ps id = true →
        List.Forall₂ (Outcome.Like (P' id).Values id s₀.nextId) (outcomes.filter (·.id == id))
          ((solo id).run fuel).1
  among : ∀ id, due ps id = false → (P id).Among (P' id)

private theorem due_cons_of_idle {x : Process} (idle : x.state ≠ .runnable) (ps : List Process)
    : due (x :: ps) = due ps := by
  funext id
  simp [due, idle]

private theorem due_cons_self {x : Process} (runnable : x.state = .runnable) (ps : List Process)
    : due (x :: ps) x.id = true := by
  simp [due, runnable]

private theorem due_cons_of_ne {x : Process} {id : Nat} (other : id ≠ x.id) (ps : List Process)
    : due (x :: ps) id = due ps id := by
  simp [due, other.symm]

private theorem due_of_absent {ps : List Process} {id : Nat} (absent : ∀ x ∈ ps, x.id ≠ id)
    : due ps id = false := by
  simpa [due] using fun x member same => absurd same (absent x member)

/-- A round reports only processes over which it goes. -/
theorem Round.reported {w w' : World} {ps ps' : List Process} {ms : List Machine}
    (round : Round fuel w ps ms w' ps') {id : Nat} (absent : ∀ x ∈ ps, x.id ≠ id)
    : (reports fuel ms).filter (·.id == id) = [] := by
  refine List.filter_eq_nil_iff.mpr fun o reported same => ?_
  have member : o.id ∈ ps.map (·.id) :=
    round.thins.each.subset (List.mem_append_right _ (List.mem_map_of_mem reported))
  obtain ⟨x, held, id⟩ := List.mem_map.mp member
  exact absent x held (id.trans (beq_iff_eq.mp same))

/-- One process has its turn, and then the others have theirs. -/
theorem Abreast.roundStep (abreast : Abreast s₀ s solo P) {before rest rest' : List Process}
    {x : Process} (split : s.processes = before ++ x :: rest) (runnable : x.state = .runnable)
    {ms : List Machine} {w' : World}
    (others : Round fuel (Machine.run fuel ⟨s.world, x⟩).world rest ms w' rest') {s' : Scheduler}
    (next
      : ∀ solo₁ P₁,
          Abreast s₀
            { s with
              world := (Machine.run fuel ⟨s.world, x⟩).world
              processes :=
                before ++ ((left? (Machine.run fuel ⟨s.world, x⟩).process).toList ++ rest) }
            solo₁ P₁
          → ∃ P₂, RanAbreast s₀ s' fuel rest (reports fuel ms) solo₁ P₁ P₂)
    : ∃ P', RanAbreast s₀ s' fuel (x :: rest) (reports fuel (⟨s.world, x⟩ :: ms)) solo P P' := by
  obtain ⟨P₁, y', abreast₁, reported, doubles, among₁⟩ := abreast.dispatch fuel split runnable
  obtain ⟨P₂, ran⟩ := next _ _ abreast₁
  obtain ⟨x', alone, -⟩ := abreast.held x (by simp [split])
  have ran' := run_of_alone (by rw [alone, List.length_singleton]) reported
  have absent : ∀ y ∈ rest, y.id ≠ x.id := fun y member =>
    others_of_split abreast.distinct split y (List.mem_append_right _ member)
  refine ⟨P₂, ?_, fun id runs => ?_, fun id passed => ?_⟩
  · have same
        : (fun id => if due (x :: rest) id then ((solo id).run fuel).2 else solo id)
          = fun id =>
              if due rest id then
                ((Function.update solo x.id ((solo x.id).runNext fuel).2 id).run fuel).2
              else Function.update solo x.id ((solo x.id).runNext fuel).2 id := by
      funext id
      by_cases this : id = x.id
      · subst this
        rw [due_cons_self runnable, due_of_absent absent, Function.update_self, ran']
        rfl
      · rw [due_cons_of_ne this, Function.update_of_ne this]
    rw [same]
    exact ran.abreast
  · rw [reports_cons, List.filter_append]
    by_cases this : id = x.id
    · subst this
      have mine : (report? (Machine.run fuel ⟨s.world, x⟩).process).toList.filter (·.id == x.id)
          = (report? (Machine.run fuel ⟨s.world, x⟩).process).toList := by
        refine List.filter_eq_self.mpr fun o member => ?_
        rw [id_of_report (Option.mem_toList.mp member), Machine.id_run]
        exact beq_self_eq_true x.id
      rw [mine, others.reported absent, List.append_nil, ran']
      have like := report?_of_doubles (doubles.among (ran.among x.id (due_of_absent absent)))
      rw [Machine.id_run] at like
      exact forall₂_toList like
    · have none : (report? (Machine.run fuel ⟨s.world, x⟩).process).toList.filter (·.id == id)
          = [] := by
        refine List.filter_eq_nil_iff.mpr fun o member same => this ?_
        rw [← beq_iff_eq.mp same, id_of_report (Option.mem_toList.mp member), Machine.id_run]
      rw [none, List.nil_append]
      rw [due_cons_of_ne this] at runs
      have reports := ran.reports id runs
      rwa [Function.update_of_ne this] at reports
  · have other : id ≠ x.id := by
      rintro rfl
      rw [due_cons_self runnable] at passed
      cases passed
    rw [due_cons_of_ne other] at passed
    exact (among₁ id other).trans (ran.among id passed)

/-- A round, by induction on it. -/
theorem Abreast.round {w w' : World} {ps ps' : List Process} {ms : List Machine}
    (round : Round fuel w ps ms w' ps') {before : List Process} (abreast : Abreast s₀ s solo P)
    (world : s.world = w) (split : s.processes = before ++ ps)
    : ∃ P',
        RanAbreast s₀ { s with world := w', processes := before ++ ps' } fuel ps (reports fuel ms)
          solo P P' := by
  induction round generalizing s solo P before with
  | done =>
      subst world
      rw [← split]
      exact ⟨P, abreast, nofun, fun id _ => .refl (P id)⟩
  | @passed w w' x ps ps' ms idle others ih =>
      obtain ⟨P', abreast', reports, among⟩ :=
        @ih _ _ _ (before ++ [x]) abreast world (by rw [split, List.append_assoc]; rfl)
      rw [List.append_assoc, List.singleton_append] at abreast'
      rw [← due_cons_of_idle idle] at abreast' reports among
      exact ⟨P', abreast', reports, among⟩
  | @stayed w w' x ps ps' ms runnable going others ih =>
      subst world
      have stays : left? (Machine.run fuel ⟨s.world, x⟩).process = some _ := if_neg (by simp [going])
      refine abreast.roundStep split runnable others fun solo₁ P₁ abreast₁ => ?_
      rw [stays, Option.toList_some] at abreast₁
      have ran := @ih _ _ _ (before ++ [(Machine.run fuel ⟨s.world, x⟩).process]) abreast₁ rfl
        (List.append_assoc ..).symm
      rwa [List.append_assoc, List.singleton_append] at ran
  | @left w w' x ps ps' ms runnable final others ih =>
      subst world
      have leaves : left? (Machine.run fuel ⟨s.world, x⟩).process = none := if_pos final
      refine abreast.roundStep split runnable others fun solo₁ P₁ abreast₁ => ?_
      rw [leaves, Option.toList_none, List.nil_append] at abreast₁
      have ran := ih abreast₁ rfl rfl
      exact ran

-----------------------------------------------------------------------------------------
-- Beginnings
-----------------------------------------------------------------------------------------

/-- Nothing has a partner. -/
def strangers (h : Heap) : Partners where
  arrays _ _ := False
  callables _ _ := False
  routines _ _ := False
  named := False
  since := h

private theorem mirrors_strangers (h h' : Heap) : (strangers h).Mirrors h h' where
  heaps := {
    grid := nofun
    callable := nofun
    routine := nofun
    arrayIn := nofun
    callableIn := nofun
    descends := nofun
    arrayOnce := nofun
    arrayApart := nofun
    routineOnce := nofun
    routineApart := nofun
    closureOnce := nofun
    closureApart := nofun
    since := .refl _ h
  }
  faithful := ⟨nofun, nofun⟩
  nameless := id

/-- Schedulers that have no processes have begun abreast. -/
theorem abreast_of_empty (empty : s₀.processes = [])
    : Abreast s₀ s₀ (fun _ => s₀) fun _ => strangers s₀.world.heap where
  config := rfl
  kept := .refl _
  routines := rfl
  distinct := by simp [empty]
  below := by simp [empty]
  unused _ _ := rfl
  held := by simp [empty]
  gone _ _ := empty
  mirrors _ := mirrors_strangers ..
  recent := nofun
  apart := nofun

/-- A process is started abreast of its double, or it is not started. -/
theorem Abreast.start (abreast : Abreast s₀ s solo P) {r : RoutineId} {args : List Value}
    (independent : s₀.world.heap.Independent r args) (name : String) (kind : ProcessKind)
    : (∃ s' t' P',
        s.addNamed name kind r args = (.ok s.nextId, s')
        ∧ s₀.addNamed name kind r args = (.ok s₀.nextId, t')
        ∧ Abreast s₀ s' (Function.update solo s.nextId t') P')
      ∨ ∃ e s' P', s.addNamed name kind r args = (.error e, s') ∧ Abreast s₀ s' solo P' := by
  have new := abreast.unused s.nextId (Nat.le_refl _)
  have absent (x : Process) (member : x ∈ s.processes) : x.id ≠ s.nextId :=
    Nat.ne_of_lt (abreast.below x member)
  have empty := abreast.gone s.nextId absent
  rw [new] at empty
  have place : s.processes = s.processes ++ ((none : Option Process).toList ++ []) := by simp
  rcases addNamed_cases name kind r args s with ⟨m, ran, added⟩ | ⟨e, s', failed, spares⟩
  · rw [abreast.config] at ran
    obtain ⟨q, m', ran', mirrors, doubles, changes, pairs⟩ :=
      doubles_start s₀.nextId independent abreast.kept abreast.routines
        (rfl : s₀.world.heap = s₀.world.heap) ran
    have added' : s₀.addNamed name kind r args
        = (.ok s₀.nextId,
            { s₀ with
              world := m'.world
              processes := s₀.processes ++ [m'.process]
              nextId := s₀.nextId + 1 }) := by
      simp only [addNamed, ran']
    refine .inl ⟨_, _, _, added, added', abreast.turn (some m.process) _ place (by simp)
      (by simpa using absent) changes (fun a granted => .inr granted) mirrors pairs
      (fun x started => ?_) (by simp) (Nat.le_succ _) (.inl (Nat.lt_succ_self _))⟩
    obtain rfl := Option.some.inj started
    refine ⟨id_of_started (abreast.config ▸ ran), m'.process, ?_, doubles⟩
    simp only [empty, List.nil_append]
  · have changes : s.world.heap.ChangesIn (fun _ => False) s'.world.heap :=
      ⟨spares.kept.arrays, spares.kept.callables, fun a present _ => spares.kept.grid a present,
        spares.kept.callable, spares.routines⟩
    have next := abreast.turn none s₀ place (by simp) (by simpa using absent) changes
      (fun _ => False.elim) (mirrors_strangers s'.world.heap s₀.world.heap) (fun _ _ => id) (by simp)
      (fun _ => empty) (Nat.le_refl _) (.inr ⟨rfl, rfl⟩)
    have nothing : Function.update solo s.nextId s₀ = solo := by
      rw [← new, Function.update_eq_self]
    have same
        : { s with world := s'.world, processes := s.processes ++ (none.toList ++ []) } = s' := by
      rw [spares.same, Option.toList_none, List.append_nil, List.append_nil]
    rw [nothing, same] at next
    exact .inr ⟨e, s', _, failed, next⟩

end Scheduler
end TaskMachine
