import TaskMachine.Proofs.ObjectFile.Records

/-!
The passes over the records of an object file, when malformed records are skipped. Every pass keeps
account of the records without an entry: each of them is listed once, and could not have been loaded.
-/

namespace TaskMachine

/-- The record that was skipped. -/
def Skipped.key (skipped : Skipped) : RecordKey :=
  (skipped.kind, skipped.index)

/-- The records skipped so far. -/
def Restored.listed (s : Restored) : List RecordKey :=
  s.skipped.map Skipped.key

-----------------------------------------------------------------------------------------
-- Tables with missing entries
-----------------------------------------------------------------------------------------

section

variable {α : Type} {table : Array (Option α)} {entry : Option α} {i : Nat} {a : α}

theorem lt_of_entry (found : (table[i]?.join).isSome) : i < table.size := by
  by_contra outside
  simp [outside] at found

private theorem entry_push (found : table[i]?.join = some a) : (table.push entry)[i]?.join = some a := by
  have inside : i < table.size := lt_of_entry (by rw [found]; rfl)
  rwa [Array.getElem?_push_lt inside, ← Array.getElem?_eq_getElem inside]

theorem entry_of_push (found : (table.push entry)[i]?.join = some a)
    : (i = table.size ∧ entry = some a) ∨ table[i]?.join = some a := by
  rw [Array.getElem?_push] at found
  split at found
  · rename_i last
    exact .inl ⟨last, found⟩
  · exact .inr found

theorem entry_of_clear {j : Nat} (found : (table.setIfInBounds j none)[i]?.join = some a)
    : i ≠ j ∧ table[i]?.join = some a := by
  rw [Array.getElem?_setIfInBounds] at found
  split at found
  · split at found <;> cases found
  · rename_i different
    exact ⟨Ne.symm different, found⟩

/-- No two entries of the table are the same. -/
def Distinct (table : Array (Option α)) : Prop :=
  ∀ (i j : Nat) (a : α), table[i]?.join = some a → table[j]?.join = some a → i = j

/-- A new entry other than all entries keeps them distinct. -/
theorem Distinct.push_some (distinct : Distinct table) (new : ∀ i : Nat, table[i]?.join ≠ some a)
    : Distinct (table.push (some a)) := by
  intro i j b first second
  rcases entry_of_push first with ⟨last, same⟩ | first'
  · cases same
    rcases entry_of_push second with ⟨last', -⟩ | second'
    · exact last.trans last'.symm
    · exact absurd second' (new j)
  · rcases entry_of_push second with ⟨-, same⟩ | second'
    · cases same
      exact absurd first' (new i)
    · exact distinct i j b first' second'

theorem Distinct.push_none (distinct : Distinct table) : Distinct (table.push none) := by
  intro i j b first second
  rcases entry_of_push first with ⟨-, same⟩ | first'
  · cases same
  rcases entry_of_push second with ⟨-, same⟩ | second'
  · cases same
  exact distinct i j b first' second'

theorem Distinct.clear (distinct : Distinct table) (k : Nat)
    : Distinct (table.setIfInBounds k none) :=
  fun i j b first second => distinct i j b (entry_of_clear first).2 (entry_of_clear second).2

end

-----------------------------------------------------------------------------------------
-- Account of the missing entries
-----------------------------------------------------------------------------------------

/-- Of a kind, exactly those records are listed that have a place in the table and no entry there. -/
def Marks {α : Type} (listed : List RecordKey) (kind : RecordKind) (table : Array (Option α)) : Prop :=
  ∀ i, (kind, i) ∈ listed ↔ i < table.size ∧ table[i]?.join = none

namespace Marks

variable {α : Type} {listed : List RecordKey} {kind : RecordKind} {table : Array (Option α)}

theorem not_new (marks : Marks listed kind table) : (kind, table.size) ∉ listed :=
  fun member => Nat.lt_irrefl _ ((marks _).mp member).1

theorem not_present (marks : Marks listed kind table) {i : Nat} (present : (table[i]?.join).isSome)
    : (kind, i) ∉ listed := by
  intro member
  rw [((marks i).mp member).2] at present
  cases present

/-- Whether a number has an entry tells whether its record has been listed. -/
theorem entered_iff (marks : Marks listed kind table) {i : Nat}
    : (table[i]?.join).isSome ↔ i < table.size ∧ (kind, i) ∉ listed := by
  constructor
  · exact fun entered => ⟨lt_of_entry entered, marks.not_present entered⟩
  · intro given
    obtain ⟨inside, absent⟩ := given
    by_contra missing
    exact absent ((marks i).mpr ⟨inside, by simpa using missing⟩)

theorem push_some (marks : Marks listed kind table) (a : α)
    : Marks listed kind (table.push (some a)) := by
  intro i
  rw [marks i, Array.size_push, Array.getElem?_push]
  by_cases last : i = table.size
  · simp [last]
  · rw [if_neg last]
    constructor
    · intro given
      obtain ⟨inside, none⟩ := given
      exact ⟨by omega, none⟩
    · intro given
      obtain ⟨inside, none⟩ := given
      exact ⟨by omega, none⟩

theorem push_none (marks : Marks listed kind table)
    : Marks ((kind, table.size) :: listed) kind (table.push none) := by
  intro i
  rw [List.mem_cons, marks i, Array.size_push, Array.getElem?_push, Prod.mk.injEq]
  by_cases last : i = table.size
  · simp [last]
  · simp only [last, and_false, false_or, if_false]
    constructor
    · intro given
      obtain ⟨inside, none⟩ := given
      exact ⟨by omega, none⟩
    · intro given
      obtain ⟨inside, none⟩ := given
      exact ⟨by omega, none⟩

theorem clear (marks : Marks listed kind table) {i : Nat} (inside : i < table.size)
    : Marks ((kind, i) :: listed) kind (table.setIfInBounds i none) := by
  intro j
  rw [List.mem_cons, marks j, Array.size_setIfInBounds, Prod.mk.injEq,
    Array.getElem?_setIfInBounds]
  by_cases here : i = j
  · subst here
    simp [inside]
  · simp [here, Ne.symm here]

theorem other (marks : Marks listed kind table) {key : RecordKey} (different : kind ≠ key.1)
    : Marks (key :: listed) kind table := by
  intro i
  rw [List.mem_cons, marks i]
  constructor
  · intro given
    rcases given with same | there
    · exact absurd (congrArg Prod.fst same) different
    · exact there
  · exact .inr

end Marks

namespace Restoring

variable {α β : Type} {s : Restored}

-----------------------------------------------------------------------------------------
-- Passes
-----------------------------------------------------------------------------------------

/-- A pass keeps what each of its steps keeps, by induction on the members. -/
theorem eachFrom_induction {step : Nat → α → Restoring Unit} {items : List α} {start : Nat}
    {P : Nat → Restored → Prop}
    (each : ∀ i a s, items[i]? = some a → P (start + i) s
      → ∃ s', (step (start + i) a).run s = .ok () s' ∧ P (start + i + 1) s')
    (first : P start s)
    : ∃ s', (eachFrom step start items).run s = .ok () s' ∧ P (start + items.length) s' := by
  induction items generalizing start s with
  | nil => exact ⟨s, rfl, first⟩
  | cons a rest ih =>
      obtain ⟨s₁, done, next⟩ := each 0 a s rfl first
      have others (i b s) (found : rest[i]? = some b) (holds : P (start + 1 + i) s)
          : ∃ s', (step (start + 1 + i) b).run s = .ok () s' ∧ P (start + 1 + i + 1) s' := by
        have shifted : start + 1 + i = start + (i + 1) := by omega
        rw [shifted] at holds ⊢
        exact each (i + 1) b s found holds
      obtain ⟨s₂, doneAll, last⟩ := ih others next
      refine ⟨s₂, ?_, ?_⟩
      · simp only [eachFrom, EStateM.run_bind]
        rw [Nat.add_zero] at done
        rw [done]
        exact doneAll
      · rw [List.length_cons]
        have shifted : start + (rest.length + 1) = start + 1 + rest.length := by omega
        rwa [shifted]

/-- A collecting pass keeps what each of its steps keeps, by induction on the members. -/
theorem collectFrom_induction {step : Nat → α → Restoring β} {items : List α} {done : List β}
    {P : List β → Restored → Prop}
    (each : ∀ more a s, items[more.length]? = some a → P (done.reverse ++ more) s
      → ∃ b s', (step (done.length + more.length) a).run s = .ok b s'
        ∧ P (done.reverse ++ (more ++ [b])) s')
    (first : P done.reverse s)
    : ∃ more s', (collectFrom step done.length done items).run s = .ok (more.reverse ++ done) s'
      ∧ more.length = items.length ∧ P (done.reverse ++ more) s' := by
  induction items generalizing done s with
  | nil => exact ⟨[], s, rfl, rfl, by simpa using first⟩
  | cons a rest ih =>
      obtain ⟨b, s₁, ran, next⟩ := each [] a s rfl (by simpa using first)
      have others (more c s) (found : rest[more.length]? = some c)
          (holds : P ((b :: done).reverse ++ more) s)
          : ∃ d s', (step ((b :: done).length + more.length) c).run s = .ok d s'
            ∧ P ((b :: done).reverse ++ (more ++ [d])) s' := by
        have spread : (b :: done).reverse ++ more = done.reverse ++ (b :: more) := by simp
        have count : (b :: done).length + more.length = done.length + (b :: more).length := by
          simp only [List.length_cons]
          omega
        rw [spread] at holds
        obtain ⟨d, s', ran, next⟩ := each (b :: more) c s (by simpa using found) holds
        exact ⟨d, s', by rw [count]; exact ran, by simpa using next⟩
      obtain ⟨more, s₂, ranAll, length, last⟩ := ih others (by simpa using next)
      refine ⟨b :: more, s₂, ?_, by simp [length], by simpa using last⟩
      simp only [collectFrom, EStateM.run_bind]
      simp only [List.length_nil, Nat.add_zero] at ran
      rw [ran]
      simpa using ranAll

/-- Induction on the records that are collected. -/
theorem collect_induction {step : Nat → α → Restoring β} {items : List α}
    {P : List β → Restored → Prop}
    (each : ∀ done a s, items[done.length]? = some a → P done s
      → ∃ b s', (step done.length a).run s = .ok b s' ∧ P (done ++ [b]) s')
    (first : P [] s)
    : ∃ results s', (collect step items).run s = .ok results s'
      ∧ results.length = items.length ∧ P results s' := by
  have each' (more a s) (found : items[more.length]? = some a) (holds : P ([].reverse ++ more) s)
      : ∃ b s', (step (([] : List β).length + more.length) a).run s = .ok b s'
        ∧ P ([].reverse ++ (more ++ [b])) s' := by
    simpa using each more a s found (by simpa using holds)
  obtain ⟨results, s', ran, length, last⟩ := collectFrom_induction each' first
  refine ⟨results, s', ?_, length, last⟩
  simp only [List.append_nil, List.length_nil] at ran
  rw [collect, EStateM.run_bind, ran]
  simp

-----------------------------------------------------------------------------------------
-- What is kept through the passes over routines and arrays
-----------------------------------------------------------------------------------------

/-- The missing entries are listed once each, and the records could not have been loaded. -/
structure Listing (charset : Charset) (file : ObjectFile) (s : Restored) : Prop where
  nodup : s.listed.Nodup
  routines : Marks s.listed .routine s.routines
  arrays : Marks s.listed .array s.arrays
  unloadable : ∀ key ∈ s.listed, file.Unloadable charset key

/-- No process has been tried yet. -/
structure Accounted (charset : Charset) (file : ObjectFile) (s : Restored) : Prop
    extends Listing charset file s where
  processes : ∀ i, (.process, i) ∉ s.listed

/-- A record is put among the skipped ones. -/
def withSkipped (s : Restored) (kind : RecordKind) (index : Nat) (reason : Fault) : Restored :=
  { s with skipped := ⟨kind, index, reason⟩ :: s.skipped }

/-- When malformed records are skipped, a record that fails to load is listed and leaves nothing
else behind than what it has added to the heap.
-/
theorem run_accept (kind : RecordKind) (index : Nat) (load : Restoring α) (s : Restored)
    : (accept .skipMalformed kind index load).run s
      = match load.run s with
        | .ok a s' => .ok (some a) s'
        | .error fault s' => .ok none (withSkipped s' kind index fault) := by
  simp only [accept, EStateM.run_bind, EStateM.run_get]
  cases load.run s <;> rfl

section

variable {charset : Charset} {file : ObjectFile} {reason : Fault} {h : Heap}

/-- What has been loaded has a place in the tables. -/
theorem within_of_resolved {item : Item} (resolved : item.Resolved s.routineAt s.arrayAt)
    : item.Within s.routines.size s.arrays.size := by
  cases item with
  | plain v => trivial
  | routine number | array number => exact lt_of_entry resolved

theorem Accounted.withHeap (accounted : Accounted charset file s) (h : Heap)
    : Accounted charset file (withHeap s h) :=
  { accounted with }

/-- A record of the next number gets an entry. -/
theorem Accounted.push_routine (accounted : Accounted charset file s) (r : RoutineId)
    : Accounted charset file { s with routines := s.routines.push (some r) } :=
  { accounted with routines := accounted.routines.push_some r }

private theorem Accounted.push_array (accounted : Accounted charset file s) (a : ArrayId)
    : Accounted charset file { s with arrays := s.arrays.push (some a) } :=
  { accounted with arrays := accounted.arrays.push_some a }

/-- Listing one more record that is not listed yet and cannot be loaded. -/
theorem Accounted.list {kind : RecordKind} {index : Nat} {routines : Array (Option RoutineId)}
    {arrays : Array (Option ArrayId)} (accounted : Accounted charset file s)
    (unloadable : file.Unloadable charset (kind, index)) (new : (kind, index) ∉ s.listed)
    (inRoutines : Marks ((kind, index) :: s.listed) .routine routines)
    (inArrays : Marks ((kind, index) :: s.listed) .array arrays)
    (process : kind ≠ .process)
    : Accounted charset file { withSkipped s kind index reason with routines, arrays } where
  nodup := List.nodup_cons.mpr ⟨new, accounted.nodup⟩
  routines := inRoutines
  arrays := inArrays
  processes i member := by
    rcases List.mem_cons.mp member with same | there
    · exact process (congrArg Prod.fst same).symm
    · exact accounted.processes i there
  unloadable key member := by
    rcases List.mem_cons.mp member with rfl | there
    · exact unloadable
    · exact accounted.unloadable key there

/-- A record of the next number is skipped. -/
theorem Accounted.skip_routine (accounted : Accounted charset file s)
    (unloadable : file.Unloadable charset (.routine, s.routines.size))
    : Accounted charset file
        { withSkipped s .routine s.routines.size reason with routines := s.routines.push none } :=
  accounted.list unloadable accounted.routines.not_new accounted.routines.push_none
    (accounted.arrays.other (by simp)) (by simp)

/-- An array that cannot be loaded may be skipped. -/
theorem Accounted.skip_array (accounted : Accounted charset file s)
    (unloadable : file.Unloadable charset (.array, s.arrays.size))
    : Accounted charset file
        { withSkipped s .array s.arrays.size reason with arrays := s.arrays.push none } :=
  accounted.list unloadable accounted.arrays.not_new (accounted.routines.other (by simp))
    accounted.arrays.push_none (by simp)

/-- A record that has an entry is skipped later. -/
theorem Accounted.drop_routine {i : Nat} (accounted : Accounted charset file s)
    (present : (s.routineAt i).isSome) (unloadable : file.Unloadable charset (.routine, i))
    : Accounted charset file
        { withSkipped s .routine i reason with routines := s.routines.setIfInBounds i none } := by
  have inside : i < s.routines.size := lt_of_entry present
  exact accounted.list unloadable (accounted.routines.not_present present)
    (accounted.routines.clear inside) (accounted.arrays.other (by simp)) (by simp)

/-- An array that is there may be dropped if it cannot be loaded after all. -/
theorem Accounted.drop_array {i : Nat} (accounted : Accounted charset file s)
    (present : (s.arrayAt i).isSome) (unloadable : file.Unloadable charset (.array, i))
    : Accounted charset file
        { withSkipped s .array i reason with arrays := s.arrays.setIfInBounds i none } := by
  have inside : i < s.arrays.size := lt_of_entry present
  exact accounted.list unloadable (accounted.arrays.not_present present)
    (accounted.routines.other (by simp)) (accounted.arrays.clear inside) (by simp)

/-- A segment that holds what it says with references inside the tables, but is not ready, refers to
a listed record.
-/
theorem Listing.unready {key : RecordKey} {seg : Segment} (accounted : Listing charset file s)
    (held : seg ∈ file.segments key)
    (made : seg.WellMade charset s.routines.size s.arrays.size)
    (unready : ¬ ∃ items, Ready charset s seg items)
    : file.Unloadable charset key := by
  obtain ⟨items, parsed, within⟩ := made
  have some : ∃ item ∈ items, ¬ item.Resolved s.routineAt s.arrayAt := by
    by_contra none
    refine unready ⟨items, parsed, fun item member => ?_⟩
    by_contra unresolved
    exact none ⟨item, member, unresolved⟩
  obtain ⟨item, member, unresolved⟩ := some
  cases item with
  | plain v => exact absurd trivial unresolved
  | routine number =>
      have missing : s.routines[number]?.join = none := by
        simpa [Item.Resolved, Restored.routineAt] using unresolved
      have listed := (accounted.routines number).mpr ⟨within _ member, missing⟩
      exact .dependent (.routine held parsed member) (accounted.unloadable _ listed)
  | array number =>
      have missing : s.arrays[number]?.join = none := by
        simpa [Item.Resolved, Restored.arrayAt] using unresolved
      have listed := (accounted.arrays number).mpr ⟨within _ member, missing⟩
      exact .dependent (.array held parsed member) (accounted.unloadable _ listed)

end

-----------------------------------------------------------------------------------------
-- Making the arrays
-----------------------------------------------------------------------------------------

/-- An array has the shape of its record, and all its cells are null. -/
def IsShell (file : ObjectFile) (h : Heap) (i : Nat) (a : ArrayId) : Prop :=
  ∃ record, file.arrays[i]? = some record ∧ record.dims ≠ []
    ∧ Grid.fits 1 (record.dims.map UInt32.toNat) = true
    ∧ h.arrays[a.index]?
      = some ⟨record.dims.map UInt32.toNat,
          Array.replicate (volume (record.dims.map UInt32.toNat)) .null⟩

/-- Every entry of the table of arrays is an array of its own with the shape of its record. -/
structure Shelled (charset : Charset) (file : ObjectFile) (s : Restored) : Prop where
  accounted : Accounted charset file s
  routines : s.routines = #[]
  shell : ∀ i a, s.arrayAt i = some a → IsShell file s.heap i a
  distinct : Distinct s.arrays

/-- One more record of an array is dealt with: its array is made, or the record is skipped. -/
theorem shelled_enterShell {charset : Charset} {file : ObjectFile} {i : Nat} {record : ArrayRecord}
    (found : file.arrays[i]? = some record) (shelled : Shelled charset file s)
    (size : s.arrays.size = i)
    : ∃ s', (enterShell .skipMalformed i record).run s = .ok () s'
      ∧ Shelled charset file s' ∧ s'.arrays.size = i + 1 := by
  simp only [enterShell, EStateM.run_bind, run_accept, run_shell]
  subst size
  cases made : Grid.new (record.dims.map UInt32.toNat) with
  | ok g =>
      obtain ⟨dims, fits, rfl⟩ := Grid.new_eq_ok.mp made
      refine ⟨_, rfl, ⟨?_, shelled.routines, ?_, ?_⟩, Array.size_push ..⟩
      · exact (shelled.accounted.withHeap _).push_array _
      · intro j a entry
        rcases entry_of_push entry with ⟨rfl, same⟩ | earlier
        · cases same
          exact ⟨record, found, by simpa using dims, fits, by simp [withHeap]⟩
        · obtain ⟨other, present, shape, fits, cells⟩ := shelled.shell j a earlier
          refine ⟨other, present, shape, fits, ?_⟩
          have inside := (Array.getElem?_eq_some_iff.mp cells).1
          simp only [withHeap]
          rw [Array.getElem?_push_lt inside, ← cells, Array.getElem?_eq_getElem inside]
      · refine shelled.distinct.push_some fun j entry => ?_
        obtain ⟨_, -, -, -, cells⟩ := shelled.shell j _ entry
        simp at cells
  | error f =>
      refine ⟨_, rfl, ⟨?_, shelled.routines, ?_, ?_⟩, Array.size_push ..⟩
      · refine shelled.accounted.skip_array (.malformed ?_ ?_)
        · exact (List.getElem?_eq_some_iff.mp found).1
        · intro given
          obtain ⟨same, again, sound, -⟩ := given
          rw [found] at again
          cases again
          have fine := Grid.new_eq_ok.mpr ⟨by simpa using sound.dims, sound.fits, rfl⟩
          rw [made] at fine
          cases fine
      · intro j a entry
        rcases entry_of_push entry with ⟨-, same⟩ | earlier
        · cases same
        · exact shelled.shell j a earlier
      · exact shelled.distinct.push_none

/-- The pass over the arrays gives an array to every record whose shape allows it. -/
theorem shells (charset : Charset) (file : ObjectFile) (h : Heap)
    : ∃ s, (eachFrom (enterShell .skipMalformed) 0 file.arrays).run { heap := h } = .ok () s
      ∧ Shelled charset file s ∧ s.arrays.size = file.arrays.length := by
  have start : Shelled charset file { heap := h } := by
    refine ⟨⟨⟨by simp [Restored.listed], ?_, ?_, ?_⟩, ?_⟩, rfl, ?_, ?_⟩
    all_goals simp [Marks, Distinct, Restored.listed, Restored.arrayAt]
  have pass : ∃ s, (eachFrom (enterShell .skipMalformed) 0 file.arrays).run { heap := h } = .ok () s
      ∧ Shelled charset file s ∧ s.arrays.size = 0 + file.arrays.length := by
    refine eachFrom_induction (P := fun i s => Shelled charset file s ∧ s.arrays.size = i) ?_
      ⟨start, rfl⟩
    intro i record s found holds
    rw [Nat.zero_add] at holds ⊢
    exact shelled_enterShell found holds.1 holds.2
  simpa using pass

-----------------------------------------------------------------------------------------
-- Loading the routines
-----------------------------------------------------------------------------------------

/-- While routines are loaded, the arrays stay as they were made. Every entry of the table of routines
is a routine of its own, loaded from its record, with the references that were collected. Its
literals refer to earlier routines and to arrays that were made.
-/
structure Compiled (charset : Charset) (file : ObjectFile) (made : Restored)
    (references : List References) (s : Restored) : Prop where
  accounted : Accounted charset file s
  arrays : s.arrays = made.arrays
  grids : s.heap.arrays = made.heap.arrays
  size : s.routines.size = references.length
  entry : ∀ i r, s.routineAt i = some r → ∃ record items,
    file.routines[i]? = some record ∧ record.Sound
    ∧ record.literals.items? charset = some items
    ∧ references[i]? = some (referencesOf items)
    ∧ (∀ item ∈ items, item.Within i made.arrays.size)
    ∧ RoutineDenotes charset s.routineAt s.arrayAt s.heap record r
  distinct : Distinct s.routines

/-- A pass goes on with one more entry, or a gap, behind those that are there. Callables and routines
may have been added to the heap.
-/
theorem Compiled.extend {charset : Charset} {file : ObjectFile} {made : Restored}
    {references : List References} {refs : References} {entry : Option RoutineId} {s' : Restored}
    (compiled : Compiled charset file made references s) (accounted : Accounted charset file s')
    (pushed : s'.routines = s.routines.push entry) (arrays : s'.arrays = s.arrays)
    (grids : s'.heap.arrays = s.heap.arrays) (callables : s.heap.KeepsCallables s'.heap)
    (kept : ∀ (i : Nat) routine,
      s.heap.routines[i]? = some routine → s'.heap.routines[i]? = some routine)
    (distinct : Distinct s'.routines)
    (last : ∀ r, entry = some r → ∃ record items,
      file.routines[references.length]? = some record ∧ record.Sound
      ∧ record.literals.items? charset = some items ∧ refs = referencesOf items
      ∧ (∀ item ∈ items, item.Within references.length made.arrays.size)
      ∧ RoutineDenotes charset s'.routineAt s'.arrayAt s'.heap record r)
    : Compiled charset file made (references ++ [refs]) s' := by
  have more (n : Nat) (r : RoutineId) (earlier : s.routineAt n = some r)
      : s'.routineAt n = some r := by
    rw [Restored.routineAt, pushed]
    exact entry_push earlier
  have same : s'.arrayAt = s.arrayAt := by
    funext i
    rw [Restored.arrayAt, arrays, Restored.arrayAt]
  refine ⟨accounted, arrays.trans compiled.arrays, grids.trans compiled.grids, ?_, ?_, distinct⟩
  · rw [pushed, Array.size_push, compiled.size, List.length_append, List.length_singleton]
  · intro i r found
    rw [Restored.routineAt, pushed] at found
    rcases entry_of_push found with ⟨rfl, new⟩ | earlier
    · obtain ⟨record, items, there, sound, parsed, rfl, within, denotes⟩ := last r new
      rw [compiled.size]
      exact ⟨record, items, there, sound, parsed, by simp, within, denotes⟩
    · obtain ⟨record, items, there, sound, parsed, known, within, denotes⟩ :=
        compiled.entry i r earlier
      refine ⟨record, items, there, sound, parsed, getElem?_append_of_some known, within, ?_⟩
      refine denotes.mono more ?_ callables (kept _)
      intro n a found
      rwa [same]

/-- One more record of a routine is dealt with: its routine is made, or the record is skipped. -/
theorem compiled_enterRoutine {charset : Charset} {file : ObjectFile} {made : Restored}
    {references : List References} {record : RoutineRecord}
    (found : file.routines[references.length]? = some record)
    (whole : made.arrays.size = file.arrays.length)
    (compiled : Compiled charset file made references s)
    : ∃ refs s', (enterRoutine .skipMalformed charset references.length record).run s = .ok refs s'
      ∧ Compiled charset file made (references ++ [refs]) s' := by
  simp only [enterRoutine, EStateM.run_bind, run_accept]
  rcases routine_cases charset record s with
    ⟨code, items, values, h', bytes, sound, ⟨parsed, resolved⟩, done, grown, denotes⟩
    | ⟨unready, fault, h', failed, grown⟩
  · rw [done]
    refine ⟨referencesOf items, _, rfl, ?_⟩
    refine compiled.extend ((compiled.accounted.withHeap _).push_routine _) rfl rfl grown.arrays
      grown.callables ?_ ?_ ?_
    · intro i routine stored
      simp only [withHeap]
      rw [grown.routines, Array.getElem?_push_lt (Array.getElem?_eq_some_iff.mp stored).1,
        ← Array.getElem?_eq_getElem, stored]
    · refine compiled.distinct.push_some fun j entry => ?_
      obtain ⟨_, _, -, -, -, -, -, _, _, _, -, -, stored, -⟩ := compiled.entry j _ entry
      simp [grown.routines] at stored
    · intro r new
      cases new
      refine ⟨record, items, found, sound, parsed, rfl, ?_, code, items, values, bytes, parsed,
        by simp [withHeap], ?_⟩
      · intro item member
        rw [← compiled.arrays, ← compiled.size]
        exact within_of_resolved (resolved item member)
      · exact denotes.imp fun _ _ one =>
          one.mono (fun _ _ earlier => entry_push earlier) (fun _ _ found => found) (.of_eq rfl)
  · rw [failed]
    refine ⟨{}, _, rfl, ?_⟩
    refine compiled.extend ?_ rfl rfl grown.arrays grown.callables ?_ compiled.distinct.push_none ?_
    · have unloadable : file.Unloadable charset (.routine, references.length) := by
        by_cases made : file.WellMade charset (.routine, references.length)
        · obtain ⟨record', again, sound, literals⟩ := made
          rw [found] at again
          cases again
          have held : record.literals ∈ file.segments (.routine, references.length) := by
            simp [ObjectFile.segments, found]
          refine compiled.accounted.unready held ?_ ?_
          · rwa [compiled.size, compiled.arrays, whole]
          · exact fun ready => unready ⟨sound, ready⟩
        · exact .malformed (List.getElem?_eq_some_iff.mp found).1 made
      rw [← compiled.size] at unloadable ⊢
      exact (compiled.accounted.withHeap h').skip_routine unloadable
    · intro i routine stored
      simp only [withSkipped, withHeap]
      rw [grown.routines, stored]
    · intro r new
      cases new

/-- The pass over the routines, after the arrays have been made. -/
theorem compiles {charset : Charset} {file : ObjectFile} (shelled : Shelled charset file s)
    (whole : s.arrays.size = file.arrays.length)
    : ∃ references s', (collect (enterRoutine .skipMalformed charset) file.routines).run s
          = .ok references s'
        ∧ references.length = file.routines.length
        ∧ Compiled charset file s references s' := by
  refine collect_induction (P := Compiled charset file s) ?_ ?_
  · intro references record s' found compiled
    exact compiled_enterRoutine found whole compiled
  · refine ⟨shelled.accounted, rfl, rfl, by simp [shelled.routines], ?_, ?_⟩
    · intro i r entry
      simp [Restored.routineAt, shelled.routines] at entry
    · rw [shelled.routines]
      intro i j a entry
      simp at entry

-----------------------------------------------------------------------------------------
-- Filling the arrays
-----------------------------------------------------------------------------------------

/-- While arrays are filled, the routines stay as they were loaded, and entries of the table of arrays
only disappear. The arrays of the first records that have been passed are filled from their records,
with the references that were collected; the others are as they were made.
-/
structure Filled (charset : Charset) (file : ObjectFile) (compiled : Restored)
    (references : List References) (s : Restored) : Prop where
  accounted : Accounted charset file s
  routines : s.routines = compiled.routines
  compiledRoutines : s.heap.routines = compiled.heap.routines
  callables : compiled.heap.KeepsCallables s.heap
  size : s.arrays.size = compiled.arrays.size
  before : ∀ i a, s.arrayAt i = some a → compiled.arrayAt i = some a
  distinct : Distinct s.arrays
  filled : ∀ i a, i < references.length → s.arrayAt i = some a → ∃ record items,
    file.arrays[i]? = some record ∧ record.Sound
    ∧ record.elements.items? charset = some items
    ∧ references[i]? = some (referencesOf items)
    ∧ (∀ item ∈ items, item.Within compiled.routines.size compiled.arrays.size)
    ∧ ArrayDenotes charset compiled.routineAt compiled.arrayAt s.heap record a
  shells : ∀ i a, references.length ≤ i → s.arrayAt i = some a → IsShell file s.heap i a

/-- A pass goes on when all arrays but the one at hand have stayed as they were, and that one has been
filled or is missing.
-/
theorem Filled.extend {charset : Charset} {file : ObjectFile} {compiled : Restored}
    {references : List References} {refs : References} {s' : Restored}
    (filled : Filled charset file compiled references s) (accounted : Accounted charset file s')
    (routines : s'.routines = s.routines) (compiledRoutines : s'.heap.routines = s.heap.routines)
    (callables : s.heap.KeepsCallables s'.heap) (size : s'.arrays.size = s.arrays.size)
    (before : ∀ i a, s'.arrayAt i = some a → s.arrayAt i = some a) (distinct : Distinct s'.arrays)
    (others : ∀ i a, i ≠ references.length → s'.arrayAt i = some a →
      s'.heap.arrays[a.index]? = s.heap.arrays[a.index]?)
    (last : ∀ a, s'.arrayAt references.length = some a → ∃ record items,
      file.arrays[references.length]? = some record ∧ record.Sound
      ∧ record.elements.items? charset = some items ∧ refs = referencesOf items
      ∧ (∀ item ∈ items, item.Within compiled.routines.size compiled.arrays.size)
      ∧ ArrayDenotes charset compiled.routineAt compiled.arrayAt s'.heap record a)
    : Filled charset file compiled (references ++ [refs]) s' := by
  have length : (references ++ [refs]).length = references.length + 1 := by simp
  refine ⟨accounted, routines.trans filled.routines, compiledRoutines.trans filled.compiledRoutines,
    filled.callables.trans callables, size.trans filled.size, ?_, distinct, ?_, ?_⟩
  · exact fun i a entry => filled.before i a (before i a entry)
  · intro i a inside entry
    rw [length] at inside
    by_cases here : i = references.length
    · subst here
      obtain ⟨record, items, there, sound, parsed, rfl, within, denotes⟩ := last a entry
      exact ⟨record, items, there, sound, parsed, by simp, within, denotes⟩
    · obtain ⟨record, items, there, sound, parsed, known, within, denotes⟩ :=
        filled.filled i a (by omega) (before i a entry)
      refine ⟨record, items, there, sound, parsed, getElem?_append_of_some known, within, ?_⟩
      refine denotes.mono (fun _ _ entry => entry) (fun _ _ entry => entry) callables ?_
      intro g stored
      rw [others i a here entry, stored]
  · intro i a outside entry
    rw [length] at outside
    obtain ⟨record, there, dims, fits, cells⟩ := filled.shells i a (by omega) (before i a entry)
    exact ⟨record, there, dims, fits, by rw [others i a (by omega) entry, cells]⟩

/-- The array at hand is filled from its record. -/
theorem Filled.fill {charset : Charset} {file : ObjectFile} {compiled : Restored}
    {references : List References} {record : ArrayRecord} {id : ArrayId} {items : List Item}
    {values : List Value} {h' : Heap} (filled : Filled charset file compiled references s)
    (found : file.arrays[references.length]? = some record)
    (present : s.arrayAt references.length = some id) (sound : record.Sound)
    (parsed : record.elements.items? charset = some items)
    (resolved : ∀ item ∈ items, item.Resolved s.routineAt s.arrayAt) (grown : s.heap.Grown h')
    (shape : s.heap.arrays[id.index]?
      = some { s.heap.grid id with dims := record.dims.map UInt32.toNat })
    (denotes : List.Forall₂ (Item.Denotes s.routineAt s.arrayAt h') items values)
    : Filled charset file compiled (references ++ [referencesOf items])
        (withHeap s (h'.setGrid id { s.heap.grid id with cells := values.toArray })) := by
  refine filled.extend (filled.accounted.withHeap _) rfl grown.routines grown.callables rfl
    (fun _ _ entry => entry) filled.distinct ?_ ?_
  · intro i a different entry
    have apart : id.index ≠ a.index := by
      intro same
      have equal : id = a := by
        cases id
        cases a
        cases same
        rfl
      subst equal
      exact different (filled.distinct _ _ _ entry present)
    simp only [withHeap, Heap.setGrid, grown.arrays]
    exact Array.getElem?_setIfInBounds_ne apart
  · intro a entry
    have same := Option.some.inj (present.symm.trans entry)
    subst same
    have dims : (s.heap.grid id).dims = record.dims.map UInt32.toNat := by
      conv => lhs; rw [Heap.grid, shape, Option.getD_some]
    refine ⟨record, items, found, sound, parsed, rfl, ?_, items, values, parsed, ?_, ?_⟩
    · intro item member
      rw [← filled.routines, ← filled.size]
      exact within_of_resolved (resolved item member)
    · have inside := (Array.getElem?_eq_some_iff.mp shape).1
      simp only [withHeap, Heap.setGrid, dims, grown.arrays]
      rw [Array.getElem?_setIfInBounds_self_of_lt inside]
    · refine denotes.imp fun _ _ one => one.mono ?_ filled.before (.of_eq rfl)
      intro n r entry
      simp only [Restored.routineAt] at entry ⊢
      rwa [← filled.routines]

/-- The array at hand is dropped because its record cannot be loaded. -/
theorem Filled.drop {charset : Charset} {file : ObjectFile} {compiled : Restored}
    {references : List References} {id : ArrayId} {fault : Fault} {h' : Heap}
    (filled : Filled charset file compiled references s)
    (present : s.arrayAt references.length = some id)
    (unloadable : file.Unloadable charset (.array, references.length)) (grown : s.heap.Grown h')
    : Filled charset file compiled (references ++ [({} : References)])
        { withSkipped (withHeap s h') .array references.length fault with
          arrays := s.arrays.setIfInBounds references.length none } := by
  refine filled.extend ?_ rfl grown.routines grown.callables Array.size_setIfInBounds ?_
    (filled.distinct.clear _) ?_ ?_
  · exact (filled.accounted.withHeap h').drop_array (Option.isSome_iff_exists.mpr ⟨id, present⟩)
      unloadable
  · exact fun i a entry => (entry_of_clear entry).2
  · intro i a _ _
    simp only [withSkipped, withHeap]
    rw [grown.arrays]
  · intro a entry
    exact absurd rfl (entry_of_clear entry).1

/-- One more record of an array is dealt with: its array is filled, or the record is skipped. -/
theorem filled_enterElements {charset : Charset} {file : ObjectFile} {compiled : Restored}
    {references : List References} {record : ArrayRecord}
    (found : file.arrays[references.length]? = some record)
    (whole : compiled.arrays.size = file.arrays.length)
    (wholeRoutines : compiled.routines.size = file.routines.length)
    (filled : Filled charset file compiled references s)
    : ∃ refs s', (enterElements .skipMalformed charset references.length record).run s = .ok refs s'
      ∧ Filled charset file compiled (references ++ [refs]) s' := by
  simp only [enterElements, EStateM.run_bind, EStateM.run_get]
  cases present : s.arrays[references.length]?.join with
  | none =>
      refine ⟨{}, s, rfl, ?_⟩
      refine filled.extend filled.accounted rfl rfl (.of_eq rfl) rfl (fun _ _ entry => entry)
        filled.distinct (fun _ _ _ _ => rfl) ?_
      intro a entry
      rw [Restored.arrayAt, present] at entry
      cases entry
  | some id =>
      obtain ⟨_, again, dims, fits, cells⟩ := filled.shells _ id (Nat.le_refl _) present
      rw [found] at again
      cases again
      have shape : s.heap.grid id = ⟨record.dims.map UInt32.toNat,
          Array.replicate (volume (record.dims.map UInt32.toNat)) .null⟩ := by
        rw [Heap.grid, cells, Option.getD_some]
      have size : (s.heap.grid id).size = volume (record.dims.map UInt32.toNat) := by
        rw [shape, Grid.size, Array.size_replicate]
      simp only [EStateM.run_bind, run_accept]
      rcases elements_cases charset id record s with
        ⟨items, values, h', ⟨parsed, resolved⟩, full, done, grown, denotes⟩
        | ⟨unready, fault, h', failed, grown⟩
      · rw [done]
        have sound : record.Sound := ⟨by simpa using dims, fits, full.trans size⟩
        refine ⟨_, _, rfl, filled.fill found present sound parsed resolved grown ?_ denotes⟩
        rw [shape, cells]
      · rw [failed]
        have unloadable : file.Unloadable charset (.array, references.length) := by
          by_cases made : file.WellMade charset (.array, references.length)
          · obtain ⟨record', again, sound, elements⟩ := made
            rw [found] at again
            cases again
            have held : record.elements ∈ file.segments (.array, references.length) := by
              simp [ObjectFile.segments, found]
            refine filled.accounted.unready held ?_ ?_
            · rwa [filled.routines, wholeRoutines, filled.size, whole]
            · exact fun ready => unready ⟨sound.count.trans size.symm, ready⟩
          · exact .malformed (List.getElem?_eq_some_iff.mp found).1 made
        exact ⟨_, _, rfl, filled.drop present unloadable grown⟩

/-- The pass over the elements of the arrays, after the routines have been loaded. -/
theorem fills {charset : Charset} {file : ObjectFile} {made : Restored}
    {references : List References} (shelled : Shelled charset file made)
    (whole : made.arrays.size = file.arrays.length)
    (compiled : Compiled charset file made references s)
    (wholeRoutines : references.length = file.routines.length)
    : ∃ arrayReferences s', (collect (enterElements .skipMalformed charset) file.arrays).run s
          = .ok arrayReferences s'
        ∧ arrayReferences.length = file.arrays.length
        ∧ Filled charset file s arrayReferences s' := by
  refine collect_induction (P := Filled charset file s) ?_ ?_
  · intro done record s' found filled
    refine filled_enterElements found ?_ ?_ filled
    · rw [compiled.arrays, whole]
    · rw [compiled.size, wholeRoutines]
  · refine ⟨compiled.accounted, rfl, rfl, .of_eq rfl, rfl, fun _ _ entry => entry, ?_, ?_, ?_⟩
    · rw [compiled.arrays]
      exact shelled.distinct
    · intro i a inside
      exact absurd inside (Nat.not_lt_zero i)
    · intro i a _ entry
      simp only [Restored.arrayAt, compiled.arrays] at entry
      obtain ⟨record, there, dims, fits, cells⟩ := shelled.shell i a entry
      exact ⟨record, there, dims, fits, by rw [compiled.grids, cells]⟩

end Restoring
end TaskMachine
