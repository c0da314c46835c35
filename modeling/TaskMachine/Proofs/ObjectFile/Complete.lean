import TaskMachine.Proofs.ObjectFile.RoundTrip

/-!
Strict loading leaves nothing out. A file that is loaded strictly has no record that fails its
checks, so everything in it is restored.
-/

namespace TaskMachine

namespace Restoring

variable {α β : Type} {charset : Charset} {file : ObjectFile} {s s' : Restored}

-----------------------------------------------------------------------------------------
-- Steps that report nothing
-----------------------------------------------------------------------------------------

/-- If the step completes, it has put nothing into the report. -/
def Silent (x : Restoring α) : Prop :=
  ∀ s a s', x.run s = .ok a s' → s'.skipped = s.skipped

theorem Silent.pure (a : α) : Silent (pure a) := by
  intro s b s' done
  cases done
  rfl

theorem Silent.get : Silent get := by
  intro s b s' done
  cases done
  rfl

theorem Silent.modify {f : Restored → Restored} (kept : ∀ s, (f s).skipped = s.skipped)
    : Silent (modify f) := by
  intro s b s' done
  cases done
  exact kept s

theorem Silent.bind {x : Restoring α} {f : α → Restoring β} (first : Silent x)
    (next : ∀ a, Silent (f a))
    : Silent (x >>= f) := by
  intro s b s' done
  obtain ⟨a, s₁, ran, done⟩ := run_bind_eq_ok.mp done
  rw [next a _ _ _ done, first _ _ _ ran]

/-- A record that is accepted strictly is not reported. -/
theorem silent_accept (kind : RecordKind) (index : Nat) {load : Restoring α}
    (kept : ∀ s, (stateOf (load.run s)).skipped = s.skipped)
    : Silent (accept .strict kind index load) := by
  intro s a s' done
  have same := kept s
  rw [run_accept_strict] at done
  split at done
  · rename_i ran
    cases done
    rwa [ran] at same
  · cases done

/-- Records that are loaded in silence one by one are so all together. -/
theorem silent_eachFrom {step : Nat → α → Restoring Unit} (each : ∀ index a, Silent (step index a))
    (start : Nat) (items : List α)
    : Silent (eachFrom step start items) := by
  induction items generalizing start with
  | nil => exact .pure ()
  | cons a rest ih => exact .bind (each start a) fun _ => ih (start + 1)

/-- A pass whose steps change nothing changes nothing. -/
theorem run_eachFrom_same {step : Nat → α → Restoring Unit} {start : Nat} {items : List α}
    (same : ∀ i a, items[i]? = some a → (step (start + i) a).run s = .ok () s)
    : (eachFrom step start items).run s = .ok () s := by
  obtain ⟨s', ran, rfl⟩
      : ∃ s', (eachFrom step start items).run s = .ok () s' ∧ s = s' := by
    refine eachFrom_induction (P := fun _ s' => s = s') ?_ rfl
    rintro i a _ found rfl
    exact ⟨s, same i a found, rfl⟩
  exact ran

private theorem silent_collect {step : Nat → α → Restoring β} (each : ∀ index a, Silent (step index a))
    (items : List α)
    : Silent (collect step items) := by
  have from_ (start : Nat) (done : List β) : Silent (collectFrom step start done items) := by
    induction items generalizing start done with
    | nil => exact .pure _
    | cons a rest ih => exact .bind (each start a) fun b => ih (start + 1) (b :: done)
  exact .bind (from_ 0 []) fun _ => .pure _

private theorem silent_enterShell (index : Nat) (record : ArrayRecord)
    : Silent (enterShell .strict index record) :=
  .bind (silent_accept _ _ (skipped_shell record)) fun _ => .modify fun _ => rfl

private theorem silent_enterRoutine (charset : Charset) (index : Nat) (record : RoutineRecord)
    : Silent (enterRoutine .strict charset index record) :=
  .bind (silent_accept _ _ (skipped_routine charset record)) fun _ =>
    .bind (.modify fun _ => rfl) fun _ => .pure _

/-- A strict load skips no elements, as it fails instead. -/
theorem silent_enterElements (charset : Charset) (index : Nat) (record : ArrayRecord)
    : Silent (enterElements .strict charset index record) := by
  refine .bind .get fun s => ?_
  cases s.arrays[index]?.join with
  | none => exact .pure _
  | some id =>
      refine .bind (silent_accept _ _ (skipped_elements charset id record)) fun references => ?_
      cases references with
      | some references => exact .pure _
      | none => exact .bind (.modify fun s => rfl) fun _ => .pure _

-----------------------------------------------------------------------------------------
-- Nothing is missing
-----------------------------------------------------------------------------------------

/-- If nothing is missing, nothing is dropped. -/
theorem run_dropDependents_closed {routineRefs arrayRefs : List References}
    (closed : Closed s routineRefs arrayRefs) (rounds : Nat)
    : (dropDependents routineRefs arrayRefs rounds).run s = .ok () s := by
  have routines : (eachFrom dropRoutine 0 routineRefs).run s = .ok () s := by
    refine run_eachFrom_same fun i refs found => ?_
    rcases dropRoutine_cases (0 + i) refs s with ⟨-, stays⟩ | ⟨present, reason, lacking, -⟩
    · exact stays
    · rw [Nat.zero_add] at present
      rw [closed.routines i refs found present] at lacking
      cases lacking
  have arrays : (eachFrom dropArray 0 arrayRefs).run s = .ok () s := by
    refine run_eachFrom_same fun i refs found => ?_
    rcases dropArray_cases (0 + i) refs s with ⟨-, stays⟩ | ⟨present, reason, lacking, -⟩
    · exact stays
    · rw [Nat.zero_add] at present
      rw [closed.arrays i refs found present] at lacking
      cases lacking
  cases rounds with
  | zero => rfl
  | succ rounds =>
      simp only [dropDependents, EStateM.run_bind, EStateM.run_get, routines, arrays, ne_eq,
        not_true_eq_false, if_false]
      rfl

/-- Tables without a skipped record have an entry for everything inside them. -/
theorem resolved_of_within (accounted : Accounted charset file s) (none : s.skipped = [])
    {item : Item} (within : item.Within s.routines.size s.arrays.size)
    : item.Resolved s.routineAt s.arrayAt := by
  have unlisted (key : RecordKey) : key ∉ s.listed := by simp [Restored.listed, none]
  cases item with
  | plain v => trivial
  | routine n => exact accounted.routines.entered_iff.mpr ⟨within, unlisted _⟩
  | array n => exact accounted.arrays.entered_iff.mpr ⟨within, unlisted _⟩

/-- Where nothing is skipped, no record refers to one that is missing. -/
theorem Known.closed {routineRefs arrayRefs : List References}
    (known : Known charset file s routineRefs arrayRefs) (accounted : Accounted charset file s)
    (none : s.skipped = [])
    : Closed s routineRefs arrayRefs := by
  constructor
  · intro i refs found present
    obtain ⟨r, entry⟩ := Option.isSome_iff_exists.mp present
    obtain ⟨record, items, -, -, collected, within⟩ := known.routines i r entry
    rw [found] at collected
    cases collected
    exact missing_referencesOf.mpr fun item member =>
      resolved_of_within accounted none (within item member)
  · intro i refs found present
    obtain ⟨a, entry⟩ := Option.isSome_iff_exists.mp present
    obtain ⟨record, items, -, -, collected, within⟩ := known.arrays i a entry
    rw [found] at collected
    cases collected
    exact missing_referencesOf.mpr fun item member =>
      resolved_of_within accounted none (within item member)

/-- What is loaded strictly is loaded without anything to report. The passes do what they do when
malformed records are skipped, so what is known of those passes is known here.
-/
theorem skipped_of_strict {config : Config} {h : Heap} {loaded : Loaded}
    (done : (load { config with loadPolicy := .strict } charset file).run { heap := h } = .ok loaded s)
    : s.skipped = [] := by
  obtain ⟨_, s₁, ranShells, done⟩ := run_bind_eq_ok.mp done
  obtain ⟨routineRefs, s₂, ranRoutines, done⟩ := run_bind_eq_ok.mp done
  obtain ⟨arrayRefs, s₃, ranElements, done⟩ := run_bind_eq_ok.mp done
  obtain ⟨_, s₄, ranDrop, done⟩ := run_bind_eq_ok.mp done
  obtain ⟨_, s₅, ranProcesses, done⟩ := run_bind_eq_ok.mp done
  cases done
  obtain ⟨_, again, shelled, made⟩ := shells charset file h
  rw [(mirrors_eachFrom mirrors_enterShell 0 _).completes _ _ _ ranShells] at again
  cases again
  obtain ⟨_, _, again, routinesLength, compiled⟩ := compiles shelled made
  rw [(mirrors_collect (mirrors_enterRoutine charset) _).completes _ _ _ ranRoutines] at again
  cases again
  obtain ⟨_, _, again, arraysLength, filled⟩ := fills shelled made compiled routinesLength
  rw [(mirrors_collect (mirrors_enterElements charset) _).completes _ _ _ ranElements] at again
  cases again
  have none : s₃.skipped = [] := by
    rw [silent_collect (silent_enterElements charset) _ _ _ _ ranElements,
      silent_collect (silent_enterRoutine charset) _ _ _ _ ranRoutines,
      silent_eachFrom silent_enterShell _ _ _ _ _ ranShells]
  have known := known_of_filled compiled filled made arraysLength
  rw [run_dropDependents_closed (known.closed filled.accounted none)] at ranDrop
  cases ranDrop
  rw [silent_collect (fun _ record => silent_accept _ _ (skipped_process _ charset record)) _ _ _ _
    ranProcesses, none]

end Restoring

/-- What is loaded strictly is all there is in the file. -/
theorem ObjectFile.loadable_of_strict {config : Config} {charset : Charset} {file : ObjectFile}
    {h h' : Heap} {loaded : Loaded}
    (done : file.load { config with loadPolicy := .strict } charset h = .ok (h', loaded))
    : ∀ key, ¬ file.Unloadable charset key := by
  obtain ⟨settled, results, s, base, processed, length, lenient⟩ := Restoring.load_processed
    { config with loadPolicy := .skipMalformed } rfl charset file h
  simp only [load] at done
  split at done
  · rename_i ran
    cases done
    have report := Restoring.skipped_of_strict ran
    rw [(Restoring.mirrors_load config charset file).completes _ _ _ ran] at lenient
    cases lenient
    intro key unloadable
    have listed := (processed.listed_iff base length).mpr unloadable
    simp [Restored.listed, report] at listed
  · cases done

end TaskMachine
