import TaskMachine.Proofs.ObjectFile.Passes

/-!
Loading under the strict policy. It does the same as loading with malformed records skipped, as long
as none is: the two go on in step until the first malformed record.
-/

namespace TaskMachine

namespace Restoring

variable {α β : Type}

-----------------------------------------------------------------------------------------
-- Steps that agree until a record is skipped
-----------------------------------------------------------------------------------------

/-- What the strict step completes, the lenient one completes in the same way; and what the lenient
one completes without skipping a record, so does the strict one.
-/
structure Mirrors (strict lenient : Restoring α) : Prop where
  completes : ∀ s a s', strict.run s = .ok a s' → lenient.run s = .ok a s'
  growing : ∀ s a s', lenient.run s = .ok a s' → s.skipped.length ≤ s'.skipped.length
  agrees
    : ∀ s a s',
        lenient.run s = .ok a s'
        → s'.skipped.length = s.skipped.length
        → strict.run s = .ok a s'

/-- A step for which the policy does not matter. -/
theorem Mirrors.same {x : Restoring α}
    (growing : ∀ s a s', x.run s = .ok a s' → s.skipped.length ≤ s'.skipped.length)
    : Mirrors x x :=
  ⟨fun _ _ _ done => done, growing, fun _ _ _ done _ => done⟩

theorem Mirrors.pure (a : α) : Mirrors (pure a) (pure a) :=
  .same fun s b s' done => by
    cases done
    exact Nat.le_refl _

theorem Mirrors.get : Mirrors get get :=
  .same fun s b s' done => by
    cases done
    exact Nat.le_refl _

/-- Changing what has been loaded leaves the report as it is. -/
theorem Mirrors.modify {f : Restored → Restored} (kept : ∀ s, (f s).skipped = s.skipped)
    : Mirrors (modify f) (modify f) :=
  .same fun s b s' done => by
    cases done
    exact Nat.le_of_eq (congrArg List.length (kept s)).symm

/-- Steps that agree may follow each other: if no record is skipped in both, none is in either. -/
theorem Mirrors.bind {x y : Restoring α} {f g : α → Restoring β} (first : Mirrors x y)
    (next : ∀ a, Mirrors (f a) (g a))
    : Mirrors (x >>= f) (y >>= g) where
  completes s b s' done := by
    obtain ⟨a, s₁, ran, done⟩ := run_bind_eq_ok.mp done
    exact run_bind_eq_ok.mpr ⟨a, s₁, first.completes _ _ _ ran, (next a).completes _ _ _ done⟩
  growing s b s' done := by
    obtain ⟨a, s₁, ran, done⟩ := run_bind_eq_ok.mp done
    exact Nat.le_trans (first.growing _ _ _ ran) ((next a).growing _ _ _ done)
  agrees s b s' done none := by
    obtain ⟨a, s₁, ran, done⟩ := run_bind_eq_ok.mp done
    have before := first.growing _ _ _ ran
    have after := (next a).growing _ _ _ done
    exact run_bind_eq_ok.mpr ⟨a, s₁, first.agrees _ _ _ ran (by omega),
      (next a).agrees _ _ _ done (by omega)⟩

/-- Under the strict policy a record that fails to load ends the loading. -/
theorem run_accept_strict (kind : RecordKind) (index : Nat) (load : Restoring α) (s : Restored)
    : (accept .strict kind index load).run s
      = match load.run s with
        | .ok a s' => .ok (some a) s'
        | .error fault s' =>
          .error (.badFormat s!"{kind.name} record {index}: {fault.message}") s' := by
  simp only [accept, EStateM.run_bind, EStateM.run_get]
  cases load.run s <;> rfl

/-- Records are tried in the same way. A malformed one is put into the report, or ends the loading. -/
theorem mirrors_accept (kind : RecordKind) (index : Nat) {load : Restoring α}
    (kept : ∀ s, (stateOf (load.run s)).skipped = s.skipped)
    : Mirrors (accept .strict kind index load) (accept .skipMalformed kind index load) := by
  have outcome (s : Restored)
      : (∃ a s', load.run s = .ok a s' ∧ s'.skipped = s.skipped)
        ∨ ∃ fault s', load.run s = .error fault s' ∧ s'.skipped = s.skipped := by
    have same := kept s
    cases ran : load.run s with
    | ok a s' => exact .inl ⟨a, s', rfl, by rwa [ran] at same⟩
    | error fault s' => exact .inr ⟨fault, s', rfl, by rwa [ran] at same⟩
  constructor
  · intro s a s' done
    rw [run_accept_strict] at done
    rw [run_accept]
    rcases outcome s with ⟨b, s₁, ran, -⟩ | ⟨fault, s₁, failed, -⟩
    · rw [ran] at done ⊢
      exact done
    · rw [failed] at done
      cases done
  · intro s a s' done
    rw [run_accept] at done
    rcases outcome s with ⟨b, s₁, ran, report⟩ | ⟨fault, s₁, failed, report⟩
    · rw [ran] at done
      cases done
      exact Nat.le_of_eq (congrArg List.length report.symm)
    · rw [failed] at done
      cases done
      rw [withSkipped, List.length_cons, report]
      exact Nat.le_succ _
  · intro s a s' done none
    rw [run_accept] at done
    rw [run_accept_strict]
    rcases outcome s with ⟨b, s₁, ran, -⟩ | ⟨fault, s₁, failed, report⟩
    · rw [ran] at done ⊢
      exact done
    · rw [failed] at done
      cases done
      rw [withSkipped, List.length_cons, report] at none
      omega

/-- Passes agree if their steps do, by induction on the members. -/
theorem mirrors_eachFrom {step step' : Nat → α → Restoring Unit}
    (each : ∀ index a, Mirrors (step index a) (step' index a)) (start : Nat) (items : List α)
    : Mirrors (eachFrom step start items) (eachFrom step' start items) := by
  induction items generalizing start with
  | nil => exact .pure ()
  | cons a rest ih => exact .bind (each start a) fun _ => ih (start + 1)

/-- Steps that agree until a record is skipped do so one after another. -/
theorem mirrors_collect {step step' : Nat → α → Restoring β}
    (each : ∀ index a, Mirrors (step index a) (step' index a)) (items : List α)
    : Mirrors (collect step items) (collect step' items) := by
  have from_ (start : Nat) (done : List β)
      : Mirrors (collectFrom step start done items) (collectFrom step' start done items) := by
    induction items generalizing start done with
    | nil => exact .pure _
    | cons a rest ih => exact .bind (each start a) fun b => ih (start + 1) (b :: done)
  exact .bind (from_ 0 []) fun _ => .pure _

-----------------------------------------------------------------------------------------
-- Loading
-----------------------------------------------------------------------------------------

theorem skipped_shell (record : ArrayRecord) (s : Restored)
    : (stateOf ((shell record).run s)).skipped = s.skipped := by
  rw [run_shell]
  cases Grid.new (record.dims.map UInt32.toNat) <;> rfl

theorem skipped_routine (charset : Charset) (record : RoutineRecord) (s : Restored)
    : (stateOf ((routine charset record).run s)).skipped = s.skipped := by
  rcases routine_cases charset record s with ⟨_, _, _, _, -, -, -, ran, -⟩ | ⟨-, _, _, failed, -⟩
  · rw [ran]
    rfl
  · rw [failed]
    rfl

theorem skipped_elements (charset : Charset) (id : ArrayId) (record : ArrayRecord) (s : Restored)
    : (stateOf ((elements charset id record).run s)).skipped = s.skipped := by
  rcases elements_cases charset id record s with ⟨_, _, _, -, -, ran, -⟩ | ⟨-, _, _, failed, -⟩
  · rw [ran]
    rfl
  · rw [failed]
    rfl

theorem skipped_process (config : Config) (charset : Charset) (record : ProcessRecord) (s : Restored)
    : (stateOf ((process config charset record).run s)).skipped = s.skipped := by
  rcases process_cases config charset record s with ⟨-, _, _, ran, -⟩ | ⟨-, _, _, failed, -⟩
  · rw [ran]
    rfl
  · rw [failed]
    rfl

theorem mirrors_enterShell (index : Nat) (record : ArrayRecord)
    : Mirrors (enterShell .strict index record) (enterShell .skipMalformed index record) :=
  .bind (mirrors_accept _ _ (skipped_shell record)) fun _ => .modify fun _ => rfl

theorem mirrors_enterRoutine (charset : Charset) (index : Nat) (record : RoutineRecord)
    : Mirrors (enterRoutine .strict charset index record)
        (enterRoutine .skipMalformed charset index record) :=
  .bind (mirrors_accept _ _ (skipped_routine charset record)) fun _ =>
    .bind (.modify fun _ => rfl) fun _ => .pure _

theorem mirrors_enterElements (charset : Charset) (index : Nat) (record : ArrayRecord)
    : Mirrors (enterElements .strict charset index record)
        (enterElements .skipMalformed charset index record) := by
  refine .bind .get fun s => ?_
  cases s.arrays[index]?.join with
  | none => exact .pure _
  | some id =>
      refine .bind (mirrors_accept _ _ (skipped_elements charset id record)) fun references => ?_
      cases references with
      | some references => exact .pure _
      | none => exact .bind (.modify fun s => rfl) fun _ => .pure _

/-- Dropping a record does not depend on the policy and never shortens the report. -/
theorem mirrors_reject (kind : RecordKind) (index : Nat) (reason : Fault)
    : Mirrors (reject kind index reason) (reject kind index reason) :=
  .same fun s b s' done => by
    cases done
    exact Nat.le_succ _

/-- Dropping records does not depend on the policy, and it only lengthens the list of skipped ones. -/
theorem mirrors_dropDependents (routineRefs arrayRefs : List References) (rounds : Nat)
    : Mirrors (dropDependents routineRefs arrayRefs rounds)
        (dropDependents routineRefs arrayRefs rounds) := by
  have routine (index : Nat) (references : References)
      : Mirrors (dropRoutine index references) (dropRoutine index references) := by
    refine .bind .get fun s => ?_
    split
    · exact .bind (mirrors_reject ..) fun _ => .modify fun s => rfl
    · exact .pure ()
  have array (index : Nat) (references : References)
      : Mirrors (dropArray index references) (dropArray index references) := by
    refine .bind .get fun s => ?_
    split
    · exact .bind (mirrors_reject ..) fun _ => .modify fun s => rfl
    · exact .pure ()
  induction rounds with
  | zero => exact .pure ()
  | succ rounds ih =>
      refine .bind .get fun s => .bind (mirrors_eachFrom routine 0 routineRefs) fun _ =>
        .bind (mirrors_eachFrom array 0 arrayRefs) fun _ => .bind .get fun s' => ?_
      split
      · exact ih
      · exact .pure ()

/-- A strict load and a lenient one agree until a record is skipped. -/
theorem mirrors_load (config : Config) (charset : Charset) (file : ObjectFile)
    : Mirrors (load { config with loadPolicy := .strict } charset file)
        (load { config with loadPolicy := .skipMalformed } charset file) :=
  .bind (mirrors_eachFrom mirrors_enterShell 0 _) fun _ =>
    .bind (mirrors_collect (mirrors_enterRoutine charset) _) fun _ =>
    .bind (mirrors_collect (mirrors_enterElements charset) _) fun _ =>
    .bind (mirrors_dropDependents ..) fun _ =>
    .bind (mirrors_collect (fun _ record => mirrors_accept _ _ (skipped_process _ charset record)) _)
      fun _ => .bind .get fun _ => .pure _

/-- The report is what has been skipped, latest last. -/
theorem report_of_load {config : Config} {charset : Charset} {file : ObjectFile} {s s' : Restored}
    {loaded : Loaded} (done : (load config charset file).run s = .ok loaded s')
    : loaded.skipped = s'.skipped.reverse := by
  obtain ⟨_, _, -, done⟩ := run_bind_eq_ok.mp done
  obtain ⟨_, _, -, done⟩ := run_bind_eq_ok.mp done
  obtain ⟨_, _, -, done⟩ := run_bind_eq_ok.mp done
  obtain ⟨_, _, -, done⟩ := run_bind_eq_ok.mp done
  obtain ⟨_, _, -, done⟩ := run_bind_eq_ok.mp done
  cases done
  rfl

end Restoring

namespace ObjectFile

variable {config : Config} {charset : Charset} {file : ObjectFile} {h h' : Heap} {loaded : Loaded}

/-- What is loaded strictly is loaded in the same way when malformed records are skipped. -/
theorem load_lenient_of_strict
    (done : file.load { config with loadPolicy := .strict } charset h = .ok (h', loaded))
    : file.load { config with loadPolicy := .skipMalformed } charset h = .ok (h', loaded) := by
  have mirrors := Restoring.mirrors_load config charset file
  simp only [load] at done ⊢
  split at done
  · rename_i ran
    cases done
    rw [mirrors.completes _ _ _ ran]
  · cases done

/-- What is loaded under either policy is loaded in the same way when malformed records are skipped. -/
theorem load_lenient (file : ObjectFile) (done : file.load config charset h = .ok (h', loaded))
    : file.load { config with loadPolicy := .skipMalformed } charset h = .ok (h', loaded) := by
  cases policy : config.loadPolicy with
  | strict =>
      refine load_lenient_of_strict ?_
      rwa [← policy]
  | skipMalformed => rwa [← policy]

/-- What is loaded without skipping any record is loaded in the same way strictly. -/
theorem load_strict_of_lenient
    (done : file.load { config with loadPolicy := .skipMalformed } charset h = .ok (h', loaded))
    (none : loaded.skipped = [])
    : file.load { config with loadPolicy := .strict } charset h = .ok (h', loaded) := by
  have mirrors := Restoring.mirrors_load config charset file
  simp only [load] at done ⊢
  split at done
  · rename_i result s ran
    cases done
    have report := Restoring.report_of_load ran
    rw [none] at report
    rw [mirrors.agrees _ _ _ ran (by simpa using report)]
  · cases done

end ObjectFile
end TaskMachine
