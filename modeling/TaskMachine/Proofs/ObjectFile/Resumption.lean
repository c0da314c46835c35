import TaskMachine.Proofs.ObjectFile.Acceptance
import TaskMachine.Proofs.Process.Requests

/-!
A process that has been loaded goes on like the one that was stored. What the two lead to has the same
shape, so they are alike, and the host sees no difference between them whatever it asks of them. There
is one exception: each stored occurrence of a handle of a routine is loaded as a handle of its own, so
a comparison of two of them may come out differently.
-/

namespace TaskMachine

/-- Where the arrays and callables that processes lead to are on the heap, all that they lead to is. -/
theorem Heap.encloses_live {h : Heap} {ps : List Process}
    (array : ∀ a, h.Live ps (.array a) → a.index < h.arrays.size)
    (callable : ∀ c, h.Live ps (.callable c) → c.index < h.callables.size)
    : h.Encloses (h.Live ps) where
  array := array
  callable := callable
  cells _ live _ held := .step live (.cell held)
  bound _ _ _ live closure _ held := .step live (.bound closure held)

-----------------------------------------------------------------------------------------
-- What belongs together is alike
-----------------------------------------------------------------------------------------

namespace Pairing

/-- What belongs together, as far as processes lead to it. A callable belongs to every one that is of
the routine that belongs to its own.
-/
def partners (pairing : Pairing) (h h' : Heap) (ps ps' : List Process) : Partners where
  arrays a a' := pairing.arrays a a' ∧ h.Live ps (.array a) ∧ h'.Live ps' (.array a')
  callables c c' :=
    (∃ r r', h.callable c = .direct (.subroutine r) ∧ h'.callable c' = .direct (.subroutine r')
      ∧ pairing.routines r r')
    ∧ h.Live ps (.callable c) ∧ h'.Live ps' (.callable c')
  routines r r' := pairing.routines r r' ∧ h.Called ps r ∧ h'.Called ps' r'
  named := True
  since := h

variable {pairing : Pairing} {h h' : Heap} {ps ps' : List Process}

/-- Values that are the same by a pairing are alike among the partners that it makes of what is live. -/
theorem Values.partners {v v' : Value} (same : pairing.Values h h' v v') (live : h.Live ps v)
    (live' : h'.Live ps' v')
    : (pairing.partners h h' ps ps').Values v v' := by
  cases same with
  | plain standsAlone => exact .plain standsAlone
  | array paired => exact .array ⟨paired, live, live'⟩
  | routine direct direct' paired => exact .callable ⟨⟨_, _, direct, direct', paired⟩, live, live'⟩

private theorem values_partners {vs vs' : List Value} (same : List.Forall₂ (pairing.Values h h') vs vs')
    (live : ∀ v ∈ vs, h.Live ps v) (live' : ∀ v' ∈ vs', h'.Live ps' v')
    : List.Forall₂ (pairing.partners h h' ps ps').Values vs vs' :=
  related_of_mem same fun v among v' among' one => one.partners (live v among) (live' v' among')

/-- Parts of two heaps with the same shape are alike. -/
theorem Isomorphism.heaps (iso : pairing.Isomorphism h h') (within : h.Encloses (h.Live ps))
    (within' : h'.Encloses (h'.Live ps'))
    : (pairing.partners h h' ps ps').Heaps h h' where
  grid a a' paired := by
    obtain ⟨paired, live, live'⟩ := paired
    obtain ⟨dims, cells⟩ := iso.grid a a' paired
    refine ⟨dims, values_partners cells (fun v member => ?_) (fun v member => ?_)⟩
    · exact within.cells a live v (Array.mem_toList_iff.mp member)
    · exact within'.cells a' live' v (Array.mem_toList_iff.mp member)
  callable c c' paired := by
    obtain ⟨⟨r, r', direct, direct', paired⟩, live, live'⟩ := paired
    rw [direct, direct']
    exact .routine ⟨paired, .inr ⟨c, live, direct⟩, .inr ⟨c', live', direct'⟩⟩
  routine r r' paired := by
    obtain ⟨paired, called, called'⟩ := paired
    obtain ⟨rest, literals⟩ := iso.routine r r' paired
    refine ⟨rest, values_partners literals (fun v member => ?_) (fun v member => ?_), .inl trivial⟩
    · exact Heap.live_of_literal called (Array.mem_toList_iff.mp member)
    · exact Heap.live_of_literal called' (Array.mem_toList_iff.mp member)
  arrayIn a a' paired := ⟨within.array a paired.2.1, within'.array a' paired.2.2⟩
  callableIn c c' paired := ⟨within.callable c paired.2.1, within'.callable c' paired.2.2⟩
  descends c c' base base' bound bound' paired closure := by
    obtain ⟨⟨r, r', direct, -⟩, -⟩ := paired
    rw [direct] at closure
    cases closure
  arrayOnce a a' b' first second := iso.arrayOnce a a' b' first.1 second.1
  arrayApart a b a' first second := iso.arrayApart a b a' first.1 second.1
  routineOnce r r' q' first second := iso.routineOnce r r' q' first.1 second.1
  routineApart r q r' first second := iso.routineApart r q r' first.1 second.1
  closureOnce c c' d' base bound first second closure := by
    obtain ⟨⟨r, r', direct, -⟩, -⟩ := first
    rw [direct] at closure
    cases closure
  closureApart c d c' base bound first second closure := by
    obtain ⟨⟨r, r', -, direct', -⟩, -⟩ := first
    rw [direct'] at closure
    cases closure
  since := .refl _ h

/-- Calls that correspond are alike. -/
theorem Frames.partners {p p' : Process} (among : p ∈ ps) (among' : p' ∈ ps') {f f' : Frame}
    (active : f ∈ p.frames) (active' : f' ∈ p'.frames) (same : pairing.Frames h h' f f')
    : (pairing.partners h h' ps ps').Frames f f' := by
  refine ⟨same.rest, ⟨same.routine, Heap.called_of_active among active,
    Heap.called_of_active among' active'⟩, values_partners same.locals ?_ ?_⟩
  · intro v member
    exact Heap.live_of_holds among (.inr ⟨f, active, .inl (Array.mem_toList_iff.mp member)⟩)
  · intro v member
    exact Heap.live_of_holds among' (.inr ⟨f', active', .inl (Array.mem_toList_iff.mp member)⟩)

/-- Processes that correspond are alike, if the one has not been decided, no fault is pending in it and
it has the limits of the other.
-/
theorem Processes.partners {config : Config} {p p' : Process} (among : p ∈ ps) (among' : p' ∈ ps')
    (same : pairing.Processes config h h' p p') (result : p.result = none)
    (failure : p.failure = none) (pending : p.pendingFault = none)
    (callDepth : p.maxCallDepth = config.maxCallDepth)
    (stackSize : p.maxStackSize = config.maxStackSize)
    : (pairing.partners h h' ps ps').Processes p p' := by
  obtain ⟨⟨stack, frames⟩, rest⟩ := same
  have both : List.Forall₂ (pairing.partners h h' ps ps').Frames p.frames p'.frames :=
    related_of_mem frames fun f active f' active' one => one.partners among among' active active'
  have values : List.Forall₂ (pairing.partners h h' ps ps').Values p.stack p'.stack :=
    values_partners stack (fun v member => Heap.live_of_holds among (.inl member))
      (fun v member => Heap.live_of_holds among' (.inl member))
  rw [rest]
  exact ⟨values, both, by rw [result]; exact .none, rfl, rfl, failure.symm, pending.symm,
    callDepth.symm, stackSize.symm⟩

end Pairing

-----------------------------------------------------------------------------------------
-- Going on
-----------------------------------------------------------------------------------------

/-- A process on its own, with no globals and no host. -/
def Machine.alone (h : Heap) (p : Process) : Machine :=
  ⟨{ World.empty with heap := h }, p⟩

/-- On their own, machines whose heaps and processes are alike are alike. -/
theorem Partners.machines_alone {p : Partners} {h h' : Heap} (heaps : p.Heaps h h') {x x' : Process}
    (alike : p.Processes x x')
    : p.Machines (Machine.alone h x) (Machine.alone h' x') :=
  ⟨⟨heaps, fun _ => .nil, fun _ _ => .none⟩, alike⟩

namespace Machine

variable {m : Machine}

/-- What is live can be counted as it is, without rounding. -/
theorem Composed.countable_exact (composed : m.Composed) {file : ObjectFile}
    (few : file.routines.length ≤ 0x100000000) (fewArrays : file.arrays.length ≤ 0x100000000)
    : Countable m.world.heap [m.process] file := by
  refine ⟨?_, ?_, ?_, few, fewArrays⟩
  · simpa using composed.stack
  · simpa using composed.locals
  · intro r called
    exact Nat.lt_of_le_of_lt (composed.routines r called).size_code_le (by decide)

/-- If storing rounds nothing, what can be loaded again is loaded as it was. -/
theorem Composed.restorable_exact (composed : m.Composed) (active : m.process.frames ≠ [])
    (reloadable : m.Reloadable)
    (unrounded
      : ∀ x, m.world.heap.Live [m.process] (.float x) → Real48.decode (Real48.encode x) = x)
    : Restorable m.world.heap [m.process] where
  values v live := by
    cases v with
    | object o => exact absurd live (composed.objectFree o)
    | float x => exact unrounded x live
    | null | integer | boolean | string | array | callable => trivial
  jumps r called i member jump _ := (composed.routines r called).jumps member jump
  args := composed.args
  dims := composed.dims
  cells := reloadable.cells
  frames := by simpa using active
  handlers := by simpa using reloadable.handlers

end Machine

namespace Writer

variable {m₀ m : Machine} {w : Writer} {u : Unit}

/-- A started process that is stored and loaded again goes on as it would have gone on itself. Whatever
its host asks, it sees no difference, provided that no float is rounded, no handles are handed over and
no two handles of one routine are compared. Its own handles are all of what is on the heap.
-/
theorem answers_after_reload (config : Config) (origin : m₀.Origin)
    (active : m₀.process.frames ≠ []) (sound : m₀.world.heap.Sound)
    (run : Relation.ReflTransGen Machine.OrderlyEvent m₀ m) (composed : m.Composed)
    (within : m.world.heap.Encloses (m.world.heap.Live [m.process]))
    (unrounded
      : ∀ x, m.world.heap.Live [m.process] (.float x) → Real48.decode (Real48.encode x) = x)
    (callDepth : m.process.maxCallDepth = config.maxCallDepth)
    (stackSize : m.process.maxStackSize = config.maxStackSize)
    (accepted : (addProcess .utf8 m.world.heap m.process).run new = .ok u w)
    (few : w.file.routines.length ≤ 0x100000000) (fewArrays : w.file.arrays.length ≤ 0x100000000)
    {h₀ h' : Heap} {loaded : Loaded}
    (done : w.file.load { config with loadPolicy := .strict } .utf8 h₀ = .ok (h', loaded))
    : ∃ p',
        loaded.processes = [p']
        ∧ ∀ requests,
            (∀ request ∈ requests, Request.Plain request)
            → (Machine.alone m.world.heap m.process).IndifferentAll requests
            → ((Machine.alone h' p').answerAll requests).process.LooksLike
                ((Machine.alone m.world.heap m.process).answerAll requests).process := by
  obtain ⟨regular, saveable, rounded, storable, inCall⟩ :=
    of_accepted origin active sound run composed accepted
  have reloadable := reloadable_of_loadable saveable composed regular rounded
    (ObjectFile.loadable_of_strict done)
  have stored : Stored m.world.heap [m.process] w :=
    stored_of_addProcesses (u := u) (composed.restorable_exact inCall reloadable unrounded) regular
      (composed.countable_exact few fewArrays) (run_bind_eq_ok.mpr ⟨u, w, accepted, rfl⟩)
  obtain ⟨_, _, routines, arrays, _, done', -, restored, present⟩ :=
    w.file.load_of_loadable config .utf8 h₀ fun _ => stored.loadable
  cases done.symm.trans done'
  obtain ⟨p', others, same, none, only⟩ :=
    List.forall₂_cons_left_iff.mp (stored.sameProcesses restored present)
  cases none
  refine ⟨p', only, fun requests plain indifferent => ?_⟩
  have within' : h'.Encloses (h'.Live loaded.processes) :=
    Heap.encloses_live (fun _ => restored.array_lt) (fun _ => restored.callable_lt)
  have heaps := (stored.isomorphism restored).heaps within within'
  have undecided := Machine.undecided_of_events origin
    (run.lift id fun _ _ orderly => orderly.event)
  obtain ⟨result, failure⟩ := undecided (going_of_isStorable storable)
  have among : p' ∈ loaded.processes := by
    rw [only]
    exact List.mem_singleton_self p'
  have alike := same.partners (List.mem_singleton_self m.process) among result failure
    (pendingFault_of_isStorable storable) callDepth stackSize
  obtain ⟨p, -, answered⟩ := (Partners.machines_alone heaps alike).answerAll plain indifferent
  exact answered.process.looksLike

/-- A draft that waits for a value and returns it. -/
def waitDraft : Draft where
  name := "P"
  isProcedure := false
  code := #[⟨.special, 5, 0⟩, ⟨.special, 1, 1⟩]
  literals := #[.string "key"]

/-- The routine that is finished from the draft. -/
def waitRoutine : Routine where
  name := "P"
  isProcedure := false
  isVarargs := false
  minArgs := 0
  maxArgs := 0
  localNames := #[]
  names := #[]
  code := #[⟨.special, 5, 0⟩, ⟨.special, 1, 1⟩]
  literals := #[.string "key"]
  fileName := ""
  lines := #[]

private theorem waitRoutine_composed : waitRoutine.Composed := by
  have drafted := ((Relation.ReflTransGen.refl.tail (Draft.Extends.literal
    (d := { name := "P", isProcedure := false }) (.string "key"))).tail
    (.instruction ⟨.special, 5, 0⟩)).tail (.instruction ⟨.special, 1, 1⟩)
  refine ⟨waitDraft, ⟨"P", false, drafted⟩, ?_, ?_⟩
  · intro i member jump
    simp only [waitDraft, List.mem_toArray, List.mem_cons, List.not_mem_nil, or_false] at member
    rcases member with rfl | rfl <;> cases jump
  · have code : waitDraft.code.mapM (Draft.resolve waitDraft.labels) = .ok waitRoutine.code := by
      rw [Array.mapM_eq_mapM_toList]
      rfl
    simp only [Draft.finish, code]
    rfl

/-- A new process that has been started with the routine. -/
def waitStart : Machine :=
  stateOf ((Exec.start ⟨0⟩ []).run
    ⟨{ World.empty with heap := { Heap.empty with routines := #[waitRoutine] } },
      Process.new {} 1 "p"⟩)

/-- The process when it waits. -/
def waitStop : Machine where
  world := { World.empty with heap := { Heap.empty with routines := #[waitRoutine] } }
  process := { Process.new {} 1 "p" with
    state := .waiting
    waitingFor := some "key"
    frames := [{
      routine := ⟨0⟩, pc := 1, locals := #[], handlers := [], wantResult := false,
      stackBase := 0 }] }

private theorem wait_holds {v : Value} (held : waitStop.process.Holds waitStop.world.heap v)
    : v = .string "key" := by
  simpa [waitStop, Process.new, Process.Holds, Heap.routine, waitRoutine] using held

private theorem wait_plain (v : Value) (held : waitStop.process.Holds waitStop.world.heap v)
    : ¬ v.IsHandle := by
  rw [wait_holds held]
  exact id

/-- The sample is composed as finished routines are. -/
theorem wait_composed : waitStop.Composed := by
  refine Machine.composed_of_plain wait_plain ?_ (by decide) (by simp [waitStop])
    (by simp [waitStop])
  intro f active
  rw [waitStop, List.mem_singleton] at active
  subst active
  exact ⟨waitRoutine_composed, Nat.zero_le _⟩

/-- The waiting process is loaded again and returns what it is resumed with. -/
theorem wait_resumed_after_reload
    : ∃ w h' loaded p',
        (addProcess .utf8 waitStop.world.heap waitStop.process).run new = .ok () w
        ∧ w.file.load { loadPolicy := .strict } .utf8 .empty = .ok (h', loaded)
        ∧ loaded.processes = [p']
        ∧ ((Machine.alone h' p').answerAll [.resume (.integer 7), .run 5]).process.state = .ended
        ∧ ((Machine.alone h' p').answerAll [.resume (.integer 7), .run 5]).process.result
          = some (.integer 7) := by
  have started : (Exec.start ⟨0⟩ []).run
      ⟨{ World.empty with heap := { Heap.empty with routines := #[waitRoutine] } },
        { Process.new {} 1 "p" with kind := .default }⟩ = .ok () waitStart := rfl
  have sound : waitStart.world.heap.Sound :=
    Heap.sound_empty.addRoutine waitRoutine_composed.sound
  have woken := Machine.Event.orderly (m := waitStart)
    (.woken (Process.wake_eq_ok.mpr ⟨rfl, rfl⟩)) sound (.refl _)
  have run : Relation.ReflTransGen Machine.OrderlyEvent waitStart waitStop :=
    .head woken (Machine.orderly_run 5 sound)
  obtain ⟨w, accepted, made, routines, arrays⟩
      : ∃ w, (addProcess .utf8 waitStop.world.heap waitStop.process).run new = .ok () w
        ∧ w = stateOf ((addProcess .utf8 waitStop.world.heap waitStop.process).run new)
        ∧ w.file.routines.length = 1 ∧ w.file.arrays.length = 0 :=
    ⟨_, rfl, rfl, rfl, rfl⟩
  have loads : (w.file.load { loadPolicy := .strict } .utf8 .empty).isOk = true := by
    rw [made]
    decide +kernel
  have only {v : Value} (live : waitStop.world.heap.Live [waitStop.process] v) : v = .string "key" :=
    wait_holds (Machine.holds_of_live wait_plain live)
  have within : waitStop.world.heap.Encloses (waitStop.world.heap.Live [waitStop.process]) :=
    Heap.encloses_live (fun _ live => nomatch only live) (fun _ live => nomatch only live)
  cases done : w.file.load { loadPolicy := .strict } .utf8 .empty with
  | error fault =>
      rw [done] at loads
      cases loads
  | ok result =>
      obtain ⟨h', loaded⟩ := result
      obtain ⟨p', loadedAs, same⟩ := answers_after_reload {} (.started started)
        (Machine.frames_of_start started) sound run wait_composed within
        (fun _ live => nomatch only live) rfl rfl accepted (by omega) (by omega) done
      have plain : ∀ request ∈ [Request.resume (.integer 7), .run 5], request.Plain := by
        simp [Request.Plain, Value.IsHandle]
      have apart : (Machine.alone waitStop.world.heap waitStop.process).IndifferentAll
          [.resume (.integer 7), .run 5] := by
        refine ⟨trivial, fun _ _ => ⟨?_, fun running => ?_⟩, trivial⟩
        · rintro ⟨⟨_, _, _, stack, -⟩, -⟩
          cases stack
        · cases running
      have looks := same _ plain apart
      exact ⟨w, h', loaded, p', accepted, done, loadedAs, looks.state, (looks.result _ id).mpr rfl⟩

/-- A heap with a routine that puts a handle of another one on the stack twice, stops, and returns
whether the two are the same.
-/
def twinsHeap : Heap where
  arrays := #[]
  callables := #[.direct (.subroutine ⟨0⟩)]
  objects := #[]
  routines := #[
    { name := "F", isProcedure := false, isVarargs := false, minArgs := 0, maxArgs := 0,
      localNames := #[], names := #[], code := #[], literals := #[], fileName := "", lines := #[] },
    { name := "P", isProcedure := false, isVarargs := false, minArgs := 0, maxArgs := 0,
      localNames := #[], names := #[],
      code := #[⟨.push, 1, 0⟩, ⟨.stack, 0, 0⟩, ⟨.special, 4, 0⟩, ⟨.binary, 8, 0⟩, ⟨.special, 1, 1⟩],
      literals := #[.callable ⟨0⟩], fileName := "", lines := #[] }]

/-- The process when it has stopped. -/
def twinsProcess : Process :=
  { Process.new {} 1 "p" with
    stack := [.callable ⟨0⟩, .callable ⟨0⟩]
    frames := [{
      routine := ⟨1⟩, pc := 3, locals := #[], handlers := [], wantResult := false,
      stackBase := 0 }] }

/-- The results after some requests to loaded processes, each on its own. -/
def results (h : Heap) (loaded : Loaded) (requests : List Request) : List (Option Value) :=
  loaded.processes.map fun p => ((Machine.alone h p).answerAll requests).process.result

/-- The only result is that something is false. -/
def onlyFalse : List (Option Value) → Bool
  | [some (.boolean false)] => true
  | _ => false

private theorem of_onlyFalse {h : Heap} {loaded : Loaded} {requests : List Request}
    (shown : onlyFalse (results h loaded requests) = true)
    : ∃ p,
        loaded.processes = [p]
        ∧ ((Machine.alone h p).answerAll requests).process.result = some (.boolean false) := by
  unfold onlyFalse results at shown
  split at shown
  · rename_i found
    obtain ⟨p, only, result⟩ := List.map_eq_singleton_iff.mp found
    exact ⟨p, only, result⟩
  · cases shown

/-- The handles that are one and the same before are two different ones after loading. So comparing
them gives another result.
-/
theorem twins_told_apart_after_reload
    : ∃ m₀ p m w h' loaded p',
        (Exec.start ⟨1⟩ []).run ⟨{ World.empty with heap := twinsHeap }, Process.new {} 1 "p"⟩
          = .ok () m₀
        ∧ m₀.process.wake = .ok p
        ∧ m = Machine.run 5 { m₀ with process := p }
        ∧ (addProcess .utf8 m.world.heap m.process).run new = .ok () w
        ∧ w.file.load { loadPolicy := .strict } .utf8 .empty = .ok (h', loaded)
        ∧ loaded.processes = [p']
        ∧ ((Machine.alone m.world.heap m.process).answerAll [.wake, .run 5]).process.result
          = some (.boolean true)
        ∧ ((Machine.alone h' p').answerAll [.wake, .run 5]).process.result
          = some (.boolean false) := by
  obtain ⟨w, accepted, made⟩
      : ∃ w, (addProcess .utf8 twinsHeap twinsProcess).run new = .ok () w
        ∧ w = stateOf ((addProcess .utf8 twinsHeap twinsProcess).run new) := ⟨_, rfl, rfl⟩
  have after
      : (match w.file.load { loadPolicy := .strict } .utf8 .empty with
        | .ok (h', loaded) => onlyFalse (results h' loaded [.wake, .run 5])
        | .error _ => false) = true := by
    rw [made]
    decide +kernel
  cases done : w.file.load { loadPolicy := .strict } .utf8 .empty with
  | error fault =>
      rw [done] at after
      cases after
  | ok result =>
      obtain ⟨h', loaded⟩ := result
      rw [done] at after
      obtain ⟨p', only, restored⟩ := of_onlyFalse after
      exact ⟨_, _, ⟨{ World.empty with heap := twinsHeap }, twinsProcess⟩, w, h', loaded, p', rfl,
        rfl, rfl, accepted, done, only, rfl, restored⟩

end Writer
end TaskMachine
