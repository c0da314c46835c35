import TaskMachine.ObjectFile.Container
import TaskMachine.Proofs.Codec.Layouts

/-!
The bytes of object files are read back. Every record is laid out faithfully, from the segments up to
the whole file, so a file is read as it was written, and a file that was cut off anywhere, in the
middle of a number or between two records, is refused.
-/

namespace TaskMachine

namespace Layout.Faithful

-----------------------------------------------------------------------------------------
-- Records
-----------------------------------------------------------------------------------------

theorem pair (p : UInt32 × UInt32) : (Layout.word32.both Layout.word32).Faithful p :=
  (word32 p.1).both (word32 p.2)

theorem segment (s : Segment) : segment.Faithful s :=
  ((word32 s.count).both (bytes s.data)).convert (b := s) rfl

theorem routineRecord (r : RoutineRecord) : routineRecord.Faithful r := by
  have localNames := list fun name (_ : name ∈ r.localNames) => string name
  have names := list fun name (_ : name ∈ r.names) => string name
  have lines := list fun line (_ : line ∈ r.lines) => pair line
  have fields :=
    (string r.name).both <| (byte r.flags).both <| (word16 r.minArgs).both
      <| (word16 r.maxArgs).both <| localNames.both <| names.both <| (bytes r.code).both
      <| (segment r.literals).both <| (string r.fileName).both lines
  exact fields.convert (b := r) rfl

theorem arrayRecord (r : ArrayRecord) : arrayRecord.Faithful r := by
  have dims := list fun dim (_ : dim ∈ r.dims) => word32 dim
  exact (dims.both (segment r.elements)).convert (b := r) rfl

theorem frameRecord (r : FrameRecord) : frameRecord.Faithful r := by
  have handlers := list fun handler (_ : handler ∈ r.handlers) => pair handler
  have fields :=
    (word32 r.routine).both <| (word32 r.pc).both <| (flag r.wantResult).both
      <| (word32 r.stackBase).both <| handlers.both (segment r.locals)
  exact fields.convert (b := r) rfl

theorem processKind (kind : ProcessKind) : processKind.Faithful kind :=
  choice (by decide) (by cases kind <;> decide)

theorem processState (state : ProcessState) : processState.Faithful state :=
  choice (by decide) (by cases state <;> decide)

/-- A stored process is read back, by its fields. -/
theorem processRecord (r : ProcessRecord) : processRecord.Faithful r := by
  have waitingFor := optional fun key (_ : key ∈ r.waitingFor) => string key
  have frames := list fun frame (_ : frame ∈ r.frames) => frameRecord frame
  have fields :=
    (string r.name).both <| (processKind r.kind).both <| (processState r.state).both
      <| waitingFor.both <| (segment r.stack).both frames
  exact fields.convert (b := r) rfl

/-- A whole file is read back if its signature has its eight bytes. -/
theorem objectFile (f : ObjectFile) (signature : f.signature.length = 8) : objectFile.Faithful f := by
  have routines := list fun routine (_ : routine ∈ f.routines) => routineRecord routine
  have arrays := list fun array (_ : array ∈ f.arrays) => arrayRecord array
  have processes := list fun process (_ : process ∈ f.processes) => processRecord process
  have fields :=
    (bytesOf signature (by decide)).both <| (word16 f.version).both <| routines.both
      <| arrays.both processes
  exact fields.convert (b := f) rfl

end Layout.Faithful

-----------------------------------------------------------------------------------------
-- Files
-----------------------------------------------------------------------------------------

namespace ObjectFile

/-- A file with the right signature is given back by the reader of its layout. -/
theorem recovers {f : ObjectFile} (signature : f.signature = expectedSignature)
    (small : f.toBytes.length < 2 ^ 64)
    : Layout.Recovers Layout.objectFile.take? f.toBytes f := by
  have eight : f.signature.length = 8 := by
    rw [signature]
    rfl
  exact (Layout.Faithful.objectFile f eight).reads small

/-- A file with the right signature and version is read as it was written, whatever follows it, and
is refused when any part is missing at the end. Like all bytes in memory its bytes are fewer than
`2 ^ 64`, so that eight bytes are enough for every length in it.
-/
theorem toBytes_selfDelimiting (f : ObjectFile) (signature : f.signature = expectedSignature)
    (version : f.version = expectedVersion) (small : f.toBytes.length < 2 ^ 64)
    : ofBytes f.toBytes = .ok f
      ∧ (∀ rest, ofBytes (f.toBytes ++ rest) = .ok f)
      ∧ ∀ front, front <+: f.toBytes → front ≠ f.toBytes
          → ofBytes front = .error (.badFormat "deserialization error:") := by
  have recovers := recovers signature small
  have whole : ∀ rest, ofBytes (f.toBytes ++ rest) = .ok f := by
    intro rest
    simp only [ofBytes, recovers.back rest, signature, version, ne_eq, not_true_eq_false, if_false]
  refine ⟨?_, whole, ?_⟩
  · have alone := whole []
    rwa [List.append_nil] at alone
  · rintro front ⟨more, cut⟩ part
    have lacking : more ≠ [] := by
      rintro rfl
      exact part (by rw [← cut, List.append_nil])
    simp only [ofBytes, recovers.part front more cut.symm lacking]

/-- A process that waits in the call of a routine, with an array. -/
def waitingFile : ObjectFile where
  signature := expectedSignature
  version := expectedVersion
  routines :=
    [{ name := "main", flags := 1, minArgs := 0, maxArgs := 2, localNames := ["x", "é"], names := [],
       code := [1, 0, 0, 0], literals := ⟨1, [8, 0, 0, 0, 0, 0]⟩, fileName := "a.tm",
       lines := [(0, 1), (4, 2)] }]
  arrays := [⟨[2, 3], ⟨0, []⟩⟩]
  processes :=
    [{ name := "", kind := .shipTask, state := .waiting, waitingFor := some "key", stack := ⟨0, []⟩,
       frames :=
        [{ routine := 0, pc := 1, wantResult := true, stackBase := 0, handlers := [(3, 0)],
           locals := ⟨0, []⟩ }] }]

theorem waitingFile_selfDelimiting
    : waitingFile.signature = expectedSignature ∧ waitingFile.version = expectedVersion
      ∧ waitingFile.toBytes.length < 2 ^ 64 ∧ waitingFile.toBytes ≠ []
      ∧ ofBytes waitingFile.toBytes = .ok waitingFile
      ∧ ofBytes (waitingFile.toBytes ++ [0]) = .ok waitingFile
      ∧ ofBytes (waitingFile.toBytes.take 100) = .error (.badFormat "deserialization error:") := by
  have small : waitingFile.toBytes.length < 2 ^ 64 := by decide +kernel
  have different : waitingFile.toBytes.take 100 ≠ waitingFile.toBytes := by decide +kernel
  have read := toBytes_selfDelimiting waitingFile rfl rfl small
  exact ⟨rfl, rfl, small, by decide +kernel, read.1, read.2.1 [0],
    read.2.2 _ (List.take_prefix 100 _) different⟩

end ObjectFile

end TaskMachine
