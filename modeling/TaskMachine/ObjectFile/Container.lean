import TaskMachine.Codec.Layout
import TaskMachine.ObjectFile.Basic

/-!
The bytes of an object file. Numbers are written low byte first, lengths take eight bytes, and what
follows the last record is ignored.
-/

namespace TaskMachine

namespace Layout

def segment : Layout Segment :=
  (word32.both bytes).convert (fun (count, data) => ⟨count, data⟩) (fun s => (s.count, s.data))

def routineRecord : Layout RoutineRecord :=
  (string.both <| byte.both <| word16.both <| word16.both <| (list string).both
      <| (list string).both <| bytes.both <| segment.both <| string.both
      <| list (word32.both word32)).convert
    (fun (name, flags, minArgs, maxArgs, localNames, names, code, literals, fileName, lines) =>
      ⟨name, flags, minArgs, maxArgs, localNames, names, code, literals, fileName, lines⟩)
    (fun r => (r.name, r.flags, r.minArgs, r.maxArgs, r.localNames, r.names, r.code, r.literals,
      r.fileName, r.lines))

def arrayRecord : Layout ArrayRecord :=
  ((list word32).both segment).convert (fun (dims, elements) => ⟨dims, elements⟩)
    (fun r => (r.dims, r.elements))

def frameRecord : Layout FrameRecord :=
  (word32.both <| word32.both <| flag.both <| word32.both <| (list (word32.both word32)).both
      segment).convert
    (fun (routine, pc, wantResult, stackBase, handlers, locals) =>
      ⟨routine, pc, wantResult, stackBase, handlers, locals⟩)
    (fun r => (r.routine, r.pc, r.wantResult, r.stackBase, r.handlers, r.locals))

def processKind : Layout ProcessKind :=
  choice ProcessKind.all

def processState : Layout ProcessState :=
  choice ProcessState.all

def processRecord : Layout ProcessRecord :=
  (string.both <| processKind.both <| processState.both <| (optional string).both <| segment.both
      <| list frameRecord).convert
    (fun (name, kind, state, waitingFor, stack, frames) =>
      ⟨name, kind, state, waitingFor, stack, frames⟩)
    (fun r => (r.name, r.kind, r.state, r.waitingFor, r.stack, r.frames))

def objectFile : Layout ObjectFile :=
  ((bytesOf 8).both <| word16.both <| (list routineRecord).both <| (list arrayRecord).both
      <| list processRecord).convert
    (fun (signature, version, routines, arrays, processes) =>
      ⟨signature, version, routines, arrays, processes⟩)
    (fun f => (f.signature, f.version, f.routines, f.arrays, f.processes))

end Layout

namespace ObjectFile

def toBytes (f : ObjectFile) : Bytes :=
  Layout.objectFile.put f

/-- Reads an object file. Malformed records are noticed before a wrong signature, and that before a
wrong version.
-/
def ofBytes (s : Bytes) : Except Fault ObjectFile :=
  match Layout.objectFile.take? s with
  | none => .error (.badFormat "deserialization error:")
  | some (f, _) =>
    if f.signature ≠ expectedSignature then .error (.badFormat "not an object file")
    else if f.version ≠ expectedVersion then
      let version := f.version.toNat
      .error (.badFormat s!"unsupported object file version {version}")
    else .ok f

end ObjectFile

end TaskMachine
