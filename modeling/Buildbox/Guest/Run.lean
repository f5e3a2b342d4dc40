import Buildbox.Guest.Program
import Buildbox.Sandbox.ExitStatus

/-! Runs of guest programs over their memory and their host. -/

namespace Buildbox

inductive Stop where
  | exited (code : Int32)
  | interrupted
  | trapped (message : String)
  /-- The host could not go on, and the run has no status. -/
  | broken
  deriving DecidableEq, Repr, Inhabited

structure GuestRun where
  state : GuestState
  last : Nat := 0
  seen : List Observation := []
  deriving DecidableEq, Repr, Inhabited

namespace GuestRun

def memoryMissing : String := "module does not export its memory"

def outOfBounds : String := "wasm trap: out of bounds memory access"

def operand (m : GuestMemory) : Operand → Except Stop UInt64
  | .literal n => .ok (UInt64.ofInt n)
  | .word p =>
    match m.readNat p 4 with
    | .ok n => .ok (UInt64.ofNat n)
    | .error _ => .error (.trapped outOfBounds)

def look (m : GuestMemory) : Peek → Except Errno Observation
  | .number width p => do return .number (← m.readNat p width)
  | .bytes p length => do return .bytes (← m.slice p length)
  | .upTo p max used => do
    let n ← m.readNat used 4
    return .bytes (← m.slice p (min max n))

/-- Calls an import. Failures of the call are numbers to the guest. -/
def callImport (exportsMemory : Bool) (i : Import) (s : GuestState) :
    Except Stop Nat × GuestState :=
  if i.needsMemory && ! exportsMemory then (.error (.trapped memoryMissing), s)
  else match i.perform s with
    | .ok .goOn s => (.ok 0, s)
    | .ok (.exit code) s => (.error (.exited code), s)
    | .ok .interrupt s => (.error .interrupted, s)
    | .error (.errno e) s => (.ok e.code, s)
    | .error .overlong s => (.error .broken, s)

def growMemory (limit : Option UInt64) (pages : UInt32) (m : GuestMemory) :
    Observation × GuestMemory :=
  let added := pages.toNat * pageSize
  let size := m.size + added
  if maxPages * pageSize < size ∨ limit.any fun l => l.toNat < size then (.number (-1), m)
  else (.number (m.size / pageSize), m.grow added)

def step (p : Program) (limit : Option UInt64) (r : GuestRun) :
    Instruction → Except Stop Observation × GuestRun
  | .call name args =>
    match args.mapM (operand r.state.memory) with
    | .error stop => (.error stop, r)
    | .ok words =>
      match Import.ofName? name words with
      | none => (.error (.trapped ("unknown import " ++ name)), r)
      | some i =>
        match callImport p.exportsMemory i r.state with
        | (.ok n, state) => (.ok (.number n), { r with state, last := n })
        | (.error stop, state) => (.error stop, { r with state })
  | .poke address data =>
    match r.state.memory.write address data with
    | .ok memory => (.ok .nothing, { r with state := { r.state with memory } })
    | .error _ => (.error (.trapped outOfBounds), r)
  | .peek what =>
    match look r.state.memory what with
    | .ok shown => (.ok shown, r)
    | .error _ => (.error (.trapped outOfBounds), r)
  | .grow pages =>
    let (shown, memory) := growMemory limit pages r.state.memory
    (.ok shown, { r with state := { r.state with memory } })
  | .exitLast => (.error (.exited (Int32.ofNat r.last)), r)
  | .unreachable => (.error (.trapped "wasm trap: wasm unreachable instruction executed"), r)
  | .spin => (.error .interrupted, r)
  | .callUnknown _ => (.error (.trapped "unknown import has been called"), r)

def run (p : Program) (limit : Option UInt64) (r : GuestRun) :
    List Instruction → Option Stop × GuestRun
  | [] => (none, r)
  | i :: rest =>
    match r.step p limit i with
    | (.ok shown, r) => run p limit { r with seen := r.seen ++ [shown] } rest
    | (.error stop, r) => (some stop, r)

end GuestRun

def Stop.status? (timeoutMs : Option Nat) : Option Stop → Option ExitStatus
  | none => some (.exited 0)
  | some (.exited code) => some (.exited code)
  | some .interrupted => some (.timedOut (UInt64.ofNat (timeoutMs.getD 0)))
  | some (.trapped message) => some (.trapped message)
  | some .broken => none

end Buildbox
