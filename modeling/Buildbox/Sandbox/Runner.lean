import Buildbox.Failure

/-! Admission to the sandbox of a stage: one run at a time, and nobody waits. -/

namespace Buildbox

inductive StageState where
  | idle
  | running
  deriving DecidableEq, Repr, Inhabited

structure Runner where
  name : String
  state : StageState := .idle
  runCount : Nat := 0
  rejectedCount : Nat := 0
  deriving DecidableEq, Repr, Inhabited

namespace Runner

def acquire (r : Runner) : Except Failure Unit × Runner :=
  match r.state with
  | .running => (.error (.busy r.name), { r with rejectedCount := r.rejectedCount + 1 })
  | .idle => (.ok (), { r with state := .running, runCount := r.runCount + 1 })

def release (r : Runner) : Runner :=
  { r with state := .idle }

end Runner

end Buildbox
