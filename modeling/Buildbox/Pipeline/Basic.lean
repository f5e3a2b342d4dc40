import Buildbox.Pipeline.Course
import Buildbox.Worker.Mailbox
import Buildbox.Worker.Replies

/-! The pipeline: a worker for each stage, and one run at a time. A run that is asked for while
another is in flight is refused. -/

namespace Buildbox

structure Pipeline (σ β : Type) where
  stages : Stages σ β
  transpile : Mailbox TranspileRequest := {}
  compile : Mailbox CompileRequest := {}
  execute : Mailbox ExecuteRequest := {}
  inFlight : Bool := false

namespace Pipeline

variable {σ β : Type}

def crew (w : Workshop σ β) : Crew (Pipeline σ β) where
  transpile request p :=
    let (replies, transpile, stages) :=
      p.transpile.answer (Stages.answerTranspile w) request p.stages
    (.ok replies, { p with transpile, stages })
  compile request p :=
    let (replies, compile, stages) := p.compile.answer (Stages.answerCompile w) request p.stages
    (.ok replies, { p with compile, stages })
  execute request p :=
    let (replies, execute, stages) := p.execute.answer (Stages.answerExecute w) request p.stages
    (.ok replies, { p with execute, stages })

def admitRun (p : Pipeline σ β) : Bool × Pipeline σ β :=
  if p.inFlight then (false, p) else (true, { p with inFlight := true })

def settle (p : Pipeline σ β) : Pipeline σ β :=
  { p with inFlight := false }

def drive (w : Workshop σ β) (files : NameMap String) (p : Pipeline σ β) :
    List PipelineEvent × Pipeline σ β :=
  let ((events, last), p) := (Course.run w.config.transpile.sourceExt files).hold (crew w) p
  -- The events that end the run come when the next may start already.
  (events ++ last, p.settle)

def runAll (w : Workshop σ β) (requests : List (NameMap String)) (p : Pipeline σ β) :
    List (Option (List PipelineEvent)) × Pipeline σ β :=
  let (admitted, p) := askAll requests p
  driveAll admitted p
where
  askAll : List (NameMap String) → Pipeline σ β → List (Option (NameMap String)) × Pipeline σ β
    | [], p => ([], p)
    | files :: rest, p =>
      let (admitted, p) := p.admitRun
      let (more, p) := askAll rest p
      ((if admitted then some files else none) :: more, p)
  driveAll : List (Option (NameMap String)) → Pipeline σ β →
      List (Option (List PipelineEvent)) × Pipeline σ β
    | [], p => ([], p)
    | none :: rest, p =>
      let (more, p) := driveAll rest p
      (none :: more, p)
    | some files :: rest, p =>
      let (events, p) := p.drive w files
      let (more, p) := driveAll rest p
      (some events :: more, p)

end Pipeline

end Buildbox
