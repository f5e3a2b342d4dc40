import Buildbox.Stage.Artifact

/-! Trying artifacts out: their output is forwarded, to display or as log text. -/

namespace Buildbox

namespace Trial

def invocation (c : Config) (artifact : Bytes) : Invocation where
  module := artifact
  args := [c.compile.artifactName]
  stdout := .forward .preview
  stderr := .forward .diagnostic
  entryPoints := c.execute.entryPoints
  timeoutMs := timeoutMs c.execute.timeoutSecs

end Trial

namespace Stages

variable {σ β : Type}

def executeArtifact (w : Workshop σ β) (artifact : Bytes) (s : Stages σ β) :
    Streamed ExitStatus × Stages σ β :=
  s.perform w .execute (pure (Trial.invocation w.config artifact)) fun report _ => .ok report.status

def executeBoth (w : Workshop σ β) (first second : Bytes) (s : Stages σ β) :
    (Streamed ExitStatus × Streamed ExitStatus) × Stages σ β :=
  let (one, s) := s.acquire .execute
  let (two, s) := s.acquire .execute
  let (one, s) := s.carryOut w .execute (Trial.invocation w.config first) one
  let (two, s) := s.carryOut w .execute (Trial.invocation w.config second) two
  ((one.map (·.status), two.map (·.status)), s)

end Stages

end Buildbox
