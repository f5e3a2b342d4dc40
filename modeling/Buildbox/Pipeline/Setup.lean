import Buildbox.Pipeline.Basic
import Buildbox.Sandbox.Engine

/-! Pipelines and stages as a configuration sets them up, over sandboxes of any kind. Engines for
step programs are one kind. -/

namespace Buildbox

/-- What carries invocations out: how it is set up, and what each stage has of it. -/
structure Sandboxes (β : Type) where
  setUp : Config → Except Failure β
  execution : Step → Backend β

namespace Sandboxes

variable {σ β : Type} [HasDisk σ]

def workshop (s : Sandboxes β) (c : Config) (client : WebClient) : Workshop σ β where
  config := c
  fetch := c.fetch client
  backend := s.execution

def stages (sandbox : β) (source : σ) : Stages σ β where
  toolchain := .ofSource source
  sandbox

def pipeline (sandbox : β) (source : σ) : Pipeline σ β where
  stages := stages sandbox source

end Sandboxes

structure Engines where
  transpile : Engine
  compile : Engine
  execute : Engine
  deriving DecidableEq, Repr, Inhabited

namespace Engines

def ofConfig (c : Config) : Engines where
  transpile := { memoryLimit := memoryLimitOf c.transpile.memoryLimitMb }
  compile := { memoryLimit := memoryLimitOf c.compile.memoryLimitMb }
  execute := { memoryLimit := memoryLimitOf c.execute.memoryLimitMb }

def execution (step : Step) : Backend Engines := fun i e =>
  match step with
  | .transpile =>
    let (x, transpile) := e.transpile.execute i
    (x, { e with transpile })
  | .compile =>
    let (x, compile) := e.compile.execute i
    (x, { e with compile })
  | .execute =>
    let (x, execute) := e.execute.execute i
    (x, { e with execute })

def sandboxes : Sandboxes Engines where
  setUp c := .ok (.ofConfig c)
  execution

end Engines

namespace Config

variable {σ : Type} [HasDisk σ]

def workshop (c : Config) (client : WebClient) : Workshop σ Engines :=
  Engines.sandboxes.workshop c client

def pipeline (c : Config) (source : σ) : Pipeline σ Engines :=
  Sandboxes.pipeline (.ofConfig c) source

end Config

end Buildbox
