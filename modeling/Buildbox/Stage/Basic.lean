import Buildbox.Asset.Toolchain
import Buildbox.Message.Event
import Buildbox.Sandbox.Invocation
import Buildbox.Sandbox.Runner

/-! The three stages over one toolchain, each with a sandbox that takes one run at a time. -/

namespace Buildbox

/-- What the stages work with and never change. -/
structure Workshop (σ β : Type) where
  config : Config
  fetch : Fetch σ
  backend : Step → Backend β

structure Stages (σ β : Type) where
  toolchain : Toolchain σ
  sandbox : β
  transpile : Runner := { name := "transpile" }
  compile : Runner := { name := "compile" }
  execute : Runner := { name := "execute" }

namespace Stages

variable {σ β α : Type}

def runner (s : Stages σ β) : Step → Runner
  | .transpile => s.transpile
  | .compile => s.compile
  | .execute => s.execute

def withRunner (s : Stages σ β) (step : Step) (r : Runner) : Stages σ β :=
  match step with
  | .transpile => { s with transpile := r }
  | .compile => { s with compile := r }
  | .execute => { s with execute := r }

def inToolchain (act : EStateM Failure (Toolchain σ) α) : EStateM Failure (Stages σ β) α := fun s =>
  match act s.toolchain with
  | .ok a toolchain => .ok a { s with toolchain }
  | .error f toolchain => .error f { s with toolchain }

def acquire (step : Step) (s : Stages σ β) : Except Failure Unit × Stages σ β :=
  let (asked, r) := (s.runner step).acquire
  (asked, s.withRunner step r)

def carryOut (w : Workshop σ β) (step : Step) (i : Invocation) (asked : Except Failure Unit)
    (s : Stages σ β) : Execution × Stages σ β :=
  match asked with
  | .error f => (⟨.error f, []⟩, s)
  | .ok () =>
    let (x, sandbox) := w.backend step i s.sandbox
    (x, { s with sandbox }.withRunner step (s.runner step).release)

def run (w : Workshop σ β) (step : Step) (i : Invocation) (s : Stages σ β) :
    Execution × Stages σ β :=
  let (asked, s) := s.acquire step
  s.carryOut w step i asked

def perform (w : Workshop σ β) (step : Step) (prepare : EStateM Failure (Stages σ β) Invocation)
    (judge : RunReport → List OutputChunk → Except Failure α) (s : Stages σ β) :
    Streamed α × Stages σ β :=
  match prepare s with
  | .error f s => (⟨.error f, []⟩, s)
  | .ok i s =>
    let (x, s) := s.run w step i
    (⟨x.result.bind (judge · x.chunks), x.chunks⟩, s)

@[simp] theorem runner_withRunner (s : Stages σ β) (step other : Step) (r : Runner) :
    (s.withRunner step r).runner other = if other = step then r else s.runner other := by
  cases step <;> cases other <;> rfl

end Stages

def timeoutMs (secs : UInt64) : Option Nat :=
  (timeoutOf secs).map fun s => s.toNat * 1000

end Buildbox
