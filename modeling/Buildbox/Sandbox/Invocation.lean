import Buildbox.Digest.Sha256
import Buildbox.Failure
import Buildbox.Host.State
import Buildbox.Sandbox.ExitStatus

/-! What one sandboxed run needs, and what comes of it. -/

namespace Buildbox

def moduleKey (module : Bytes) : String :=
  Sha256.hexDigest module

structure Invocation where
  module : Bytes
  args : List String := []
  env : List String := []
  mounts : MountTable := []
  stdout : Redirect := .discard
  stderr : Redirect := .discard
  entryPoints : List String := ["_start"]
  timeoutMs : Option Nat := none
  deriving DecidableEq, Repr, Inhabited

structure RunReport where
  status : ExitStatus
  stdout : String
  stderr : String
  mounts : MountTable
  deriving DecidableEq, Repr, Inhabited

structure Streamed (α : Type) where
  result : Except Failure α
  chunks : List OutputChunk := []

def Streamed.map {α γ : Type} (f : α → γ) (s : Streamed α) : Streamed γ :=
  ⟨s.result.map f, s.chunks⟩

/-- Errors are failures before the program starts. -/
abbrev Execution := Streamed RunReport

/-- Carries invocations out, with a state of its own. -/
abbrev Backend (σ : Type) := Invocation → σ → Execution × σ

namespace Invocation

def host (i : Invocation) : Host :=
  Host.new i.args i.env i.mounts i.stdout i.stderr

end Invocation

def Host.Outcome.execution (o : Host.Outcome) (status : ExitStatus) : Execution :=
  ⟨.ok ⟨status, o.stdout, o.stderr, o.mounts⟩, o.chunks⟩

end Buildbox
