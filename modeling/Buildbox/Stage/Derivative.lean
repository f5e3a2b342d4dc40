import Buildbox.Message.Stage
import Buildbox.Stage.Basic

/-! Deriving sources: one run of the transpiler for each file that has the source extension. -/

namespace Buildbox

namespace TranspileConfig

def derivedName? (c : TranspileConfig) (filename : String) : Option String :=
  (Path.stem? filename c.sourceExt).map fun stem => stem ++ "." ++ c.targetExt

def isSource (c : TranspileConfig) (filename : String) : Bool :=
  (Path.stem? filename c.sourceExt).isSome

def target (c : TranspileConfig) (filename : String) : String :=
  String.ofList (Text.trimRight (· = '/') c.mount.toList) ++ "/" ++ filename

end TranspileConfig

namespace Derivative

def mounts (c : Config) (support : Directory) (filename content : String) :
    Except MountError MountTable := do
  let t ← MountTable.push [] c.transpile.mount .empty
  let t ← t.nest c.transpile.mount c.assets.supportDir support
  t.overlay c.transpile.mount [(filename, Utf8.encode content)]

def invocation (c : Config) (module : Bytes) (mounts : MountTable) (filename : String) :
    Invocation where
  module
  mounts
  args := [c.assets.transpiler, c.transpile.subcommand, c.transpile.target filename]
  stdout := .capture
  stderr := .capture
  timeoutMs := timeoutMs c.transpile.timeoutSecs

def failureText (r : RunReport) : String :=
  if ! Text.isBlankText r.stderr then r.stderr
  else match r.status with
    | .exited code => "exited with code " ++ toString code.toInt
    | status => status.trapMessage?.getD ""

def content? (c : TranspileConfig) (derived : String) (r : RunReport) : Option String :=
  match (r.mounts.get? c.mount).bind (·.read? derived) with
  | some bytes => some (Utf8.lossyText bytes)
  -- What was printed stands for a file that is missing.
  | none => if r.stdout = "" then none else some r.stdout

def judge (c : TranspileConfig) (filename derived : String) (r : RunReport) :
    Except Failure Transpiled :=
  if ! r.status.success then .error (.transpile filename (failureText r))
  else match content? c derived r with
    | some content => .ok ⟨filename, derived, content⟩
    | none => .error (.transpile filename ("transpiler produced no " ++ derived))

end Derivative

namespace Stages

variable {σ β : Type}

def prepareTranspile (w : Workshop σ β) (filename content : String) :
    EStateM Failure (Stages σ β) Invocation := do
  let assets := w.config.assets
  let module ← inToolchain (Toolchain.module w.fetch assets.transpiler)
  let support ← inToolchain (Toolchain.root w.fetch assets.supportKey)
  match Derivative.mounts w.config support.root filename content with
  | .ok mounts => return Derivative.invocation w.config module mounts filename
  | .error e => throw (.ofMount e)

def transpileFile (w : Workshop σ β) (filename content : String) (s : Stages σ β) :
    Except Failure Transpiled × Stages σ β :=
  let c := w.config.transpile
  match c.derivedName? filename with
  | none => (.error (.transpile filename ("not a ." ++ c.sourceExt ++ " file")), s)
  | some derived =>
    let (out, s) := s.perform w .transpile (prepareTranspile w filename content)
      fun report _ => Derivative.judge c filename derived report
    (out.result, s)

end Stages

end Buildbox
