import Buildbox.Message.Stage
import Buildbox.Stage.Basic

/-! Building artifacts: one run of the compiler over all files. -/

namespace Buildbox

/-- What a compiler leaves that exits with success. -/
inductive Build where
  | artifact (bytes : Bytes)
  | nothing
  deriving DecidableEq, Repr, Inhabited

namespace CompileConfig

def artifactName (c : CompileConfig) : String :=
  c.outputName ++ ".wasm"

end CompileConfig

namespace Config

def compilerArgs (c : Config) : List String :=
  [c.assets.compiler, "build-exe", "--dep", c.compile.auxModule,
    "-Mroot=" ++ c.compile.entryFile,
    "-M" ++ c.compile.auxModule ++ "=" ++ c.compile.auxEntry,
    "--name", c.compile.outputName] ++ c.compile.flags

end Config

namespace Artifact

def workMount : String := "."

def libraryMount : String := "/lib"

def cacheMount : String := "/cache"

/-- What the compiler sees: the support sources with all files over them, the library, and a
place of its own. -/
def mounts (c : Config) (library support : Directory) (files : NameMap String) :
    Except MountError MountTable := do
  let t ← MountTable.push [] workMount .empty
  let t ← t.nest workMount c.assets.supportDir support
  let t ← t.overlay workMount (files.entries.map fun (name, text) => (name, Utf8.encode text))
  let t ← t.push libraryMount library
  t.push cacheMount .empty

def invocation (c : Config) (module : Bytes) (mounts : MountTable) : Invocation where
  module
  mounts
  args := c.compilerArgs
  stdout := .forward .diagnostic
  stderr := .forward .diagnostic
  timeoutMs := timeoutMs c.compile.timeoutSecs

def textOf (chunks : List OutputChunk) : String :=
  String.join (chunks.map (·.text))

def find (c : CompileConfig) (mounts : MountTable) : Build :=
  match (mounts.get? workMount).bind (·.read? c.artifactName) with
  | none | some [] => .nothing
  | some bytes => .artifact bytes

def judge (c : CompileConfig) (r : RunReport) (chunks : List OutputChunk) :
    Except Failure Build :=
  match r.status with
  | .exited code =>
    if code = 0 then .ok (find c r.mounts)
    else if Text.isBlankText (textOf chunks) then
      .error (.compile ("compiler exited with code " ++ toString code.toInt))
    else .error (.compile (textOf chunks))
  | status => .error (.compileCrash (status.trapMessage?.getD ""))

end Artifact

namespace Stages

variable {σ β : Type}

def prepareCompile (w : Workshop σ β) (files : NameMap String) :
    EStateM Failure (Stages σ β) Invocation := do
  let assets := w.config.assets
  let module ← inToolchain (Toolchain.module w.fetch assets.compiler)
  let (library, support) ← inToolchain (Toolchain.roots w.fetch assets)
  match Artifact.mounts w.config library.root support.root files with
  | .ok mounts => return Artifact.invocation w.config module mounts
  | .error e => throw (.ofMount e)

def compileFiles (w : Workshop σ β) (files : NameMap String) (s : Stages σ β) :
    Streamed Build × Stages σ β :=
  s.perform w .compile (prepareCompile w files) (Artifact.judge w.config.compile)

end Stages

end Buildbox
