import Buildbox.Stage.Derivative
import Buildbox.Stage.Trial

/-! What the workers reply. A stage that is busy makes them silent. -/

namespace Buildbox

namespace TranspileResponse

def ofResult : Except Failure Transpiled → List TranspileResponse
  | .ok out => [transpiled out.filename out.content]
  | .error (.transpile _ stderr) => [failed stderr]
  | .error f => if f.isBusy then [] else [failed f.message]

end TranspileResponse

namespace CompileResponse

def verdict : Except Failure Build → List CompileResponse
  | .ok (.artifact bytes) => [compiled bytes]
  | .ok .nothing => []
  | .error (.compile _) => [failed none]
  | .error f => if f.isBusy then [] else [failed (some f.message)]

def ofStreamed (out : Streamed Build) : List CompileResponse :=
  out.chunks.map (fun chunk => stderr chunk.text) ++ verdict out.result

end CompileResponse

namespace ExecuteResponse

def ofChunk (chunk : OutputChunk) : ExecuteResponse :=
  match chunk.channel with
  | .preview => preview chunk.text
  | .diagnostic => stderr chunk.text

def ending : Except Failure ExitStatus → List ExecuteResponse
  | .ok status =>
    match status.trapMessage? with
    | some message => [trapped message, done]
    | none => [done]
  | .error f => if f.isBusy then [] else [trapped f.message, done]

def ofStreamed (out : Streamed ExitStatus) : List ExecuteResponse :=
  out.chunks.map ofChunk ++ ending out.result

end ExecuteResponse

namespace Stages

variable {σ β : Type}

def answerTranspile (w : Workshop σ β) (r : TranspileRequest) (s : Stages σ β) :
    List TranspileResponse × Stages σ β :=
  let (out, s) := s.transpileFile w r.filename r.content
  (TranspileResponse.ofResult out, s)

def answerCompile (w : Workshop σ β) (r : CompileRequest) (s : Stages σ β) :
    List CompileResponse × Stages σ β :=
  let (out, s) := s.compileFiles w r.files
  (CompileResponse.ofStreamed out, s)

def answerExecute (w : Workshop σ β) (r : ExecuteRequest) (s : Stages σ β) :
    List ExecuteResponse × Stages σ β :=
  let (out, s) := s.executeArtifact w r.artifact
  (ExecuteResponse.ofStreamed out, s)

end Stages

end Buildbox
