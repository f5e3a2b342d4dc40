import Buildbox.Json.Tagged
import Buildbox.Message.Event
import Buildbox.Message.Stage
import Buildbox.Output
import Buildbox.Sandbox.ExitStatus
import Buildbox.Sandbox.Runner

/-! The JSON shapes of everything that crosses a boundary, and how they are read back. -/

namespace Buildbox

open Json (asString? asBool? asNatBelow? asWord? asBytes? asOption? asNameMap? fields? members?
  variant? unit? heldUnit? inlineTag? noFields? outerTag?)

private def word (n : UInt64) : Json := .nat n.toNat

private def texts (m : NameMap String) : Json :=
  .obj (m.entries.map fun (name, text) => (name, .str text))

namespace TranspileRequest

def toJson (r : TranspileRequest) : Json :=
  .obj [("filename", .str r.filename), ("content", .str r.content)]

def ofJson? (v : Json) : Option TranspileRequest := do
  let f ← fields? ["filename", "content"] v
  return {
    filename := ← f.required 0 "filename" asString?
    content := ← f.required 1 "content" asString? }

instance : JsonForm TranspileRequest := ⟨toJson, ofJson?⟩

end TranspileRequest

namespace TranspileResponse

def toJson : TranspileResponse → Json
  | transpiled filename text =>
    .obj [("transpiled", .obj [("filename", .str filename), ("transpiled", .str text)])]
  | failed stderr => .obj [("failed", .obj [("stderr", .str stderr)])]

def ofJson? (v : Json) : Option TranspileResponse := do
  match ← variant? v with
  | ("transpiled", some v) =>
    let f ← fields? ["filename", "transpiled"] v
    return transpiled (← f.required 0 "filename" asString?) (← f.required 1 "transpiled" asString?)
  | ("failed", some v) =>
    let f ← fields? ["stderr"] v
    return failed (← f.required 0 "stderr" asString?)
  | _ => none

instance : JsonForm TranspileResponse := ⟨toJson, ofJson?⟩

end TranspileResponse

namespace CompileRequest

def toJson (r : CompileRequest) : Json :=
  .obj [("files", texts r.files)]

def ofJson? (v : Json) : Option CompileRequest := do
  let f ← fields? ["files"] v
  return { files := ← f.required 0 "files" (asNameMap? asString?) }

instance : JsonForm CompileRequest := ⟨toJson, ofJson?⟩

end CompileRequest

namespace CompileResponse

def toJson : CompileResponse → Json
  | stderr text => .obj [("stderr", .str text)]
  | compiled artifact => .obj [("compiled", .bytes artifact)]
  | failed none => .obj [("failed", .obj [("stderr", .null)])]
  | failed (some text) => .obj [("failed", .obj [("stderr", .str text)])]

def ofJson? (v : Json) : Option CompileResponse := do
  match ← variant? v with
  | ("stderr", some v) => return stderr (← asString? v)
  | ("compiled", some v) => return compiled (← asBytes? v)
  | ("failed", some v) =>
    let f ← fields? ["stderr"] v
    return failed (← f.optional 0 "stderr" asString?)
  | _ => none

instance : JsonForm CompileResponse := ⟨toJson, ofJson?⟩

end CompileResponse

namespace ExecuteRequest

def toJson (r : ExecuteRequest) : Json :=
  .obj [("run", .bytes r.artifact)]

def ofJson? (v : Json) : Option ExecuteRequest := do
  let f ← fields? ["run"] v
  return { artifact := ← f.required 0 "run" asBytes? }

instance : JsonForm ExecuteRequest := ⟨toJson, ofJson?⟩

end ExecuteRequest

namespace ExecuteResponse

def toJson : ExecuteResponse → Json
  | stderr text => .obj [("stderr", .str text)]
  | preview text => .obj [("preview", .str text)]
  | trapped message => .obj [("trapped", .str message)]
  | done => .str "done"

def ofJson? (v : Json) : Option ExecuteResponse := do
  match ← variant? v with
  | ("stderr", some v) => return stderr (← asString? v)
  | ("preview", some v) => return preview (← asString? v)
  | ("trapped", some v) => return trapped (← asString? v)
  | ("done", v) =>
    unit? v
    return done
  | _ => none

instance : JsonForm ExecuteResponse := ⟨toJson, ofJson?⟩

end ExecuteResponse

namespace Transpiled

def toJson (t : Transpiled) : Json :=
  .obj [("source", .str t.source), ("filename", .str t.filename), ("content", .str t.content)]

def ofJson? (v : Json) : Option Transpiled := do
  let f ← fields? ["source", "filename", "content"] v
  return {
    source := ← f.required 0 "source" asString?
    filename := ← f.required 1 "filename" asString?
    content := ← f.required 2 "content" asString? }

instance : JsonForm Transpiled := ⟨toJson, ofJson?⟩

end Transpiled

namespace Channel

def toJson : Channel → Json
  | diagnostic => .str "diagnostic"
  | preview => .str "preview"

def ofJson? (v : Json) : Option Channel := do
  match ← variant? v with
  | ("diagnostic", v) =>
    unit? v
    return diagnostic
  | ("preview", v) =>
    unit? v
    return preview
  | _ => none

instance : JsonForm Channel := ⟨toJson, ofJson?⟩

end Channel

namespace OutputChunk

def toJson (c : OutputChunk) : Json :=
  .obj [("channel", c.channel.toJson), ("text", .str c.text)]

def ofJson? (v : Json) : Option OutputChunk := do
  let f ← fields? ["channel", "text"] v
  return {
    channel := ← f.required 0 "channel" Channel.ofJson?
    text := ← f.required 1 "text" asString? }

instance : JsonForm OutputChunk := ⟨toJson, ofJson?⟩

end OutputChunk

namespace ExitStatus

def toJson : ExitStatus → Json
  | exited code => .obj [("kind", .str "exited"), ("code", .int code.toInt)]
  | trapped message => .obj [("kind", .str "trapped"), ("message", .str message)]
  | timedOut afterMs => .obj [("kind", .str "timed_out"), ("after_ms", word afterMs)]

def ofJson? (v : Json) : Option ExitStatus := do
  match ← inlineTag? "kind" [] v with
  | ("exited", v) =>
    let f ← fields? ["code"] v
    let code ← f.required 0 "code" (Json.asIntIn? Int32.minValue.toInt Int32.maxValue.toInt)
    return exited (Int32.ofInt code)
  | ("trapped", v) =>
    let f ← fields? ["message"] v
    return trapped (← f.required 0 "message" asString?)
  | ("timed_out", v) =>
    let f ← fields? ["after_ms"] v
    return timedOut (← f.required 0 "after_ms" asWord?)
  | _ => none

instance : JsonForm ExitStatus := ⟨toJson, ofJson?⟩

end ExitStatus

namespace StageState

def toJson : StageState → Json
  | idle => .str "Idle"
  | running => .str "Running"

def ofJson? (v : Json) : Option StageState := do
  match ← variant? v with
  | ("Idle", v) =>
    unit? v
    return idle
  | ("Running", v) =>
    unit? v
    return running
  | _ => none

instance : JsonForm StageState := ⟨toJson, ofJson?⟩

end StageState

namespace Runner

def toJson (r : Runner) : Json :=
  .obj [("name", .str r.name), ("state", r.state.toJson), ("run_count", .nat r.runCount),
    ("rejected_count", .nat r.rejectedCount)]

def ofJson? (v : Json) : Option Runner := do
  let f ← fields? ["name", "state", "run_count", "rejected_count"] v
  return {
    name := ← f.required 0 "name" asString?
    state := ← f.required 1 "state" StageState.ofJson?
    runCount := ← f.required 2 "run_count" (asNatBelow? UInt64.size)
    rejectedCount := ← f.required 3 "rejected_count" (asNatBelow? UInt64.size) }

instance : JsonForm Runner := ⟨toJson, ofJson?⟩

end Runner

namespace PipelineState

def toJson : PipelineState → Json
  | idle => .obj [("state", .str "idle")]
  | transpiling done total =>
    .obj [("state", .str "transpiling"), ("done", word done), ("total", word total)]
  | compiling => .obj [("state", .str "compiling")]
  | running => .obj [("state", .str "running")]
  | errored => .obj [("state", .str "errored")]

def names : List String :=
  ["idle", "transpiling", "compiling", "running", "errored"]

def read? (held : Bool) (v : Json) : Option PipelineState := do
  match ← inlineTag? "state" (if held then names else []) v with
  | ("transpiling", v) =>
    let f ← fields? ["done", "total"] v
    return transpiling (← f.required 0 "done" asWord?) (← f.required 1 "total" asWord?)
  | (name, v) =>
    noFields? v
    match name with
    | "idle" => return idle
    | "compiling" => return compiling
    | "running" => return running
    | "errored" => return errored
    | _ => none

instance : JsonForm PipelineState := ⟨toJson, read? false⟩

end PipelineState

namespace Step

def toJson : Step → Json
  | transpile => .str "transpile"
  | compile => .str "compile"
  | execute => .str "execute"

def read? (held : Bool) (v : Json) : Option Step := do
  let (name, v) ← variant? v
  if held then heldUnit? v else unit? v
  match name with
  | "transpile" => return transpile
  | "compile" => return compile
  | "execute" => return execute
  | _ => none

instance : JsonForm Step := ⟨toJson, read? false⟩

end Step

namespace PipelineEvent

private def carrying (event : String) (data : Json) : Json :=
  .obj [("event", .str event), ("data", data)]

def toJson : PipelineEvent → Json
  | status state => carrying "status" state.toJson
  | stepStarted step => carrying "step_started" step.toJson
  | stepFinished step ok elapsedMs =>
    carrying "step_finished"
      (.obj [("step", step.toJson), ("ok", .bool ok), ("elapsed_ms", word elapsedMs)])
  | transpiled filename content =>
    carrying "transpiled" (.obj [("filename", .str filename), ("content", .str content)])
  | diagnostic line => carrying "diagnostic" (.str line)
  | compiled size => carrying "compiled" (.obj [("bytes", word size)])
  | log line => carrying "log" (.str line)
  | preview text => carrying "preview" (.str text)
  | done => .obj [("event", .str "done")]

def ofJson? (v : Json) : Option PipelineEvent := do
  match ← outerTag? "event" "data" v with
  | ("status", some c) => return status (← PipelineState.read? c.held c.value)
  | ("step_started", some c) => return stepStarted (← Step.read? c.held c.value)
  | ("step_finished", some c) =>
    let f ← members? ["step", "ok", "elapsed_ms"] c.value
    return stepFinished (← f.required 0 "step" (Step.read? c.held)) (← f.required 1 "ok" asBool?)
      (← f.required 2 "elapsed_ms" asWord?)
  | ("transpiled", some c) =>
    let f ← members? ["filename", "content"] c.value
    return transpiled (← f.required 0 "filename" asString?) (← f.required 1 "content" asString?)
  | ("diagnostic", some c) => return diagnostic (← asString? c.value)
  | ("compiled", some c) =>
    let f ← members? ["bytes"] c.value
    return compiled (← f.required 0 "bytes" asWord?)
  | ("log", some c) => return log (← asString? c.value)
  | ("preview", some c) => return preview (← asString? c.value)
  | ("done", c) =>
    unit? (c.map (·.value))
    return done
  | _ => none

instance : JsonForm PipelineEvent := ⟨toJson, ofJson?⟩

end PipelineEvent

end Buildbox
