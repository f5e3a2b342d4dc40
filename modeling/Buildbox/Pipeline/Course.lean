import Buildbox.Config.Basic
import Buildbox.Path
import Buildbox.Pipeline.Dialogue
import Buildbox.Stage.Artifact
import Buildbox.Text.Lines

/-! The course of a run: every source is transpiled, the merged files are compiled, and the
artifact is executed. The first failure ends it. -/

namespace Buildbox

namespace Course

def finished (step : Step) (ok : Bool) : PipelineEvent :=
  .stepFinished step ok 0

def diagnostics (text : String) : List PipelineEvent :=
  (diagnosticLines text).map .diagnostic

def complaints (stderr : String) : List PipelineEvent :=
  match diagnostics stderr with
  | [] => [.diagnostic "Transpile failed"]
  | events => events

def derived (filename : String) (replies : List TranspileResponse) :
    Except String (String × String) :=
  match replies.getLast? with
  | none => .error ("no transpile result for " ++ filename)
  | some (.transpiled filename text) => .ok (filename, text)
  | some (.failed stderr) => .error stderr

structure CompileHearing where
  lines : LineBuffer := {}
  artifact : Option Bytes := none
  failure : Option (Option String) := none
  deriving DecidableEq, Repr, Inhabited

def hearCompile (h : CompileHearing) :
    List CompileResponse → List PipelineEvent × CompileHearing
  | [] =>
    let (line, lines) := h.lines.finish
    (line.toList.map .diagnostic, { h with lines })
  | .stderr text :: rest =>
    let (now, lines) := h.lines.push text
    let (later, h) := hearCompile { h with lines } rest
    (now.map .diagnostic ++ later, h)
  | .compiled bytes :: rest => hearCompile { h with artifact := some bytes } rest
  | .failed stderr :: rest => hearCompile { h with failure := some stderr } rest

structure ExecuteHearing where
  lines : LineBuffer := {}
  trapped : Bool := false
  deriving DecidableEq, Repr, Inhabited

def hearExecute (h : ExecuteHearing) :
    List ExecuteResponse → List PipelineEvent × ExecuteHearing
  | [] =>
    let (line, lines) := h.lines.finish
    (line.toList.map .log, { h with lines })
  | .stderr text :: rest =>
    let (now, lines) := h.lines.push text
    let (later, h) := hearExecute { h with lines } rest
    (now.map .log ++ later, h)
  | .preview text :: rest =>
    let (later, h) := hearExecute h rest
    (.preview text :: later, h)
  | .trapped message :: rest =>
    let (line, lines) := h.lines.finish
    let (later, h) := hearExecute { lines, trapped := true } rest
    (line.toList.map .log ++ diagnostics message ++ later, h)
  | .done :: rest => hearExecute h rest

open Dialogue (reportAll)

def transpileEach (total : Nat) :
    (count : Nat) → List String → NameMap String → Dialogue (Option (NameMap String))
  | _, [], files => do
    reportAll [finished .transpile true]
    return some files
  | count, filename :: rest, files =>
    .transpile ⟨filename, (files.get? filename).getD ""⟩ fun answer =>
      match (answer.mapError Failure.message).bind (derived filename) with
      | .ok (name, text) => do
        reportAll [.transpiled name text,
          .status (.transpiling (UInt64.ofNat (count + 1)) (UInt64.ofNat total))]
        transpileEach total (count + 1) rest (files.insert name text)
      | .error stderr => do
        reportAll (complaints stderr ++ [finished .transpile false])
        return none

def sources (ext : String) (files : NameMap String) : List String :=
  files.names.filter fun name => (Path.stem? name ext).isSome

def transpileAll (ext : String) (files : NameMap String) : Dialogue (Option (NameMap String)) :=
  match sources ext files with
  | [] => return some files
  | names => do
    reportAll [.stepStarted .transpile,
      .status (.transpiling 0 (UInt64.ofNat names.length))]
    transpileEach names.length 0 names files

def conclude (h : CompileHearing) : List PipelineEvent × Option Build :=
  match h.failure with
  | some stderr =>
    (diagnostics (stderr.getD "") ++
      [.diagnostic "Compilation failed.", finished .compile false], none)
  | none =>
    match h.artifact with
    | some bytes =>
      ([.compiled (UInt64.ofNat bytes.length), finished .compile true], some (.artifact bytes))
    | none => ([finished .compile false], some .nothing)

def compile (files : NameMap String) : Dialogue (Option Build) := do
  reportAll [.status .compiling, .stepStarted .compile]
  .compile ⟨files⟩ fun
    | .error f => do
      reportAll (diagnostics f.message ++ [finished .compile false])
      return none
    | .ok replies => do
      let (heard, h) := hearCompile {} replies
      let (ending, build) := conclude h
      reportAll (heard ++ ending)
      return build

def execute (artifact : Bytes) : Dialogue Unit := do
  reportAll [.status .running, .stepStarted .execute]
  .execute ⟨artifact⟩ fun
    | .error f => reportAll (diagnostics f.message ++ [finished .execute false])
    | .ok replies =>
      let (heard, h) := hearExecute {} replies
      reportAll (heard ++ [finished .execute (! h.trapped)])

def errored : List PipelineEvent :=
  [.status .errored, .status .idle]

def run (ext : String) (files : NameMap String) : Dialogue (List PipelineEvent) := do
  match ← transpileAll ext files with
  | none => return errored
  | some files =>
    match ← compile files with
    | none => return errored
    | some .nothing => return [.status .idle]
    | some (.artifact bytes) =>
      execute bytes
      return [.status .idle, .done]

end Course

end Buildbox
