/-! What a run of the pipeline reports while it goes on. -/

namespace Buildbox

inductive PipelineState where
  | idle
  | transpiling (done total : UInt64)
  | compiling
  | running
  | errored
  deriving DecidableEq, Repr, Inhabited

inductive Step where
  | transpile
  | compile
  | execute
  deriving DecidableEq, Repr, Inhabited

inductive PipelineEvent where
  | status (state : PipelineState)
  | stepStarted (step : Step)
  | stepFinished (step : Step) (ok : Bool) (elapsedMs : UInt64)
  | transpiled (filename content : String)
  | diagnostic (line : String)
  | compiled (size : UInt64)
  | log (line : String)
  | preview (text : String)
  | done
  deriving DecidableEq, Repr, Inhabited

end Buildbox
