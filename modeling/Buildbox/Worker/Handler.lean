import Buildbox.Worker.Mailbox
import Buildbox.Worker.Replies

/-! The task that handles one request, step by step. Between any two steps others may go on. -/

namespace Buildbox

namespace Step

abbrev Request : Step → Type
  | transpile => TranspileRequest
  | compile => CompileRequest
  | execute => ExecuteRequest

abbrev Response : Step → Type
  | transpile => TranspileResponse
  | compile => CompileResponse
  | execute => ExecuteResponse

end Step

namespace Stages

variable {σ β : Type}

def prepare (w : Workshop σ β) :
    (step : Step) → step.Request → EStateM Failure (Stages σ β) Invocation
  | .transpile, r =>
    let c := w.config.transpile
    match c.derivedName? r.filename with
    | none => throw (.transpile r.filename ("not a ." ++ c.sourceExt ++ " file"))
    | some _ => prepareTranspile w r.filename r.content
  | .compile, r => prepareCompile w r.files
  | .execute, r => pure (Trial.invocation w.config r.artifact)

def replies (w : Workshop σ β) : (step : Step) → step.Request → Execution → List step.Response
  | .transpile, r, x =>
    let c := w.config.transpile
    let derived := (c.derivedName? r.filename).getD ""
    TranspileResponse.ofResult (x.result.bind (Derivative.judge c r.filename derived))
  | .compile, _, x =>
    CompileResponse.ofStreamed
      ⟨x.result.bind (Artifact.judge w.config.compile · x.chunks), x.chunks⟩
  | .execute, _, x => ExecuteResponse.ofStreamed ⟨x.result.bind (.ok ·.status), x.chunks⟩

end Stages

inductive Phase (step : Step) where
  | taken (request : step.Request)
  | prepared (request : step.Request) (i : Invocation)
  | asked (request : step.Request) (i : Invocation) (answer : Except Failure Unit)
  | replying (replies : List step.Response)
  | freed
  | ended

structure Handler (step : Step) where
  ticket : Ticket
  phase : Phase step
  sent : List step.Response := []

namespace Handler

variable {σ β : Type} {step : Step}

def work (w : Workshop σ β) (h : Handler step) (m : Mailbox step.Request) (s : Stages σ β) :
    Handler step × Mailbox step.Request × Stages σ β :=
  match h.phase with
  | .taken r =>
    match s.prepare w step r with
    | .ok i s => ({ h with phase := .prepared r i }, m, s)
    | .error f s =>
      ({ h with phase := .replying (Stages.replies w step r ⟨.error f, []⟩) }, m, s)
  | .prepared r i =>
    let (answer, s) := s.acquire step
    ({ h with phase := .asked r i answer }, m, s)
  | .asked r i answer =>
    let (x, s) := s.carryOut w step i answer
    ({ h with phase := .replying (Stages.replies w step r x) }, m, s)
  | .replying (reply :: rest) =>
    ({ h with phase := .replying rest, sent := h.sent ++ [reply] }, m, s)
  | .replying [] => ({ h with phase := .freed }, m.release h.ticket, s)
  | .freed => ({ h with phase := .ended }, m.close h.ticket, s)
  | .ended => (h, m, s)

def workAt (w : Workshop σ β) (ticket : Ticket) : List (Handler step) → Mailbox step.Request →
    Stages σ β → List (Handler step) × Mailbox step.Request × Stages σ β
  | [], m, s => ([], m, s)
  | h :: rest, m, s =>
    if h.ticket = ticket then
      let (h, m, s) := h.work w m s
      (h :: rest, m, s)
    else
      let (rest, m, s) := workAt w ticket rest m s
      (h :: rest, m, s)

end Handler

end Buildbox
