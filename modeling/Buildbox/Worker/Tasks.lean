import Buildbox.Worker.Handler
import Buildbox.Worker.Station

/-! The tasks that answer one request: the one that handles it, the thread of its run in the
sandbox, and the relays that pass on what the run prints. A relay ends when nobody can send to it
any more and everything was passed on. -/

namespace Buildbox

structure Relay where
  channel : Outbox OutputChunk := {}
  passed : Nat := 0
  ended : Bool := false

namespace Relay

def receive (ds : List (Dispatch OutputChunk)) (r : Relay) : Relay :=
  { r with channel := r.channel.actAll ds }

def go (r : Relay) : Relay × List (Dispatch OutputChunk) :=
  match r.channel.sent[r.passed]? with
  | some chunk => ({ r with passed := r.passed + 1 }, [.send chunk])
  | none =>
    if r.channel.senders = 0 ∧ ¬ r.ended then ({ r with ended := true }, [.drop])
    else (r, [])

def output (r : Relay) : Outbox OutputChunk where
  sent := r.channel.sent.take r.passed
  senders := if r.ended then 0 else 1

def feed (ds : List (Dispatch OutputChunk)) : List Relay → List Relay
  | [] => []
  | r :: rest => r.receive ds :: rest

def advance : Nat → List Relay → List Relay × List (Dispatch OutputChunk)
  | _, [] => ([], [])
  | 0, r :: rest => (r.go.1 :: feed r.go.2 rest, if rest.isEmpty then r.go.2 else [])
  | n + 1, r :: rest => (r :: (advance n rest).1, (advance n rest).2)

def hangUp : List Relay → List Relay
  | [] => []
  | [r] => [r.receive [.drop]]
  | r :: next :: rest => r :: hangUp (next :: rest)

end Relay

namespace Stages

variable {σ β : Type}

def forwarded : (step : Step) → OutputChunk → List step.Response
  | .transpile, _ => []
  | .compile, chunk => [.stderr chunk.text]
  | .execute, chunk => [.ofChunk chunk]

def verdict (w : Workshop σ β) : (step : Step) → step.Request → Except Failure RunReport →
    List OutputChunk → List step.Response
  | .transpile, r, result, _ =>
    let c := w.config.transpile
    let derived := (c.derivedName? r.filename).getD ""
    TranspileResponse.ofResult (result.bind (Derivative.judge c r.filename derived))
  | .compile, _, result, collected =>
    CompileResponse.verdict (result.bind (Artifact.judge w.config.compile · collected))
  | .execute, _, result, _ => ExecuteResponse.ending (result.bind (.ok ·.status))

theorem replies_eq (w : Workshop σ β) (step : Step) (r : step.Request) (x : Execution) :
    replies w step r x =
      x.chunks.flatMap (forwarded step) ++ verdict w step r x.result x.chunks := by
  cases step with
  | transpile => simp [replies, forwarded, verdict]
  | compile =>
    rw [replies, CompileResponse.ofStreamed, List.map_eq_flatMap]
    rfl
  | execute =>
    rw [replies, ExecuteResponse.ofStreamed, List.map_eq_flatMap]
    rfl

end Stages

inductive SandboxRun where
  | none
  | refused (f : Failure)
  | ready (i : Invocation)
  | queued (i : Invocation)
  | printing (i : Invocation) (x : Execution) (printed : Nat)
  | finished (i : Invocation) (x : Execution)
  | released (i : Invocation) (x : Execution)

inductive StageWork.Point (step : Step) where
  | fresh
  | taken
  | prepared
  | running
  | collecting (result : Except Failure RunReport)
  | judged (replies : List step.Response)
  | forwarding (replies : List step.Response)
  | replying (replies : List step.Response)
  | returned

structure StageWork (step : Step) where
  request : step.Request
  point : StageWork.Point step := .fresh
  run : SandboxRun := .none
  relays : List Relay := []

inductive StageWork.Task where
  | handler
  | sandbox
  | relay (n : Nat)

namespace StageWork

variable {σ β : Type} {step : Step}

def forwarders : Step → List Relay
  | .transpile => []
  | .compile | .execute => [{}]

def sinks : Step → Nat
  | .transpile => 0
  | .compile | .execute => 2

def dropSinks (step : Step) : List Relay → List Relay :=
  Relay.feed (List.replicate (sinks step) .drop)

def connect (step : Step) (relays : List Relay) : List Relay :=
  match step with
  | .transpile => relays
  | .compile => { channel := { senders := 2 } } :: Relay.feed [.clone] relays
  | .execute => Relay.feed [.clone, .clone] relays

def collected (relays : List Relay) : List OutputChunk :=
  (relays.head?.map (·.output.sent)).getD []

def handle (w : Workshop σ β) (k : StageWork step) (s : Stages σ β) :
    StageWork step × List (Dispatch step.Response) × Stages σ β :=
  match k.point with
  | .fresh =>
    ({ k with point := .taken, relays := forwarders step },
      (forwarders step).map fun _ => .clone, s)
  | .taken =>
    match s.prepare w step k.request with
    | .ok i s =>
      ({ k with point := .prepared, run := .ready i, relays := connect step k.relays }, [], s)
    | .error f s =>
      ({ k with
        point := .judged (Stages.verdict w step k.request (.error f) [])
        run := .refused f }, [], s)
  | .prepared =>
    match k.run with
    | .ready i =>
      match s.acquire step with
      | (.ok (), s) => ({ k with point := .running, run := .queued i }, [], s)
      | (.error f, s) =>
        ({ k with
          point := .running, run := .refused f, relays := dropSinks step k.relays }, [], s)
    | _ => (k, [], s)
  | .running =>
    match k.run with
    | .refused f => ({ k with point := .collecting (.error f) }, [], s)
    | .released _ x => ({ k with point := .collecting x.result }, [], s)
    | _ => (k, [], s)
  | .collecting result =>
    if k.relays.dropLast.all (·.ended) then
      ({ k with
        point := .judged (Stages.verdict w step k.request result (collected k.relays)) }, [], s)
    else (k, [], s)
  | .judged replies =>
    ({ k with point := .forwarding replies, relays := Relay.hangUp k.relays }, [], s)
  | .forwarding replies =>
    if k.relays.getLast?.all (·.ended) then ({ k with point := .replying replies }, [], s)
    else (k, [], s)
  | .replying (reply :: rest) => ({ k with point := .replying rest }, [.send reply], s)
  | .replying [] => ({ k with point := .returned }, [.drop], s)
  | .returned => (k, [], s)

def print (w : Workshop σ β) (k : StageWork step) (s : Stages σ β) :
    StageWork step × Stages σ β :=
  match k.run with
  | .queued i =>
    let (x, sandbox) := w.backend step i s.sandbox
    ({ k with run := .printing i x 0 }, { s with sandbox })
  | .printing i x n =>
    match x.chunks[n]? with
    | some chunk =>
      ({ k with run := .printing i x (n + 1), relays := Relay.feed [.send chunk] k.relays }, s)
    | none => ({ k with run := .finished i x, relays := dropSinks step k.relays }, s)
  | .finished i x => ({ k with run := .released i x }, s.withRunner step (s.runner step).release)
  | _ => (k, s)

def forward (step : Step) : Dispatch OutputChunk → List (Dispatch step.Response)
  | .send chunk => (Stages.forwarded step chunk).map .send
  | .clone => [.clone]
  | .drop => [.drop]

def go (w : Workshop σ β) (task : Task) (k : StageWork step) (s : Stages σ β) :
    StageWork step × List (Dispatch step.Response) × Stages σ β :=
  match task with
  | .handler => k.handle w s
  | .sandbox =>
    let (k, s) := k.print w s
    (k, [], s)
  | .relay n =>
    let (relays, ds) := Relay.advance n k.relays
    ({ k with relays }, ds.flatMap (forward step), s)

end StageWork

def Stages.service {σ β : Type} (w : Workshop σ β) (step : Step) :
    Service step.Request step.Response (StageWork step) StageWork.Task (Stages σ β) where
  start request := { request }
  go := StageWork.go w
  returned k := k.point matches .returned

end Buildbox
