import Buildbox.Pipeline.Basic
import Buildbox.Worker.Handler

/-! The pipeline with all its tasks: whoever asks for runs, the drivers of runs that were let in,
the workers and their handlers. Any of them may be the next to go on. -/

namespace Buildbox

namespace Pipeline

variable {σ β : Type}

def mailbox (p : Pipeline σ β) : (step : Step) → Mailbox step.Request
  | .transpile => p.transpile
  | .compile => p.compile
  | .execute => p.execute

def withMailbox (p : Pipeline σ β) : (step : Step) → Mailbox step.Request → Pipeline σ β
  | .transpile, transpile => { p with transpile }
  | .compile, compile => { p with compile }
  | .execute, execute => { p with execute }

end Pipeline

inductive Turn where
  | speaking (d : Dialogue (List PipelineEvent))
  | waiting (step : Step) (ticket : Ticket)
    (next : Answer step.Response → Dialogue (List PipelineEvent))
  | parting (last : List PipelineEvent)
  | gone

structure Driver where
  said : List PipelineEvent := []
  turn : Turn

structure Floor (σ β : Type) where
  pipeline : Pipeline σ β
  transpile : List (Handler .transpile) := []
  compile : List (Handler .compile) := []
  execute : List (Handler .execute) := []
  drivers : List Driver := []

namespace Floor

variable {σ β : Type}

def start (toolchain : Toolchain σ) (sandbox : β) : Floor σ β where
  pipeline := { stages := { toolchain, sandbox } }

def handlers (f : Floor σ β) : (step : Step) → List (Handler step)
  | .transpile => f.transpile
  | .compile => f.compile
  | .execute => f.execute

def withHandlers (f : Floor σ β) : (step : Step) → List (Handler step) → Floor σ β
  | .transpile, transpile => { f with transpile }
  | .compile, compile => { f with compile }
  | .execute, execute => { f with execute }

def mailbox (f : Floor σ β) (step : Step) : Mailbox step.Request :=
  f.pipeline.mailbox step

def withMailbox (f : Floor σ β) (step : Step) (m : Mailbox step.Request) : Floor σ β :=
  { f with pipeline := f.pipeline.withMailbox step m }

def withDriver (f : Floor σ β) (run : Nat) (d : Driver) : Floor σ β :=
  { f with drivers := f.drivers.set run d }

def replies? (f : Floor σ β) (step : Step) (ticket : Ticket) : Option (List step.Response) :=
  if ticket ∈ (f.mailbox step).dropped then some []
  else if ticket ∈ (f.mailbox step).closed then
    ((f.handlers step).find? (·.ticket = ticket)).map (·.sent)
  else none

def ask (w : Workshop σ β) (files : NameMap String) (f : Floor σ β) : Floor σ β :=
  let (admitted, pipeline) := f.pipeline.admitRun
  if admitted then
    let d := Course.run w.config.transpile.sourceExt files
    { f with pipeline, drivers := f.drivers ++ [{ turn := .speaking d }] }
  else { f with pipeline }

def post (run : Nat) (said : List PipelineEvent) (step : Step) (request : step.Request)
    (next : Answer step.Response → Dialogue (List PipelineEvent)) (f : Floor σ β) : Floor σ β :=
  let (ticket, m) := (f.mailbox step).post request
  (f.withMailbox step m).withDriver run { said, turn := .waiting step ticket next }

def go (run : Nat) (d : Driver) (f : Floor σ β) : Floor σ β :=
  match d.turn with
  | .speaking (.report event next) =>
    f.withDriver run { said := d.said ++ [event], turn := .speaking next }
  | .speaking (.transpile request next) => f.post run d.said .transpile request next
  | .speaking (.compile request next) => f.post run d.said .compile request next
  | .speaking (.execute request next) => f.post run d.said .execute request next
  | .speaking (.done last) =>
    { f with pipeline := f.pipeline.settle }.withDriver run { d with turn := .parting last }
  | .waiting step ticket next =>
    match f.replies? step ticket with
    | some replies => f.withDriver run { d with turn := .speaking (next (.ok replies)) }
    | none => f
  | .parting (event :: rest) =>
    f.withDriver run { said := d.said ++ [event], turn := .parting rest }
  | .parting [] => f.withDriver run { d with turn := .gone }
  | .gone => f

def advance (run : Nat) (f : Floor σ β) : Floor σ β :=
  match f.drivers[run]? with
  | some d => f.go run d
  | none => f

def take (step : Step) (f : Floor σ β) : Floor σ β :=
  match (f.mailbox step).take with
  | (some (ticket, some request), m) =>
    (f.withMailbox step m).withHandlers step
      (f.handlers step ++ [{ ticket, phase := .taken request }])
  | (_, m) => f.withMailbox step m

def work (w : Workshop σ β) (step : Step) (ticket : Ticket) (f : Floor σ β) : Floor σ β :=
  let (handlers, m, stages) :=
    Handler.workAt w ticket (f.handlers step) (f.mailbox step) f.pipeline.stages
  ({ f with pipeline := { f.pipeline with stages } }.withMailbox step m).withHandlers step handlers

inductive Action where
  | ask (files : NameMap String)
  | advance (run : Nat)
  | take (step : Step)
  | work (step : Step) (ticket : Ticket)

def act (w : Workshop σ β) (f : Floor σ β) : Action → Floor σ β
  | .ask files => f.ask w files
  | .advance run => f.advance run
  | .take step => f.take step
  | .work step ticket => f.work w step ticket

def actAll (w : Workshop σ β) (f : Floor σ β) (actions : List Action) : Floor σ β :=
  actions.foldl (act w) f

end Floor

end Buildbox
