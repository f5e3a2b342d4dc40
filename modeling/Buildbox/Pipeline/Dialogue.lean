import Buildbox.Failure
import Buildbox.Message.Event
import Buildbox.Message.Stage

/-! What a run says: events to whoever watches, and requests to the workers, each of which is
answered before the run goes on. -/

namespace Buildbox

/-- All replies to a request, or why it could not be posted. -/
abbrev Answer (ρ : Type) := Except Failure (List ρ)

inductive Dialogue (α : Type) where
  | done (a : α)
  | report (event : PipelineEvent) (next : Dialogue α)
  | transpile (request : TranspileRequest) (next : Answer TranspileResponse → Dialogue α)
  | compile (request : CompileRequest) (next : Answer CompileResponse → Dialogue α)
  | execute (request : ExecuteRequest) (next : Answer ExecuteResponse → Dialogue α)

structure Crew (τ : Type) where
  transpile : TranspileRequest → τ → Answer TranspileResponse × τ
  compile : CompileRequest → τ → Answer CompileResponse × τ
  execute : ExecuteRequest → τ → Answer ExecuteResponse × τ

namespace Dialogue

variable {α γ τ : Type}

def bind : Dialogue α → (α → Dialogue γ) → Dialogue γ
  | done a, k => k a
  | report event next, k => report event (next.bind k)
  | transpile request next, k => transpile request fun answer => (next answer).bind k
  | compile request next, k => compile request fun answer => (next answer).bind k
  | execute request next, k => execute request fun answer => (next answer).bind k

instance : Monad Dialogue where
  pure := done
  bind := bind

def reportAll : List PipelineEvent → Dialogue Unit
  | [] => done ()
  | event :: rest => report event (reportAll rest)

def hold (crew : Crew τ) : Dialogue α → τ → (List PipelineEvent × α) × τ
  | done a, s => (([], a), s)
  | report event next, s =>
    let ((events, a), s) := next.hold crew s
    ((event :: events, a), s)
  | transpile request next, s =>
    let (answer, s) := crew.transpile request s
    (next answer).hold crew s
  | compile request next, s =>
    let (answer, s) := crew.compile request s
    (next answer).hold crew s
  | execute request next, s =>
    let (answer, s) := crew.execute request s
    (next answer).hold crew s

theorem hold_bind (crew : Crew τ) (d : Dialogue α) (k : α → Dialogue γ) (s : τ) :
    (d.bind k).hold crew s =
      let ((first, a), s) := d.hold crew s
      let ((rest, c), s) := (k a).hold crew s
      ((first ++ rest, c), s) := by
  induction d generalizing s with
  | done a => rfl
  | report event next ih => simp only [bind, hold, ih, List.cons_append]
  | transpile request next ih => simp only [bind, hold, ih]
  | compile request next ih => simp only [bind, hold, ih]
  | execute request next ih => simp only [bind, hold, ih]

theorem hold_reportAll (crew : Crew τ) (events : List PipelineEvent) (s : τ) :
    (reportAll events).hold crew s = ((events, ()), s) := by
  induction events with
  | nil => rfl
  | cons event rest ih => simp only [reportAll, hold, ih]

end Dialogue

end Buildbox
