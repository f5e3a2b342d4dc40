import Buildbox.Proofs.Pipeline.Driving
import Buildbox.Proofs.Pipeline.Exchanges

/-! What passes between a run, the workers and their sandboxes. When stages answer a dialogue one
request after the other, it passes in whole visits; on a floor it passes letter by letter. -/

namespace Buildbox

inductive Letter where
  | asked (step : Step) (request : step.Request)
  | ran (step : Step) (i : Invocation) (x : Execution)
  | answered (step : Step) (replies : List step.Response)

/-- A request with the run of a sandbox that it led to, if it led to one, and all replies. -/
structure Visit where
  step : Step
  request : step.Request
  run : Option (Invocation × Execution)
  replies : List step.Response

namespace Visit

def runLetters (step : Step) (run : Option (Invocation × Execution)) : List Letter :=
  run.toList.map fun (i, x) => .ran step i x

def letters (v : Visit) : List Letter :=
  .asked v.step v.request :: (runLetters v.step v.run ++ [.answered v.step v.replies])

def exchange : Visit → Exchange
  | ⟨.transpile, request, _, replies⟩ => .transpile request (.ok replies)
  | ⟨.compile, request, _, replies⟩ => .compile request (.ok replies)
  | ⟨.execute, request, _, replies⟩ => .execute request (.ok replies)

inductive Handled {σ β : Type} (w : Workshop σ β) : Visit → Prop where
  | ran {step r i x} : Handled w ⟨step, r, some (i, x), Stages.replies w step r x⟩
  | refused {step r f} : Handled w ⟨step, r, none, Stages.replies w step r ⟨.error f, []⟩⟩

end Visit

namespace Stages

variable {σ β α : Type} {w : Workshop σ β} {step : Step}

def admittedRun? (w : Workshop σ β) (step : Step) (i : Invocation) (s : Stages σ β) :
    Option (Invocation × Execution) :=
  match s.acquire step with
  | (.error _, _) => none
  | (.ok (), s) => some (i, (w.backend step i s.sandbox).1)

def sandboxRun? (w : Workshop σ β) (step : Step) (r : step.Request) (s : Stages σ β) :
    Option (Invocation × Execution) :=
  match s.prepare w step r with
  | .error _ _ => none
  | .ok i s => s.admittedRun? w step i

def visit (w : Workshop σ β) (step : Step) (r : step.Request) (s : Stages σ β) : Visit :=
  ⟨step, r, s.sandboxRun? w step r, (answer w step r s).1⟩

theorem handled_visit (step : Step) (r : step.Request) (s : Stages σ β) :
    (visit w step r s).Handled w := by
  unfold visit sandboxRun?
  rw [answer_eq]
  cases s.prepare w step r with
  | error f s₁ => exact .refused
  | ok i s₁ =>
    dsimp only [run, admittedRun?]
    rcases s₁.acquire step with ⟨_ | _, s₂⟩
    · exact .refused
    · exact .ran

def crew (w : Workshop σ β) : Crew (Stages σ β) where
  transpile r s := (.ok (answer w .transpile r s).1, (answer w .transpile r s).2)
  compile r s := (.ok (answer w .compile r s).1, (answer w .compile r s).2)
  execute r s := (.ok (answer w .execute r s).1, (answer w .execute r s).2)

def visits (w : Workshop σ β) : Dialogue α → Stages σ β → List Visit
  | .done _, _ => []
  | .report _ next, s => visits w next s
  | .transpile r next, s =>
    visit w .transpile r s ::
      visits w (next (.ok (answer w .transpile r s).1)) (answer w .transpile r s).2
  | .compile r next, s =>
    visit w .compile r s ::
      visits w (next (.ok (answer w .compile r s).1)) (answer w .compile r s).2
  | .execute r next, s =>
    visit w .execute r s ::
      visits w (next (.ok (answer w .execute r s).1)) (answer w .execute r s).2

theorem exchanges_crew (d : Dialogue α) (s : Stages σ β) :
    d.exchanges (crew w) s = (visits w d s).map Visit.exchange := by
  induction d generalizing s with
  | done a => rfl
  | report event next ih => exact ih s
  | transpile request next ih => exact congrArg _ (ih _ _)
  | compile request next ih => exact congrArg _ (ih _ _)
  | execute request next ih => exact congrArg _ (ih _ _)

theorem handled_visits (d : Dialogue α) (s : Stages σ β) :
    ∀ v ∈ visits w d s, v.Handled w := by
  induction d generalizing s with
  | done a => exact fun v hv => absurd hv List.not_mem_nil
  | report event next ih => exact ih s
  | transpile request next ih =>
    exact List.forall_mem_cons.mpr ⟨handled_visit .transpile request s, ih _ _⟩
  | compile request next ih =>
    exact List.forall_mem_cons.mpr ⟨handled_visit .compile request s, ih _ _⟩
  | execute request next ih =>
    exact List.forall_mem_cons.mpr ⟨handled_visit .execute request s, ih _ _⟩

theorem runs_visits (d : Dialogue α) (s : Stages σ β) :
    d.Runs ((visits w d s).map Visit.exchange) (d.hold (crew w) s).1.1 (d.hold (crew w) s).1.2 :=
  exchanges_crew d s ▸ Dialogue.runs_hold (crew w) d s

end Stages

def Dialogue.asks {α : Type} : Dialogue α → List Letter
  | .transpile request _ => [.asked .transpile request]
  | .compile request _ => [.asked .compile request]
  | .execute request _ => [.asked .execute request]
  | _ => []

namespace Handler

variable {σ β : Type} {step : Step}

def run? (w : Workshop σ β) (h : Handler step) (s : Stages σ β) : Option (Invocation × Execution) :=
  match h.phase with
  | .asked _ i (.ok ()) => some (i, (w.backend step i s.sandbox).1)
  | _ => none

end Handler

namespace Floor

variable {σ β : Type}

def lettersOf (f : Floor σ β) (d : Driver) : List Letter :=
  match d.turn with
  | .speaking e => e.asks
  | .waiting step ticket _ => ((f.replies? step ticket).map (.answered step)).toList
  | _ => []

def runOf (w : Workshop σ β) (f : Floor σ β) (step : Step) (ticket : Ticket) : List Letter :=
  Visit.runLetters step
    (((f.handlers step).find? (·.ticket = ticket)).bind (·.run? w f.pipeline.stages))

def lettersFor (w : Workshop σ β) (f : Floor σ β) (d : Driver) (step : Step) (ticket : Ticket) :
    List Letter :=
  match d.turn with
  | .waiting at' expected _ => if step = at' ∧ ticket = expected then f.runOf w step ticket else []
  | _ => []

def letters (w : Workshop σ β) (run : Nat) (f : Floor σ β) (action : Action) : List Letter :=
  match f.drivers[run]?, action with
  | some d, .advance other => if other = run then f.lettersOf d else []
  | some d, .work step ticket => f.lettersFor w d step ticket
  | _, _ => []

/-- All letters of a run, in the order in which they pass. -/
def log (w : Workshop σ β) (run : Nat) : Floor σ β → List Action → List Letter
  | _, [] => []
  | f, action :: rest => f.letters w run action ++ log w run (f.act w action) rest

end Floor

end Buildbox
