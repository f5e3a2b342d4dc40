import Buildbox.Sandbox.Invocation
import Buildbox.Sandbox.Runner

/-! Callers who want runs of one sandbox. A call is let in or refused when it goes on for the first
time. Its run is carried out on a thread of its own, which lets the sandbox go when the run ends,
whether or not somebody still waits for the report. -/

namespace Buildbox

namespace Runner

def enter (r : Runner) : Bool × Runner :=
  match r.state with
  | .running => (false, r)
  | .idle => (true, { r with state := .running })

def count (admitted : Bool) (r : Runner) : Runner :=
  if admitted then { r with runCount := r.runCount + 1 }
  else { r with rejectedCount := r.rejectedCount + 1 }

/-- Whoever asks without being interrupted does both at once. -/
theorem acquire_eq (r : Runner) : r.acquire =
    (if r.enter.1 then .ok () else .error (.busy r.name), r.enter.2.count r.enter.1) := by
  cases h : r.state <;> simp [acquire, enter, count, h]

end Runner

inductive Completion where
  | returned (result : Except Failure RunReport)
  | panicked (detail : String)

def Completion.result : Completion → Except Failure RunReport
  | returned result => result
  | panicked detail => .error (.instantiate ("sandbox thread failed: " ++ detail))

inductive Bid where
  | fresh
  | refused
  | rejected
  | admitted
  | counted
  | awaiting
  | answered (c : Completion)
  | dropped

inductive Job where
  | none
  | queued
  | executing
  | ended (c : Completion)
  | released (c : Completion)

structure Attempt where
  bid : Bid := .fresh
  job : Job := .none

namespace Attempt

def go (a : Attempt) (r : Runner) : Attempt × Runner :=
  match a.bid with
  | .fresh =>
    let (free, r) := r.enter
    ({ a with bid := if free then .admitted else .refused }, r)
  | .refused => ({ a with bid := .rejected }, r.count false)
  | .admitted => ({ a with bid := .counted }, r.count true)
  | .counted => ({ bid := .awaiting, job := .queued }, r)
  | .awaiting =>
    match a.job with
    | .released c => ({ a with bid := .answered c }, r)
    | _ => (a, r)
  | .rejected | .answered _ | .dropped => (a, r)

/-- A caller goes away. It can do so only where it waits. -/
def drop (a : Attempt) : Attempt :=
  match a.bid with
  | .fresh | .awaiting => { a with bid := .dropped }
  | _ => a

def work (a : Attempt) (r : Runner) : Attempt × Runner :=
  match a.job with
  | .queued => ({ a with job := .executing }, r)
  | .ended c => ({ a with job := .released c }, r.release)
  | _ => (a, r)

def finish (c : Completion) (a : Attempt) : Attempt :=
  match a.job with
  | .executing => { a with job := .ended c }
  | _ => a

def answer? (name : String) (a : Attempt) : Option (Except Failure RunReport) :=
  match a.bid with
  | .rejected => some (.error (.busy name))
  | .answered c => some c.result
  | _ => none

end Attempt

structure Lobby where
  runner : Runner
  attempts : List Attempt := []

namespace Lobby

def start (name : String) : Lobby where
  runner := { name }

def moveAt (i : Nat) (move : Attempt → Runner → Attempt × Runner) (l : Lobby) : Lobby :=
  match l.attempts[i]? with
  | none => l
  | some a =>
    let (a, runner) := move a l.runner
    { runner, attempts := l.attempts.set i a }

inductive Action where
  | call
  | go (i : Nat)
  | drop (i : Nat)
  | work (i : Nat)
  | finish (i : Nat) (c : Completion)

def act (l : Lobby) : Action → Lobby
  | .call => { l with attempts := l.attempts ++ [{}] }
  | .go i => l.moveAt i Attempt.go
  | .drop i => l.moveAt i fun a r => (a.drop, r)
  | .work i => l.moveAt i Attempt.work
  | .finish i c => l.moveAt i fun a r => (a.finish c, r)

def actAll (l : Lobby) (actions : List Action) : Lobby :=
  actions.foldl act l

end Lobby

end Buildbox
