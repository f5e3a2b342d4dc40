import Buildbox.Guest.Loader
import Buildbox.Guest.Run
import Buildbox.Sandbox.Invocation

/-! A sandbox for step programs: it loads modules once each, and runs them within their limits. It
is one backend of many. Stages, pipelines and commands take any, and so does what is proved of
them. -/

namespace Buildbox

structure Engine where
  memoryLimit : Option UInt64 := none
  modules : NameMap Program := .empty
  deriving DecidableEq, Repr, Inhabited

namespace Engine

def load (e : Engine) (module : Bytes) : Except Failure Program × Engine :=
  let key := moduleKey module
  match e.modules.get? key with
  | some p => (.ok p, e)
  | none =>
    match Program.ofBytes? module with
    | none => (.error (.instantiate "no valid module"), e)
    | some p => (.ok p, { e with modules := e.modules.insert key p })

def admits (e : Engine) (p : Program) : Bool :=
  ! e.memoryLimit.any fun l => l.toNat < p.pages * pageSize

def entryPoint? (p : Program) (entryPoints : List String) : Option String :=
  entryPoints.find? (p.exported.contains ·)

def hostFor (e : Engine) (i : Invocation) : Host :=
  match e.memoryLimit with
  | some bytes => { i.host with fileBudget := bytes }
  | none => i.host

def withDeadline (timeoutMs : Option Nat) (h : Host) : Host :=
  match timeoutMs with
  | none | some 0 => { h with deadline := none }
  | some ms => { h with deadline := some (h.elapsed + ms * 1000000) }

def start (p : Program) (h : Host) : GuestRun where
  state := ⟨{ bytes := [], untouched := p.pages * pageSize }, h⟩

def runOn (e : Engine) (p : Program) (i : Invocation) (h : Host) : Option ExitStatus × GuestRun :=
  match entryPoint? p i.entryPoints with
  | none =>
    (some (.trapped ("module exports none of " ++ ", ".intercalate i.entryPoints)), start p h)
  | some _ =>
    let (stop, r) := GuestRun.run p e.memoryLimit (start p (withDeadline i.timeoutMs h)) p.steps
    (Stop.status? i.timeoutMs stop, r)

def clockReach : Nat := 1 <<< 63 - 1000000

def refusal? (e : Engine) (p : Program) (i : Invocation) : Option String :=
  if ! e.admits p then
    some ("memory minimum size of " ++ toString p.pages ++ " pages exceeds memory limits")
  else if ! p.links then some "incompatible import type"
  else if (entryPoint? p i.entryPoints).isSome && i.timeoutMs.any (clockReach * 1000 ≤ ·) then
    some "sandbox thread failed: deadline out of reach"
  else none

def attemptOn (e : Engine) (i : Invocation) (prepare : Host → Host) :
    Except Failure (Option ExitStatus × GuestRun) × Engine :=
  match e.load i.module with
  | (.error f, e) => (.error f, e)
  | (.ok p, e) =>
    match e.refusal? p i with
    | some detail => (.error (.instantiate detail), e)
    | none => (.ok (e.runOn p i (prepare (e.hostFor i))), e)

def broken : Failure :=
  .instantiate "sandbox thread failed: capacity overflow"

def executeOn (e : Engine) (i : Invocation) (prepare : Host → Host) :
    Except Failure (ExitStatus × GuestRun) × Engine :=
  match e.attemptOn i prepare with
  | (.error f, e) => (.error f, e)
  | (.ok (none, _), e) => (.error broken, e)
  | (.ok (some status, r), e) => (.ok (status, r), e)

/-- Runs a module to its end. What a broken run had delivered has gone out all the same. -/
def execute (e : Engine) (i : Invocation) : Execution × Engine :=
  match e.attemptOn i id with
  | (.error f, e) => (⟨.error f, []⟩, e)
  | (.ok (none, r), e) => (⟨.error broken, r.state.host.delivered⟩, e)
  | (.ok (some status, r), e) => (r.state.host.finish.execution status, e)

end Engine

end Buildbox
