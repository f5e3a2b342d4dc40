import Buildbox.Worker.Mailbox

/-! A worker with the tasks that handle its requests, whatever it is that they do. A handler keeps
a sending end of its stream of replies until it has let the worker go. -/

namespace Buildbox

inductive Dispatch (ρ : Type) where
  | send (reply : ρ)
  | clone
  | drop

structure Outbox (ρ : Type) where
  sent : List ρ := []
  senders : Nat := 1

def Outbox.act {ρ : Type} (o : Outbox ρ) (d : Dispatch ρ) : Outbox ρ :=
  if o.senders = 0 then o
  else match d with
    | .send reply => { o with sent := o.sent ++ [reply] }
    | .clone => { o with senders := o.senders + 1 }
    | .drop => { o with senders := o.senders - 1 }

def Outbox.actAll {ρ : Type} (o : Outbox ρ) (ds : List (Dispatch ρ)) : Outbox ρ :=
  ds.foldl act o

/-- How requests are handled, step by step. The handling may have several tasks, and any of them
may be the next to go on; what it works on may be changed by others meanwhile. -/
structure Service (α ρ ω κ τ : Type) where
  start : α → ω
  go : κ → ω → τ → ω × List (Dispatch ρ) × τ
  returned : ω → Bool

inductive Handling.Phase where
  | active
  | freed
  | left
  deriving DecidableEq

structure Handling (ρ ω : Type) where
  ticket : Ticket
  work : ω
  outbox : Outbox ρ := {}
  phase : Handling.Phase := .active

namespace Handling

variable {ρ ω : Type}

def isActive (h : Handling ρ ω) : Bool :=
  h.phase = .active

def isClosed (h : Handling ρ ω) : Bool :=
  h.phase = .left && h.outbox.senders = 0

end Handling

structure Station (α ρ ω τ : Type) where
  mailbox : Mailbox α := {}
  handlings : List (Handling ρ ω) := []
  posters : List Nat := []
  world : τ

namespace Station

variable {α ρ ω κ τ : Type}

def start (world : τ) : Station α ρ ω τ :=
  { world }

def post (client : Nat) (request : α) (s : Station α ρ ω τ) : Station α ρ ω τ :=
  { s with mailbox := (s.mailbox.post request).2, posters := s.posters ++ [client] }

def take (v : Service α ρ ω κ τ) (s : Station α ρ ω τ) : Station α ρ ω τ :=
  match s.mailbox.take with
  | (some (ticket, some request), mailbox) =>
    { s with
      mailbox
      handlings := s.handlings ++ [{ ticket, work := v.start request }] }
  | (_, mailbox) => { s with mailbox }

def update (i : Nat) (h : Handling ρ ω) (s : Station α ρ ω τ) : Station α ρ ω τ :=
  { s with
    mailbox := if h.isClosed then s.mailbox.close h.ticket else s.mailbox
    handlings := s.handlings.set i h }

def go (v : Service α ρ ω κ τ) (i : Nat) (k : κ) (s : Station α ρ ω τ) : Station α ρ ω τ :=
  match s.handlings[i]? with
  | none => s
  | some h =>
    let (work, ds, world) := v.go k h.work s.world
    { s with world }.update i { h with work, outbox := h.outbox.actAll ds }

def leave (v : Service α ρ ω κ τ) (i : Nat) (s : Station α ρ ω τ) : Station α ρ ω τ :=
  match s.handlings[i]? with
  | none => s
  | some h =>
    match h.phase with
    | .active =>
      if v.returned h.work then
        { s with mailbox := s.mailbox.release h.ticket }.update i { h with phase := .freed }
      else s
    | .freed => s.update i { h with phase := .left }
    | .left => s

inductive Action (α κ τ : Type) where
  | post (client : Nat) (request : α)
  | take
  | go (i : Nat) (k : κ)
  | leave (i : Nat)
  | elsewhere (f : τ → τ)

def act (v : Service α ρ ω κ τ) (s : Station α ρ ω τ) : Action α κ τ → Station α ρ ω τ
  | .post client request => s.post client request
  | .take => s.take v
  | .go i k => s.go v i k
  | .leave i => s.leave v i
  | .elsewhere f => { s with world := f s.world }

def actAll (v : Service α ρ ω κ τ) (s : Station α ρ ω τ) (actions : List (Action α κ τ)) :
    Station α ρ ω τ :=
  actions.foldl (act v) s

end Station

end Buildbox
