import Buildbox.Asset.OnceMap
import Buildbox.Asset.Source

/-! Callers who want values that are made once each. They come when they like, and any of them may
be the next to go on or to go away. -/

namespace Buildbox

/-- How the value of a key is made: bytes are fetched for it, and then something is made of them.
The values of a map are numbered as they are made. -/
structure Recipe (σ κ α : Type) where
  fetch : κ → EStateM Failure σ Bytes
  make : (number : Nat) → κ → Bytes → Except Failure α

inductive Errand (α : Type) where
  | waiting
  | fetching
  | fetched (bytes : Bytes)
  | ended (answer : Except Failure α)
  | dropped

namespace Errand

variable {α : Type}

def holds : Errand α → Bool
  | fetching | fetched _ => true
  | _ => false

def asks : Errand α → Bool
  | fetching => true
  | _ => false

end Errand

section Steps

variable {σ κ α : Type} [DecidableEq κ]

def Recipe.step (r : Recipe σ κ α) (key : κ) (e : Errand α) (c : OnceMap κ α) (world : σ) :
    Errand α × OnceMap κ α × σ :=
  match e with
  | .waiting =>
    match c.get? key with
    | some a => (.ended (.ok a), c, world)
    | none =>
      if key ∈ c.filling then (.waiting, c, world) else (.fetching, c.start key, world)
  | .fetching =>
    match r.fetch key world with
    | .ok bytes world => (.fetched bytes, c, world)
    | .error f world => (.ended (.error f), c.abandon key, world)
  | .fetched bytes =>
    match r.make c.size key bytes with
    | .ok a => (.ended (.ok a), c.fill key a, world)
    | .error f => (.ended (.error f), c.abandon key, world)
  | e => (e, c, world)

def Errand.leave (key : κ) (e : Errand α) (c : OnceMap κ α) : Errand α × OnceMap κ α :=
  match e with
  | .ended answer => (.ended answer, c)
  | e => (.dropped, if e.holds then c.abandon key else c)

end Steps

structure Caller (κ α : Type) where
  store : Nat
  key : κ
  errand : Errand α := .waiting

/-- Callers of stores that share one map. What the stores fetch from is part of the world. -/
structure Crowd (σ κ α : Type) where
  world : σ
  cache : OnceMap κ α := {}
  callers : List (Caller κ α) := []
  asked : List κ := []

namespace Crowd

variable {σ κ α : Type} [DecidableEq κ]

inductive Action (σ κ : Type) where
  | call (store : Nat) (key : κ)
  | go (caller : Nat)
  | drop (caller : Nat)
  | change (f : σ → σ)

def start (world : σ) : Crowd σ κ α :=
  { world }

def call (store : Nat) (key : κ) (c : Crowd σ κ α) : Crowd σ κ α :=
  { c with callers := c.callers ++ [{ store, key }] }

def go (r : Nat → Recipe σ κ α) (i : Nat) (c : Crowd σ κ α) : Crowd σ κ α :=
  match c.callers[i]? with
  | none => c
  | some p =>
    let (errand, cache, world) := (r p.store).step p.key p.errand c.cache c.world
    { world
      cache
      callers := c.callers.set i { p with errand }
      asked := if p.errand.asks then c.asked ++ [p.key] else c.asked }

def drop (i : Nat) (c : Crowd σ κ α) : Crowd σ κ α :=
  match c.callers[i]? with
  | none => c
  | some p =>
    let (errand, cache) := p.errand.leave p.key c.cache
    { c with cache, callers := c.callers.set i { p with errand } }

def act (r : Nat → Recipe σ κ α) (c : Crowd σ κ α) : Action σ κ → Crowd σ κ α
  | .call store key => c.call store key
  | .go i => c.go r i
  | .drop i => c.drop i
  | .change f => { c with world := f c.world }

def actAll (r : Nat → Recipe σ κ α) (c : Crowd σ κ α) (actions : List (Action σ κ)) :
    Crowd σ κ α :=
  actions.foldl (act r) c

end Crowd

end Buildbox
