import Buildbox.Archive.Decode
import Buildbox.Asset.Crowd

/-! Decoded archives, each decoded once and then shared by all who ask for it. -/

namespace Buildbox

structure ArchiveKey where
  url : String
  only : Option String
  deriving DecidableEq, Repr, Inhabited

/-- A tree that is handed out to many; `id` tells it from other trees that look the same. -/
structure SharedRoot where
  id : Nat
  root : Directory
  deriving DecidableEq, Repr, Inhabited

abbrev ArchiveCache := OnceMap ArchiveKey SharedRoot

def SharedRoot.ofBytes (id : Nat) (key : ArchiveKey) (bytes : Bytes) : Except Failure SharedRoot :=
  (Archive.decode key.url bytes key.only).map (⟨id, ·⟩)

namespace ArchiveCache

def recipe {σ : Type} (fetch : Fetch σ) : Recipe σ ArchiveKey SharedRoot where
  fetch key := fetch key.url
  make := SharedRoot.ofBytes

end ArchiveCache

inductive Pending where
  | ready (root : SharedRoot)
  | fetched (bytes : Bytes)
  | waiting
  deriving DecidableEq, Repr, Inhabited

structure ArchiveStore (σ : Type) where
  source : σ
  cache : ArchiveCache := {}

namespace ArchiveStore

variable {σ : Type}

def fetchBytes (fetch : Fetch σ) (url : String) : EStateM Failure (ArchiveStore σ) Bytes := fun s =>
  match fetch url s.source with
  | .ok bytes source => .ok bytes { s with source }
  | .error f source => .error f { s with source }

def begin (fetch : Fetch σ) (key : ArchiveKey) : EStateM Failure (ArchiveStore σ) Pending := do
  let s ← get
  match s.cache.get? key with
  | some root => return .ready root
  | none =>
    if key ∈ s.cache.filling then return .waiting
    modify fun s => { s with cache := s.cache.start key }
    try
      return .fetched (← fetchBytes fetch key.url)
    catch f =>
      modify fun s => { s with cache := s.cache.abandon key }
      throw f

def abandon (key : ArchiveKey) : Pending → EStateM Failure (ArchiveStore σ) Unit
  | .fetched _ => modify fun s => { s with cache := s.cache.abandon key }
  | _ => return ()

def decode (key : ArchiveKey) (bytes : Bytes) : EStateM Failure (ArchiveStore σ) SharedRoot := do
  let s ← get
  match SharedRoot.ofBytes s.cache.size key bytes with
  | .ok shared =>
    set { s with cache := s.cache.fill key shared }
    return shared
  | .error f =>
    modify fun s => { s with cache := s.cache.abandon key }
    throw f

def finish (fetch : Fetch σ) (key : ArchiveKey) :
    Pending → EStateM Failure (ArchiveStore σ) SharedRoot
  | .ready root => return root
  | .fetched bytes => decode key bytes
  | .waiting => do
    let s ← get
    match s.cache.get? key with
    | some root => return root
    | none => decode key (← fetchBytes fetch key.url)

def root (fetch : Fetch σ) (key : ArchiveKey) : EStateM Failure (ArchiveStore σ) SharedRoot := do
  finish fetch key (← begin fetch key)

def rootPair (fetch : Fetch σ) (first second : ArchiveKey) :
    EStateM Failure (ArchiveStore σ) (SharedRoot × SharedRoot) := do
  let one ← begin fetch first
  let two ← try begin fetch second catch f =>
    abandon first one
    throw f
  let one ← try finish fetch first one catch f =>
    abandon second two
    throw f
  return (one, ← finish fetch second two)

end ArchiveStore

end Buildbox
