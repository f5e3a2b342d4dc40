import Buildbox.Asset.ContentCache

/-! Sessions, one after another or taking turns, that share a cache on disk. What their sources are
asked is noted. -/

namespace Buildbox

structure Inquiry where
  session : Nat
  url : String
  answer : Except Failure Bytes

def Inquiry.isAnswered (url : String) (q : Inquiry) : Bool :=
  q.url = url && q.answer.isOk

/-- A world, and what sources were asked in it, the first one first. -/
structure Noted (σ : Type) where
  world : σ
  inquiries : List Inquiry := []

instance {σ : Type} [HasDisk σ] : HasDisk (Noted σ) where
  disk s := HasDisk.disk s.world
  withDisk s d := { s with world := HasDisk.withDisk s.world d }
  disk_withDisk s d := HasDisk.disk_withDisk s.world d
  withDisk_disk s := congrArg (Noted.mk · s.inquiries) (HasDisk.withDisk_disk s.world)

def leftBy {σ α : Type} (act : EStateM Failure σ α) (s : σ) : σ :=
  match act s with
  | .ok _ s => s
  | .error _ s => s

def Fetch.noted {σ : Type} (source : Fetch σ) (session : Nat) : Fetch (Noted σ) := fun url s =>
  match source url s.world with
  | .ok bytes world => .ok bytes ⟨world, s.inquiries ++ [⟨session, url, .ok bytes⟩]⟩
  | .error f world => .error f ⟨world, s.inquiries ++ [⟨session, url, .error f⟩]⟩

namespace Sessions

variable {σ : Type}

inductive Action (σ : Type) where
  | fetch (session : Nat) (url : String)
  | change (f : σ → σ)

variable [HasDisk σ]

def visit (c : ContentCache) (source : Nat → Fetch σ) (session : Nat) : Fetch (Noted σ) :=
  ContentCache.fetch (some c) ((source session).noted session)

def act (c : ContentCache) (source : Nat → Fetch σ) (s : Noted σ) : Action σ → Noted σ
  | .fetch session url => leftBy (visit c source session url) s
  | .change f => { s with world := f s.world }

def actAll (c : ContentCache) (source : Nat → Fetch σ) (s : Noted σ) (actions : List (Action σ)) :
    Noted σ :=
  actions.foldl (act c source) s

end Sessions

end Buildbox
