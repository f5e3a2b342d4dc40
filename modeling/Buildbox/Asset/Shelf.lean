import Buildbox.Asset.ContentCache

/-! A cache in many hands: entries are stored and read side by side, a step of one and then a step
of another, and whoever stores may stop anywhere. -/

namespace Buildbox

/-- What has been done of a step while it is being taken. A move is never seen half done. -/
def DiskStep.begin (d : Disk) (n : Nat) : DiskStep → Disk
  | createDirs path =>
    (apply d (.createDirs ("/".intercalate ((Disk.parts path).take n)))).2
  | write path bytes => (apply d (.write path (bytes.take n))).2
  | rename _ _ => d

structure Put where
  url : String
  tag : String
  bytes : Bytes
  deriving DecidableEq, Repr, Inhabited

structure Storing where
  put : Put
  left : List DiskStep
  deriving DecidableEq, Repr, Inhabited

structure Shelf where
  disk : Disk
  storings : List Storing := []
  reads : List (String × Option Bytes) := []

namespace Shelf

inductive Action where
  | put (p : Put)
  | get (url : String)
  | go (i : Nat)
  /-- The next step of somebody is taken in part; it is still to be taken. -/
  | part (i n : Nat)
  | stop (i : Nat)
  deriving DecidableEq, Repr, Inhabited

def start (disk : Disk) : Shelf :=
  { disk }

def go (i : Nat) (s : Shelf) : Shelf :=
  match s.storings[i]? with
  | some ⟨put, step :: rest⟩ =>
    match step.apply s.disk with
    | (.ok (), disk) => { s with disk, storings := s.storings.set i ⟨put, rest⟩ }
    | (.error _, disk) => { s with disk, storings := s.storings.set i ⟨put, []⟩ }
  | _ => s

def part (i n : Nat) (s : Shelf) : Shelf :=
  match s.storings[i]? with
  | some ⟨_, step :: _⟩ => { s with disk := step.begin s.disk n }
  | _ => s

def stop (i : Nat) (s : Shelf) : Shelf :=
  match s.storings[i]? with
  | some ⟨put, _⟩ => { s with storings := s.storings.set i ⟨put, []⟩ }
  | none => s

def act (c : ContentCache) (s : Shelf) : Action → Shelf
  | .put p => { s with storings := s.storings ++ [⟨p, c.putSteps p.url p.tag p.bytes⟩] }
  | .get url => { s with reads := s.reads ++ [(url, c.get? s.disk url)] }
  | .go i => s.go i
  | .part i n => s.part i n
  | .stop i => s.stop i

def actAll (c : ContentCache) (s : Shelf) (actions : List Action) : Shelf :=
  actions.foldl (act c) s

end Shelf

end Buildbox
