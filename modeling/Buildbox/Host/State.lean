import Buildbox.Host.Errno
import Buildbox.Host.Filestat
import Buildbox.Output
import Buildbox.Tree.Mount

/-! The state behind a guest's calls: a descriptor table over the mounts, the two output sinks,
the budget for file growth and the clock. -/

namespace Buildbox

abbrev Fd := UInt32

inductive Stream where
  | stdout
  | stderr
  deriving DecidableEq, Repr, Inhabited

inductive Descriptor where
  | stdin
  | output (stream : Stream)
  | dir (mount : Nat) (path : List String) (preopen : Bool)
  | file (mount : Nat) (path : List String) (position : UInt64) (append : Bool)
  deriving DecidableEq, Repr, Inhabited

abbrev DescriptorTable := List (Fd × Descriptor)

namespace DescriptorTable

def get? (t : DescriptorTable) (fd : Fd) : Option Descriptor :=
  (t.find? (·.1 = fd)).map (·.2)

def erase (t : DescriptorTable) (fd : Fd) : DescriptorTable :=
  t.filter (·.1 ≠ fd)

def set (t : DescriptorTable) (fd : Fd) (d : Descriptor) : DescriptorTable :=
  match t with
  | [] => [(fd, d)]
  | (n, e) :: rest => if n = fd then (fd, d) :: rest else (n, e) :: set rest fd d

end DescriptorTable

/-- When blocking calls give up, counted in nanoseconds on the host's own clock. -/
abbrev Deadline := Option Nat

structure Host where
  args : List String
  env : List String
  mounts : MountTable
  fds : DescriptorTable
  nextFd : Fd
  stdout : OutputSink
  stderr : OutputSink
  delivered : List OutputChunk := []
  fileBudget : UInt64
  elapsed : Nat := 0
  deadline : Deadline := none
  entropy : UInt64 := 0x9e3779b97f4a7c15
  deriving DecidableEq, Repr, Inhabited

/-- A host call: it answers a value or a code, and the state is what it left either way. -/
abbrev HostM := EStateM Refusal Host

namespace Host

def firstPreopen : Nat := 3

def defaultFileBudget : UInt64 := UInt64.ofNat UInt32.size

def preopens (first : Nat) : Nat → List (Fd × Descriptor)
  | 0 => []
  | n + 1 => preopens first n ++ [(UInt32.ofNat (first + n), .dir n [] true)]

def new (args env : List String) (mounts : MountTable) (stdout stderr : Redirect) : Host where
  args
  env
  mounts
  fds := [(0, .stdin), (1, .output .stdout), (2, .output .stderr)] ++
    preopens firstPreopen mounts.length
  nextFd := UInt32.ofNat (firstPreopen + mounts.length)
  stdout := { redirect := stdout }
  stderr := { redirect := stderr }
  fileBudget := defaultFileBudget

structure Outcome where
  stdout : String
  stderr : String
  mounts : MountTable
  chunks : List OutputChunk
  deriving DecidableEq, Repr, Inhabited

def finish (h : Host) : Outcome :=
  let (stdout, first) := h.stdout.finish
  let (stderr, second) := h.stderr.finish
  ⟨stdout, stderr, h.mounts, h.delivered ++ first ++ second⟩

def descriptor (h : Host) (fd : Fd) : Except Errno Descriptor :=
  match h.fds.get? fd with
  | some d => .ok d
  | none => .error .badf

def root (h : Host) (mount : Nat) : Except Errno Directory :=
  match h.mounts[mount]? with
  | some m => .ok m.root
  | none => .error .badf

def node (h : Host) (mount : Nat) (path : List String) : Except Errno Entry := do
  let root ← h.root mount
  if path = [] then return .dir root
  match root.lookup path with
  | some e => return e
  | none => throw .noent

def walk (segments : List String) : List String → Except Errno (List String)
  | [] => .ok segments
  | part :: parts =>
    if part = "" ∨ part = "." then walk segments parts
    else if part = ".." then
      if segments = [] then .error .notcapable else walk segments.dropLast parts
    else walk (segments ++ [part]) parts

/-- The mount and the segments that a path means at a directory descriptor. -/
def resolve (h : Host) (fd : Fd) (path : String) : Except Errno (Nat × List String) := do
  match ← h.descriptor fd with
  | .dir mount base _ =>
    let segments ← walk base (Path.parts path)
    return (mount, segments)
  | _ => throw .notdir

def entrySize : Entry → Nat
  | .file bytes => bytes.length
  | .dir d => d.size

def entryKind : Entry → FileKind
  | .file _ => .regular
  | .dir _ => .directory

def statOf (h : Host) (mount : Nat) (path : List String) : Except Errno Filestat := do
  let e ← h.node mount path
  return ⟨inode mount path, (entryKind e).code, UInt64.ofNat (entrySize e)⟩

def fileBytes (h : Host) (mount : Nat) (path : List String) : Except Errno Bytes := do
  match (← h.root mount).lookup path with
  | some (.file bytes) => return bytes
  | some (.dir _) => throw .isdir
  | none => throw .noent

def setFile (h : Host) (mount : Nat) (path : List String) (bytes : Bytes) : Host :=
  { h with mounts := h.mounts.modifyAt (·.modifyFileAt (fun _ => bytes) path) mount }

def allocate (h : Host) (d : Descriptor) : Fd × Host :=
  let rec free (fd : Fd) : Nat → Fd
    | 0 => fd
    | n + 1 => if (h.fds.get? fd).isSome then free (fd + 1) n else fd
  let fd := free h.nextFd h.fds.length
  (fd, { h with nextFd := fd + 1, fds := h.fds.set fd d })

end Host

def HostM.read {α : Type} (f : Host → Except Errno α) : HostM α := fun h =>
  match f h with
  | .ok a => .ok a h
  | .error e => .error (.errno e) h

end Buildbox
