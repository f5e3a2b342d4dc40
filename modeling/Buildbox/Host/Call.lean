import Buildbox.Host.Clock
import Buildbox.Host.Paths

/-! Host calls as data, and runs of any number of them. -/

namespace Buildbox.Host

inductive Call where
  | fdWrite (fd : Fd) (data : Bytes)
  | fdPwrite (fd : Fd) (data : Bytes) (offset : UInt64)
  | fdRead (fd : Fd) (max : Nat)
  | fdPread (fd : Fd) (max : Nat) (offset : UInt64)
  | fdSeek (fd : Fd) (offset : Int64) (whence : UInt8)
  | fdClose (fd : Fd)
  | fdRenumber (source target : Fd)
  | fdFdstat (fd : Fd)
  | fdSetAppend (fd : Fd) (append : Bool)
  | fdFilestat (fd : Fd)
  | fdSetSize (fd : Fd) (size : UInt64)
  | fdCheck (fd : Fd)
  | fdPrestatName (fd : Fd)
  | fdReaddir (fd : Fd) (cookie : UInt64) (limit : Nat)
  | pathOpen (fd : Fd) (path : String) (flags : OpenFlags) (append : Bool)
  | pathCreateDirectory (fd : Fd) (path : String)
  | pathFilestat (fd : Fd) (path : String)
  | pathTouch (fd : Fd) (path : String)
  | pathUnlinkFile (fd : Fd) (path : String)
  | pathRemoveDirectory (fd : Fd) (path : String)
  | pathRename (fd : Fd) (source : String) (newFd : Fd) (target : String)
  | pathReadlink (fd : Fd) (path : String)
  | clockTime (id : UInt32)
  | clockResolution (id : UInt32)
  | random (length : Nat)
  | poll (subscriptions : List Subscription)
  deriving DecidableEq, Repr

inductive Reply where
  | done
  | count (n : Nat)
  | bytes (bs : Bytes)
  | offset (n : UInt64)
  | fd (fd : Fd)
  | fdstat (kind : FileKind) (append : Bool)
  | filestat (s : Filestat)
  | name (s : String)
  | time (t : UInt64)
  | events (events : Option (List PollEvent))
  deriving DecidableEq, Repr, Inhabited

def perform : Call → HostM Reply
  | .fdWrite fd data => .count <$> fdWrite fd data
  | .fdPwrite fd data offset => .count <$> fdPwrite fd data offset
  | .fdRead fd max => .bytes <$> fdRead fd max
  | .fdPread fd max offset => .bytes <$> HostM.read (·.fdPread fd max offset)
  | .fdSeek fd offset whence => .offset <$> fdSeek fd offset whence
  | .fdClose fd => (fun _ => .done) <$> fdClose fd
  | .fdRenumber source target => (fun _ => .done) <$> fdRenumber source target
  | .fdFdstat fd => (fun (kind, append) => .fdstat kind append) <$> HostM.read (·.fdFdstat fd)
  | .fdSetAppend fd append => (fun _ => .done) <$> fdSetAppend fd append
  | .fdFilestat fd => .filestat <$> HostM.read (·.fdFilestat fd)
  | .fdSetSize fd size => (fun _ => .done) <$> fdSetSize fd size
  | .fdCheck fd => (fun _ => .done) <$> HostM.read (·.fdCheck fd)
  | .fdPrestatName fd => .name <$> HostM.read (·.fdPrestatName fd)
  | .fdReaddir fd cookie limit => .bytes <$> HostM.read (·.fdReaddir fd cookie limit)
  | .pathOpen fd path flags append => .fd <$> pathOpen fd path flags append
  | .pathCreateDirectory fd path => (fun _ => .done) <$> pathCreateDirectory fd path
  | .pathFilestat fd path => .filestat <$> HostM.read (·.pathFilestat fd path)
  | .pathTouch fd path => (fun _ => .done) <$> HostM.read (·.pathTouch fd path)
  | .pathUnlinkFile fd path => (fun _ => .done) <$> pathUnlinkFile fd path
  | .pathRemoveDirectory fd path => (fun _ => .done) <$> pathRemoveDirectory fd path
  | .pathRename fd source newFd target => (fun _ => .done) <$> pathRename fd source newFd target
  | .pathReadlink fd path => .bytes <$> HostM.read (·.pathReadlink fd path)
  | .clockTime id => .time <$> HostM.read (·.clockTime id)
  | .clockResolution id => .time <$> HostM.read fun _ => clockResolution id
  | .random length => .bytes <$> modifyGet (·.randomBytes length)
  | .poll subscriptions => .events <$> modifyGet (·.poll subscriptions)

def step (h : Host) (c : Call) : Except Refusal Reply × Host :=
  match perform c h with
  | .ok reply h => (.ok reply, h)
  | .error e h => (.error e, h)

def runCalls (h : Host) (calls : List Call) : Host :=
  calls.foldl (fun h c => (h.step c).2) h

def fresh (args env : List String) (mounts : MountTable) (stdout stderr : Redirect)
    (fileBudget : UInt64) (deadline : Deadline) : Host :=
  { new args env mounts stdout stderr with fileBudget, deadline }

/-- States that some calls lead to from a fresh host. -/
def Reachable (h : Host) : Prop :=
  ∃ args env mounts stdout stderr budget deadline calls,
    h = (fresh args env mounts stdout stderr budget deadline).runCalls calls

end Buildbox.Host
