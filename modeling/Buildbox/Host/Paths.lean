import Buildbox.Host.Files

/-! Calls on paths below a directory descriptor. -/

namespace Buildbox

structure OpenFlags where
  create : Bool := false
  directory : Bool := false
  exclusive : Bool := false
  truncate : Bool := false
  deriving DecidableEq, Repr, Inhabited

def OpenFlags.ofBits (bits : UInt16) : OpenFlags where
  create := bits &&& 1 ≠ 0
  directory := bits &&& 2 ≠ 0
  exclusive := bits &&& 4 ≠ 0
  truncate := bits &&& 8 ≠ 0

def appendBit (bits : UInt16) : Bool :=
  bits &&& 1 ≠ 0

namespace Host

def modifyDir (h : Host) (mount : Nat) (path : List String) (f : Directory → Directory) : Host :=
  { h with mounts := h.mounts.modifyAt (·.modifyDirAt f path) mount }

def parentOf (h : Host) (mount : Nat) (path : List String) (empty : Errno) :
    Except Errno (List String × String × Directory) := do
  match path.getLast? with
  | none => throw empty
  | some name =>
    match (← h.root mount).dirAt? path.dropLast with
    | some d => return (path.dropLast, name, d)
    | none => throw .noent

def detach (mount : Nat) (path : List String) : HostM Entry := do
  let (parents, name, d) ← HostM.read (·.parentOf mount path .inval)
  match d.get? name with
  | some e =>
    modify (·.modifyDir mount parents (·.erase name))
    return e
  | none => throw (.errno .noent)

def openDescriptor (d : Descriptor) : HostM Fd :=
  modifyGet (·.allocate d)

def existing? (h : Host) (mount : Nat) (path : List String) : Except Errno (Option Entry) :=
  match h.node mount path with
  | .ok e => .ok (some e)
  | .error .noent => .ok none
  | .error e => .error e

def pathOpen (fd : Fd) (path : String) (flags : OpenFlags) (append : Bool) : HostM Fd := do
  let (mount, segments) ← HostM.read (·.resolve fd path)
  match ← HostM.read (·.existing? mount segments) with
  | some e =>
    if flags.create && flags.exclusive then throw (.errno .exist)
    match e with
    | .dir _ =>
      if flags.truncate then throw (.errno .isdir)
      openDescriptor (.dir mount segments false)
    | .file bytes =>
      if flags.directory then throw (.errno .notdir)
      if flags.truncate then
        let h ← get
        match resizeWithin bytes 0 h.fileBudget with
        | .error e => throw e
        | .ok (resized, fileBudget) => set { h.setFile mount segments resized with fileBudget }
      openDescriptor (.file mount segments 0 append)
  | none =>
    if ! flags.create then throw (.errno .noent)
    if flags.directory then throw (.errno .inval)
    let (parents, name, _) ← HostM.read (·.parentOf mount segments .inval)
    modify (·.modifyDir mount parents (·.insert name (.file [])))
    openDescriptor (.file mount segments 0 append)

def pathCreateDirectory (fd : Fd) (path : String) : HostM Unit := do
  let (mount, segments) ← HostM.read (·.resolve fd path)
  let (parents, name, d) ← HostM.read (·.parentOf mount segments .exist)
  if d.contains name then throw (.errno .exist)
  modify (·.modifyDir mount parents (·.insert name (.dir .empty)))

def pathFilestat (h : Host) (fd : Fd) (path : String) : Except Errno Filestat := do
  let (mount, segments) ← h.resolve fd path
  h.statOf mount segments

def pathTouch (h : Host) (fd : Fd) (path : String) : Except Errno Unit := do
  let _ ← h.pathFilestat fd path

def pathUnlinkFile (fd : Fd) (path : String) : HostM Unit := do
  let (mount, segments) ← HostM.read (·.resolve fd path)
  match ← HostM.read (·.node mount segments) with
  | .dir _ => throw (.errno .isdir)
  | .file _ =>
    let _ ← detach mount segments

def pathRemoveDirectory (fd : Fd) (path : String) : HostM Unit := do
  let (mount, segments) ← HostM.read (·.resolve fd path)
  if segments = [] then throw (.errno .inval)
  match ← HostM.read (·.node mount segments) with
  | .file _ => throw (.errno .notdir)
  | .dir d =>
    if ! d.isEmpty then throw (.errno .notempty)
    let _ ← detach mount segments

def checkReplace (h : Host) (source : Entry) (mount : Nat) (path : List String) :
    Except Errno Unit := do
  match ← h.existing? mount path with
  | some (.dir d) =>
    if ! source.isDir then throw .isdir
    if ! d.isEmpty then throw .notempty
  | some (.file _) => if source.isDir then throw .notdir
  | none => return ()

def pathRename (fd : Fd) (source : String) (newFd : Fd) (target : String) : HostM Unit := do
  let (srcMount, src) ← HostM.read (·.resolve fd source)
  let (dstMount, dst) ← HostM.read (·.resolve newFd target)
  if src = [] ∨ dst = [] then throw (.errno .inval)
  if srcMount = dstMount ∧ src = dst then
    let _ ← HostM.read (·.node srcMount src)
    return ()
  if srcMount = dstMount ∧ src.length < dst.length ∧ src.isPrefixOf dst then throw (.errno .inval)
  -- All that may fail does so before anything moves.
  let e ← HostM.read (·.node srcMount src)
  HostM.read (·.checkReplace e dstMount dst)
  let _ ← HostM.read (·.parentOf dstMount dst .inval)
  let e ← detach srcMount src
  let (parents, name, _) ← HostM.read (·.parentOf dstMount dst .inval)
  modify (·.modifyDir dstMount parents (·.insert name e))

def pathReadlink (h : Host) (fd : Fd) (path : String) : Except Errno Bytes := do
  let (mount, segments) ← h.resolve fd path
  let _ ← h.node mount segments
  throw .inval

end Host

end Buildbox
