import Buildbox.Host.State

/-! Calls on open descriptors. -/

namespace Buildbox

def readAt (bytes : Bytes) (offset : UInt64) (max : Nat) : Bytes :=
  (bytes.drop offset.toNat).take max

def resize (bytes : Bytes) (length : Nat) : Bytes :=
  bytes.take length ++ List.replicate (length - bytes.length) 0

/-- The most bytes that a byte string can have. -/
def maxLength : Nat := 1 <<< 63 - 1

/-- Resizes a file within a budget: growth is charged to it, and what is cut off is given back. -/
def resizeWithin (bytes : Bytes) (length : UInt64) (budget : UInt64) :
    Except Refusal (Bytes × UInt64) :=
  let current := UInt64.ofNat bytes.length
  if current < length then
    if budget < length - current then .error (.errno .fbig)
    else if maxLength < length.toNat then .error .overlong
    else .ok (resize bytes length.toNat, budget - (length - current))
  else
    let refund := current - length
    .ok (resize bytes length.toNat,
      if budget + refund < budget then UInt64.ofNat (UInt64.size - 1) else budget + refund)

/-- Writes data at an offset; a file that is too short for it grows first. -/
def writeAt (bytes : Bytes) (offset : UInt64) (data : Bytes) (budget : UInt64) :
    Except Refusal (Bytes × UInt64) := do
  if UInt64.size ≤ offset.toNat + data.length then throw (.errno .fbig)
  let stop := offset + UInt64.ofNat data.length
  let (bytes, budget) ←
    if UInt64.ofNat bytes.length < stop then resizeWithin bytes stop budget
    else pure (bytes, budget)
  return (bytes.take offset.toNat ++ data ++ bytes.drop stop.toNat, budget)

inductive Whence where
  | set
  | current
  | fileEnd
  deriving DecidableEq, Repr

def Whence.ofCode? (code : UInt8) : Option Whence :=
  if code = 0 then some .set
  else if code = 1 then some .current
  else if code = 2 then some .fileEnd
  else none

namespace Host

def writeOutput (h : Host) (stream : Stream) (data : Bytes) : Host :=
  match stream with
  | .stdout =>
    let (stdout, chunks) := h.stdout.write data
    { h with stdout, delivered := h.delivered ++ chunks }
  | .stderr =>
    let (stderr, chunks) := h.stderr.write data
    { h with stderr, delivered := h.delivered ++ chunks }

def writeFile (mount : Nat) (path : List String) (offset : Bytes → UInt64) (data : Bytes) :
    HostM UInt64 := do
  let bytes ← HostM.read (·.fileBytes mount path)
  let h ← get
  match writeAt bytes (offset bytes) data h.fileBudget with
  | .error e => throw e
  | .ok (written, fileBudget) =>
    set { h.setFile mount path written with fileBudget }
    return offset bytes

def fdWrite (fd : Fd) (data : Bytes) : HostM Nat := do
  match ← HostM.read (·.descriptor fd) with
  | .stdin => throw (.errno .badf)
  | .output stream => modify (·.writeOutput stream data)
  | .dir .. => throw (.errno .isdir)
  | .file mount path position append =>
    let offset ← writeFile mount path
      (fun bytes => if append then UInt64.ofNat bytes.length else position) data
    let position := offset + UInt64.ofNat data.length
    modify fun h => { h with fds := h.fds.set fd (.file mount path position append) }
  return data.length

def fdPwrite (fd : Fd) (data : Bytes) (offset : UInt64) : HostM Nat := do
  match ← HostM.read (·.descriptor fd) with
  | .stdin | .output _ => throw (.errno .spipe)
  | .dir .. => throw (.errno .isdir)
  | .file mount path _ _ =>
    let _ ← writeFile mount path (fun _ => offset) data
    return data.length

def fdRead (fd : Fd) (max : Nat) : HostM Bytes := do
  match ← HostM.read (·.descriptor fd) with
  | .stdin => return []
  | .output _ => throw (.errno .badf)
  | .dir .. => throw (.errno .isdir)
  | .file mount path position append =>
    let data := readAt (← HostM.read (·.fileBytes mount path)) position max
    let position := position + UInt64.ofNat data.length
    modify fun h => { h with fds := h.fds.set fd (.file mount path position append) }
    return data

def fdPread (h : Host) (fd : Fd) (max : Nat) (offset : UInt64) : Except Errno Bytes := do
  match ← h.descriptor fd with
  | .stdin | .output _ => throw .spipe
  | .dir .. => throw .isdir
  | .file mount path _ _ => return readAt (← h.fileBytes mount path) offset max

def fdSeek (fd : Fd) (offset : Int64) (whence : UInt8) : HostM UInt64 := do
  match ← HostM.read (·.descriptor fd) with
  | .stdin | .output _ => throw (.errno .spipe)
  | .dir .. => throw (.errno .badf)
  | .file mount path position append =>
    let base : Int64 ← match Whence.ofCode? whence with
      | some .set => pure 0
      | some .current => pure position.toInt64
      | some .fileEnd => do
        let bytes ← HostM.read (·.fileBytes mount path)
        pure (UInt64.ofNat bytes.length).toInt64
      | none => throw (.errno .inval)
    let target := base.toInt + offset.toInt
    if target < 0 ∨ Int64.maxValue.toInt < target then throw (.errno .inval)
    let position := UInt64.ofNat target.toNat
    modify fun h => { h with fds := h.fds.set fd (.file mount path position append) }
    return position

def fdClose (fd : Fd) : HostM Unit := do
  let _ ← HostM.read (·.descriptor fd)
  modify fun h => { h with fds := h.fds.erase fd }

def fdRenumber (source target : Fd) : HostM Unit := do
  let _ ← HostM.read (·.descriptor target)
  let d ← HostM.read (·.descriptor source)
  modify fun h => { h with fds := (h.fds.erase source).set target d }

def fdFdstat (h : Host) (fd : Fd) : Except Errno (FileKind × Bool) := do
  match ← h.descriptor fd with
  | .stdin => return (.character, false)
  | .output _ => return (.character, true)
  | .dir .. => return (.directory, false)
  | .file _ _ _ append => return (.regular, append)

def fdSetAppend (fd : Fd) (append : Bool) : HostM Unit := do
  match ← HostM.read (·.descriptor fd) with
  | .file mount path position _ =>
    modify fun h => { h with fds := h.fds.set fd (.file mount path position append) }
  | _ => return ()

def fdFilestat (h : Host) (fd : Fd) : Except Errno Filestat := do
  match ← h.descriptor fd with
  | .stdin | .output _ => return ⟨fd.toUInt64 + 1, FileKind.character.code, 0⟩
  | .dir mount path _ | .file mount path _ _ => h.statOf mount path

def fdSetSize (fd : Fd) (size : UInt64) : HostM Unit := do
  match ← HostM.read (·.descriptor fd) with
  | .file mount path _ _ =>
    let bytes ← HostM.read (·.fileBytes mount path)
    let h ← get
    match resizeWithin bytes size h.fileBudget with
    | .error e => throw e
    | .ok (resized, fileBudget) => set { h.setFile mount path resized with fileBudget }
  | .dir .. => throw (.errno .isdir)
  | _ => throw (.errno .inval)

def fdCheck (h : Host) (fd : Fd) : Except Errno Unit := do
  let _ ← h.descriptor fd

def fdPrestatName (h : Host) (fd : Fd) : Except Errno String := do
  match ← h.descriptor fd with
  | .dir mount _ true =>
    match h.mounts[mount]? with
    | some m => return m.name
    | none => throw .badf
  | _ => throw .badf

def dirent (mount : Nat) (path : List String) (index : Nat) (name : String) (e : Entry) : Bytes :=
  let nameBytes := Utf8.encode name
  Bytes.ofNatLE 8 (index + 1) ++ Bytes.ofNatLE 8 (inode mount (path ++ [name])).toNat ++
    Bytes.ofNatLE 4 nameBytes.length ++ (entryKind e).code :: 0 :: 0 :: 0 :: nameBytes

/-- Entries from an index on, until `limit` bytes are there. -/
def dirents (mount : Nat) (path : List String) (limit : Nat) :
    (index used : Nat) → List (String × Entry) → Bytes
  | _, _, [] => []
  | index, used, (name, e) :: rest =>
    if limit ≤ used then []
    else
      let one := dirent mount path index name e
      one ++ dirents mount path limit (index + 1) (used + one.length) rest

def fdReaddir (h : Host) (fd : Fd) (cookie : UInt64) (limit : Nat) : Except Errno Bytes := do
  match ← h.descriptor fd with
  | .dir mount path _ =>
    match ← h.node mount path with
    | .dir d => return dirents mount path limit cookie.toNat 0 (d.children.drop cookie.toNat)
    | .file _ => throw .notdir
  | .file .. => throw .notdir
  | _ => throw .badf

end Host

end Buildbox
