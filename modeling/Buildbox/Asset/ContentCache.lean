import Buildbox.Asset.Source
import Buildbox.Digest.Sha256
import Buildbox.Text.Utf8

/-! A cache of fetched bytes on disk. An entry is written under a name of its own and then moved
into place, so that a reader sees all of it or nothing. -/

namespace Buildbox

inductive DiskStep where
  | createDirs (path : String)
  | write (path : String) (bytes : Bytes)
  | rename (source target : String)
  deriving DecidableEq, Repr, Inhabited

def DiskStep.apply (d : Disk) : DiskStep → Except Disk.Fault Unit × Disk
  | createDirs path => Disk.createDirs d path
  | write path bytes => keep (Disk.writeFile d path bytes)
  | rename source target => keep (Disk.renameFile d source target)
where
  keep : Except Disk.Fault Disk → Except Disk.Fault Unit × Disk
    | .ok d => (.ok (), d)
    | .error fault => (.error fault, d)

structure ContentCache where
  dir : String
  deriving DecidableEq, Repr, Inhabited

namespace ContentCache

def below (root space : String) : ContentCache :=
  ⟨Disk.joinPath root space⟩

def entryPath (c : ContentCache) (url : String) : String :=
  Disk.joinPath c.dir (Sha256.hexDigest (Utf8.encode url))

def draftPath (c : ContentCache) (url tag : String) : String :=
  c.entryPath url ++ ".tmp-" ++ tag

def get? (c : ContentCache) (d : Disk) (url : String) : Option Bytes :=
  (Disk.readFile d (c.entryPath url)).toOption

def putSteps (c : ContentCache) (url tag : String) (bytes : Bytes) : List DiskStep :=
  [.createDirs c.dir, .write (c.draftPath url tag) bytes,
    .rename (c.draftPath url tag) (c.entryPath url)]

def runSteps : List DiskStep → Disk → Except Disk.Fault Unit × Disk
  | [], d => (.ok (), d)
  | step :: rest, d =>
    match step.apply d with
    | (.ok (), d) => runSteps rest d
    | failed => failed

def put (c : ContentCache) (url tag : String) (bytes : Bytes) (d : Disk) :
    Except Disk.Fault Unit × Disk :=
  runSteps (c.putSteps url tag bytes) d

def fetch {σ : Type} [HasDisk σ] (cache : Option ContentCache) (source : Fetch σ) : Fetch σ :=
  match cache with
  | none => source
  | some c => fun url => do
    match c.get? (HasDisk.disk (← get)) url with
    | some bytes => return bytes
    | none =>
      let bytes ← source url
      -- A failure to store counts for nothing.
      modify fun s => HasDisk.withDisk s (c.put url "0" bytes (HasDisk.disk s)).2
      return bytes

end ContentCache

end Buildbox
