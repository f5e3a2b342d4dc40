import Buildbox.Disk
import Buildbox.Failure
import Buildbox.NameMap

/-! Where the bytes behind an asset's name come from: memory, a directory or the web. -/

namespace Buildbox

/-- Gives the bytes behind a name; what it did before it failed stays done. -/
abbrev Fetch (σ : Type) := String → EStateM Failure σ Bytes

structure MemorySource where
  assets : NameMap Bytes := .empty
  fetches : Nat := 0
  deriving DecidableEq, Repr, Inhabited

namespace MemorySource

def put (s : MemorySource) (url : String) (bytes : Bytes) : MemorySource :=
  { s with assets := s.assets.insert url bytes }

def fetch : Fetch MemorySource := fun url s =>
  let s := { s with fetches := s.fetches + 1 }
  match s.assets.get? url with
  | some bytes => .ok bytes s
  | none => .error (.fetch url .notFound) s

end MemorySource

class HasDisk (σ : Type) where
  disk : σ → Disk
  withDisk : σ → Disk → σ
  disk_withDisk : ∀ s d, disk (withDisk s d) = d
  withDisk_disk : ∀ s, withDisk s (disk s) = s

instance : HasDisk Disk where
  disk := id
  withDisk _ d := d
  disk_withDisk _ _ := rfl
  withDisk_disk _ := rfl

instance {σ : Type} : HasDisk (σ × Disk) where
  disk s := s.2
  withDisk s d := (s.1, d)
  disk_withDisk _ _ := rfl
  withDisk_disk _ := rfl

def relativeName (url : String) : String :=
  String.ofList (url.toList.dropWhile (· = '/'))

def fetchFromDirectory {σ : Type} [HasDisk σ] (root : String) : Fetch σ := fun url s =>
  let path := Disk.joinPath root (relativeName url)
  match Disk.readFile (HasDisk.disk s) path with
  | .ok bytes => .ok bytes s
  | .error fault => .error (.fetch path (.other fault.message)) s

end Buildbox
