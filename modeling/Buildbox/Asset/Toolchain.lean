import Buildbox.Asset.ArchiveCache
import Buildbox.Asset.ContentCache
import Buildbox.Asset.Web
import Buildbox.Config.Basic

/-! The assets of a toolchain: two modules and two archives, each fetched at most once. -/

namespace Buildbox

structure Toolchain (σ : Type) where
  archives : ArchiveStore σ
  modules : NameMap Bytes := .empty

structure WarmReport where
  compilerBytes : Nat
  transpilerBytes : Nat
  libraryFiles : Nat
  supportFiles : Nat
  deriving DecidableEq, Repr, Inhabited

namespace AssetConfig

def libraryKey (a : AssetConfig) : ArchiveKey := ⟨a.libraryArchive, a.libraryPart⟩

def supportKey (a : AssetConfig) : ArchiveKey := ⟨a.supportArchive, a.supportPart⟩

end AssetConfig

def Config.fetch {σ : Type} [HasDisk σ] (c : Config) (client : WebClient) : Fetch σ :=
  ContentCache.fetch (c.cache.dir.map fun dir => ContentCache.below dir c.cache.space)
    (fetchBelow client c.assets.base)

namespace Toolchain

variable {σ : Type}

def ofSource (source : σ) : Toolchain σ where
  archives := { source }

def inArchives {α : Type} (act : EStateM Failure (ArchiveStore σ) α) :
    EStateM Failure (Toolchain σ) α := fun t =>
  match act t.archives with
  | .ok a archives => .ok a { t with archives }
  | .error f archives => .error f { t with archives }

def module (fetch : Fetch σ) (url : String) : EStateM Failure (Toolchain σ) Bytes := do
  match (← get).modules.get? url with
  | some bytes => return bytes
  | none =>
    let bytes ← inArchives (ArchiveStore.fetchBytes fetch url)
    modify fun t => { t with modules := t.modules.insert url bytes }
    return bytes

def recipe (fetch : Fetch σ) : Recipe σ String Bytes where
  fetch
  make _ _ bytes := .ok bytes

def root (fetch : Fetch σ) (key : ArchiveKey) : EStateM Failure (Toolchain σ) SharedRoot :=
  inArchives (ArchiveStore.root fetch key)

def roots (fetch : Fetch σ) (a : AssetConfig) :
    EStateM Failure (Toolchain σ) (SharedRoot × SharedRoot) :=
  inArchives (ArchiveStore.rootPair fetch a.libraryKey a.supportKey)

def warm (fetch : Fetch σ) (a : AssetConfig) : EStateM Failure (Toolchain σ) WarmReport := do
  let compiler ← module fetch a.compiler
  let transpiler ← module fetch a.transpiler
  let (library, support) ← roots fetch a
  return {
    compilerBytes := compiler.length
    transpilerBytes := transpiler.length
    libraryFiles := library.root.fileCount
    supportFiles := support.root.fileCount }

end Toolchain

end Buildbox
