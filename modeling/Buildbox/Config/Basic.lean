import Buildbox.Failure
import Buildbox.Json.Decode
import Buildbox.Text.Blank

/-! The configuration: where the toolchain lives and how each stage runs it. Every setting has a
default. -/

namespace Buildbox

structure AssetConfig where
  base : String := "assets/playground"
  compiler : String := "zig.wasm"
  transpiler : String := "zx.wasm"
  libraryArchive : String := "zig.tar.gz"
  libraryPart : Option String := some "lib/"
  supportArchive : String := "zx.tar.gz"
  supportPart : Option String := none
  supportDir : String := "zx"
  deriving DecidableEq, Repr, Inhabited

structure CacheConfig where
  dir : Option String := none
  space : String := "ziex-pg-v0.1.0-dev.678"
  deriving DecidableEq, Repr, Inhabited

structure TranspileConfig where
  subcommand : String := "transpile"
  sourceExt : String := "zx"
  targetExt : String := "zig"
  mount : String := "/codes"
  timeoutSecs : UInt64 := 60
  memoryLimitMb : UInt64 := 0
  deriving DecidableEq, Repr, Inhabited

structure CompileConfig where
  entryFile : String := "main.zig"
  auxModule : String := "zx"
  auxEntry : String := "zx/src/root.zig"
  outputName : String := "main"
  flags : List String := ["-fno-llvm", "-fno-lld", "-fno-ubsan-rt", "-fno-entry"]
  timeoutSecs : UInt64 := 300
  memoryLimitMb : UInt64 := 0
  deriving DecidableEq, Repr, Inhabited

structure ExecuteConfig where
  entryPoints : List String := ["_start", "main"]
  timeoutSecs : UInt64 := 30
  memoryLimitMb : UInt64 := 512
  deriving DecidableEq, Repr, Inhabited

structure Config where
  assets : AssetConfig := {}
  cache : CacheConfig := {}
  transpile : TranspileConfig := {}
  compile : CompileConfig := {}
  execute : ExecuteConfig := {}
  deriving DecidableEq, Repr, Inhabited

def timeoutOf (secs : UInt64) : Option UInt64 :=
  if secs = 0 then none else some secs

/-- A limit in megabytes as bytes, at most the largest word; zero stands for none. -/
def memoryLimitOf (mb : UInt64) : Option UInt64 :=
  if mb = 0 then none
  else if mb.toNat * (1024 * 1024) < UInt64.size then some (mb * (1024 * 1024))
  else some (UInt64.ofNat (UInt64.size - 1))

namespace Config

def requiredTexts (c : Config) : List (String × String) :=
  [("assets.compiler", c.assets.compiler),
   ("assets.transpiler", c.assets.transpiler),
   ("assets.library_archive", c.assets.libraryArchive),
   ("assets.support_archive", c.assets.supportArchive),
   ("cache.namespace", c.cache.space),
   ("transpile.subcommand", c.transpile.subcommand),
   ("transpile.mount", c.transpile.mount),
   ("assets.support_dir", c.assets.supportDir),
   ("compile.entry_file", c.compile.entryFile),
   ("compile.aux_module", c.compile.auxModule),
   ("compile.aux_entry", c.compile.auxEntry),
   ("compile.output_name", c.compile.outputName)]

def extensions (c : Config) : List (String × String) :=
  [("transpile.source_ext", c.transpile.sourceExt),
   ("transpile.target_ext", c.transpile.targetExt)]

def isBareExtension (ext : String) : Bool :=
  ext ≠ "" && ! ext.toList.contains '.' && ! ext.toList.contains '/'

def validate (c : Config) : Except ConfigFault Unit := do
  for (key, text) in c.requiredTexts do
    if Text.isBlankText text then throw (.blank key)
  for (key, ext) in c.extensions do
    if ! isBareExtension ext then throw (.extension key ext)
  if c.transpile.sourceExt = c.transpile.targetExt then throw .sameExtension
  if c.execute.entryPoints.all (· = "") then throw .noEntryPoint

end Config

end Buildbox
