import Buildbox.Config.Basic
import Buildbox.Config.Toml

/-! Configurations as JSON and as TOML. Settings that are not given keep their defaults. -/

namespace Buildbox

open Json (asString? asOption? asWord? asList? fields?)

private def stringOrNull : Option String → Json
  | some s => .str s
  | none => .null

private def words (xs : List String) : Json :=
  .arr (xs.map .str)

namespace AssetConfig

def toJson (c : AssetConfig) : Json :=
  .obj [("base", .str c.base), ("compiler", .str c.compiler), ("transpiler", .str c.transpiler),
    ("library_archive", .str c.libraryArchive), ("library_prefix", stringOrNull c.libraryPart),
    ("support_archive", .str c.supportArchive), ("support_prefix", stringOrNull c.supportPart),
    ("support_dir", .str c.supportDir)]

def ofJson? (v : Json) : Option AssetConfig := do
  let d : AssetConfig := {}
  let f ← fields? ["base", "compiler", "transpiler", "library_archive", "library_prefix",
    "support_archive", "support_prefix", "support_dir"] v
  return {
    base := ← f.withDefault 0 "base" d.base asString?
    compiler := ← f.withDefault 1 "compiler" d.compiler asString?
    transpiler := ← f.withDefault 2 "transpiler" d.transpiler asString?
    libraryArchive := ← f.withDefault 3 "library_archive" d.libraryArchive asString?
    libraryPart := ← f.withDefault 4 "library_prefix" d.libraryPart (asOption? asString?)
    supportArchive := ← f.withDefault 5 "support_archive" d.supportArchive asString?
    supportPart := ← f.withDefault 6 "support_prefix" d.supportPart (asOption? asString?)
    supportDir := ← f.withDefault 7 "support_dir" d.supportDir asString? }

instance : JsonForm AssetConfig := ⟨toJson, ofJson?⟩

end AssetConfig

namespace CacheConfig

def toJson (c : CacheConfig) : Json :=
  .obj [("dir", stringOrNull c.dir), ("namespace", .str c.space)]

def ofJson? (v : Json) : Option CacheConfig := do
  let d : CacheConfig := {}
  let f ← fields? ["dir", "namespace"] v
  return {
    dir := ← f.withDefault 0 "dir" d.dir (asOption? asString?)
    space := ← f.withDefault 1 "namespace" d.space asString? }

instance : JsonForm CacheConfig := ⟨toJson, ofJson?⟩

end CacheConfig

namespace TranspileConfig

def toJson (c : TranspileConfig) : Json :=
  .obj [("subcommand", .str c.subcommand), ("source_ext", .str c.sourceExt),
    ("target_ext", .str c.targetExt), ("mount", .str c.mount),
    ("timeout_secs", .nat c.timeoutSecs.toNat), ("memory_limit_mb", .nat c.memoryLimitMb.toNat)]

def ofJson? (v : Json) : Option TranspileConfig := do
  let d : TranspileConfig := {}
  let f ← fields? ["subcommand", "source_ext", "target_ext", "mount", "timeout_secs",
    "memory_limit_mb"] v
  return {
    subcommand := ← f.withDefault 0 "subcommand" d.subcommand asString?
    sourceExt := ← f.withDefault 1 "source_ext" d.sourceExt asString?
    targetExt := ← f.withDefault 2 "target_ext" d.targetExt asString?
    mount := ← f.withDefault 3 "mount" d.mount asString?
    timeoutSecs := ← f.withDefault 4 "timeout_secs" d.timeoutSecs asWord?
    memoryLimitMb := ← f.withDefault 5 "memory_limit_mb" d.memoryLimitMb asWord? }

instance : JsonForm TranspileConfig := ⟨toJson, ofJson?⟩

end TranspileConfig

namespace CompileConfig

def toJson (c : CompileConfig) : Json :=
  .obj [("entry_file", .str c.entryFile), ("aux_module", .str c.auxModule),
    ("aux_entry", .str c.auxEntry), ("output_name", .str c.outputName), ("flags", words c.flags),
    ("timeout_secs", .nat c.timeoutSecs.toNat), ("memory_limit_mb", .nat c.memoryLimitMb.toNat)]

def ofJson? (v : Json) : Option CompileConfig := do
  let d : CompileConfig := {}
  let f ← fields? ["entry_file", "aux_module", "aux_entry", "output_name", "flags",
    "timeout_secs", "memory_limit_mb"] v
  return {
    entryFile := ← f.withDefault 0 "entry_file" d.entryFile asString?
    auxModule := ← f.withDefault 1 "aux_module" d.auxModule asString?
    auxEntry := ← f.withDefault 2 "aux_entry" d.auxEntry asString?
    outputName := ← f.withDefault 3 "output_name" d.outputName asString?
    flags := ← f.withDefault 4 "flags" d.flags (asList? asString?)
    timeoutSecs := ← f.withDefault 5 "timeout_secs" d.timeoutSecs asWord?
    memoryLimitMb := ← f.withDefault 6 "memory_limit_mb" d.memoryLimitMb asWord? }

instance : JsonForm CompileConfig := ⟨toJson, ofJson?⟩

end CompileConfig

namespace ExecuteConfig

def toJson (c : ExecuteConfig) : Json :=
  .obj [("entry_points", words c.entryPoints), ("timeout_secs", .nat c.timeoutSecs.toNat),
    ("memory_limit_mb", .nat c.memoryLimitMb.toNat)]

def ofJson? (v : Json) : Option ExecuteConfig := do
  let d : ExecuteConfig := {}
  let f ← fields? ["entry_points", "timeout_secs", "memory_limit_mb"] v
  return {
    entryPoints := ← f.withDefault 0 "entry_points" d.entryPoints (asList? asString?)
    timeoutSecs := ← f.withDefault 1 "timeout_secs" d.timeoutSecs asWord?
    memoryLimitMb := ← f.withDefault 2 "memory_limit_mb" d.memoryLimitMb asWord? }

instance : JsonForm ExecuteConfig := ⟨toJson, ofJson?⟩

end ExecuteConfig

namespace Config

def toJson (c : Config) : Json :=
  .obj [("assets", c.assets.toJson), ("cache", c.cache.toJson), ("transpile", c.transpile.toJson),
    ("compile", c.compile.toJson), ("execute", c.execute.toJson)]

def ofJson? (v : Json) : Option Config := do
  let d : Config := {}
  let f ← fields? ["assets", "cache", "transpile", "compile", "execute"] v
  return {
    assets := ← f.withDefault 0 "assets" d.assets AssetConfig.ofJson?
    cache := ← f.withDefault 1 "cache" d.cache CacheConfig.ofJson?
    transpile := ← f.withDefault 2 "transpile" d.transpile TranspileConfig.ofJson?
    compile := ← f.withDefault 3 "compile" d.compile CompileConfig.ofJson?
    execute := ← f.withDefault 4 "execute" d.execute ExecuteConfig.ofJson? }

def sectionSizes : List (String × Nat) :=
  [("assets", 8), ("cache", 2), ("transpile", 6), ("compile", 7), ("execute", 3)]

/-- Drops what a section that is written as an array has beyond its settings. -/
def cutSections : Json → Json
  | .obj members => .obj <| members.map fun (key, v) =>
    match v, sectionSizes.lookup key with
    | .arr items, some size => (key, .arr (items.take size))
    | v, _ => (key, v)
  | v => v

def ofToml (text : String) : Except ConfigFault Config :=
  match Toml.parse? text with
  | none => .error (.malformed "not a TOML document")
  | some v =>
    match ofJson? (cutSections v) with
    | some c => .ok c
    | none => .error (.malformed "a setting has the wrong type")

instance : JsonForm Config := ⟨toJson, ofJson?⟩

end Config

end Buildbox
