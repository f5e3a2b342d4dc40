import Buildbox.CommandLine.Outcome

/-! The command itself: it loads what its arguments name, and writes back what was cached. -/

namespace Buildbox.CommandLine

partial def load (path : String) (disk : Disk) : IO Disk := do
  let here := (← IO.currentDir) / path
  if ← here.isDir then
    let (_, disk) := Disk.createDirs disk path
    (← here.readDir).foldlM (fun disk entry => load (Disk.joinPath path entry.fileName) disk) disk
  else if ← here.pathExists then
    let bytes := (← IO.FS.readBinFile here).toList
    let parent := "/".intercalate (Disk.parts path).dropLast
    let (_, disk) := Disk.createDirs disk parent
    return (Disk.writeFile disk path bytes).toOption.getD disk
  else return disk

def store (path : String) (before after : Disk) : IO Unit := do
  let .ok (.dir tree) := Disk.find after path | return
  for name in tree.filePaths do
    let file := Disk.joinPath path name
    let some bytes := tree.read? name | continue
    if (Disk.readFile before file).toOption ≠ some bytes then
      IO.FS.createDirAll ("/".intercalate (Disk.parts file).dropLast)
      IO.FS.writeBinFile file ⟨bytes.toArray⟩

def noClient : WebClient := fun _ => .error "no web client"

def runCommand (args : List String) : IO UInt32 := do
  let disk ← (configPath? args).toList.foldlM (fun disk path => load path disk) Directory.empty
  let disk ← (workPaths args disk).foldlM (fun disk path => load path disk) disk
  let out := run noClient args disk
  if let some path := cachePath? args disk then store path disk out.disk
  let stdout ← IO.getStdout
  stdout.putStr out.stdout
  stdout.flush
  for line in out.stderr ++ out.log do IO.eprintln line
  return out.code

end Buildbox.CommandLine

def main (args : List String) : IO UInt32 :=
  Buildbox.CommandLine.runCommand args
