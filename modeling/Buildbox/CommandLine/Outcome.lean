import Buildbox.CommandLine.Help
import Buildbox.Config.Load
import Buildbox.FileSet
import Buildbox.Message.Codec
import Buildbox.Pipeline.Setup

/-! What the command does: it reads a disk, prints, and leaves the disk with what it cached. -/

namespace Buildbox

namespace WarmReport

def toJson (r : WarmReport) : Json :=
  .obj [("compiler_bytes", .nat r.compilerBytes), ("transpiler_bytes", .nat r.transpilerBytes),
    ("library_files", .nat r.libraryFiles), ("support_files", .nat r.supportFiles)]

def lines (r : WarmReport) : List String :=
  ["Compiler: " ++ toString r.compilerBytes ++ " bytes",
   "Transpiler: " ++ toString r.transpilerBytes ++ " bytes",
   "Library Files: " ++ toString r.libraryFiles,
   "Support Files: " ++ toString r.supportFiles]

end WarmReport

namespace CommandLine

structure Outcome where
  code : UInt32 := 0
  stdout : String := ""
  stderr : List String := []
  log : List String := []
  disk : Disk
  deriving Inhabited

namespace Outcome

def printed (disk : Disk) (text : String) : Outcome where
  stdout := text
  disk

def failed (disk : Disk) (reason : String) : Outcome where
  code := 1
  log := ["Error: " ++ reason]
  disk

end Outcome

/-- The configuration of a run: what the options say wins over the file. -/
def loadConfig (disk : Disk) (o : Options) : Except ConfigFault Config := do
  let c ← Config.load disk o.config
  let c := match o.assets with
    | some base => { c with assets.base := base }
    | none => c
  let c := match o.cacheDir with
    | some dir => { c with cache.dir := some dir }
    | none => c
  c.validate
  return c

structure Watch where
  stdout : String := ""
  stderr : List String := []
  errored : Bool := false
  deriving DecidableEq, Repr, Inhabited

def eventLine (e : PipelineEvent) : String :=
  e.toJson.render ++ "\n"

/-- One round of watching. An event that is printed as it is gets no further look. -/
def Watch.see (json : Bool) (w : Watch) (e : PipelineEvent) : Watch :=
  if json then { w with stdout := w.stdout ++ eventLine e }
  else match e with
    | .status .errored => { w with errored := true }
    | .diagnostic line | .log line => { w with stderr := w.stderr ++ [line] }
    | .preview text => { w with stdout := w.stdout ++ text }
    | _ => w

/-- How a command ends that has watched a run. -/
def reported (json : Bool) (events : List PipelineEvent) (disk : Disk) : Outcome :=
  let w := events.foldl (Watch.see json) {}
  let out := if w.errored then Outcome.failed disk "build failed" else { disk }
  { out with stdout := w.stdout, stderr := w.stderr }

variable {β : Type} (s : Sandboxes β) (c : Config) (client : WebClient)

def projectRun (tree : Directory) (disk : Disk) (sandbox : β) : List PipelineEvent × Disk :=
  let files := (FileSet.ofTree tree).snapshot
  let (events, p) := (Sandboxes.pipeline sandbox disk).drive (s.workshop c client) files
  (events, p.stages.toolchain.archives.source)

def runProject (json : Bool) (dir : String) (disk : Disk) : Outcome :=
  match Disk.loadTree disk dir with
  | .error _ => .failed disk (Failure.fileNotFound dir).message
  | .ok tree =>
    match s.setUp c with
    | .error f => .failed disk f.message
    | .ok sandbox =>
      let (events, disk) := projectRun s c client tree disk sandbox
      reported json events disk

def fileName? (path : String) : Option String :=
  match ((Disk.parts path).filter fun p => p ≠ "" ∧ p ≠ ".").getLast? with
  | none | some ".." => none
  | some name => some name

def transpileFile (file : String) (disk : Disk) : Outcome :=
  match Disk.readFile disk file with
  | .error fault => .failed disk fault.message
  | .ok bytes =>
    match Utf8.decode? bytes, fileName? file with
    | none, _ => .failed disk "stream did not contain valid UTF-8"
    | _, none => .failed disk "not a file path"
    | some content, some name =>
      match s.setUp c with
      | .error f => .failed disk f.message
      | .ok sandbox =>
        let (out, stages) :=
          (Sandboxes.stages sandbox disk).transpileFile (s.workshop c client) name content
        let disk := stages.toolchain.archives.source
        match out with
        | .ok out => .printed disk out.content
        | .error f => .failed disk f.message

def ruler : String := String.ofList (List.replicate 60 '=') ++ "\n"

def framed (title : String) (lines : List String) : String :=
  "\n" ++ ruler ++ title ++ "\n" ++ ruler ++ String.join (lines.map (· ++ "\n")) ++ ruler

def withToolchain {α : Type} (disk : Disk) (act : EStateM Failure (Toolchain Disk) α)
    (text : α → String) : Outcome :=
  match act (.ofSource disk) with
  | .ok a t => .printed t.archives.source (text a)
  | .error f t => .failed t.archives.source f.message

def warm (json : Bool) (disk : Disk) : Outcome :=
  withToolchain disk (Toolchain.warm (c.fetch client) c.assets) fun r =>
    if json then r.toJson.render ++ "\n" else framed "Toolchain Assets" r.lines

def column (n : Nat) : String :=
  let digits := toString n
  String.ofList (List.replicate (10 - digits.length) ' ') ++ digits

def listing (archive : String) (root : Directory) : String :=
  let paths := root.filePaths
  framed (archive ++ " (" ++ toString paths.length ++ " files)") (paths.map fun path =>
    column (((root.read? path).map List.length).getD 0) ++ "  " ++ path)

def inspect (json : Bool) (archive : String) (only : Option String) (disk : Disk) : Outcome :=
  withToolchain disk (Toolchain.root (c.fetch client) ⟨archive, only⟩) fun r =>
    if json then (Json.arr (r.root.filePaths.map .str)).render ++ "\n"
    else listing archive r.root

def perform (o : Options) (task : Task) (disk : Disk) : Outcome :=
  match loadConfig disk o with
  | .error fault =>
    { code := 2
      log := ["Failed to load configuration: " ++ (Failure.config fault).message]
      disk }
  | .ok c =>
    match task with
    | .run dir => runProject s c client o.json dir disk
    | .transpile file => transpileFile s c client file disk
    | .warm => warm c client o.json disk
    | .inspect archive only => inspect c client o.json archive only disk

def runIn (args : List String) (disk : Disk) : Outcome :=
  match parse args with
  | .error fault => { code := 2, stderr := fault.lines, disk }
  | .ok .version => .printed disk versionText
  | .ok (.help topic) => .printed disk (helpText topic)
  | .ok (.perform o task) => perform s client o task disk

def run (args : List String) (disk : Disk) : Outcome :=
  runIn Engines.sandboxes client args disk

def configPath? (args : List String) : Option String :=
  match parse args with
  | .ok (.perform o _) => o.config
  | _ => none

def workPaths (args : List String) (disk : Disk) : List String :=
  match parse args with
  | .ok (.perform o task) =>
    match loadConfig disk o with
    | .error _ => []
    | .ok c =>
      let base := if Web.isAddress c.assets.base then [] else [c.assets.base]
      let project := match task with
        | .run dir => [dir]
        | .transpile file => [file]
        | _ => []
      base ++ c.cache.dir.toList ++ project
  | _ => []

def cachePath? (args : List String) (disk : Disk) : Option String :=
  match parse args with
  | .ok (.perform o _) => (loadConfig disk o).toOption.bind (·.cache.dir)
  | _ => none

end CommandLine

end Buildbox
