import Buildbox.Literal.Basic
import Buildbox.Message.Codec
import Buildbox.Sandbox.Invocation

/-! A sandbox that follows a script instead of running modules. The first rule whose condition
holds of an invocation says what becomes of it; every invocation is kept. It is a backend to try
stages out with. What is proved of stages and pipelines holds over every backend. -/

namespace Buildbox

namespace Script

structure Condition where
  arg : Option (Nat × String) := none
  file : Option (String × String × String) := none
  module : Option String := none
  deriving DecidableEq, Repr, Inhabited

inductive Action where
  | print (stream : Stream) (bytes : Bytes)
  | write (mount path : String) (bytes : Bytes)
  | derive (mount source target : String) (lead : Bytes)
  | remove (mount name : String)
  | wait
  | fail (detail : String)
  deriving DecidableEq, Repr, Inhabited

structure Rule where
  condition : Condition := {}
  actions : List Action := []
  status : ExitStatus := .exited 0
  deriving DecidableEq, Repr, Inhabited

def isWithin (part : List Char) : List Char → Bool
  | [] => part.isEmpty
  | c :: rest => part.isPrefixOf (c :: rest) || isWithin part rest

def Condition.holds (c : Condition) (i : Invocation) : Bool :=
  let shows (text : String) (bs : Bytes) := isWithin text.toList (Utf8.lossy bs)
  c.arg.all (fun (position, value) => i.args[position]? = some value) &&
    c.file.all (fun (mount, path, text) =>
      ((i.mounts.get? mount).bind (·.read? path)).any (shows text)) &&
    c.module.all (shows · i.module)

structure Scene where
  mounts : MountTable
  stdout : OutputSink
  stderr : OutputSink
  chunks : List OutputChunk := []
  deriving DecidableEq, Repr, Inhabited

namespace Scene

def start (i : Invocation) : Scene where
  mounts := i.mounts
  stdout := { redirect := i.stdout }
  stderr := { redirect := i.stderr }

def act (s : Scene) : Action → Except String Scene
  | .print .stdout bytes =>
    let (stdout, chunks) := s.stdout.write bytes
    .ok { s with stdout, chunks := s.chunks ++ chunks }
  | .print .stderr bytes =>
    let (stderr, chunks) := s.stderr.write bytes
    .ok { s with stderr, chunks := s.chunks ++ chunks }
  | .write mount path bytes =>
    .ok { s with mounts := s.mounts.modify (·.overlayFile path bytes) mount }
  | .derive mount source target lead =>
    let bytes := ((s.mounts.get? mount).bind (·.read? source)).getD []
    .ok { s with mounts := s.mounts.modify (·.overlayFile target (lead ++ bytes)) mount }
  | .remove mount name => .ok { s with mounts := s.mounts.modify (·.erase name) mount }
  | .wait => .ok s
  | .fail detail => .error detail

def play (s : Scene) : List Action → Except String Unit × Scene
  | [] => (.ok (), s)
  | action :: rest =>
    match s.act action with
    | .ok s => s.play rest
    | .error detail => (.error detail, s)

def finish (s : Scene) (status : ExitStatus) : Execution :=
  let (stdout, first) := s.stdout.finish
  let (stderr, second) := s.stderr.finish
  ⟨.ok ⟨status, stdout, stderr, s.mounts⟩, s.chunks ++ first ++ second⟩

end Scene

def Rule.execution (r : Rule) (i : Invocation) : Execution :=
  match (Scene.start i).play r.actions with
  | (.ok (), s) => s.finish r.status
  | (.error detail, s) => ⟨.error (.instantiate detail), s.chunks⟩

def backend (rules : List Rule) : Backend (List Invocation) := fun i asked =>
  match rules.find? (·.condition.holds i) with
  | some rule => (rule.execution i, asked ++ [i])
  | none => (⟨.error (.instantiate "no rule"), []⟩, asked ++ [i])

open Literal (member)

def Condition.ofJson (v : Json) : Condition where
  arg := match member v "arg" with
    | .arr [position, .str value] => some (Literal.natural position, value)
    | _ => none
  file := match member v "file" with
    | .arr [.str mount, .str path, .str text] => some (mount, path, text)
    | _ => none
  module := (member v "module").asString?

def Action.ofJson? : Json → Option Action
  | .arr [.str "out", bytes] => some (.print .stdout (Literal.bytes bytes))
  | .arr [.str "err", bytes] => some (.print .stderr (Literal.bytes bytes))
  | .arr [.str "write", .str mount, .str path, bytes] =>
    some (.write mount path (Literal.bytes bytes))
  | .arr [.str "derive", .str mount, .str source, .str target, lead] =>
    some (.derive mount source target (Literal.bytes lead))
  | .arr [.str "remove", .str mount, .str name] => some (.remove mount name)
  | .arr (.str "sleep" :: _) => some .wait
  | .arr [.str "fail", .str detail] => some (.fail detail)
  | _ => none

def Rule.ofJson (v : Json) : Rule where
  condition := .ofJson (member v "when")
  actions := match member v "do" with
    | .arr actions => actions.filterMap Action.ofJson?
    | _ => []
  status := (ExitStatus.ofJson? (member v "status")).getD (.exited 0)

end Script

end Buildbox
