import Buildbox.Text.Quoted
import Buildbox.Tree.Directory

/-! Placing files in a tree by path: insertion respects what is there, an overlay replaces it. -/

namespace Buildbox

inductive PathConflict where
  | emptyPath (path : String)
  | fileInPath (segment path : String)
  | directoryAt (path : String)
  | emptyNestPath (mount : String)
  deriving DecidableEq, Repr, Inhabited

namespace PathConflict

def message : PathConflict → String
  | emptyPath path => "empty path " ++ Text.quoted path
  | fileInPath segment path => segment ++ " in " ++ path ++ " is a file"
  | directoryAt path => path ++ " is a directory"
  | emptyNestPath mount => "empty nest path in " ++ mount

end PathConflict

namespace Directory

/-- Creates the directories along a segment list and runs `act` in the last of them. What was
created before a conflict stays. -/
def within {α : Type} (path : String) (act : Directory → Except PathConflict α × Directory) :
    Directory → List String → Except PathConflict α × Directory
  | d, [] => act d
  | d, name :: rest =>
    match d.get? name with
    | none =>
      let (result, sub) := within path act .empty rest
      (result, d.insert name (.dir sub))
    | some (.dir sub) =>
      let (result, sub) := within path act sub rest
      (result, d.insert name (.dir sub))
    | some (.file _) => (.error (.fileInPath name path), d)

def ensureDir (d : Directory) (segments : List String) (path : String) :
    Except PathConflict Directory × Directory :=
  within path (fun last => (.ok last, last)) d segments

def putFile (name path : String) (bytes : Bytes) (d : Directory) :
    Except PathConflict Unit × Directory :=
  match d.get? name with
  | some (.dir _) => (.error (.directoryAt path), d)
  | _ => (.ok (), d.insert name (.file bytes))

/-- Inserts a file at a path and creates the directories above it. A file may replace a file; any
other clash is a conflict. -/
def insertFile (d : Directory) (path : String) (bytes : Bytes) :
    Except PathConflict Unit × Directory :=
  let segments := Path.segments path
  match segments.getLast? with
  | none => (.error (.emptyPath path), d)
  | some name => within path (putFile name path bytes) d segments.dropLast

def overlayAt (d : Directory) (bytes : Bytes) : List String → Directory
  | [] => d
  | [name] => d.insert name (.file bytes)
  | name :: rest =>
    match d.get? name with
    | some (.dir sub) => d.insert name (.dir (sub.overlayAt bytes rest))
    | _ => d.insert name (.dir (Directory.empty.overlayAt bytes rest))

def overlayFile (d : Directory) (path : String) (bytes : Bytes) : Directory :=
  d.overlayAt bytes (Path.segments path)

def overlay (d : Directory) (files : List (String × Bytes)) : Directory :=
  files.foldl (fun d f => d.overlayFile f.1 f.2) d

end Directory

end Buildbox
