import Buildbox.Tree.Building

/-! A disk: a tree whose paths may climb with `..` and must name directories before a slash. Paths
and the names in them have a greatest length. -/

namespace Buildbox

abbrev Disk := Directory

namespace Disk

inductive Fault where
  | notFound
  | occupied
  | notDirectory
  | isDirectory
  | tooLong
  | zeroByte
  deriving DecidableEq, Repr, Inhabited

def Fault.message : Fault → String
  | notFound => "No such file or directory (os error 2)"
  | occupied => "File exists (os error 17)"
  | notDirectory => "Not a directory (os error 20)"
  | isDirectory => "Is a directory (os error 21)"
  | tooLong => "File name too long (os error 36)"
  | zeroByte => "file name contained an unexpected NUL byte"

def maxName : Nat := 255

def maxPath : Nat := 4095

def follow (d : Disk) : (here : List String) → List String → Except Fault (List String)
  | here, [] => .ok here
  | here, part :: parts =>
    match d.dirAt? here with
    | none => if (d.lookup here).isSome then .error .notDirectory else .error .notFound
    | some _ =>
      if part = "" ∨ part = "." then follow d here parts
      else if part = ".." then follow d here.dropLast parts
      else if maxName < part.utf8ByteSize then .error .tooLong
      else follow d (here ++ [part]) parts

def parts (path : String) : List String :=
  (Text.splitAt '/' path.toList).map String.ofList

def usableParts (path : String) : Except Fault (List String) :=
  if path.toList.contains '\x00' then .error .zeroByte
  else if maxPath < path.utf8ByteSize then .error .tooLong
  else .ok (parts path)

def findParts (d : Disk) (ps : List String) : Except Fault Entry := do
  let here ← follow d [] ps
  if here = [] then return .dir d
  match d.lookup here with
  | some e => return e
  | none => throw .notFound

def find (d : Disk) (path : String) : Except Fault Entry := do
  findParts d (← usableParts path)

def readFile (d : Disk) (path : String) : Except Fault Bytes := do
  match ← find d path with
  | .file bytes => return bytes
  | .dir _ => throw .isDirectory

def parentOfParts (d : Disk) (ps : List String) :
    Except Fault (List String × String × Directory) := do
  let parents ← follow d [] ps.dropLast
  match ps.getLast?, d.dirAt? parents with
  | some name, some parent =>
    if maxName < name.utf8ByteSize then throw .tooLong else return (parents, name, parent)
  | _, none => throw (if (d.lookup parents).isSome then .notDirectory else .notFound)
  | none, _ => throw .isDirectory

def parentOf (d : Disk) (path : String) : Except Fault (List String × String × Directory) := do
  parentOfParts d (← usableParts path)

def makeDir (d : Disk) (ps : List String) : Except Fault Disk := do
  let (parents, name, parent) ← parentOfParts d (ps.reverse.dropWhile (· = "")).reverse
  if name = "." ∨ name = ".." ∨ (parent.get? name).isSome then throw .occupied
  return d.modifyDirAt (·.insert name (.dir .empty)) parents

def isDir (d : Disk) (ps : List String) : Bool :=
  match findParts d ps with
  | .ok (.dir _) => true
  | _ => false

def makeDirBelow (above : Disk → Except Fault Unit × Disk) (ps : List String) (d : Disk) :
    Except Fault Unit × Disk :=
  -- What is there already, made by whomever, counts as made.
  let settle (d : Disk) : Except Fault Disk → Except Fault Unit × Disk
    | .ok d => (.ok (), d)
    | .error fault => (if isDir d ps then .ok () else .error fault, d)
  match makeDir d ps with
  | .error .notFound =>
    match above d with
    | (.ok (), d) => settle d (makeDir d ps)
    | failed => failed
  | made => settle d made

def makeDirs : List String → Disk → Except Fault Unit × Disk
  | [], d => (.ok (), d)
  | name :: above, d => makeDirBelow (makeDirs above) (name :: above).reverse d

def createDirs (d : Disk) (path : String) : Except Fault Unit × Disk :=
  match usableParts path with
  | .error fault => (.error fault, d)
  | .ok ps =>
    let names := ps.filter fun p => p ≠ "" ∧ p ≠ "."
    if path = "" then (.ok (), d) else makeDirBelow (makeDirs names.reverse.tail) ps d

def writeFile (d : Disk) (path : String) (bytes : Bytes) : Except Fault Disk := do
  let (parents, name, parent) ← parentOf d path
  if name = "" ∨ name = "." ∨ name = ".." then throw .isDirectory
  match parent.get? name with
  | some (.dir _) => throw .isDirectory
  | _ => return d.modifyDirAt (·.insert name (.file bytes)) parents

def renameFile (d : Disk) (source target : String) : Except Fault Disk := do
  let bytes ← readFile d source
  let (parents, name, _) ← parentOf d source
  let d ← writeFile d target bytes
  return d.modifyDirAt (·.erase name) parents

def joinPath (base path : String) : String :=
  if path.toList.head? = some '/' then path
  else if base = "" then path
  else if base.toList.getLast? = some '/' then base ++ path
  else base ++ "/" ++ path

def loadTree (d : Disk) (path : String) : Except Fault Directory := do
  match ← find d path with
  | .file _ => throw .notDirectory
  | .dir found => return found.filePaths.foldl (fun t name =>
      match found.read? name with
      | some bytes => (t.insertFile name bytes).2
      | none => t) .empty

end Disk

end Buildbox
