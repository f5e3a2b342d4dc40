import Buildbox.Tree.Building

/-! Mount tables: the trees a sandbox sees, each under a name of its own. -/

namespace Buildbox

structure Mount where
  name : String
  root : Directory
  deriving DecidableEq, Repr, Inhabited

inductive MountError where
  | duplicate (name : String)
  | missing (name : String)
  | conflict (c : PathConflict)
  deriving DecidableEq, Repr, Inhabited

abbrev MountTable := List Mount

namespace MountTable

def get? (t : MountTable) (name : String) : Option Directory :=
  (t.find? (·.name = name)).map (·.root)

def push (t : MountTable) (name : String) (root : Directory) : Except MountError MountTable :=
  match t.get? name with
  | some _ => .error (.duplicate name)
  | none => .ok (t ++ [⟨name, root⟩])

def modify (f : Directory → Directory) (name : String) : MountTable → MountTable
  | [] => []
  | m :: rest =>
    if m.name = name then { m with root := f m.root } :: rest else m :: modify f name rest

def modifyAt (f : Directory → Directory) : Nat → MountTable → MountTable
  | _, [] => []
  | 0, m :: rest => { m with root := f m.root } :: rest
  | i + 1, m :: rest => m :: modifyAt f i rest

def take (t : MountTable) (name : String) : Option (Directory × MountTable) :=
  match t with
  | [] => none
  | m :: rest =>
    if m.name = name then some (m.root, rest)
    else (take rest name).map fun (root, rest) => (root, m :: rest)

def totalLength : MountTable → Nat
  | [] => 0
  | m :: rest => m.root.totalLength + totalLength rest

def overlay (t : MountTable) (name : String) (files : List (String × Bytes)) :
    Except MountError MountTable :=
  match t.get? name with
  | none => .error (.missing name)
  | some _ => .ok (t.modify (·.overlay files) name)

def nest (t : MountTable) (name path : String) (tree : Directory) :
    Except MountError MountTable :=
  match t.get? name with
  | none => .error (.missing name)
  | some root =>
    let segments := Path.segments path
    match segments.getLast? with
    | none => .error (.conflict (.emptyNestPath name))
    | some leaf =>
      let attach (d : Directory) : Except PathConflict Unit × Directory :=
        (.ok (), d.insert leaf (.dir tree))
      match root.within path attach segments.dropLast with
      | (.ok (), root) => .ok (t.modify (fun _ => root) name)
      | (.error c, _) => .error (.conflict c)

end MountTable

end Buildbox
