import Buildbox.Literal.Basic
import Buildbox.NameMap
import Buildbox.Tree.Mount

/-! How trees are written in JSON: paths with the bytes of files, and paths of directories. Like the
forms of other values, these are for calls from outside. -/

namespace Buildbox.Literal

def pairs : Json → List (String × Bytes)
  | .obj members => (NameMap.ofList (members.map fun (name, v) => (name, bytes v))).entries
  | v => (list v).map fun p => (text (arg (list p) 0), bytes (arg (list p) 1))

def textMap : Json → NameMap String
  | .obj members => NameMap.ofList (members.map fun (name, v) => (name, text v))
  | v => NameMap.ofList ((list v).map fun p => (text (arg (list p) 0), text (arg (list p) 1)))

def tree (v : Json) : Directory :=
  (list v).foldl (fun d p =>
    let path := text (arg (list p) 0)
    match arg (list p) 1 with
    | .null => (d.ensureDir (Path.segments path) path).2
    | content => (d.insertFile path (bytes content)).2) .empty

def mounts (v : Json) : Except MountError MountTable :=
  (list v).foldlM (fun t p => t.push (text (arg (list p) 0)) (tree (arg (list p) 1))) []

def ofTree (d : Directory) : Json :=
  .arr (d.nodes.map fun (segments, content) =>
    .arr [.str (Path.join segments), match content with
      | some bs => .str bs.toHex
      | none => .null])

def ofMounts (t : MountTable) : Json :=
  .arr (t.map fun m => .arr [.str m.name, ofTree m.root])

end Buildbox.Literal
