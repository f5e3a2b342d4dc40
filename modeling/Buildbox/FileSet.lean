import Buildbox.NameMap
import Buildbox.Text.Utf8
import Buildbox.Tree.Directory

/-! The editable project: texts by file name, and which of them the transpiler wrote. -/

namespace Buildbox

structure FileSet where
  files : NameMap String := .empty
  hidden : NameSet := .empty
  deriving DecidableEq, Repr, Inhabited

namespace FileSet

def add (s : FileSet) (name text : String) : FileSet :=
  ⟨s.files.insert name text, s.hidden.erase name⟩

def remove (s : FileSet) (name : String) : Bool × FileSet :=
  (s.files.contains name, ⟨s.files.erase name, s.hidden.erase name⟩)

def rename (s : FileSet) (source target : String) : Bool × FileSet :=
  if source = target ∨ s.files.contains target then (false, s)
  else match s.files.get? source with
    | none => (false, s)
    | some text =>
      let files := (s.files.erase source).insert target text
      if s.hidden.contains source then
        (true, ⟨files, (s.hidden.erase source).insert target ()⟩)
      else (true, ⟨files, s.hidden⟩)

def update (s : FileSet) (name text : String) : Bool × FileSet :=
  if s.files.contains name then (true, { s with files := s.files.insert name text })
  else (false, s)

def addDerived (s : FileSet) (name text : String) : FileSet :=
  ⟨s.files.insert name text, s.hidden.insert name ()⟩

def get? (s : FileSet) (name : String) : Option String :=
  s.files.get? name

def contains (s : FileSet) (name : String) : Bool :=
  s.files.contains name

def isHidden (s : FileSet) (name : String) : Bool :=
  s.hidden.contains name

def toList (s : FileSet) : List (String × String) :=
  s.files.entries

def visible (s : FileSet) : List (String × String) :=
  s.toList.filter fun f => ! s.isHidden f.1

def size (s : FileSet) : Nat :=
  s.files.size

def isEmpty (s : FileSet) : Bool :=
  s.files.isEmpty

def snapshot (s : FileSet) : NameMap String :=
  s.files

def ofList (files : List (String × String)) : FileSet :=
  files.foldl (fun s f => s.add f.1 f.2) {}

def ofTree (d : Directory) : FileSet :=
  ofList (d.filePaths.filterMap fun name =>
    ((d.read? name).bind Utf8.decode?).map (name, ·))

end FileSet

end Buildbox
