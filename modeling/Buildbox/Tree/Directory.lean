import Buildbox.Bytes
import Buildbox.Path

/-! In-memory directory trees. A directory is the list of its children in name order, each a file
or a directory of its own. -/

namespace Buildbox

inductive Directory where
  | empty
  | file (name : String) (bytes : Bytes) (rest : Directory)
  | dir (name : String) (sub rest : Directory)
  deriving DecidableEq, Repr, Inhabited

inductive Entry where
  | file (bytes : Bytes)
  | dir (sub : Directory)
  deriving DecidableEq, Repr, Inhabited

namespace Entry

def isDir : Entry → Bool
  | .file _ => false
  | .dir _ => true

def asDir? : Entry → Option Directory
  | .file _ => none
  | .dir sub => some sub

def asFile? : Entry → Option Bytes
  | .file bytes => some bytes
  | .dir _ => none

end Entry

namespace Directory

def cons (name : String) : Entry → Directory → Directory
  | .file bytes, rest => .file name bytes rest
  | .dir sub, rest => .dir name sub rest

def children : Directory → List (String × Entry)
  | .empty => []
  | .file name bytes rest => (name, .file bytes) :: rest.children
  | .dir name sub rest => (name, .dir sub) :: rest.children

def ofChildren : List (String × Entry) → Directory
  | [] => .empty
  | (name, e) :: rest => cons name e (ofChildren rest)

def names (d : Directory) : List String :=
  d.children.map (·.1)

def size (d : Directory) : Nat :=
  d.children.length

def isEmpty : Directory → Bool
  | .empty => true
  | _ => false

def get? (name : String) : Directory → Option Entry
  | .empty => none
  | .file n bytes rest => if n = name then some (.file bytes) else rest.get? name
  | .dir n sub rest => if n = name then some (.dir sub) else rest.get? name

def contains (d : Directory) (name : String) : Bool :=
  (d.get? name).isSome

def insert (name : String) (e : Entry) : Directory → Directory
  | .empty => cons name e .empty
  | .file n bytes rest =>
    if name < n then cons name e (.file n bytes rest)
    else if name = n then cons name e rest
    else .file n bytes (rest.insert name e)
  | .dir n sub rest =>
    if name < n then cons name e (.dir n sub rest)
    else if name = n then cons name e rest
    else .dir n sub (rest.insert name e)

def erase (name : String) : Directory → Directory
  | .empty => .empty
  | .file n bytes rest => if n = name then rest.erase name else .file n bytes (rest.erase name)
  | .dir n sub rest => if n = name then rest.erase name else .dir n sub (rest.erase name)

/-- What stands at a segment list; a directory is not found at the empty one. -/
def lookup (d : Directory) : List String → Option Entry
  | [] => none
  | [name] => d.get? name
  | name :: rest =>
    match d.get? name with
    | some (.dir sub) => sub.lookup rest
    | _ => none

def dirAt? (d : Directory) : List String → Option Directory
  | [] => some d
  | name :: rest =>
    match d.get? name with
    | some (.dir sub) => sub.dirAt? rest
    | _ => none

def modifyDirAt (f : Directory → Directory) (d : Directory) : List String → Directory
  | [] => f d
  | name :: rest =>
    match d.get? name with
    | some (.dir sub) => d.insert name (.dir (sub.modifyDirAt f rest))
    | _ => d

def modifyFileAt (f : Bytes → Bytes) (d : Directory) : List String → Directory
  | [] => d
  | [name] =>
    match d.get? name with
    | some (.file bytes) => d.insert name (.file (f bytes))
    | _ => d
  | name :: rest =>
    match d.get? name with
    | some (.dir sub) => d.insert name (.dir (sub.modifyFileAt f rest))
    | _ => d

def read? (d : Directory) (path : String) : Option Bytes :=
  (d.lookup (Path.segments path)).bind Entry.asFile?

def fileCount : Directory → Nat
  | .empty => 0
  | .file _ _ rest => 1 + rest.fileCount
  | .dir _ sub rest => sub.fileCount + rest.fileCount

def totalLength : Directory → Nat
  | .empty => 0
  | .file _ bytes rest => bytes.length + rest.totalLength
  | .dir _ sub rest => sub.totalLength + rest.totalLength

def childPath (parent name : String) : String :=
  if parent = "" then name else parent ++ "/" ++ name

def filePathsBelow (parent : String) : Directory → List String
  | .empty => []
  | .file name _ rest => childPath parent name :: rest.filePathsBelow parent
  | .dir name sub rest =>
    sub.filePathsBelow (childPath parent name) ++ rest.filePathsBelow parent

def filePaths (d : Directory) : List String :=
  d.filePathsBelow ""

def nodes : Directory → List (List String × Option Bytes)
  | .empty => []
  | .file name bytes rest => ([name], some bytes) :: rest.nodes
  | .dir name sub rest =>
    ([name], none) :: sub.nodes.map (fun n => (name :: n.1, n.2)) ++ rest.nodes

/-- Holds when the children of every directory of the tree stand in strict name order. -/
def Sorted : Directory → Prop
  | .empty => True
  | .file name _ rest => (∀ n ∈ rest.names, name < n) ∧ rest.Sorted
  | .dir name sub rest => (∀ n ∈ rest.names, name < n) ∧ sub.Sorted ∧ rest.Sorted

section Laws

@[simp] theorem get?_empty (name : String) : empty.get? name = none := rfl

theorem get?_cons (name n : String) (e : Entry) (d : Directory) :
    (cons n e d).get? name = if n = name then some e else d.get? name := by
  cases e <;> rfl

theorem get?_insert (d : Directory) (name other : String) (e : Entry) :
    (d.insert name e).get? other = if name = other then some e else d.get? other := by
  induction d with
  | empty => simp [insert, get?_cons]
  | file n bytes rest ih =>
    simp only [insert]
    split
    · simp [get?_cons]
    · split
      · next heq => by_cases h : name = other <;> simp_all [get?_cons, get?]
      · next hne =>
        simp only [get?, ih]
        by_cases h : n = other
        · subst h; simp [hne]
        · simp [h]
  | dir n sub rest ihs ih =>
    simp only [insert]
    split
    · simp [get?_cons]
    · split
      · next heq => by_cases h : name = other <;> simp_all [get?_cons, get?]
      · next hne =>
        simp only [get?, ih]
        by_cases h : n = other
        · subst h; simp [hne]
        · simp [h]

theorem get?_erase (d : Directory) (name other : String) :
    (d.erase name).get? other = if name = other then none else d.get? other := by
  induction d with
  | empty => simp [erase]
  | file n bytes rest ih =>
    simp only [erase]
    by_cases h : n = name
    · subst h
      simp only [if_pos, ih, get?]
      split <;> simp_all
    · by_cases ho : n = other
      · subst ho; simp [get?, h, Ne.symm h]
      · simp [get?, ih, h, ho]
  | dir n sub rest ihs ih =>
    simp only [erase]
    by_cases h : n = name
    · subst h
      simp only [if_pos, ih, get?]
      split <;> simp_all
    · by_cases ho : n = other
      · subst ho; simp [get?, h, Ne.symm h]
      · simp [get?, ih, h, ho]

end Laws

end Directory

end Buildbox
