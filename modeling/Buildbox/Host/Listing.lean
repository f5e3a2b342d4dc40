import Buildbox.Bytes

/-! Directory listings as a guest reads them: entries of a header and a name, one after the other.
The last of them may be cut anywhere. -/

namespace Buildbox

structure Dirent where
  next : UInt64
  ino : UInt64
  nameLength : Nat
  kind : UInt8
  padding : Bytes
  name : Bytes
  deriving DecidableEq, Repr, Inhabited

namespace Dirent

def headerSize : Nat := 24

def isWhole (e : Dirent) : Bool :=
  e.name.length = e.nameLength

def read? (bs : Bytes) : Option (Dirent × Bytes) :=
  match bs.drop 20 with
  | kind :: a :: b :: c :: rest =>
    let field (start length : Nat) := Bytes.toNatLE ((bs.drop start).take length)
    let nameLength := field 16 4
    some ({ next := UInt64.ofNat (field 0 8), ino := UInt64.ofNat (field 8 8), nameLength, kind
            padding := [a, b, c], name := rest.take nameLength }, rest.drop nameLength)
  | _ => none

theorem length_of_read? {bs rest : Bytes} {e : Dirent} (h : read? bs = some (e, rest)) :
    rest.length < bs.length := by
  simp only [read?] at h
  split at h
  · next kind a b c tail hdrop =>
    have hlen := congrArg List.length hdrop
    simp only [List.length_drop, List.length_cons] at hlen
    simp only [Option.some.injEq, Prod.mk.injEq] at h
    rw [← h.2, List.length_drop]
    omega
  · simp at h

end Dirent

def Listing.read (bs : Bytes) : List Dirent × Bytes :=
  match _h : Dirent.read? bs with
  | none => ([], bs)
  | some (e, rest) =>
    let (more, left) := read rest
    (e :: more, left)
termination_by bs.length
decreasing_by exact Dirent.length_of_read? _h

def Listing.wholeEntries (bs : Bytes) : List Dirent :=
  (read bs).1.filter Dirent.isWhole

end Buildbox
