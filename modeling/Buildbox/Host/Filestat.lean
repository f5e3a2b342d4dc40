import Buildbox.Digest.SipHash
import Buildbox.Text.Utf8

/-! Kinds and identities of the things descriptors stand for. -/

namespace Buildbox

inductive FileKind where
  | character
  | directory
  | regular
  deriving DecidableEq, Repr, Inhabited

def FileKind.code : FileKind → UInt8
  | character => 2
  | directory => 3
  | regular => 4

/-- The inode number of a path in a mount; it depends on nothing else. -/
def inode (mount : Nat) (path : List String) : UInt64 :=
  SipHash.hash (Bytes.ofNatLE 8 mount ++ Bytes.ofNatLE 8 path.length ++
    path.flatMap fun name => Utf8.encode name ++ [0xff]) ||| 1

structure Filestat where
  ino : UInt64
  kind : UInt8
  size : UInt64
  deriving DecidableEq, Repr, Inhabited

def Filestat.encode (s : Filestat) : Bytes :=
  Bytes.ofNatLE 8 0 ++ Bytes.ofNatLE 8 s.ino.toNat ++ (s.kind :: Bytes.ofNatLE 7 0) ++
    Bytes.ofNatLE 8 1 ++ Bytes.ofNatLE 8 s.size.toNat ++ Bytes.ofNatLE 24 0

end Buildbox
