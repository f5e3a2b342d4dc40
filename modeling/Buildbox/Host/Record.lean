import Buildbox.Literal.Basic
import Buildbox.Host.Call

/-! Host calls as records write them: a name, and arguments in JSON. Records are for calls from
outside; the theory of the host is about `Host.Call`. -/

namespace Buildbox

private def fdAt (args : List Json) (i : Nat) : Fd :=
  UInt32.ofNat (Literal.word 32 (Literal.arg args i))

private def wordAt (args : List Json) (i : Nat) : UInt64 :=
  UInt64.ofNat (Literal.word 64 (Literal.arg args i))

private def flagsAt (args : List Json) (i : Nat) : UInt16 :=
  UInt16.ofNat (Literal.word 16 (Literal.arg args i))

def Refusal.code : Refusal → Nat
  | .errno e => e.code
  | .overlong => 0

namespace Host.Call

def ofRecord? (name : String) (args : List Json) : Option Call :=
  let arg := Literal.arg args
  let fd := fdAt args
  let word := wordAt args
  let text (i : Nat) := Literal.text (arg i)
  let data := Literal.bytes (arg 1)
  let size := Literal.natural (arg 1)
  match name with
  | "fd_write" => some (.fdWrite (fd 0) data)
  | "fd_pwrite" => some (.fdPwrite (fd 0) data (word 2))
  | "fd_read" => some (.fdRead (fd 0) size)
  | "fd_pread" => some (.fdPread (fd 0) size (word 2))
  | "fd_seek" => some (.fdSeek (fd 0) (word 1).toInt64 (UInt8.ofNat (Literal.word 8 (arg 2))))
  | "fd_close" => some (.fdClose (fd 0))
  | "fd_renumber" => some (.fdRenumber (fd 0) (fd 1))
  | "fd_fdstat" => some (.fdFdstat (fd 0))
  | "fd_fdstat_set_flags" => some (.fdSetAppend (fd 0) (appendBit (flagsAt args 1)))
  | "fd_filestat" => some (.fdFilestat (fd 0))
  | "fd_filestat_set_size" => some (.fdSetSize (fd 0) (word 1))
  | "fd_check" => some (.fdCheck (fd 0))
  | "fd_prestat_name" => some (.fdPrestatName (fd 0))
  | "fd_readdir" => some (.fdReaddir (fd 0) (word 1) (Literal.natural (arg 2)))
  | "path_open" =>
    some (.pathOpen (fd 0) (text 1) (.ofBits (flagsAt args 2)) (appendBit (flagsAt args 3)))
  | "path_create_directory" => some (.pathCreateDirectory (fd 0) (text 1))
  | "path_filestat" => some (.pathFilestat (fd 0) (text 1))
  | "path_touch" => some (.pathTouch (fd 0) (text 1))
  | "path_unlink_file" => some (.pathUnlinkFile (fd 0) (text 1))
  | "path_remove_directory" => some (.pathRemoveDirectory (fd 0) (text 1))
  | "path_rename" => some (.pathRename (fd 0) (text 1) (fd 2) (text 3))
  | "path_readlink" => some (.pathReadlink (fd 0) (text 1))
  | "clock_time" => some (.clockTime (fd 0))
  | "clock_resolution" => some (.clockResolution (fd 0))
  | _ => none

end Host.Call

def Subscription.ofRecord? : Json → Option Subscription
  | .arr (.str "clock" :: args) =>
    some (.clock (wordAt args 0) (fdAt args 1) (wordAt args 2)
      (Literal.bool (Literal.arg args 3)))
  | .arr (.str "fd" :: args) =>
    some (.fd (wordAt args 0) (fdAt args 1) (UInt8.ofNat (Literal.word 8 (Literal.arg args 2))))
  | _ => none

end Buildbox
