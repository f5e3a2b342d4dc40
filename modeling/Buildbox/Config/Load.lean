import Buildbox.Config.Codec
import Buildbox.Disk
import Buildbox.Text.Utf8

/-! Loading the configuration of a run. -/

namespace Buildbox.Config

def readText (disk : Disk) (path : String) : Except ConfigFault String :=
  match Disk.readFile disk path with
  | .error fault => .error (.unreadable path fault.message)
  | .ok bytes =>
    match Utf8.decode? bytes with
    | some text => .ok text
    | none => .error (.unreadable path "stream did not contain valid UTF-8")

def load (disk : Disk) (path : Option String) : Except ConfigFault Config := do
  let c ← match path with
    | some path => ofToml (← readText disk path)
    | none => pure {}
  c.validate
  return c

end Buildbox.Config
