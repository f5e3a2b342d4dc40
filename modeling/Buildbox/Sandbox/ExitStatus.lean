/-! How a sandboxed run ended. -/

namespace Buildbox

inductive ExitStatus where
  | exited (code : Int32)
  | trapped (message : String)
  | timedOut (afterMs : UInt64)
  deriving DecidableEq, Repr, Inhabited

namespace ExitStatus

def success (s : ExitStatus) : Bool :=
  s = exited 0

def code? : ExitStatus → Option Int32
  | exited code => some code
  | _ => none

def trapMessage? : ExitStatus → Option String
  | exited _ => none
  | trapped message => some message
  | timedOut afterMs => some ("execution timed out after " ++ toString afterMs.toNat ++ " ms")

end ExitStatus

end Buildbox
