import Buildbox.NameMap

/-! What is said to the workers of the stages, and what they answer. -/

namespace Buildbox

structure TranspileRequest where
  filename : String
  content : String
  deriving DecidableEq, Repr, Inhabited

inductive TranspileResponse where
  | transpiled (filename text : String)
  | failed (stderr : String)
  deriving DecidableEq, Repr, Inhabited

structure CompileRequest where
  files : NameMap String
  deriving DecidableEq, Repr, Inhabited

/-- Pieces of compiler output, then at most one verdict. A stream without a verdict is a clean
exit that left no artifact. -/
inductive CompileResponse where
  | stderr (text : String)
  | compiled (artifact : List UInt8)
  | failed (stderr : Option String)
  deriving DecidableEq, Repr, Inhabited

structure ExecuteRequest where
  artifact : List UInt8
  deriving DecidableEq, Repr, Inhabited

inductive ExecuteResponse where
  | stderr (text : String)
  | preview (text : String)
  | trapped (message : String)
  | done
  deriving DecidableEq, Repr, Inhabited

structure Transpiled where
  source : String
  filename : String
  content : String
  deriving DecidableEq, Repr, Inhabited

end Buildbox
