import Buildbox.Guest.Import

/-! Step programs: modules that carry out a list of steps when they are called. -/

namespace Buildbox

inductive Operand where
  | literal (n : Int)
  | word (p : Address)
  deriving DecidableEq, Repr, Inhabited

inductive Peek where
  | number (width : Nat) (p : Address)
  | bytes (p : Address) (length : Nat)
  | upTo (p : Address) (max : Nat) (used : Address)
  deriving DecidableEq, Repr, Inhabited

inductive Instruction where
  | call (name : String) (args : List Operand)
  | poke (p : Address) (data : Bytes)
  | peek (what : Peek)
  | grow (pages : UInt32)
  | exitLast
  | unreachable
  | spin
  | callUnknown (index : Nat)
  deriving DecidableEq, Repr, Inhabited

structure Program where
  pages : Nat := 1
  exportsMemory : Bool := true
  exported : List String := ["_start"]
  otherExports : List String := []
  imports : List (String × String) := []
  steps : List Instruction := []
  deriving DecidableEq, Repr, Inhabited

def pageSize : Nat := 65536

def maxPages : Nat := 65536

namespace Program

def exportNames (p : Program) : List String :=
  (if p.exportsMemory then ["memory"] else []) ++ p.exported ++ p.otherExports

def hasImportOf (p : Program) : Instruction → Bool
  | .callUnknown index => index < p.imports.length
  | _ => true

/-- Holds of programs that a module can carry out: no export twice, no memory that cannot be
addressed, no call of what is not there. -/
def isValid (p : Program) : Bool :=
  decide p.exportNames.Nodup && p.pages ≤ maxPages && p.steps.all p.hasImportOf

def links (p : Program) : Bool :=
  p.imports.all fun (module, name) =>
    module ≠ Import.moduleName || (Import.ofName? name []).isNone

end Program

inductive Observation where
  | nothing
  | number (n : Int)
  | bytes (bs : Bytes)
  deriving DecidableEq, Repr, Inhabited

end Buildbox
