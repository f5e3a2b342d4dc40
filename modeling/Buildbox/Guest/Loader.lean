import Buildbox.Guest.ModuleForm
import Buildbox.Guest.Program
import Buildbox.Json.Decode
import Buildbox.Literal.Basic

/-! Reading modules: programs in their JSON form, and modules without one. -/

namespace Buildbox.Program

open Json (asString? asBool? asList?)
open Literal (integer?)

private def address? (v : Json) : Option Address :=
  (integer? v).map fun n => UInt32.ofInt n

private def count? (v : Json) : Option Nat :=
  (integer? v).map Int.toNat

def operand? : Json → Option Operand
  | .obj [("u32", p)] => (address? p).map .word
  | v => (integer? v).map .literal

def statSize : Nat := 64

def peek? : List Json → Option Peek
  | [.str "u8", p] => (address? p).map (.number 1)
  | [.str "u16", p] => (address? p).map (.number 2)
  | [.str "u32", p] => (address? p).map (.number 4)
  | [.str "u64", p] => (address? p).map (.number 8)
  | [.str "hex", p, n] => do return .bytes (← address? p) (← count? n)
  | [.str "filestat", p] => (address? p).map (.bytes · statSize)
  | [.str "dirents", p, max, used] => do
    return .upTo (← address? p) (← count? max) (← address? used)
  | _ => none

def instruction? : Json → Option Instruction
  | .obj [("call", .arr (.str name :: args))] => (args.mapM operand?).map (.call name)
  | .obj [("poke", .arr [p, data])] => (address? p).map (.poke · (Literal.bytes data))
  | .obj [("peek", .arr what)] => (peek? what).map .peek
  | .obj [("grow", n)] => (integer? n).map fun n => .grow (UInt32.ofInt n)
  | .obj [("exit_last", _)] => some .exitLast
  | .obj [("unreachable", _)] => some .unreachable
  | .obj [("spin", _)] => some .spin
  | .obj [("missing", k)] => (count? k).map .callUnknown
  | _ => none

private def given? {α : Type} (members : List (String × Json)) (name : String) (default : α)
    (item : Json → Option α) : Option α :=
  match members.find? (·.1 = name) with
  | none | some (_, .null) => some default
  | some (_, v) => item v

private def import? : Json → Option (String × String)
  | .arr [.str module, .str name] => some (module, name)
  | _ => none

def ofJson? : Json → Option Program
  | .obj members => do
    let d : Program := {}
    return {
      pages := ← given? members "pages" d.pages count?
      exportsMemory := ← given? members "export_memory" d.exportsMemory asBool?
      exported := ← given? members "exports" d.exported (asList? asString?)
      otherExports := ← given? members "bad_exports" d.otherExports (asList? asString?)
      imports := ← given? members "imports" d.imports (asList? import?)
      steps := ← given? members "steps" d.steps (asList? instruction?) }
  | _ => none

private def number (p : Address) : Json := .nat p.toNat

private def texts (items : List String) : Json := .arr (items.map .str)

def operandJson : Operand → Json
  | .literal n => .int n
  | .word p => .obj [("u32", number p)]

def peekJson : Peek → Json
  | .number width p => .arr [.str ("u" ++ Nat.repr (8 * width)), number p]
  | .bytes p length => .arr [.str "hex", number p, .nat length]
  | .upTo p max used => .arr [.str "dirents", number p, .nat max, number used]

def instructionJson : Instruction → Json
  | .call name args => .obj [("call", .arr (.str name :: args.map operandJson))]
  | .poke p data => .obj [("poke", .arr [number p, .obj [("hex", .str data.toHex)]])]
  | .peek what => .obj [("peek", peekJson what)]
  | .grow pages => .obj [("grow", number pages)]
  | .exitLast => .obj [("exit_last", .bool true)]
  | .unreachable => .obj [("unreachable", .bool true)]
  | .spin => .obj [("spin", .bool true)]
  | .callUnknown index => .obj [("missing", .nat index)]

def describe (p : Program) : List (String × Json) :=
  [("pages", .nat p.pages), ("export_memory", .bool p.exportsMemory),
    ("exports", texts p.exported), ("bad_exports", texts p.otherExports),
    ("imports", .arr (p.imports.map fun (module, name) => .arr [.str module, .str name])),
    ("steps", .arr (p.steps.map instructionJson))]

def bare : Program where
  pages := 0
  exportsMemory := false
  exported := []

def ofBytes? (bs : Bytes) : Option Program := do
  match ← ModuleForm.ofBytes? bs with
  | .nothing => return bare
  | .program description =>
    let p ← ofJson? (← Json.parseChars? description)
    if p.isValid then some p else none

end Buildbox.Program
