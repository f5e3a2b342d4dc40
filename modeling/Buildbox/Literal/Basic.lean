import Buildbox.Guest.ModuleForm
import Buildbox.Json.Reader
import Buildbox.Json.Value
import Buildbox.Text.Utf8

/-! How programs, scripts and records write values in JSON. What is missing counts as empty.
Integers may stand as text. Bytes are text, hexadecimal digits, repetitions, lists of parts, or
modules of programs, padded to a length.

These forms are the outermost layer, by which the library is called with values from a file. Nothing
inside depends on them but the loader of step programs, and no result is about them. -/

namespace Buildbox.Literal

def ofHex : List Char → Bytes
  | a :: b :: rest =>
    UInt8.ofNat ((Json.digitValue? a).getD 0 * 16 + (Json.digitValue? b).getD 0) :: ofHex rest
  | _ => []

def repeated (bs : Bytes) : Nat → Bytes
  | 0 => []
  | n + 1 => bs ++ repeated bs n

def integer? : Json → Option Int
  | .int n => some n
  | .fraction s => s.toInt?
  | .str s => s.toInt?
  | _ => none

def integer (v : Json) : Int :=
  (integer? v).getD 0

def natural (v : Json) : Nat :=
  (integer v).toNat

def word (bits : Nat) (v : Json) : Nat :=
  (integer v % ((1 <<< bits : Nat) : Int)).toNat

def text : Json → String
  | .str s => s
  | _ => ""

def bool : Json → Bool
  | .bool b => b
  | _ => false

def list : Json → List Json
  | .arr items => items
  | _ => []

def texts (v : Json) : List String :=
  (list v).map text

def member (v : Json) (name : String) : Json :=
  match v with
  | .obj members => ((members.find? (·.1 = name)).map (·.2)).getD .null
  | _ => .null

def arg (args : List Json) (i : Nat) : Json :=
  args.getD i .null

def padded (program : Json) (length : Nat) : Bytes :=
  let bs := Utf8.encode (String.ofList (ModuleForm.write program.write))
  bs ++ List.replicate (length - bs.length) 0x20

mutual

def bytes : Json → Bytes
  | .str s => Utf8.encode s
  | .arr parts => concat parts
  | .obj members => ofMembers members
  | _ => []

def concat : List Json → Bytes
  | [] => []
  | part :: parts => bytes part ++ concat parts

def ofMembers : List (String × Json) → Bytes
  | ("hex", .str digits) :: _ => ofHex digits.toList
  | ("rep", .arr [part, n]) :: _ => repeated (bytes part) (natural n)
  | ("guest", program) :: rest =>
    padded program (((rest.find? (·.1 = "pad")).map fun m => natural m.2).getD 0)
  | ("pad", n) :: ("guest", program) :: _ => padded program (natural n)
  | _ => []

end

end Buildbox.Literal
