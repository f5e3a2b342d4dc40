import Buildbox.Json.Value
import Buildbox.NameMap

/-! Reading typed values out of JSON. Structures may come as objects, whose unknown members are
ignored, or as arrays of their fields in order. -/

namespace Buildbox.Json

def asString? : Json → Option String
  | .str s => some s
  | _ => none

def asBool? : Json → Option Bool
  | .bool b => some b
  | _ => none

def asIntIn? (low high : Int) : Json → Option Int
  | .int n => if low ≤ n ∧ n ≤ high then some n else none
  | _ => none

def asNatBelow? (bound : Nat) : Json → Option Nat
  | .int (.ofNat n) => if n < bound then some n else none
  | _ => none

def asWord? (v : Json) : Option UInt64 :=
  (v.asNatBelow? UInt64.size).map UInt64.ofNat

def asList? {α : Type} (item : Json → Option α) : Json → Option (List α)
  | .arr items => items.mapM item
  | _ => none

def asBytes? : Json → Option Bytes :=
  asList? fun v => (v.asNatBelow? 256).map UInt8.ofNat

def asOption? {α : Type} (item : Json → Option α) : Json → Option (Option α)
  | .null => some none
  | v => (item v).map some

def asNameMap? {α : Type} (item : Json → Option α) : Json → Option (NameMap α)
  | .obj members => do
    let pairs ← members.mapM fun (key, v) => (item v).map (key, ·)
    some (NameMap.ofList pairs)
  | _ => none

def member? (members : List (String × Json)) (name : String) : Option (Option Json) :=
  match members.filter (·.1 = name) with
  | [] => some none
  | [(_, v)] => some (some v)
  | _ => none

inductive Fields where
  | named (members : List (String × Json))
  | ordered (values : List Json)

def fields? (names : List String) : Json → Option Fields
  | .obj members =>
    if names.all fun name => (member? members name).isSome then some (.named members) else none
  | .arr values => if values.length ≤ names.length then some (.ordered values) else none
  | _ => none

namespace Fields

def value? (fs : Fields) (position : Nat) (name : String) : Option Json :=
  match fs with
  | .named members => (members.find? (·.1 = name)).map (·.2)
  | .ordered values => values[position]?

def required {α : Type} (fs : Fields) (position : Nat) (name : String)
    (item : Json → Option α) : Option α := do
  item (← fs.value? position name)

def optional {α : Type} (fs : Fields) (position : Nat) (name : String)
    (item : Json → Option α) : Option (Option α) :=
  match fs.value? position name, fs with
  | some v, _ => asOption? item v
  | none, .named _ => some none
  | none, .ordered _ => none

def withDefault {α : Type} (fs : Fields) (position : Nat) (name : String) (default : α)
    (item : Json → Option α) : Option α :=
  match fs.value? position name with
  | some v => item v
  | none => some default

end Fields

def variant? : Json → Option (String × Option Json)
  | .str name => some (name, none)
  | .obj [(name, v)] => some (name, some v)
  | _ => none

def unit? : Option Json → Option Unit
  | none => some ()
  | some .null => some ()
  | _ => none

/-- A value of unit type that was held back before it was read; it may also be `{}`. -/
def heldUnit? : Option Json → Option Unit
  | some (.obj []) => some ()
  | v => unit? v

end Buildbox.Json
