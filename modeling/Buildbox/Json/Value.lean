import Buildbox.Bytes

/-! JSON values and their compact text. -/

namespace Buildbox

/-- A JSON document. `fraction` is a number that is no integer of 64 bits, kept as written;
`unreadable` stands where the text is well formed but has no value: a string with half a
surrogate pair, a number beyond every float, or nesting that is too deep. -/
inductive Json where
  | null
  | bool (b : Bool)
  | int (n : Int)
  | fraction (literal : String)
  | str (s : String)
  | arr (items : List Json)
  | obj (members : List (String × Json))
  | unreadable
  deriving Repr, Inhabited

namespace Json

def nat (n : Nat) : Json := .int n

def bytes (bs : Bytes) : Json := .arr (bs.map fun b => .nat b.toNat)

def writeChar (c : Char) : List Char :=
  if c = '"' then ['\\', '"']
  else if c = '\\' then ['\\', '\\']
  else if c = '\n' then ['\\', 'n']
  else if c = '\r' then ['\\', 'r']
  else if c = '\t' then ['\\', 't']
  else if c = '\x08' then ['\\', 'b']
  else if c = '\x0c' then ['\\', 'f']
  else if c.toNat < 0x20 then
    ['\\', 'u', '0', '0', Bytes.hexDigit (c.toNat / 16), Bytes.hexDigit (c.toNat % 16)]
  else [c]

def writeString (cs : List Char) : List Char :=
  '"' :: cs.flatMap writeChar ++ ['"']

def writeInt : Int → List Char
  | .ofNat n => Nat.toDigits 10 n
  | .negSucc n => '-' :: Nat.toDigits 10 (n + 1)

mutual

def write : Json → List Char
  | .null => "null".toList
  | .bool true => "true".toList
  | .bool false => "false".toList
  | .int n => writeInt n
  | .fraction literal => literal.toList
  | .str s => writeString s.toList
  | .arr items => '[' :: writeItems items
  | .obj members => '\x7b' :: writeMembers members
  | .unreadable => "null".toList

def writeItems : List Json → List Char
  | [] => [']']
  | [v] => write v ++ [']']
  | v :: w :: rest => write v ++ ',' :: writeItems (w :: rest)

def writeMembers : List (String × Json) → List Char
  | [] => ['\x7d']
  | [(key, v)] => writeString key.toList ++ ':' :: write v ++ ['\x7d']
  | (key, v) :: m :: rest =>
    writeString key.toList ++ ':' :: write v ++ ',' :: writeMembers (m :: rest)

end

def render (v : Json) : String :=
  String.ofList (write v)

mutual

def hasUnreadable : Json → Bool
  | .arr items => anyUnreadable items
  | .obj members => memberUnreadable members
  | .unreadable => true
  | _ => false

def anyUnreadable : List Json → Bool
  | [] => false
  | v :: rest => hasUnreadable v || anyUnreadable rest

def memberUnreadable : List (String × Json) → Bool
  | [] => false
  | (_, v) :: rest => hasUnreadable v || memberUnreadable rest

end

end Json

class JsonForm (α : Type) where
  toJson : α → Json
  ofJson? : Json → Option α

end Buildbox
