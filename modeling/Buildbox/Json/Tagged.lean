import Buildbox.Json.Decode

/-! Alternatives that are told apart by a tag: one that stands among their own members, or one
that stands beside their content. -/

namespace Buildbox.Json

def tagName? (indexed : List String) : Json → Option String
  | .str name => some name
  | .int (.ofNat n) => indexed[n]?
  | _ => none

def inlineTag? (tag : String) (indexed : List String) : Json → Option (String × Json)
  | .obj members => do
    let name ← (← member? members tag).bind (tagName? indexed)
    let rest := members.filter (·.1 ≠ tag)
    if memberUnreadable rest then none else some (name, .obj rest)
  | .arr (label :: rest) => do
    let name ← tagName? indexed label
    if anyUnreadable rest then none else some (name, .arr rest)
  | _ => none

def noFields? : Json → Option Unit
  | .obj _ => some ()
  | .arr [] => some ()
  | _ => none

def isFirst (name other : String) (members : List (String × Json)) : Bool :=
  (members.find? fun m => m.1 = name || m.1 = other).any (·.1 = name)

structure Content where
  value : Json
  held : Bool

def outerTag? (tag content : String) : Json → Option (String × Option Content)
  | .obj members => do
    let (name, inner) ← (← member? members tag).bind variant?
    unit? inner
    let held := isFirst content tag members
    let data ← member? members content
    -- Content that came before its tag was held back, and must be readable as a whole.
    if held && data.any hasUnreadable then none else some (name, data.map (⟨·, held⟩))
  | .arr [label, data] => do
    let (name, inner) ← variant? label
    unit? inner
    some (name, some ⟨data, false⟩)
  | _ => none

def members? (names : List String) : Json → Option Fields
  | .obj members => fields? names (.obj members)
  | _ => none

end Buildbox.Json
