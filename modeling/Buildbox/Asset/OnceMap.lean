/-! Values that are made once each, by key. While somebody makes the value of a key, whoever else
wants it waits. -/

namespace Buildbox

structure OnceMap (κ α : Type) where
  filled : List (κ × α) := []
  filling : List κ := []
  deriving DecidableEq, Repr, Inhabited

namespace OnceMap

variable {κ α : Type}

def size (c : OnceMap κ α) : Nat :=
  c.filled.length

def isEmpty (c : OnceMap κ α) : Bool :=
  c.filled.isEmpty

variable [DecidableEq κ]

def get? (c : OnceMap κ α) (key : κ) : Option α :=
  (c.filled.find? (·.1 = key)).map (·.2)

def start (c : OnceMap κ α) (key : κ) : OnceMap κ α :=
  { c with filling := key :: c.filling }

def abandon (c : OnceMap κ α) (key : κ) : OnceMap κ α :=
  { c with filling := c.filling.filter (· ≠ key) }

def fill (c : OnceMap κ α) (key : κ) (a : α) : OnceMap κ α :=
  { c.abandon key with filled := c.filled ++ [(key, a)] }

end OnceMap

end Buildbox
