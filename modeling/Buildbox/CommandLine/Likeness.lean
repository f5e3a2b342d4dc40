import Buildbox.Bytes

/-! How alike two words are, and which known words may be meant by one that is not known. -/

namespace Buildbox.CommandLine

def markFirst? (c : Char) (low high : Nat) : (place : Nat) → List (Char × Bool) →
    Option (List (Char × Bool))
  | _, [] => none
  | place, (d, marked) :: rest =>
    if low ≤ place ∧ place ≤ high ∧ c = d ∧ ! marked then some ((d, true) :: rest)
    else (markFirst? c low high (place + 1) rest).map ((d, marked) :: ·)

def shared (reach : Nat) : (place : Nat) → List Char → List (Char × Bool) →
    List Char × List (Char × Bool)
  | _, [], other => ([], other)
  | place, c :: rest, other =>
    match markFirst? c (place - reach) (place + reach) 0 other with
    | some other =>
      let (found, other) := shared reach (place + 1) rest other
      (c :: found, other)
    | none => shared reach (place + 1) rest other

structure Likeness where
  num : Nat
  den : Nat
  deriving DecidableEq, Repr, Inhabited

namespace Likeness

def le (a b : Likeness) : Bool :=
  a.num * b.den ≤ b.num * a.den

def ofWords (a b : List Char) : Likeness :=
  let reach := max a.length b.length / 2 - 1
  let (found, marks) := shared reach 0 a (b.map (·, false))
  let m := found.length
  if m = 0 then ⟨0, 1⟩
  else
    let kept := (marks.filter (·.2)).map (·.1)
    let moved := ((found.zip kept).filter fun (c, d) => c ≠ d).length / 2
    ⟨m * m * b.length + m * m * a.length + (m - moved) * a.length * b.length,
      3 * m * a.length * b.length⟩

def least : Likeness := ⟨7, 10⟩

end Likeness

def likeWords (known : List String) (word : String) : List String :=
  let scored := known.map fun k => (Likeness.ofWords word.toList k.toList, k)
  ((scored.filter fun (l, _) => ! l.le .least).mergeSort fun x y => x.1.le y.1).map (·.2)

end Buildbox.CommandLine
