import Buildbox.Text.Split

/-! Display lines of program output, whole or arriving in pieces. -/

namespace Buildbox

namespace Text

def isReturn (c : Char) : Bool :=
  c == '\r'

/-- The lines of a text without their trailing carriage returns; blank ones are left out. -/
def lines (text : List Char) : List (List Char) :=
  ((splitAt '\n' text).map (trimRight isReturn)).filter (! ·.isEmpty)

def splitAfterLast : List Char → Option (List Char × List Char)
  | [] => none
  | c :: rest =>
    match splitAfterLast rest with
    | some (before, after) => some (c :: before, after)
    | none => if c = '\n' then some ([c], rest) else none

end Text

def diagnosticLines (text : String) : List String :=
  (Text.lines text.toList).map String.ofList

/-- Text whose last line is still open. -/
structure LineBuffer where
  pending : List Char := []
  deriving DecidableEq, Repr, Inhabited

namespace LineBuffer

def push (b : LineBuffer) (text : String) : List String × LineBuffer :=
  match Text.splitAfterLast (b.pending ++ text.toList) with
  | some (complete, rest) => ((Text.lines complete).map String.ofList, ⟨rest⟩)
  | none => ([], ⟨b.pending ++ text.toList⟩)

def finish (b : LineBuffer) : Option String × LineBuffer :=
  match Text.trimRight Text.isReturn b.pending with
  | [] => (none, ⟨[]⟩)
  | line => (some (String.ofList line), ⟨[]⟩)

def pushAll (b : LineBuffer) : List String → List String × LineBuffer
  | [] => ([], b)
  | text :: texts =>
    let (now, b) := b.push text
    let (later, b) := b.pushAll texts
    (now ++ later, b)

end LineBuffer

end Buildbox
