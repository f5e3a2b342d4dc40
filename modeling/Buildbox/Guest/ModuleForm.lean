import Buildbox.Text.Utf8

/-! The forms of modules. A module is text or binary. A text has blanks and comments between its
parts, and may hold the description of a program; a binary may hold notes and empty lists, which
count for nothing. -/

namespace Buildbox.ModuleForm

inductive Content where
  | nothing
  | program (description : List Char)
  deriving DecidableEq, Repr, Inhabited

/-! ## Text -/

inductive Token where
  | opening
  | closing
  | word (cs : List Char)
  | quoted (cs : List Char)
  deriving DecidableEq, Repr, Inhabited

def isBlank (c : Char) : Bool :=
  c = ' ' || c = '\t' || c = '\n' || c = '\r'

def isWordChar (c : Char) : Bool :=
  c.isAlphanum || "!#$%&'*+-./:<=>?@\\^_`|~".toList.contains c

def turnsDirection (c : Char) : Bool :=
  (0x202A ≤ c.toNat && c.toNat ≤ 0x202E && c.toNat ≠ 0x202C) ||
    (0x2066 ≤ c.toNat && c.toNat ≤ 0x2069) || c.toNat = 0x206C

def afterComment : (depth : Nat) → List Char → Option (List Char)
  | _, [] => none
  | depth, '(' :: ';' :: rest => afterComment (depth + 1) rest
  | 0, ';' :: ')' :: rest => some rest
  | depth + 1, ';' :: ')' :: rest => afterComment depth rest
  | depth, c :: rest => if turnsDirection c then none else afterComment depth rest

def readQuoted : List Char → Option (List Char × List Char)
  | [] => none
  | '"' :: rest => some ([], rest)
  | '\\' :: c :: rest => (readQuoted rest).map fun (cs, rest) => (c :: cs, rest)
  | c :: rest => (readQuoted rest).map fun (cs, rest) => (c :: cs, rest)

def tokens : (fuel : Nat) → List Char → Option (List Token)
  | 0, _ => none
  | _, [] => some []
  | fuel + 1, '(' :: ';' :: rest => do tokens fuel (← afterComment 0 rest)
  | fuel + 1, ';' :: ';' :: rest => do
    let (line, rest) := rest.span fun c => c ≠ '\n' && c ≠ '\r'
    if line.any turnsDirection then none else tokens fuel rest
  | fuel + 1, '(' :: rest => (tokens fuel rest).map (.opening :: ·)
  | fuel + 1, ')' :: rest => (tokens fuel rest).map (.closing :: ·)
  | fuel + 1, '"' :: rest => do
    let (cs, rest) ← readQuoted rest
    (tokens fuel rest).map (.quoted cs :: ·)
  | fuel + 1, c :: rest =>
    if isBlank c then tokens fuel rest
    else
      let (word, rest) := (c :: rest).span isWordChar
      if word.isEmpty then none else (tokens fuel rest).map (.word word :: ·)

def keyword : List Char :=
  "module".toList

def stepsMark : List Char :=
  "@steps".toList

def ofTokens? : List Token → Option Content
  | [.opening, .word k, .closing] => if k = keyword then some .nothing else none
  | [.opening, .word k, .word ('$' :: _ :: _), .closing] =>
    if k = keyword then some .nothing else none
  | [.opening, .word k, .opening, .word m, .quoted description, .closing, .closing] =>
    if k = keyword ∧ m = stepsMark then some (.program description) else none
  | _ => none

def ofText? (cs : List Char) : Option Content :=
  (tokens (cs.length + 1) cs).bind ofTokens?

def quote (cs : List Char) : List Char :=
  '"' :: cs.flatMap (fun c => if c = '"' ∨ c = '\\' then ['\\', c] else [c]) ++ ['"']

def write (description : List Char) : List Char :=
  '(' :: keyword ++ " (".toList ++ stepsMark ++ ' ' :: quote description ++ "))".toList

/-! ## Binary -/

def preamble : Bytes := [0x00, 0x61, 0x73, 0x6d, 0x01, 0x00, 0x00, 0x00]

def readNumber : (bytes : Nat) → Bytes → Option (Nat × Bytes)
  | 0, _ => none
  | _, [] => none
  | n + 1, b :: rest =>
    if b.toNat < 128 then (if n = 0 ∧ 16 ≤ b.toNat then none else some (b.toNat, rest))
    else (readNumber n rest).map fun (high, rest) => (b.toNat - 128 + 128 * high, rest)

def isNote (bs : Bytes) : Bool :=
  match readNumber 5 bs with
  | some (length, rest) =>
    length ≤ rest.length && (Utf8.decode? (rest.take length)).isSome
  | none => false

def listMarks : List UInt8 := [1, 2, 3, 4, 5, 6, 7, 9, 12, 10, 11]

def isBare : (fuel : Nat) → (marks : List UInt8) → Bytes → Bool
  | _, _, [] => true
  | fuel + 1, marks, mark :: rest =>
    match readNumber 5 rest with
    | none => false
    | some (size, rest) =>
      if rest.length < size then false
      else if mark = 0 then isNote (rest.take size) && isBare fuel marks (rest.drop size)
      else
        marks.contains mark && readNumber 5 (rest.take size) = some (0, []) &&
          isBare fuel ((marks.dropWhile (· ≠ mark)).drop 1) (rest.drop size)
  | _, _, _ => false

def ofBytes? (bs : Bytes) : Option Content :=
  if preamble.isPrefixOf bs then
    if isBare bs.length listMarks (bs.drop preamble.length) then some .nothing else none
  else do ofText? (← Utf8.decode? bs).toList

end Buildbox.ModuleForm
