import Buildbox.Text.Utf8

/-! Decoding UTF-8 as it arrives. The decoder keeps the bytes of the character that is still
open and judges them again with the next byte. -/

namespace Buildbox.Utf8

inductive Scan where
  | char (c : Char)
  | unfinished
  | invalid
  deriving DecidableEq, Repr

def scan : Bytes → Scan
  | [a] =>
    match lead a with
    | .ascii => .char (char1 a)
    | .multi .. => .unfinished
    | .invalid => .invalid
  | [a, b] =>
    match lead a with
    | .multi tails low high =>
      if b < low ∨ high < b then .invalid
      else if tails = 1 then .char (char2 a b) else .unfinished
    | _ => .invalid
  | [a, b, c] =>
    match lead a with
    | .multi tails _ _ =>
      if ! isTail c then .invalid
      else if tails = 2 then .char (char3 a b c) else .unfinished
    | _ => .invalid
  | [a, b, c, d] => if isTail d then .char (char4 a b c d) else .invalid
  | _ => .invalid

structure StreamDecoder where
  carry : Bytes := []
  deriving DecidableEq, Repr, Inhabited

namespace StreamDecoder

def start (b : UInt8) : List Char × StreamDecoder :=
  match scan [b] with
  | .char c => ([c], ⟨[]⟩)
  | .unfinished => ([], ⟨[b]⟩)
  | .invalid => ([replacement], ⟨[]⟩)

def feed (s : StreamDecoder) (b : UInt8) : List Char × StreamDecoder :=
  match s.carry with
  | [] => start b
  | carry =>
    match scan (carry ++ [b]) with
    | .char c => ([c], ⟨[]⟩)
    | .unfinished => ([], ⟨carry ++ [b]⟩)
    | .invalid =>
      -- The byte that breaks an open character starts the next one.
      let (cs, s) := start b
      (replacement :: cs, s)

def feedAll (s : StreamDecoder) : Bytes → List Char × StreamDecoder
  | [] => ([], s)
  | b :: bs =>
    let (now, s) := s.feed b
    let (later, s) := s.feedAll bs
    (now ++ later, s)

def decode (s : StreamDecoder) (chunk : Bytes) : String × StreamDecoder :=
  let (cs, s) := s.feedAll chunk
  (String.ofList cs, s)

def finish (s : StreamDecoder) : String × StreamDecoder :=
  if s.carry = [] then ("", s) else (String.ofList [replacement], ⟨[]⟩)

def pending (s : StreamDecoder) : Nat :=
  s.carry.length

def decodeAll (s : StreamDecoder) : List Bytes → List String
  | [] => [s.finish.1]
  | chunk :: chunks =>
    let (text, s) := s.decode chunk
    text :: s.decodeAll chunks

end StreamDecoder

end Buildbox.Utf8
