import Buildbox.Bytes

/-! UTF-8. `lossy` reads any bytes as text: each longest start of a character that does not go on
as one becomes a single replacement character. -/

namespace Buildbox.Utf8

def replacement : Char := '\ufffd'

def isTail (b : UInt8) : Bool :=
  0x80 ≤ b && b ≤ 0xBF

inductive Lead where
  | ascii
  | multi (tails : Nat) (low high : UInt8)
  | invalid
  deriving DecidableEq, Repr

def lead (b : UInt8) : Lead :=
  if b < 0x80 then .ascii
  else if b < 0xC2 then .invalid
  else if b ≤ 0xDF then .multi 1 0x80 0xBF
  else if b = 0xE0 then .multi 2 0xA0 0xBF
  else if b = 0xED then .multi 2 0x80 0x9F
  else if b ≤ 0xEF then .multi 2 0x80 0xBF
  else if b = 0xF0 then .multi 3 0x90 0xBF
  else if b ≤ 0xF3 then .multi 3 0x80 0xBF
  else if b = 0xF4 then .multi 3 0x80 0x8F
  else .invalid

def payload (b : UInt8) : Nat :=
  b.toNat % 64

def char1 (a : UInt8) : Char :=
  Char.ofNat a.toNat

def char2 (a b : UInt8) : Char :=
  Char.ofNat (a.toNat % 32 * 64 + payload b)

def char3 (a b c : UInt8) : Char :=
  Char.ofNat ((a.toNat % 16 * 64 + payload b) * 64 + payload c)

def char4 (a b c d : UInt8) : Char :=
  Char.ofNat (((a.toNat % 8 * 64 + payload b) * 64 + payload c) * 64 + payload d)

/-- Reads all bytes, with a replacement character for every part that is no character. -/
def lossy : Bytes → List Char
  | [] => []
  | a :: as =>
    match lead a with
    | .ascii => char1 a :: lossy as
    | .invalid => replacement :: lossy as
    | .multi tails low high =>
      match as with
      | [] => [replacement]
      | b :: bs =>
        if b < low ∨ high < b then replacement :: lossy (b :: bs)
        else if tails = 1 then char2 a b :: lossy bs
        else match bs with
          | [] => [replacement]
          | c :: cs =>
            if ! isTail c then replacement :: lossy (c :: cs)
            else if tails = 2 then char3 a b c :: lossy cs
            else match cs with
              | [] => [replacement]
              | d :: ds =>
                if ! isTail d then replacement :: lossy (d :: ds)
                else char4 a b c d :: lossy ds

theorem lossy_nil : lossy [] = [] := by
  rw [lossy]

def lossyText (bs : Bytes) : String :=
  String.ofList (lossy bs)

def encodeChars (cs : List Char) : Bytes :=
  cs.flatMap String.utf8EncodeChar

def encode (s : String) : Bytes :=
  encodeChars s.toList

def decode? (bs : Bytes) : Option String :=
  let cs := lossy bs
  if encodeChars cs = bs then some (String.ofList cs) else none

end Buildbox.Utf8
