import Buildbox.Json.Value

/-! Numbers in JSON text. An integer of 64 bits is exact; of any other number the literal is kept,
provided that its float is finite. -/

namespace Buildbox.Json

def digitValue? (c : Char) : Option Nat :=
  if '0' ≤ c ∧ c ≤ '9' then some (c.toNat - 48)
  else if 'a' ≤ c ∧ c ≤ 'f' then some (c.toNat - 87)
  else if 'A' ≤ c ∧ c ≤ 'F' then some (c.toNat - 55)
  else none

def isDigit (c : Char) : Bool :=
  '0' ≤ c && c ≤ '9'

def digitsValue (cs : List Char) : Nat :=
  cs.foldl (fun n c => 10 * n + (c.toNat - 48)) 0

def absorb (n : Nat) : List Char → Nat × List Char
  | [] => (n, [])
  | c :: rest =>
    let m := 10 * n + (c.toNat - 48)
    if m < UInt64.size then absorb m rest else (n, c :: rest)

def nearestFloat (n : Nat) : Nat :=
  let unit := 1 <<< (n.log2 + 1 - 53)
  let q := n / unit
  let r := n % unit
  (if 2 * r < unit ∨ (2 * r = unit ∧ q % 2 = 0) then q else q + 1) * unit

def outOfRange (n : Nat) (exponent : Int) : Bool :=
  n != 0 && 0 ≤ exponent && (308 < exponent ||
    1 <<< 1024 - 1 <<< 970 ≤ nearestFloat n * nearestFloat (Nat.pow 10 exponent.toNat))

/-- Holds when a number is too large for its float. Only digits that fit a word count, and the
exponent has 32 bits. -/
def tooLarge (whole part : List Char) (exponent : Int) : Bool :=
  let (n, cut) := absorb 0 whole
  let (n, ignored) := absorb n part
  if exponent.natAbs < 1 <<< 31 then
    outOfRange n (exponent + cut.length + ignored.length - part.length)
  else n != 0 && 0 < exponent

def readFraction : List Char → Option (List Char × List Char)
  | '.' :: rest =>
    match rest.takeWhile isDigit with
    | [] => none
    | digits => some (digits, rest.dropWhile isDigit)
  | cs => some ([], cs)

def readExponent : List Char → Option (List Char × Option Int × List Char)
  | c :: rest =>
    if c = 'e' ∨ c = 'E' then
      let (sign, rest) := match rest with
        | '+' :: rest => (['+'], rest)
        | '-' :: rest => (['-'], rest)
        | rest => ([], rest)
      match rest.takeWhile isDigit with
      | [] => none
      | digits =>
        let n : Int := digitsValue digits
        some (c :: sign ++ digits, some (if sign = ['-'] then -n else n), rest.dropWhile isDigit)
    else some ([], none, c :: rest)
  | [] => some ([], none, [])

def readNumber (cs : List Char) : Option (Json × List Char) := do
  let (negative, body) := match cs with
    | '-' :: rest => (true, rest)
    | cs => (false, cs)
  let whole := body.takeWhile isDigit
  if whole.isEmpty || (whole.head? == some '0' && whole.length > 1) then none
  let (part, rest) ← readFraction (body.dropWhile isDigit)
  let (power, exponent, rest) ← readExponent rest
  let n := digitsValue whole
  if part.isEmpty && exponent.isNone then
    if negative then
      if 0 < n ∧ n ≤ 1 <<< 63 then return (.int (-n), rest)
    else if n < UInt64.size then return (.int n, rest)
  if tooLarge whole part (exponent.getD 0) then return (.unreadable, rest)
  let sign := if negative then ['-'] else []
  let point := if part.isEmpty then [] else ['.']
  return (.fraction (String.ofList (sign ++ whole ++ point ++ part ++ power)), rest)

end Buildbox.Json
