import Buildbox.Bytes

/-! Inflating: the blocks of a compressed stream, read bit by bit. -/

namespace Buildbox.Inflate

inductive Fault where
  | cutShort
  | corrupt
  deriving DecidableEq, Repr, Inhabited

structure Bits where
  current : UInt8 := 0
  left : Nat := 0
  rest : Bytes
  deriving DecidableEq, Repr, Inhabited

namespace Bits

def count (s : Bits) : Nat :=
  s.left + 8 * s.rest.length

def next (s : Bits) : Except Fault (Nat × Bits) :=
  match s.left, s.rest with
  | 0, [] => .error .cutShort
  | 0, b :: rest => .ok (b.toNat % 2, ⟨b >>> 1, 7, rest⟩)
  | n + 1, rest => .ok (s.current.toNat % 2, ⟨s.current >>> 1, n, rest⟩)

end Bits

abbrev Reader := StateT Bits (Except Fault)

def bit : Reader Nat := fun s => s.next

def bits : Nat → Reader Nat
  | 0 => pure 0
  | n + 1 => do
    let b ← bit
    return b + 2 * (← bits n)

structure Code where
  counts : Array Nat
  symbols : Array Nat
  deriving DecidableEq, Repr, Inhabited

namespace Code

def longest : Nat := 15

def symbolsOf (lengths : List Nat) (length : Nat) : List Nat :=
  (lengths.zipIdx.filter (·.1 = length)).map (·.2)

def spaceOf (counts : List Nat) : Nat :=
  counts.foldl (fun taken count => 2 * taken + count) 0

def ofLengths? (sparse : Bool) (lengths : List Nat) : Option Code :=
  let groups := (List.range longest).map fun i => symbolsOf lengths (i + 1)
  let counts := groups.map List.length
  let total := counts.foldl (· + ·) 0
  if spaceOf counts == 32768 || (sparse && total ≤ 1 && total = counts.headD 0) then
    some ⟨counts.toArray, groups.flatten.toArray⟩
  else none

def readFrom (c : Code) (code first index : Nat) : List Nat → Reader Nat
  | [] => throw .corrupt
  | count :: counts => do
    let code := code + (← bit)
    if code < first + count then
      match c.symbols[index + (code - first)]? with
      | some symbol => return symbol
      | none => throw .corrupt
    else if counts.all (· = 0) then throw .corrupt
    else c.readFrom (2 * code) (2 * (first + count)) (index + count) counts

def read (c : Code) : Reader Nat :=
  c.readFrom 0 0 0 c.counts.toList

end Code

def lengthTable : List (Nat × Nat) :=
  [(3, 0), (4, 0), (5, 0), (6, 0), (7, 0), (8, 0), (9, 0), (10, 0), (11, 1), (13, 1), (15, 1),
   (17, 1), (19, 2), (23, 2), (27, 2), (31, 2), (35, 3), (43, 3), (51, 3), (59, 3), (67, 4),
   (83, 4), (99, 4), (115, 4), (131, 5), (163, 5), (195, 5), (227, 5), (258, 0)]

def distanceTable : List (Nat × Nat) :=
  [(1, 0), (2, 0), (3, 0), (4, 0), (5, 1), (7, 1), (9, 2), (13, 2), (17, 3), (25, 3), (33, 4),
   (49, 4), (65, 5), (97, 5), (129, 6), (193, 6), (257, 7), (385, 7), (513, 8), (769, 8),
   (1025, 9), (1537, 9), (2049, 10), (3073, 10), (4097, 11), (6145, 11), (8193, 12), (12289, 12),
   (16385, 13), (24577, 13)]

def extended (table : List (Nat × Nat)) (symbol : Nat) : Reader Nat := do
  match table[symbol]? with
  | some (base, extra) => return base + (← bits extra)
  | none => throw .corrupt

def copyBack (out : Array UInt8) (distance : Nat) : Nat → Array UInt8
  | 0 => out
  | n + 1 =>
    -- Before the start of the output there are zeros.
    let b := if distance ≤ out.size then out.getD (out.size - distance) 0 else 0
    copyBack (out.push b) distance n

def readSymbols (literals distances : Code) : (fuel : Nat) → Array UInt8 → Reader (Array UInt8)
  | 0, _ => throw .corrupt
  | fuel + 1, out => do
    let symbol ← literals.read
    if symbol < 256 then readSymbols literals distances fuel (out.push (UInt8.ofNat symbol))
    else if symbol = 256 then return out
    else
      let length ← extended lengthTable (symbol - 257)
      let distance ← extended distanceTable (← distances.read)
      readSymbols literals distances fuel (copyBack out distance length)

def lengthOrder : List Nat :=
  [16, 17, 18, 0, 8, 7, 9, 6, 10, 5, 11, 4, 12, 3, 13, 2, 14, 1, 15]

def readLengths (c : Code) (total : Nat) : (fuel : Nat) → List Nat → Reader (List Nat)
  | 0, _ => throw .corrupt
  | fuel + 1, done => do
    if done.length = total then return done
    if total < done.length then throw .corrupt
    let symbol ← c.read
    if symbol < 16 then readLengths c total fuel (symbol :: done)
    else if symbol = 16 then
      match done with
      | [] => throw .corrupt
      | last :: _ =>
        let n ← bits 2
        readLengths c total fuel (List.replicate (3 + n) last ++ done)
    else
      let n ← if symbol = 17 then (3 + ·) <$> bits 3 else (11 + ·) <$> bits 7
      readLengths c total fuel (List.replicate n 0 ++ done)

def readCodes : Reader (Code × Code) := do
  let literals := 257 + (← bits 5)
  let distances := 1 + (← bits 5)
  let written := 4 + (← bits 4)
  if 286 < literals ∨ 30 < distances then throw .corrupt
  let given ← (List.range written).mapM fun _ => bits 3
  let lengthOf (symbol : Nat) : Nat :=
    match lengthOrder.idxOf? symbol with
    | some i => given.getD i 0
    | none => 0
  let some c := Code.ofLengths? false ((List.range 19).map lengthOf) | throw .corrupt
  let total := literals + distances
  let lengths := (← readLengths c total (total + 1) []).reverse
  let some l := Code.ofLengths? true (lengths.take literals) | throw .corrupt
  let some d := Code.ofLengths? true (lengths.drop literals) | throw .corrupt
  return (l, d)

def fixedLiterals : Option Code :=
  Code.ofLengths? false (List.replicate 144 8 ++ List.replicate 112 9 ++ List.replicate 24 7 ++
    List.replicate 8 8)

def fixedDistances : Option Code :=
  Code.ofLengths? false (List.replicate 32 5)

def readStored (out : Array UInt8) : Reader (Array UInt8) := fun s =>
  match s.rest with
  | a :: b :: c :: d :: rest =>
    let length := a.toNat + 256 * b.toNat
    if length + (c.toNat + 256 * d.toNat) ≠ 65535 then .error .corrupt
    else if rest.length < length then .error .cutShort
    else .ok (out ++ (rest.take length).toArray, { rest := rest.drop length })
  | _ => .error .cutShort

def readBlock (out : Array UInt8) : Reader (Array UInt8) := do
  match ← bits 2 with
  | 0 => readStored out
  | 1 =>
    let some l := fixedLiterals | throw .corrupt
    let some d := fixedDistances | throw .corrupt
    readSymbols l d ((← get).count + 1) out
  | 2 =>
    let (l, d) ← readCodes
    readSymbols l d ((← get).count + 1) out
  | _ => throw .corrupt

def readBlocks : (fuel : Nat) → Array UInt8 → Reader (Array UInt8)
  | 0, _ => throw .corrupt
  | fuel + 1, out => do
    let final ← bit
    let out ← readBlock out
    if final = 1 then return out else readBlocks fuel out

def inflate (bs : Bytes) : Except Fault (Bytes × Bytes) :=
  (readBlocks (8 * bs.length + 1) #[] { rest := bs }).map fun (out, s) => (out.toList, s.rest)

end Buildbox.Inflate
