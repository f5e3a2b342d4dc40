import Buildbox.Text.Blank
import Buildbox.Text.Utf8

/-! Reading tar containers block by block. -/

namespace Buildbox.Tar

def blockSize : Nat := 512

inductive Format where
  | old
  | ustar
  | gnu
  deriving DecidableEq, Repr, Inhabited

inductive Kind where
  | file
  | directory
  | longName
  | longLink
  | attributes
  | globalAttributes
  | sparse
  | other
  deriving DecidableEq, Repr, Inhabited

def Kind.ofByte (b : UInt8) : Kind :=
  if b = 0 ∨ b = 0x30 then .file
  else if b = 0x35 then .directory
  else if b = 0x4C then .longName
  else if b = 0x4B then .longLink
  else if b = 0x78 then .attributes
  else if b = 0x67 then .globalAttributes
  else if b = 0x53 then .sparse
  else .other

abbrev Header := Bytes

def upToZero (field : Bytes) : Bytes :=
  field.takeWhile (· ≠ 0)

def number? (base : Nat) (text : List Char) : Option Nat :=
  let digits := match text with
    | '+' :: rest => rest
    | text => text
  if digits.isEmpty ∨ digits.any fun c => c.toNat < 48 ∨ 48 + base ≤ c.toNat then none
  else
    let n := digits.foldl (fun n c => base * n + (c.toNat - 48)) 0
    if n < UInt64.size then some n else none

def octal (field : Bytes) : Except String Nat :=
  let held := upToZero field
  match Utf8.decode? held with
  | none => .error ("numeric field did not have utf-8 text: " ++ Utf8.lossyText held)
  | some text =>
    match number? 8 (Text.trim Text.isBlank text.toList) with
    | some n => .ok n
    | none => .error ("numeric field was not a number: " ++ text)

def sizeOf (field : Bytes) : Except String Nat :=
  match field with
  | b :: _ => if b &&& 0x80 ≠ 0 then .ok (Bytes.toNatBE (field.drop 4)) else octal field
  | [] => octal field

def sizeCalled (what : String) (field : Bytes) : Except String Nat :=
  (sizeOf field).mapError (· ++ " when getting " ++ what)

namespace Header

def field (h : Header) (start length : Nat) : Bytes :=
  (h.drop start).take length

def format (h : Header) : Format :=
  let magic := h.field 257 8
  if magic = Utf8.encode "ustar\x0000" then .ustar
  else if magic = Utf8.encode "ustar  \x00" then .gnu
  else .old

def kind (h : Header) : Kind :=
  .ofByte ((h.field 156 1).headD 0)

def sum (h : Header) : Nat :=
  (h.take 148 ++ List.replicate 8 0x20 ++ h.drop 156).foldl (fun n (b : UInt8) => n + b.toNat) 0

def path (h : Header) : Bytes :=
  let name := upToZero (h.field 0 100)
  let lead := upToZero (h.field 345 155)
  if h.format = .ustar ∧ lead ≠ [] then lead ++ 0x2F :: name else name

def numberOf (h : Header) (what : String) (n : Except String Nat) : Except String Nat :=
  n.mapError fun detail =>
    detail ++ " when getting " ++ what ++ " for " ++ Utf8.lossyText h.path

def checkedSize (h : Header) : Except String Nat := do
  let checksum ← h.numberOf "cksum" (octal (h.field 148 8))
  if checksum % UInt32.size ≠ h.sum then throw "archive header checksum mismatch"
  h.numberOf "size" (sizeOf (h.field 124 12))

end Header

def splitBytes (sep : UInt8) : Bytes → List Bytes
  | [] => [[]]
  | b :: rest =>
    if b = sep then [] :: splitBytes sep rest
    else match splitBytes sep rest with
      | [] => [[b]]
      | part :: parts => (b :: part) :: parts

structure Attribute where
  key : Bytes
  value : Bytes
  deriving DecidableEq, Repr, Inhabited

def Attribute.ofLine? (line : Bytes) : Option Attribute := do
  let digits := line.takeWhile (· ≠ 0x20)
  let body ← (line.drop digits.length).tail?
  let length ← number? 10 (← Utf8.decode? digits).toList
  if length = line.length + 1 then
    let key := body.takeWhile (· ≠ 0x3D)
    let value ← (body.drop key.length).tail?
    some ⟨key, value⟩
  else none

def attributes (block : Bytes) : List (Option Attribute) :=
  ((splitBytes 0x0A block).takeWhile (! ·.isEmpty)).map Attribute.ofLine?

/-- The size given by attributes; the first record that cannot be read ends the search. -/
def attributeSize? : List (Option Attribute) → Option Nat
  | [] => none
  | none :: _ => none
  | some a :: rest =>
    if a.key = Utf8.encode "size" then
      (Utf8.decode? a.value).bind fun v => number? 10 v.toList
    else attributeSize? rest

def attributePath? (records : List (Option Attribute)) : Option Bytes :=
  let path := Utf8.encode "path"
  (records.filterMap id).findSome? fun a => if a.key = path then some a.value else none

structure Raw where
  header : Header
  size : Nat
  data : Bytes
  deriving DecidableEq, Repr, Inhabited

structure Cursor where
  ahead : Bytes
  skip : Nat := 0
  next : Nat := 0
  deriving DecidableEq, Repr, Inhabited

inductive Step (α : Type) where
  | entry (a : α) (rest : Cursor)
  | done
  | malformed (detail : String)
  deriving Repr, Inhabited

def isShort (bs : Bytes) : (n : Nat) → Bool
  | 0 => false
  | n + 1 => (bs.drop n).isEmpty

def readRaw (c : Cursor) (records : List (Option Attribute)) : Step Raw :=
  if isShort c.ahead c.skip then .malformed "unexpected EOF during skip"
  else
    let ahead := c.ahead.drop c.skip
    let header : Header := ahead.take blockSize
    if ahead.isEmpty then .done
    else if header.length < blockSize then .malformed "failed to read entire block"
    -- One block of zeros ends the container; a second is not looked for.
    else if header.all (· = 0) then .done
    else match Header.checkedSize header with
      | .error detail => .malformed detail
      | .ok size =>
        let kind := Header.kind header
        let size :=
          if kind = .longName ∨ kind = .longLink ∨ kind = .attributes ∨
              kind = .globalAttributes then size
          else (attributeSize? records).getD size
        let rounded := (size + (blockSize - 1)) / blockSize * blockSize
        let next := c.next + blockSize
        if UInt64.size ≤ size + (blockSize - 1) ∨ UInt64.size ≤ next + rounded then
          .malformed "size overflow"
        else
          let ahead := ahead.drop blockSize
          .entry ⟨header, size, ahead.take size⟩ ⟨ahead, rounded, next + rounded⟩

structure Reach where
  inFile : Nat := 0
  stored : Nat := 0
  deriving DecidableEq, Repr, Inhabited

def Reach.add (size : Nat) (r : Reach) (start length : Bytes) : Except String Reach := do
  if start.head? = some 0 ∨ length.head? = some 0 then return r
  let start ← sizeCalled "offset from sparse header" start
  let length ← sizeCalled "length from sparse header" length
  if length ≠ 0 ∧ r.stored % blockSize ≠ 0 then
    throw "previous block in sparse file was not aligned to 512-byte boundary"
  if start < r.inFile then throw "out of order or overlapping sparse blocks"
  if UInt64.size ≤ start + length then
    throw "more bytes listed in sparse file than u64 can hold"
  if size < r.stored + length then
    throw "sparse file consumed more data than the header listed"
  return ⟨start + length, r.stored + length⟩

def Reach.addAll (size : Nat) (r : Reach) (map : Bytes) : (slots : Nat) → Except String Reach
  | 0 => .ok r
  | n + 1 => do
    let r ← r.add size (map.take 12) ((map.drop 12).take 12)
    r.addAll size (map.drop 24) n

def readExtensions (size : Nat) (r : Reach) (c : Cursor) :
    (fuel : Nat) → Except String (Reach × Cursor)
  | 0 => .error "failed to read extension"
  | fuel + 1 => do
    if c.ahead.isEmpty then throw "failed to read extension"
    if isShort c.ahead blockSize then throw "failed to read entire block"
    let block := c.ahead.take blockSize
    let r ← r.addAll size block 21
    let c := { c with ahead := c.ahead.drop blockSize, next := c.next + blockSize }
    if Header.field block 504 1 = [1] then readExtensions size r c fuel else return (r, c)

def readSparse (raw : Raw) (c : Cursor) : Except String Cursor := do
  let h := raw.header
  if Header.format h ≠ .gnu then throw "sparse entry type listed but not GNU header"
  let r ← Reach.addAll raw.size {} (h.drop 386) 4
  let (r, c) ←
    if Header.field h 482 1 = [1] then
      readExtensions raw.size r c (c.ahead.length / blockSize + 1)
    else pure (r, c)
  let owner := Utf8.lossyText (upToZero (Header.field h 297 32)) ++ ":" ++
    Utf8.lossyText (upToZero (Header.field h 265 32))
  if r.inFile ≠ (← sizeCalled ("real_size for " ++ owner) (Header.field h 483 12)) then
    throw "mismatch in sparse file chunks and size in header"
  if r.stored ≠ raw.size then throw "mismatch in sparse file chunks and entry size in header"
  return c

structure Entry where
  path : Bytes
  kind : Kind
  size : Nat
  data : Bytes
  deriving DecidableEq, Repr, Inhabited

structure Description where
  longName : Option Bytes := none
  longLink : Option Bytes := none
  attributes : Option Bytes := none
  deriving DecidableEq, Repr, Inhabited

namespace Description

def isEmpty (d : Description) : Bool :=
  d.longName.isNone && d.longLink.isNone && d.attributes.isNone

def records (d : Description) : List (Option Attribute) :=
  match d.attributes with
  | some block => Tar.attributes block
  | none => []

def path (d : Description) (h : Header) : Bytes :=
  match d.longName with
  | some name => if name.getLast? = some 0 then name.dropLast else name
  | none => (attributePath? d.records).getD h.path

end Description

def readEntry (d : Description) : (fuel : Nat) → Cursor → Step Entry
  | 0, _ => .malformed "too many entries"
  | fuel + 1, c =>
    match readRaw c d.records with
    | .malformed detail => .malformed detail
    | .done =>
      if d.isEmpty then .done
      else .malformed "members found describing a future member but no future member found"
    | .entry raw rest =>
      let kind := Header.kind raw.header
      let describes := Header.format raw.header ≠ .old
      if describes ∧ kind = .longName then
        if d.longName.isSome then .malformed "two long name entries describing the same member"
        else readEntry { d with longName := some raw.data } fuel rest
      else if describes ∧ kind = .longLink then
        if d.longLink.isSome then .malformed "two long name entries describing the same member"
        else readEntry { d with longLink := some raw.data } fuel rest
      else if describes ∧ kind = .attributes then
        if d.attributes.isSome then
          .malformed "two pax extensions entries describing the same member"
        else readEntry { d with attributes := some raw.data } fuel rest
      else if kind = .sparse then
        match readSparse raw rest with
        | .ok rest => .entry ⟨d.path raw.header, kind, raw.size, raw.data⟩ rest
        | .error detail => .malformed detail
      else .entry ⟨d.path raw.header, kind, raw.size, raw.data⟩ rest

def readEntries : (fuel : Nat) → Cursor → List Entry × Option String
  | 0, _ => ([], none)
  | fuel + 1, c =>
    match readEntry {} fuel c with
    | .done => ([], none)
    | .malformed detail => ([], some detail)
    | .entry e rest =>
      let (es, fault) := readEntries fuel rest
      (e :: es, fault)

/-- The entries of a container, and the fault that ends them if there is one. -/
def entries (bs : Bytes) : List Entry × Option String :=
  readEntries (bs.length / blockSize + 2) { ahead := bs }

end Buildbox.Tar
