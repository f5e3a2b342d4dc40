import Buildbox.Archive.Inflate
import Buildbox.Digest.Crc32

/-! Members of gzip files. -/

namespace Buildbox.Gzip

inductive Fault where
  | header
  | longField
  | cutShort
  | stream
  | checksum
  deriving DecidableEq, Repr, Inhabited

def Fault.message : Fault → String
  | header => "invalid gzip header"
  | longField => "gzip header field too long"
  | cutShort => "unexpected end of file"
  | stream => "corrupt deflate stream"
  | checksum => "corrupt gzip stream does not have a matching checksum"

def Fault.ofInflate : Inflate.Fault → Fault
  | .cutShort => cutShort
  | .corrupt => stream

def longestField : Nat := 65535

def isGzip : Bytes → Bool
  | a :: b :: _ => a = 0x1F && b = 0x8B
  | _ => false

def skipText (bs : Bytes) : Except Fault Bytes :=
  let text := bs.takeWhile (· ≠ 0)
  if longestField < text.length then .error .longField
  else match bs.drop text.length with
    | _ :: rest => .ok rest
    | [] => .error .cutShort

def skipExtra : Bytes → Except Fault Bytes
  | a :: b :: rest =>
    let length := a.toNat + 256 * b.toNat
    if length ≤ rest.length then .ok (rest.drop length) else .error .cutShort
  | _ => .error .cutShort

def skipChecksum (all : Bytes) : Bytes → Except Fault Bytes
  | a :: b :: rest =>
    let covered := all.take (all.length - rest.length - 2)
    if a.toNat + 256 * b.toNat = (Crc32.checksum covered).toNat % 65536 then .ok rest
    else .error .checksum
  | _ => .error .cutShort

def skipHeader (bs : Bytes) : Except Fault Bytes := do
  match bs with
  | a :: b :: method :: flags :: _ :: _ :: _ :: _ :: _ :: _ :: rest =>
    if a ≠ 0x1F ∨ b ≠ 0x8B ∨ method ≠ 8 ∨ flags &&& 0xE0 ≠ 0 then throw .header
    let rest ← if flags &&& 4 ≠ 0 then skipExtra rest else pure rest
    let rest ← if flags &&& 8 ≠ 0 then skipText rest else pure rest
    let rest ← if flags &&& 16 ≠ 0 then skipText rest else pure rest
    if flags &&& 2 ≠ 0 then skipChecksum bs rest else return rest
  | _ => throw .cutShort

def decompress (bs : Bytes) : Except Fault Bytes := do
  let body ← skipHeader bs
  let (content, rest) ← (Inflate.inflate body).mapError .ofInflate
  if rest.length < 8 then throw .cutShort
  if Bytes.toNatLE (rest.take 4) = (Crc32.checksum content).toNat ∧
      Bytes.toNatLE ((rest.drop 4).take 4) = content.length % UInt32.size then
    return content
  else throw .checksum

end Buildbox.Gzip
