import Buildbox.Bytes

/-! The cyclic redundancy check with the reflected polynomial `0xEDB88320`. -/

namespace Buildbox.Crc32

def shift : Nat → UInt32 → UInt32
  | 0, c => c
  | n + 1, c => shift n (if c &&& 1 = 1 then (c >>> 1) ^^^ 0xEDB88320 else c >>> 1)

def update (c : UInt32) (b : UInt8) : UInt32 :=
  shift 8 ((c ^^^ b.toUInt32) &&& 0xFF) ^^^ (c >>> 8)

def checksum (bs : Bytes) : UInt32 :=
  bs.foldl update 0xFFFFFFFF ^^^ 0xFFFFFFFF

end Buildbox.Crc32
