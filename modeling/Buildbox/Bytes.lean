/-! Byte sequences and their hexadecimal form. -/

namespace Buildbox

abbrev Bytes := List UInt8

namespace Bytes

def hexDigit (n : Nat) : Char :=
  "0123456789abcdef".toList.getD n '0'

def hexChars : Bytes → List Char
  | [] => []
  | b :: rest => hexDigit (b.toNat / 16) :: hexDigit (b.toNat % 16) :: hexChars rest

def toHex (bs : Bytes) : String :=
  String.ofList (hexChars bs)

def toNatLE : Bytes → Nat
  | [] => 0
  | b :: rest => b.toNat + 256 * toNatLE rest

def toNatBE (bs : Bytes) : Nat :=
  bs.foldl (fun n b => 256 * n + b.toNat) 0

def ofNatLE : (k n : Nat) → Bytes
  | 0, _ => []
  | k + 1, n => UInt8.ofNat n :: ofNatLE k (n / 256)

def ofNatBE (k n : Nat) : Bytes :=
  (ofNatLE k n).reverse

@[simp] theorem length_ofNatLE (k n : Nat) : (ofNatLE k n).length = k := by
  induction k generalizing n with
  | zero => rfl
  | succ k ih => simp [ofNatLE, ih]

@[simp] theorem length_ofNatBE (k n : Nat) : (ofNatBE k n).length = k := by
  simp [ofNatBE]

theorem toNatLE_ofNatLE (k n : Nat) : toNatLE (ofNatLE k n) = n % Nat.pow 256 k := by
  induction k generalizing n with
  | zero => simp [ofNatLE, toNatLE, Nat.mod_one]
  | succ k ih =>
    have byte : (UInt8.ofNat n).toNat = n % 256 := by simp
    have power : Nat.pow 256 (k + 1) = 256 * Nat.pow 256 k := Nat.mul_comm ..
    rw [ofNatLE, toNatLE, ih, byte, power, Nat.mod_mul]

theorem ofNatLE_mod (k n : Nat) : ofNatLE k (n % Nat.pow 256 k) = ofNatLE k n := by
  induction k generalizing n with
  | zero => rfl
  | succ k ih =>
    have power : Nat.pow 256 (k + 1) = 256 * Nat.pow 256 k := Nat.mul_comm ..
    have byte : UInt8.ofNat (n % (256 * Nat.pow 256 k)) = UInt8.ofNat n := by
      apply UInt8.toNat_inj.mp
      simp
    rw [ofNatLE, ofNatLE, power, byte, Nat.mod_mul_right_div_self, ih]

end Bytes

end Buildbox
