import Mathlib.Data.Nat.Basic
import Mathlib.Algebra.Order.Group.Nat

/-!
# StreamBridge.Lib.LittleEndian

Fixed-width little-endian integers: the low `w` bytes of a number, least significant first, and
the two's complement `int` of four bytes that `memcpy` reads back.
-/

namespace LittleEndian

/-- The `w` low bytes of `n`, least significant first. -/
def bytes : Nat → Nat → List UInt8
  | 0, _ => []
  | w + 1, n => UInt8.ofNat n :: bytes w (n / 256)

def value : List UInt8 → Nat
  | [] => 0
  | b :: bs => b.toNat + 256 * value bs

/-- The four bytes of an `int` in memory. -/
def ofInt32 (v : Int32) : List UInt8 := bytes 4 v.toUInt32.toNat

/-- The `int` that `memcpy` reads from bytes. -/
def toInt32 (bs : List UInt8) : Int32 := (UInt32.ofNat (value bs)).toInt32

@[simp] theorem length_bytes (w n : Nat) : (bytes w n).length = w := by
  induction w generalizing n with
  | zero => rfl
  | succ w ih => simp [bytes, ih]

@[simp] theorem length_ofInt32 (v : Int32) : (ofInt32 v).length = 4 := length_bytes 4 _

theorem value_bytes (w n : Nat) : value (bytes w n) = n % 256 ^ w := by
  induction w generalizing n with
  | zero => simp [bytes, value, Nat.mod_one]
  | succ w ih =>
    have h : (UInt8.ofNat n).toNat = n % 256 := by simp
    rw [bytes, value, ih, h, Nat.pow_succ', Nat.mod_mul]

theorem value_zeros (w : Nat) : value (List.replicate w 0) = 0 := by
  induction w with
  | zero => rfl
  | succ w ih => simp [List.replicate_succ, value, ih]

theorem toInt32_ofInt32 (v : Int32) : toInt32 (ofInt32 v) = v := by
  simp [toInt32, ofInt32, value_bytes]

theorem toInt32_zeros (w : Nat) : toInt32 (List.replicate w 0) = 0 := by
  rw [toInt32, value_zeros]; rfl

theorem head_ofInt32 (v : Int32) : UInt8.ofNat v.toUInt32.toNat = 0 ↔ v.toInt % 256 = 0 := by
  have hcast : v.toInt = (v.toUInt32.toNat : Int).bmod (2 ^ 32) :=
    BitVec.toInt_eq_toNat_bmod v.toBitVec
  constructor
  · intro h
    have : v.toUInt32.toNat % 256 = 0 := by simpa using congrArg UInt8.toNat h
    rw [hcast, Int.bmod_def]
    split <;> omega
  · intro h
    rw [hcast, Int.bmod_def] at h
    apply UInt8.toNat_inj.mp
    simp only [UInt8.toNat_ofNat', UInt8.toNat_zero]
    split at h <;> omega

end LittleEndian
