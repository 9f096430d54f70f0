import Mathlib.Data.Nat.ModEq
import Mathlib.Tactic.Ring

/-!
# Little-endian integers

A natural number is written as a fixed number of bytes, least significant byte
first.  Bits beyond the width are dropped, so a number below `256 ^ width` is
read back as it was written.

* `ofLittleEndian_toLittleEndian`, `toLittleEndian_ofLittleEndian`: the two inverses.
* `ofLittleEndian_lt`: the bound of a number read from a byte string.
* `ofLittleEndian_set_le`: how far one replaced byte can move a number.
-/

namespace CodebaseMem
namespace Library

/-- The `width` low bytes of `n`. -/
def toLittleEndian : Nat → Nat → List UInt8
  | 0, _ => []
  | width + 1, n => UInt8.ofNat n :: toLittleEndian width (n / 256)

/-- The number a byte string denotes. -/
def ofLittleEndian : List UInt8 → Nat
  | [] => 0
  | byte :: bytes => byte.toNat + 256 * ofLittleEndian bytes

@[simp] theorem length_toLittleEndian (width n : Nat) :
    (toLittleEndian width n).length = width := by
  induction width generalizing n with
  | zero => rfl
  | succ width ih => simp [toLittleEndian, ih]

theorem ofLittleEndian_lt (bytes : List UInt8) :
    ofLittleEndian bytes < 256 ^ bytes.length := by
  induction bytes with
  | nil => simp [ofLittleEndian]
  | cons byte bytes ih =>
      have hByte : byte.toNat < 256 := byte.toNat_lt
      rw [ofLittleEndian, List.length_cons, pow_succ]
      omega

theorem ofLittleEndian_set_le (bytes : List UInt8) (k : Nat) (byte : UInt8) :
    ofLittleEndian (bytes.set k byte) ≤ ofLittleEndian bytes + byte.toNat * 256 ^ k := by
  induction bytes generalizing k with
  | nil => simp [ofLittleEndian]
  | cons first bytes ih =>
      cases k with
      | zero =>
          rw [List.set_cons_zero, ofLittleEndian, ofLittleEndian, pow_zero]
          omega
      | succ k =>
          have hRest := ih k
          rw [List.set_cons_succ, ofLittleEndian, ofLittleEndian, pow_succ, ← mul_assoc]
          omega

theorem ofLittleEndian_toLittleEndian {width n : Nat} (hn : n < 256 ^ width) :
    ofLittleEndian (toLittleEndian width n) = n := by
  induction width generalizing n with
  | zero =>
      have hZero : n = 0 := by simpa using hn
      rw [hZero]
      rfl
  | succ width ih =>
      have hHigh : n / 256 < 256 ^ width := by
        rw [Nat.div_lt_iff_lt_mul (by norm_num), ← pow_succ]
        exact hn
      rw [toLittleEndian, ofLittleEndian, ih hHigh, UInt8.toNat_ofNat']
      omega

theorem toLittleEndian_ofLittleEndian (bytes : List UInt8) :
    toLittleEndian bytes.length (ofLittleEndian bytes) = bytes := by
  induction bytes with
  | nil => rfl
  | cons byte bytes ih =>
      have hByte : byte.toNat < 256 := byte.toNat_lt
      have hLow : UInt8.ofNat (byte.toNat + 256 * ofLittleEndian bytes) = byte := by
        rw [← UInt8.toNat_inj, UInt8.toNat_ofNat']
        omega
      have hHigh : (byte.toNat + 256 * ofLittleEndian bytes) / 256 = ofLittleEndian bytes := by
        omega
      calc toLittleEndian (byte :: bytes).length (ofLittleEndian (byte :: bytes))
        _ = UInt8.ofNat (byte.toNat + 256 * ofLittleEndian bytes) ::
              toLittleEndian bytes.length
                ((byte.toNat + 256 * ofLittleEndian bytes) / 256) := rfl
        _ = byte :: bytes := by rw [hLow, hHigh, ih]

end Library
end CodebaseMem
