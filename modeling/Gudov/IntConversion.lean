import Mathlib.Tactic.NormNum

/-!
# Conversions between signed and unsigned machine integers

An unsigned 64-bit value narrowed to a signed 32-bit one keeps its low half, read in two's
complement. A signed value widened to an unsigned one is taken modulo the width, so a
negative one becomes very large.
-/
namespace Gudov.IntConversion

/-- `(int)x` for an unsigned 64-bit `x`. -/
def narrow (x : UInt64) : Int32 := x.toUInt32.toInt32

/-- An `int` converted to an unsigned 64-bit value. -/
def widen (i : Int32) : UInt64 := i.toInt64.toUInt64

theorem toInt_narrow (x : UInt64) : (narrow x).toInt = (x.toNat : ℤ).bmod (2 ^ 32) := by
  rw [narrow, ← Int32.toInt_toBitVec, UInt32.toBitVec_toInt32, BitVec.toInt_eq_toNat_bmod,
    UInt32.toNat_toBitVec, UInt64.toNat_toUInt32]
  exact Int.emod_bmod x.toNat (2 ^ 32)

theorem toNat_widen (i : Int32) : ((widen i).toNat : ℤ) = i.toInt % 2 ^ 64 := by
  have hbits : (i.toInt64.toBitVec.toNat : ℤ) = i.toInt64.toBitVec.toInt % 2 ^ 64 := by
    have hlt := i.toInt64.toBitVec.isLt
    rw [BitVec.toInt_eq_toNat_bmod, Int.bmod_def]
    omega
  rw [widen, ← UInt64.toNat_toBitVec, Int64.toBitVec_toUInt64, hbits, Int64.toInt_toBitVec,
    Int32.toInt_toInt64]

/-- The low half is a non-negative `int`. -/
theorem toInt_narrow_of_lt {x : UInt64} (h : x.toNat % 2 ^ 32 < 2 ^ 31) :
    (narrow x).toInt = (x.toNat % 2 ^ 32 : ℕ) := by
  rw [toInt_narrow, Int.bmod_def]
  omega

theorem narrow_nonneg_iff (x : UInt64) : 0 ≤ (narrow x).toInt ↔ x.toNat % 2 ^ 32 < 2 ^ 31 := by
  rw [toInt_narrow, Int.bmod_def]
  omega

theorem toNat_widen_of_nonneg {i : Int32} (h : 0 ≤ i.toInt) : ((widen i).toNat : ℤ) = i.toInt := by
  have hlt := i.toInt_lt
  rw [toNat_widen]
  omega

/-- Widening loses nothing. -/
theorem narrow_widen (i : Int32) : narrow (widen i) = i := by
  have hlt := i.toInt_lt
  have hge := i.le_toInt
  rw [← Int32.toInt_inj, toInt_narrow, toNat_widen, Int.bmod_def]
  omega

end Gudov.IntConversion
