import Mathlib.Data.List.Basic
import Mathlib.Tactic.Ring

/-!
# Positional encodings of numbers in bytes

Fixed width: `k` base-256 digits, least significant first. Variable width:
base-128 groups, every byte but the last carrying the continuation bit, given
as a relation between byte strings and numbers so that a writer and a reader
can be verified against it separately. The zigzag map is here for any width.
-/
namespace Gudov.ByteCodec

/-! ## Fixed width -/

/-- The `k` low base-256 digits of `n`, least significant first. -/
def digits : ℕ → ℕ → List (BitVec 8)
  | 0, _ => []
  | k + 1, n => BitVec.ofNat 8 n :: digits k (n / 256)

def number : List (BitVec 8) → ℕ
  | [] => 0
  | d :: ds => d.toNat + 256 * number ds

@[simp] theorem digits_length (k n : ℕ) : (digits k n).length = k := by
  induction k generalizing n with
  | zero => rfl
  | succ k ih => simp [digits, ih]

theorem number_digits (k n : ℕ) : number (digits k n) = n % 256 ^ k := by
  induction k generalizing n with
  | zero => simp [digits, number, Nat.mod_one]
  | succ k ih =>
    simp only [digits, number, ih, BitVec.toNat_ofNat]
    rw [Nat.pow_succ 256 k, Nat.mul_comm (256 ^ k), Nat.mod_mul]

theorem digits_number (ds : List (BitVec 8)) : digits ds.length (number ds) = ds := by
  induction ds with
  | nil => rfl
  | cons d ds ih =>
    have hd : d.toNat < 256 := d.isLt
    have hq : (d.toNat + 256 * number ds) / 256 = number ds := by omega
    have hr : BitVec.ofNat 8 (d.toNat + 256 * number ds) = d := by
      apply BitVec.eq_of_toNat_eq
      rw [BitVec.toNat_ofNat]
      omega
    simp only [List.length_cons, digits, number, hq, hr, ih]

/-- A word of `k` bytes from its digits. -/
def word (k : ℕ) (ds : List (BitVec 8)) : BitVec (8 * k) := BitVec.ofNat (8 * k) (number ds)

theorem pow_eight (k : ℕ) : 2 ^ (8 * k) = 256 ^ k := by
  rw [Nat.pow_mul]

theorem word_digits {k : ℕ} (v : BitVec (8 * k)) : word k (digits k v.toNat) = v := by
  apply BitVec.eq_of_toNat_eq
  rw [word, BitVec.toNat_ofNat, number_digits, pow_eight, Nat.mod_mod, ← pow_eight]
  exact Nat.mod_eq_of_lt v.isLt

theorem digits_word {k : ℕ} (ds : List (BitVec 8)) (h : ds.length = k) :
    digits k (word k ds).toNat = ds := by
  subst h
  have hlt : number ds < 256 ^ ds.length := by
    rw [← digits_number ds, number_digits, digits_length]
    exact Nat.mod_lt _ (Nat.pow_pos (by decide))
  rw [word, BitVec.toNat_ofNat, pow_eight, Nat.mod_eq_of_lt hlt, digits_number]

/-! ## Base-128 groups -/

/-- `Groups bs n`: the bytes `bs` spell `n`, low group first. -/
inductive Groups : List (BitVec 8) → ℕ → Prop
  | last (b : BitVec 8) : b.toNat < 128 → Groups [b] b.toNat
  | more (b : BitVec 8) {bs : List (BitVec 8)} {n : ℕ} : 128 ≤ b.toNat → Groups bs n →
      Groups (b :: bs) (b.toNat - 128 + 128 * n)

/-- Merging one group above the bits collected so far. -/
theorem or_shiftLeft_eq {r g i : ℕ} (hr : r < 2 ^ i) : r ||| g <<< i = r + g * 2 ^ i := by
  rw [Nat.or_comm, Nat.shiftLeft_eq, Nat.mul_comm, ← Nat.two_pow_add_eq_or_of_lt hr]
  omega

theorem or_continuation {g : ℕ} (hg : g < 128) : g ||| 128 = g + 128 := by
  have h : g < 2 ^ 7 := hg
  have h₁ : g ||| 1 <<< 7 = g + 1 * 2 ^ 7 := or_shiftLeft_eq h
  simpa using h₁

theorem and_low_seven (n : ℕ) : n &&& 127 = n % 128 := Nat.and_two_pow_sub_one_eq_mod n 7

/-! ## Zigzag -/

/-- Negative numbers to odd, the others to even codes; all arithmetic modulo `2 ^ w`. -/
def zigzag {w : ℕ} (v : BitVec w) : BitVec w := if v.slt 0 then -v * 2 - 1 else v * 2

def unzigzag {w : ℕ} (v : BitVec w) : BitVec w := (v >>> 1) ^^^ -(v &&& 1)

section
variable {w : ℕ} (hw : 2 ≤ w)
include hw

theorem two_pow_halves : 2 ^ w = 2 * 2 ^ (w - 1) ∧ 2 ≤ 2 ^ (w - 1) := by
  obtain ⟨k,rfl⟩ : ∃ k, w = k + 2 := ⟨w - 2,by omega⟩
  have hk : 0 < 2 ^ k := Nat.two_pow_pos k
  have h₁ : k + 2 - 1 = k + 1 := rfl
  rw [h₁, Nat.pow_succ' (n := k + 1), Nat.pow_succ' (n := k)]
  omega

theorem toNat_one : (1 : BitVec w).toNat = 1 := by
  have := two_pow_halves hw
  change 1 % 2 ^ w = 1
  exact Nat.mod_eq_of_lt (by omega)

theorem toNat_two : (2 : BitVec w).toNat = 2 := by
  have := two_pow_halves hw
  change 2 % 2 ^ w = 2
  exact Nat.mod_eq_of_lt (by omega)

theorem zigzag_toNat (v : BitVec w) : (zigzag v).toNat =
    if v.toNat < 2 ^ (w - 1) then 2 * v.toNat else 2 * (2 ^ w - v.toNat) - 1 := by
  obtain ⟨hp,hb⟩ := two_pow_halves hw
  have hv : v.toNat < 2 ^ w := v.isLt
  have hmsb : v.slt 0 = true ↔ ¬v.toNat < 2 ^ (w - 1) := by
    change v.slt 0#w = true ↔ _
    rw [BitVec.slt_zero_eq_msb, BitVec.msb_eq_decide, decide_eq_true_iff, Nat.not_lt]
  rw [zigzag]
  split_ifs with hneg hsmall hsmall
  · exact absurd hsmall (hmsb.mp hneg)
  · have hn : (-v).toNat = 2 ^ w - v.toNat := by
      rw [BitVec.toNat_neg]
      exact Nat.mod_eq_of_lt (by omega)
    rw [BitVec.toNat_sub, BitVec.toNat_mul, hn, toNat_one hw, toNat_two hw]
    rcases Nat.lt_or_ge ((2 ^ w - v.toNat) * 2) (2 ^ w) with hc | hc
    · rw [Nat.mod_eq_of_lt hc, Nat.mod_eq_sub_mod (by omega), Nat.mod_eq_of_lt (by omega)]
      omega
    · rw [Nat.mod_eq_sub_mod hc, Nat.mod_eq_of_lt (by omega : _ - 2 ^ w < 2 ^ w),
        Nat.mod_eq_of_lt (by omega)]
      omega
  · rw [BitVec.toNat_mul, toNat_two hw, Nat.mul_comm]
    exact Nat.mod_eq_of_lt (by omega)
  · exact absurd (hmsb.mpr hsmall) hneg

theorem unzigzag_toNat (v : BitVec w) : (unzigzag v).toNat =
    if v.toNat % 2 = 0 then v.toNat / 2 else 2 ^ w - 1 - v.toNat / 2 := by
  have hshift : (v >>> 1).toNat = v.toNat / 2 := by
    rw [BitVec.toNat_ushiftRight, Nat.shiftRight_eq_div_pow, Nat.pow_one]
  have hbit : (v &&& 1).toNat = v.toNat % 2 := by
    rw [BitVec.toNat_and, toNat_one hw, Nat.and_one_is_mod]
  rw [unzigzag]
  split_ifs with heven
  · have hzero : v &&& 1 = 0#w := by
      apply BitVec.eq_of_toNat_eq
      rw [hbit, heven, BitVec.toNat_ofNat, Nat.zero_mod]
    rw [hzero, BitVec.neg_zero, BitVec.xor_zero, hshift]
  · have hone : v &&& 1 = 1#w := by
      apply BitVec.eq_of_toNat_eq
      rw [hbit, BitVec.toNat_ofNat, Nat.mod_eq_of_lt (a := 1) (by
        have := two_pow_halves hw
        omega)]
      omega
    rw [hone, BitVec.neg_one_eq_allOnes, BitVec.xor_allOnes, BitVec.toNat_not, hshift]

/-- Decoding undoes encoding, at the extreme negative value too. -/
theorem unzigzag_zigzag (v : BitVec w) : unzigzag (zigzag v) = v := by
  obtain ⟨hp,hb⟩ := two_pow_halves hw
  have hv : v.toNat < 2 ^ w := v.isLt
  apply BitVec.eq_of_toNat_eq
  rw [unzigzag_toNat hw, zigzag_toNat hw]
  split_ifs <;> omega

end

end Gudov.ByteCodec
