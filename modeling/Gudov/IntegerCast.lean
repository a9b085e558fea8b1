import Mathlib.Tactic.NormNum
import Gudov.LogYaml

/-!
# The cast of a text to an integer

`boost::lexical_cast<int>` takes a sign or none and digits, leading zeros included, up to the
bounds of an `int`. So a text in front of a number is either noticed, by the value or by an
exception, or it is a zero.
-/
namespace Gudov

/-- The sign of a text and what is behind it; without a sign the text itself. -/
def signed : List Char → Bool × List Char
  | '-' :: digits => (true, digits)
  | '+' :: digits => (false, digits)
  | digits => (false, digits)

def signedValue (minus : Bool) (n : ℕ) : ℤ := if minus then -n else n

/-- The `int` that a text of a sign and digits stands for. -/
def integer (text : List Char) : Option ℤ :=
  let (minus, digits) := signed text
  let k := signedValue minus (Nat.ofDigitChars 10 digits 0)
  if digits ≠ [] ∧ digits.all Char.isDigit = true ∧ -2 ^ 31 ≤ k ∧ k < 2 ^ 31 then some k else none

/-- `boost::lexical_cast<int>`, in the classic locale. -/
def lexicalCastInt (v : String) : Except YamlError ℤ :=
  match integer v.toList with
  | some k => .ok k
  | none => .error .badConversion

section
variable {text p t : List Char} {a b k : ℤ}

theorem lexicalCastInt_eq_ok {v : String} :
    lexicalCastInt v = .ok k ↔ integer v.toList = some k := by
  rw [lexicalCastInt]
  cases integer v.toList with
  | none => exact iff_of_false (by intro h; cases h) (by intro h; cases h)
  | some n => rw [Except.ok.injEq, Option.some.injEq]

theorem integer_eq_some : integer text = some k ↔
    (signed text).2 ≠ [] ∧ (signed text).2.all Char.isDigit = true ∧
      signedValue (signed text).1 (Nat.ofDigitChars 10 (signed text).2 0) = k ∧
      -2 ^ 31 ≤ k ∧ k < 2 ^ 31 := by
  rw [integer]
  constructor
  · intro h
    obtain ⟨⟨hne,hdigits,hlow,hhigh⟩,hk⟩ := Option.ite_none_right_eq_some.mp h
    cases hk
    exact ⟨hne,hdigits,rfl,hlow,hhigh⟩
  · rintro ⟨hne,hdigits,rfl,hlow,hhigh⟩
    exact if_pos ⟨hne,hdigits,hlow,hhigh⟩

theorem signed_append (t : List Char) (hp : (signed p).2 ≠ []) :
    signed (p ++ t) = ((signed p).1, (signed p).2 ++ t) := by
  unfold signed at hp ⊢
  split at hp
  next => rfl
  next => rfl
  next hminus hplus =>
    cases p with
    | nil => exact absurd rfl hp
    | cons c cs =>
      rw [List.cons_append]
      split
      next h =>
        cases h
        exact absurd rfl (hminus cs)
      next h =>
        cases h
        exact absurd rfl (hplus cs)
      next => rfl

theorem signed_of_digits (h : t.all Char.isDigit = true) : signed t = (false, t) := by
  unfold signed
  split
  · cases h
  · cases h
  · rfl

theorem ofDigitChars_append_zero (ds ts : List Char) : Nat.ofDigitChars 10 (ds ++ ts) 0 =
    10 ^ ts.length * Nat.ofDigitChars 10 ds 0 + Nat.ofDigitChars 10 ts 0 := by
  rw [Nat.ofDigitChars_append, Nat.ofDigitChars_eq_ofDigitChars_zero]

/-- Digits behind a number leave their own value exactly if that is zero, or minus zero behind
which the digits are zeros too. -/
theorem signedValue_shift (minus : Bool) {pow : ℕ} (m n : ℕ) (hpow : 0 < pow) :
    signedValue minus (pow * m + n) = n ↔
      signedValue minus m = 0 ∧ (minus = true → n = 0) := by
  have hzero : pow * m = 0 ↔ m = 0 := by
    rw [Nat.mul_eq_zero]
    omega
  cases minus with
  | false =>
    simp only [signedValue, Bool.false_eq_true, if_false, false_implies, and_true]
    omega
  | true =>
    simp only [signedValue, if_true, forall_const]
    omega

/-- With a text in front a number stays the same exactly if that is a zero. -/
theorem integer_append (hp : integer p = some a) (ht : integer t = some b) :
    integer (p ++ t) = some b ↔
      a = 0 ∧ t.all Char.isDigit = true ∧ ((signed p).1 = true → b = 0) := by
  obtain ⟨hpne,hpdigits,hpvalue,-,-⟩ := integer_eq_some.mp hp
  obtain ⟨-,-,htvalue,htlow,hthigh⟩ := integer_eq_some.mp ht
  have hne : (signed p).2 ++ t ≠ [] := fun h => hpne (List.append_eq_nil_iff.mp h).1
  rw [integer_eq_some, signed_append t hpne, ofDigitChars_append_zero, List.all_append, hpdigits,
    Bool.true_and]
  by_cases hunsigned : t.all Char.isDigit = true
  · rw [signed_of_digits hunsigned] at htvalue
    have hvalue : (Nat.ofDigitChars 10 t 0 : ℤ) = b := htvalue
    have hshift := signedValue_shift (signed p).1 (Nat.ofDigitChars 10 (signed p).2 0)
      (Nat.ofDigitChars 10 t 0) (Nat.pow_pos (n := t.length) (by decide : 0 < 10))
    rw [hvalue, hpvalue] at hshift
    have hzero : Nat.ofDigitChars 10 t 0 = 0 ↔ b = 0 := by omega
    rw [hshift, hzero]
    tauto
  · exact iff_of_false (fun h => hunsigned h.2.1) (fun h => hunsigned h.2.1)

end

example : lexicalCastInt "-2147483648" = .ok (-2147483648) := by decide

example : lexicalCastInt "+" = .error .badConversion := by decide

end Gudov
