import Mathlib.Data.List.Basic
import Mathlib.Tactic.Ring

/-!
# A memory cut into equal rows

A list of rows of one common length is addressed either by row and column or,
flattened, by one linear address. `window` reads and `splice` overwrites an
address range. The two transfer lemmas say that a range that stays inside one
row means the same in both views; ranges that cross rows are composed from
these by `window_add` and `splice_splice`.
-/
namespace Gudov.RowMemory
variable {α : Type*}

/-- The cells at addresses `[k, k + len)`. -/
def window (mem : List α) (k len : ℕ) : List α := (mem.drop k).take len

/-- Overwrite the cells at addresses `[k, k + src.length)`. -/
def splice (mem : List α) (k : ℕ) (src : List α) : List α :=
  mem.take k ++ src ++ mem.drop (k + src.length)

@[simp] theorem window_zero (mem : List α) (k : ℕ) : window mem k 0 = [] := by
  simp [window]

theorem window_length {mem : List α} {k len : ℕ} (h : k + len ≤ mem.length) :
    (window mem k len).length = len := by
  simp only [window, List.length_take, List.length_drop]
  omega

theorem window_add (mem : List α) (k m n : ℕ) :
    window mem k (m + n) = window mem k m ++ window mem (k + m) n := by
  simp only [window, List.take_add, List.drop_drop]

@[simp] theorem splice_nil (mem : List α) (k : ℕ) : splice mem k [] = mem := by
  simp [splice]

theorem splice_length {mem src : List α} {k : ℕ} (h : k + src.length ≤ mem.length) :
    (splice mem k src).length = mem.length := by
  simp only [splice, List.length_append, List.length_take, List.length_drop]
  omega

/-- Every address outside the overwritten range keeps its cell. -/
theorem getElem?_splice {mem src : List α} {k : ℕ} (h : k + src.length ≤ mem.length)
    (i : ℕ) :
    (splice mem k src)[i]? =
      if k ≤ i ∧ i < k + src.length then src[i - k]? else mem[i]? := by
  have hk : (mem.take k).length = k := by
    rw [List.length_take]
    omega
  rw [splice, List.append_assoc]
  by_cases h₁ : i < k
  · rw [List.getElem?_append_left (by omega), if_neg (by omega), List.getElem?_take_of_lt h₁]
  · rw [List.getElem?_append_right (by omega), hk]
    by_cases h₂ : i < k + src.length
    · rw [if_pos (by omega), List.getElem?_append_left (by omega)]
    · rw [if_neg (by omega), List.getElem?_append_right (by omega), List.getElem?_drop]
      congr 1
      omega

/-- Two adjacent writes are one write. -/
theorem splice_splice {mem s t : List α} {k : ℕ}
    (h : k + (s.length + t.length) ≤ mem.length) :
    splice (splice mem k s) (k + s.length) t = splice mem k (s ++ t) := by
  have hs : k + s.length ≤ mem.length := by omega
  apply List.ext_getElem?
  intro i
  rw [getElem?_splice (by rw [splice_length hs]; omega), getElem?_splice hs,
    getElem?_splice (by simpa using h)]
  simp only [List.length_append]
  by_cases h₁ : k ≤ i ∧ i < k + s.length
  · rw [if_neg (by omega), if_pos h₁, if_pos (by omega), List.getElem?_append_left (by omega)]
  · by_cases h₂ : k + s.length ≤ i ∧ i < k + s.length + t.length
    · rw [if_pos h₂, if_pos (by omega), List.getElem?_append_right (by omega)]
      congr 1
      omega
    · rw [if_neg h₂, if_neg h₁, if_neg (by omega)]

theorem splice_append_right {mem src : List α} {k : ℕ} (h : k + src.length ≤ mem.length)
    (more : List α) : splice (mem ++ more) k src = splice mem k src ++ more := by
  simp only [splice, List.append_assoc]
  rw [List.take_append_of_le_length (by omega), List.drop_append_of_le_length (by omega)]

/-- All rows have length `n`. -/
def Uniform (n : ℕ) (rows : List (List α)) : Prop := ∀ r ∈ rows, r.length = n

theorem Uniform.tail {n : ℕ} {r : List α} {rows : List (List α)}
    (h : Uniform n (r :: rows)) : Uniform n rows :=
  fun x hx => h x (List.mem_cons_of_mem _ hx)

theorem Uniform.flatten_length {n : ℕ} {rows : List (List α)} (h : Uniform n rows) :
    rows.flatten.length = rows.length * n := by
  induction rows with
  | nil => simp
  | cons r rows ih =>
    rw [List.flatten_cons, List.length_append, h r (by simp), ih h.tail, List.length_cons]
    ring

theorem Uniform.set {n i : ℕ} {r : List α} {rows : List (List α)} (h : Uniform n rows)
    (hr : r.length = n) : Uniform n (rows.set i r) := by
  intro x hx
  rcases List.mem_or_eq_of_mem_set hx with hx | rfl
  · exact h x hx
  · exact hr

/-- A range inside row `i`, read through the linear address. -/
theorem window_flatten {n : ℕ} {rows : List (List α)} (h : Uniform n rows)
    {i j len : ℕ} {r : List α} (hr : rows[i]? = some r) (hj : j + len ≤ n) :
    window rows.flatten (i * n + j) len = window r j len := by
  induction rows generalizing i with
  | nil => simp at hr
  | cons x rows ih =>
    have hx : x.length = n := h x (by simp)
    cases i with
    | zero =>
      obtain rfl : x = r := by simpa using hr
      simp only [window, List.flatten_cons, Nat.zero_mul, Nat.zero_add]
      rw [List.drop_append_of_le_length (by omega),
        List.take_append_of_le_length (by rw [List.length_drop]; omega)]
    | succ i =>
      have ha : (i + 1) * n + j = x.length + (i * n + j) := by rw [hx]; ring
      simp only [window, List.flatten_cons, ha, List.drop_length_add_append]
      exact ih h.tail (by simpa using hr)

/-- A range inside row `i`, overwritten through the linear address. -/
theorem flatten_set_splice {n : ℕ} {rows : List (List α)} (h : Uniform n rows)
    {i j : ℕ} {r src : List α} (hr : rows[i]? = some r) (hj : j + src.length ≤ n) :
    (rows.set i (splice r j src)).flatten = splice rows.flatten (i * n + j) src := by
  induction rows generalizing i with
  | nil => simp at hr
  | cons x rows ih =>
    have hx : x.length = n := h x (by simp)
    cases i with
    | zero =>
      obtain rfl : x = r := by simpa using hr
      simp only [List.set_cons_zero, List.flatten_cons, Nat.zero_mul, Nat.zero_add]
      exact (splice_append_right (by omega) _).symm
    | succ i =>
      have ha : (i + 1) * n + j = x.length + (i * n + j) := by rw [hx]; ring
      rw [List.set_cons_succ, List.flatten_cons, ih h.tail (by simpa using hr)]
      simp only [splice, List.flatten_cons, ha, Nat.add_assoc, List.drop_length_add_append,
        List.take_length_add_append, List.append_assoc]

end Gudov.RowMemory
