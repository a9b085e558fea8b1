import Mathlib.Data.List.TakeWhile

/-!
# Lists up to a delimiter

A part that does not contain the delimiter is found again in front of the first one.
-/
namespace Gudov.DelimitedList
variable {α : Type} [DecidableEq α] {d : α} {u v r s : List α}

theorem all_ne (hu : d ∉ u) : ∀ c ∈ u, decide (c ≠ d) = true := by
  intro c hc
  rw [decide_eq_true_eq]
  rintro rfl
  exact hu hc

theorem takeWhile_append (hu : d ∉ u) (r : List α) : (u ++ d :: r).takeWhile (· ≠ d) = u := by
  rw [List.takeWhile_append_of_pos (all_ne hu)]
  simp

theorem dropWhile_append (hu : d ∉ u) (r : List α) :
    (u ++ d :: r).dropWhile (· ≠ d) = d :: r := by
  rw [List.dropWhile_append_of_pos (all_ne hu)]
  simp

theorem dropWhile_nil (hu : d ∉ u) : u.dropWhile (· ≠ d) = [] :=
  List.dropWhile_eq_nil_iff.mpr (all_ne hu)

/-- The list is cut at its first delimiter in one way only. -/
theorem append_inj (hu : d ∉ u) (hv : d ∉ v) (h : u ++ d :: r = v ++ d :: s) : u = v ∧ r = s := by
  have huv : u = v := by rw [← takeWhile_append hu r, h, takeWhile_append hv s]
  subst huv
  exact ⟨rfl,(List.cons.inj (List.append_cancel_left h)).2⟩

end Gudov.DelimitedList
