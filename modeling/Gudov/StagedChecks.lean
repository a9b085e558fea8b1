import Mathlib.Data.List.Basic

/-!
# Leaving after a sequence of checks

The members of a group look at several resources, one after the other, and leave when each
was found empty. The round of one member is not atomic: a resource that it has looked at may
fill again before it leaves. Nothing is left behind as long as a resource is filled only by
members that have no check of their round behind them, since such a member will look at all
of them itself.
-/
namespace Gudov.StagedChecks

variable {R M : Type} {idle : ℕ → R → Prop} {k : ℕ} {r r' : R} {stage stage' : M → ℕ} {i : M}

/-- `stage` counts the checks that a member has behind it in its round. A resource that is
not empty has a member that will still look at it. -/
def Watched (idle : ℕ → R → Prop) (k : ℕ) (r : R) (stage : M → ℕ) : Prop :=
  ∀ j < k, ¬ idle j r → ∃ i, stage i ≤ j

/-- A member at the beginning of its round watches everything. -/
theorem Watched.of_fresh (h : stage i = 0) : Watched idle k r stage :=
  fun j _ _ => ⟨i,h ▸ Nat.zero_le j⟩

/-- A member that finds a resource empty goes on to the next. -/
theorem Watched.pass (h : Watched idle k r stage) (hidle : idle (stage i) r)
    (hnext : stage' i = stage i + 1) (hother : ∀ i', i' ≠ i → stage' i' = stage i') :
    Watched idle k r stage' := by
  intro j hj hbusy
  obtain ⟨i',hi'⟩ := h j hj hbusy
  by_cases heq : i' = i
  · subst heq
    have hne : stage i' ≠ j := by
      rintro rfl
      exact hbusy hidle
    exact ⟨i',by omega⟩
  · exact ⟨i',by rwa [hother i' heq]⟩

/-- Nothing fills, and no member moves. -/
theorem Watched.mono (h : Watched idle k r stage) (hidle : ∀ j < k, idle j r → idle j r')
    (hstage : ∀ i, stage' i = stage i) : Watched idle k r' stage' := by
  intro j hj hbusy
  obtain ⟨i,hi⟩ := h j hj fun hold => hbusy (hidle j hj hold)
  exact ⟨i,by rwa [hstage i]⟩

/-- When every member has left, everything is empty. -/
theorem Watched.all_idle (h : Watched idle k r stage) (hleft : ∀ i, k ≤ stage i) :
    ∀ j < k, idle j r := by
  intro j hj
  by_contra hbusy
  obtain ⟨i,hi⟩ := h j hj hbusy
  have := hleft i
  omega

end Gudov.StagedChecks
