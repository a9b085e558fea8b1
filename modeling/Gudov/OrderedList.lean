import Mathlib.Data.List.Basic
import Mathlib.Data.List.TakeWhile

/-!
# Sets kept as strictly sorted lists

The operations of an ordered set whose order is given by a Boolean comparator:
lower bound, search, insertion and removal, all by comparison only. They are
specified for strictly sorted lists. The comparator has to be a strict order;
totality is asked for only where an element meets the members of the list.
-/
namespace Gudov.OrderedList
variable {α : Type} (lt : α → α → Bool)

def Sorted (l : List α) : Prop := l.Pairwise fun a b => lt a b = true

/-- Insert before the first member that is not smaller, unless an equivalent
member exists. -/
def insert (x : α) (l : List α) : List α :=
  match l.dropWhile (lt · x) with
  | [] => l ++ [x]
  | y :: _ =>
    if lt x y then l.takeWhile (lt · x) ++ x :: l.dropWhile (lt · x) else l

/-- Remove the member equivalent to `x`; `none` when the search ends at the end. -/
def erase (x : α) (l : List α) : Option (List α) :=
  match l.dropWhile (lt · x) with
  | [] => none
  | y :: ys => if lt x y then none else some (l.takeWhile (lt · x) ++ ys)

/-- A strict order as far as the lemmas need it. -/
structure Strict : Prop where
  irrefl : ∀ a, lt a a = false
  trans : ∀ a b c, lt a b = true → lt b c = true → lt a c = true

variable {lt}

theorem dropWhile_split (hlt : Strict lt) {a b : List α} {x : α}
    (h : Sorted lt (a ++ x :: b)) :
    (a ++ x :: b).takeWhile (lt · x) = a ∧ (a ++ x :: b).dropWhile (lt · x) = x :: b := by
  have ha : ∀ y ∈ a, lt y x = true := fun y hy =>
    (List.pairwise_append.mp h).2.2 y hy x (by simp)
  constructor
  · rw [List.takeWhile_append_of_pos ha]
    simp [hlt.irrefl]
  · rw [List.dropWhile_append_of_pos ha]
    simp [hlt.irrefl]

/-- A member is found and taken out. -/
theorem erase_of_mem (hlt : Strict lt) {l : List α} {x : α} (h : Sorted lt l) (hx : x ∈ l) :
    ∃ l', erase lt x l = some l' ∧ l.Perm (x :: l') ∧ Sorted lt l' := by
  obtain ⟨a,b,rfl⟩ := List.append_of_mem hx
  obtain ⟨ht,hd⟩ := dropWhile_split hlt h
  refine ⟨a ++ b,?_,List.perm_middle,?_⟩
  · simp only [erase, hd, ht, hlt.irrefl, Bool.false_eq_true, if_false]
  · exact h.sublist (List.Sublist.append_left (List.sublist_cons_self x b) a)

theorem mem_of_mem_erase {l l' : List α} {x y : α} (he : erase lt x l = some l') (hy : y ∈ l') :
    y ∈ l := by
  unfold erase at he
  split at he
  · cases he
  next z zs hd =>
    split at he
    · cases he
    · cases he
      rw [← List.takeWhile_append_dropWhile (p := (lt · x)) (l := l), hd]
      rcases List.mem_append.mp hy with hy | hy
      · exact List.mem_append_left _ hy
      · exact List.mem_append_right _ (List.mem_cons_of_mem z hy)

theorem mem_of_mem_insert {l : List α} {x y : α} (hy : y ∈ insert lt x l) : y = x ∨ y ∈ l := by
  unfold insert at hy
  split at hy
  · rcases List.mem_append.mp hy with hy | hy
    · exact Or.inr hy
    · exact Or.inl (List.mem_singleton.mp hy)
  · split at hy
    · rcases List.mem_append.mp hy with hy | hy
      · exact Or.inr ((List.takeWhile_sublist _).mem hy)
      · rcases List.mem_cons.mp hy with hy | hy
        · exact Or.inl hy
        · exact Or.inr ((List.dropWhile_sublist _).mem hy)
    · exact Or.inr hy

/-- A comparable new element goes to its place. -/
theorem insert_eq {l : List α} {x : α} (hx : ∀ y ∈ l, lt y x = true ∨ lt x y = true) :
    insert lt x l = l.takeWhile (lt · x) ++ x :: l.dropWhile (lt · x) := by
  unfold insert
  split
  next hd =>
    have hl := List.takeWhile_append_dropWhile (p := (lt · x)) (l := l)
    rw [hd, List.append_nil] at hl
    rw [hl, hd]
  next y ys hd =>
    have hy : lt y x = false := by
      have hne : l.dropWhile (lt · x) ≠ [] := by simp [hd]
      have := List.head_dropWhile_not (lt · x) hne
      simpa [hd] using this
    have hmem : y ∈ l := (List.dropWhile_sublist (lt · x)).mem (by simp [hd])
    have hxy : lt x y = true := (hx y hmem).resolve_left (by simp [hy])
    rw [if_pos hxy]

theorem insert_perm {l : List α} {x : α} (hx : ∀ y ∈ l, lt y x = true ∨ lt x y = true) :
    (insert lt x l).Perm (x :: l) := by
  rw [insert_eq hx]
  refine List.perm_middle.trans ?_
  rw [List.takeWhile_append_dropWhile]

theorem insert_sorted (hlt : Strict lt) {l : List α} {x : α} (h : Sorted lt l)
    (hx : ∀ y ∈ l, lt y x = true ∨ lt x y = true) : Sorted lt (insert lt x l) := by
  rw [insert_eq hx]
  have hsplit := List.takeWhile_append_dropWhile (p := (lt · x)) (l := l)
  have hbefore : ∀ y ∈ l.takeWhile (lt · x), lt y x = true := fun y hy =>
    List.mem_takeWhile_imp (p := (lt · x)) hy
  have hafter : ∀ y ∈ l.dropWhile (lt · x), lt x y = true := by
    intro y hy
    have hs : Sorted lt (l.dropWhile (lt · x)) := h.sublist (List.dropWhile_sublist _)
    cases hd : l.dropWhile (lt · x) with
    | nil => simp [hd] at hy
    | cons z zs =>
      have hz : lt z x = false := by
        have hne : l.dropWhile (lt · x) ≠ [] := by simp [hd]
        have := List.head_dropWhile_not (lt · x) hne
        simpa [hd] using this
      have hzl : z ∈ l := (List.dropWhile_sublist (lt · x)).mem (by simp [hd])
      have hxz : lt x z = true := (hx z hzl).resolve_left (by simp [hz])
      rw [hd] at hs hy
      rcases List.mem_cons.mp hy with rfl | hy
      · exact hxz
      · exact hlt.trans x z y hxz ((List.pairwise_cons.mp hs).1 y hy)
  rw [← hsplit] at h
  obtain ⟨h₁,h₂,h₃⟩ := List.pairwise_append.mp h
  refine List.pairwise_append.mpr ⟨h₁,List.pairwise_cons.mpr ⟨hafter,h₂⟩,?_⟩
  intro y hy z hz
  rcases List.mem_cons.mp hz with rfl | hz
  · exact hbefore y hy
  · exact h₃ y hy z hz

/-- An element after all members is appended. -/
theorem insert_last {l : List α} {x : α} (hx : ∀ y ∈ l, lt y x = true) :
    insert lt x l = l ++ [x] := by
  rw [insert_eq fun y hy => Or.inl (hx y hy), List.takeWhile_eq_self_iff.mpr hx,
    List.dropWhile_eq_nil_iff.mpr hx]

/-- Nothing is inserted beside an equivalent member. -/
theorem insert_of_equivalent (hlt : Strict lt) {l : List α} {x z : α} (h : Sorted lt l)
    (hz : z ∈ l) (hzx : lt z x = false) (hxz : lt x z = false) : insert lt x l = l := by
  unfold insert
  split
  next hd =>
    have := List.dropWhile_eq_nil_iff.mp hd z hz
    simp [hzx] at this
  next y ys hd =>
    rw [if_neg]
    intro hxy
    rw [← List.takeWhile_append_dropWhile (p := (lt · x)) (l := l), hd] at h hz
    rcases List.mem_append.mp hz with hz | hz
    · have := List.mem_takeWhile_imp (p := (lt · x)) hz
      simp [hzx] at this
    · rcases List.mem_cons.mp hz with rfl | hz
      · simp [hxz] at hxy
      · have hyz := (List.pairwise_cons.mp (List.pairwise_append.mp h).2.1).1 z hz
        simp [hlt.trans x y z hxy hyz] at hxz

/-- A sorted list stays sorted under a comparator that agrees on its members. -/
theorem Sorted.congr {lt' : α → α → Bool} {l : List α} (h : Sorted lt l)
    (he : ∀ a ∈ l, ∀ b ∈ l, lt' a b = lt a b) : Sorted lt' l :=
  List.Pairwise.imp_of_mem (fun {a b} ha hb hab => (he a ha b hb).trans hab) h

/-- What the first member behind a range has, and passes on along the list, all behind the
range have. -/
theorem forall_mem_dropWhile {R : α → α → Prop} {p : α → Bool} {Q : α → Prop} {l : List α}
    (hsorted : l.Pairwise R) (hstop : ∀ a ∈ l, p a = false → Q a)
    (hpass : ∀ a ∈ l, ∀ b, R a b → Q a → Q b) : ∀ a ∈ l.dropWhile p, Q a := by
  intro a ha
  have hsub : (l.dropWhile p).Sublist l := List.dropWhile_sublist p
  cases hd : l.dropWhile p with
  | nil => simp [hd] at ha
  | cons z zs =>
    have hz : p z = false := by
      have hne : l.dropWhile p ≠ [] := by simp [hd]
      have := List.head_dropWhile_not p hne
      simpa [hd] using this
    have hzl : z ∈ l := hsub.mem (by simp [hd])
    have hs := hsorted.sublist hsub
    rw [hd] at ha hs
    rcases List.mem_cons.mp ha with rfl | ha
    · exact hstop a hzl hz
    · exact hpass z hzl a ((List.pairwise_cons.mp hs).1 a ha) (hstop z hzl hz)

end Gudov.OrderedList
