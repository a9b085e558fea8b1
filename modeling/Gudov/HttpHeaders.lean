import Gudov.HttpMessage
import Mathlib.Data.List.Induction

/-!
# Header maps in order

`strcasecmp` compares what is in front of the first 0 byte of both strings, letter case
aside, in the order of words. So it is an order, and filling a map in the order of its
keys gives the map back, with an entry that was there before in its place.
-/
namespace Gudov

/-- What `strcasecmp` looks at. -/
def folded (a : List UInt8) : List UInt8 := (a.takeWhile (· != 0)).map toLower

theorem toLower_eq_zero {x : UInt8} (h : toLower x = 0) : x = 0 := by
  unfold toLower at h
  split at h
  next hupper =>
    have hle := UInt8.le_iff_toNat_le.mp hupper.1
    have hge := UInt8.le_iff_toNat_le.mp hupper.2
    have hsum := congrArg UInt8.toNat h
    rw [UInt8.toNat_add] at hsum
    simp at hle hge hsum
    omega
  next => exact h

theorem toLower_pos {x : UInt8} (h : x ≠ 0) : 0 < toLower x :=
  UInt8.pos_iff_ne_zero.mpr fun hzero => h (toLower_eq_zero hzero)

theorem strcasecmp_eq (a b : List UInt8) :
    strcasecmp a b = List.compareLex compare (folded a) (folded b) := by
  induction a generalizing b with
  | nil =>
    cases b with
    | nil => rfl
    | cons y b =>
      by_cases hy : y = 0
      · simp [strcasecmp, folded, hy, List.compareLex_nil_nil]
      · simp [strcasecmp, folded, hy, List.compareLex_nil_cons]
  | cons x a ih =>
    cases b with
    | nil =>
      by_cases hx : x = 0
      · simp [strcasecmp, folded, hx, List.compareLex_nil_nil]
      · simp [strcasecmp, folded, hx, List.compareLex_cons_nil]
    | cons y b =>
      have hzero : toLower 0 = 0 := rfl
      by_cases hx : x = 0 <;> by_cases hy : y = 0
      · simp [strcasecmp, folded, hx, hy, List.compareLex_nil_nil]
      · simp [strcasecmp, folded, hx, hy, hzero, toLower_pos hy, List.compareLex_nil_cons]
      · have hnot : ¬ toLower x < 0 := UInt8.not_lt_zero
        simp [strcasecmp, folded, hx, hy, hzero, hnot, toLower_pos hx, List.compareLex_cons_nil]
      · have hfold : ∀ (z : UInt8) (l : List UInt8), z ≠ 0 → folded (z :: l) = toLower z :: folded l := by
          intro z l hz
          simp [folded, hz]
        rw [hfold x a hx, hfold y b hy, List.compareLex_cons_cons, ← ih]
        cases hcmp : compare (toLower x) (toLower y) with
        | lt => simp [strcasecmp, Std.compare_eq_lt.mp hcmp]
        | eq => simp [strcasecmp, Std.LawfulEqOrd.eq_of_compare hcmp, UInt8.lt_irrefl, hx]
        | gt =>
          have hgt := Std.compare_eq_gt.mp hcmp
          simp [strcasecmp, hgt, UInt8.lt_asymm hgt]

instance : Std.TransCmp strcasecmp where
  eq_swap := by
    intro a b
    rw [strcasecmp_eq, strcasecmp_eq]
    exact Std.OrientedCmp.eq_swap
  isLE_trans := by
    intro a b c hab hbc
    rw [strcasecmp_eq] at hab hbc ⊢
    exact Std.TransCmp.isLE_trans hab hbc

namespace HeaderMap
variable {k k' v : List UInt8} {p : List UInt8 × List UInt8} {m l : HeaderMap}

/-- The keys are in their order. -/
def Ordered (m : HeaderMap) : Prop := m.Pairwise fun a b => strcasecmp a.1 b.1 = .lt

instance (m : HeaderMap) : Decidable (Ordered m) :=
  inferInstanceAs (Decidable (m.Pairwise fun a b => strcasecmp a.1 b.1 = .lt))

/-- No key is the given one. -/
def Lacks (k : List UInt8) (m : HeaderMap) : Prop := ∀ e ∈ m, strcasecmp k e.1 ≠ .eq

instance (k : List UInt8) (m : HeaderMap) : Decidable (Lacks k m) :=
  inferInstanceAs (Decidable (∀ e ∈ m, strcasecmp k e.1 ≠ .eq))

theorem set_last (h : ∀ e ∈ m, strcasecmp k e.1 = .gt) : m.set k v = m ++ [(k, v)] := by
  induction m with
  | nil => rfl
  | cons e m ih =>
    rw [set, h e (by simp)]
    exact congrArg (e :: ·) (ih fun d hd => h d (by simp [hd]))

theorem set_append_lt (hm : m.Lacks k) (hlt : strcasecmp k p.1 = .lt) :
    set k v (m ++ [p]) = set k v m ++ [p] := by
  induction m with
  | nil =>
    simp only [List.nil_append, set, hlt]
    rfl
  | cons e m ih =>
    have hne := hm e (by simp)
    rw [List.cons_append, set, set]
    cases hcmp : strcasecmp k e.1 with
    | lt => rfl
    | eq => exact absurd hcmp hne
    | gt => exact congrArg (e :: ·) (ih fun d hd => hm d (by simp [hd]))

theorem mem_set {e : List UInt8 × List UInt8} (h : e ∈ set k v m) :
    e.1 = k ∨ ∃ d ∈ m, e.1 = d.1 := by
  induction m with
  | nil => exact .inl (by rw [List.mem_singleton.mp h])
  | cons d m ih =>
    rw [set] at h
    split at h
    next =>
      rcases List.mem_cons.mp h with rfl | h
      · exact .inl rfl
      · exact .inr ⟨e,h,rfl⟩
    next =>
      rcases List.mem_cons.mp h with rfl | h
      · exact .inr ⟨d,by simp,rfl⟩
      · exact .inr ⟨e,by simp [h],rfl⟩
    next =>
      rcases List.mem_cons.mp h with rfl | h
      · exact .inr ⟨_,by simp,rfl⟩
      · refine (ih h).imp id ?_
        rintro ⟨d',hd,heq⟩
        exact ⟨d',by simp [hd],heq⟩

/-- Entries set in their order, after one that is not among them. -/
theorem foldl_set (hl : l.Ordered) (hk : l.Lacks k) :
    l.foldl (fun m p => HeaderMap.set p.1 p.2 m) [(k, v)] = l.set k v := by
  induction l using List.reverseRecOn with
  | nil => rfl
  | append_singleton l p ih =>
    obtain ⟨hl,-,hbefore⟩ := List.pairwise_append.mp hl
    have hk' : Lacks k l := fun e he => hk e (by simp [he])
    have hlast : ∀ e ∈ l, strcasecmp p.1 e.1 = .gt := fun e he =>
      Std.OrientedCmp.gt_of_lt (hbefore e he p (by simp))
    rw [List.foldl_append, ih hl hk', List.foldl_cons, List.foldl_nil]
    cases hcmp : strcasecmp k p.1 with
    | eq => exact absurd hcmp (hk p (by simp))
    | lt =>
      rw [set_append_lt hk' hcmp]
      apply set_last
      intro e he
      rcases mem_set he with heq | ⟨d,hd,heq⟩
      · rw [heq]
        exact Std.OrientedCmp.gt_of_lt hcmp
      · rw [heq]
        exact hlast d hd
    | gt =>
      have hafter : ∀ e ∈ l, strcasecmp k e.1 = .gt := fun e he =>
        Std.TransCmp.gt_trans hcmp (hlast e he)
      have hall : ∀ e ∈ l ++ [p], strcasecmp k e.1 = .gt := by
        intro e he
        rcases List.mem_append.mp he with he | he
        · exact hafter e he
        · rw [List.mem_singleton.mp he]
          exact hcmp
      have hlacks : Lacks p.1 l := fun e he => by simp [hlast e he]
      rw [set_last hafter, set_append_lt hlacks (Std.OrientedCmp.lt_of_gt hcmp), set_last hlast,
        set_last hall]

theorem find_set : (set k v m).find k = some v := by
  induction m with
  | nil => simp [set, find, Std.ReflCmp.compare_self]
  | cons e m ih =>
    rw [set]
    cases hcmp : strcasecmp k e.1 with
    | lt => simp [find, Std.ReflCmp.compare_self]
    | eq => simp [find, hcmp]
    | gt => simp [find, hcmp, ih]

theorem find_lacks (h : m.Lacks k) : m.find k = none := by
  induction m with
  | nil => rfl
  | cons e m ih =>
    rw [find, if_neg (h e (by simp))]
    exact ih fun d hd => h d (by simp [hd])

theorem lacks_set (hm : m.Lacks k') (hk : strcasecmp k' k ≠ .eq) : (m.set k v).Lacks k' := by
  intro e he
  rcases mem_set he with heq | ⟨d,hd,heq⟩
  · rw [heq]
    exact hk
  · rw [heq]
    exact hm d hd

end HeaderMap

end Gudov
