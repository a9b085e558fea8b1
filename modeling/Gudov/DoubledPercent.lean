import Gudov.LogPattern

/-!
# Doubled percent signs

A text is put into a pattern with each of its percent signs doubled. The scanner takes the first
of two percent signs as a text and looks at the second one again, so a row of `n` signs in the
text becomes `2 * n - 1` of them, and a directive. What follows the directive is doubled text
again, and so is its format.
-/
namespace Gudov
open Piece PatternPart

/-- Each percent sign doubled. -/
def doubled (s : List Char) : List Char := s.flatMap fun c => if c = '%' then ['%', '%'] else [c]

section Doubled
variable {c : Char} {s t : List Char}

theorem doubled_percent (s : List Char) : doubled ('%' :: s) = '%' :: '%' :: doubled s := rfl

theorem doubled_cons (h : c ≠ '%') (s : List Char) : doubled (c :: s) = c :: doubled s := by
  rw [doubled, List.flatMap_cons, if_neg h, List.singleton_append, doubled]

theorem doubled_append (s t : List Char) : doubled (s ++ t) = doubled s ++ doubled t := by
  rw [doubled, List.flatMap_append, doubled, doubled]

theorem doubled_of_not_mem (h : '%' ∉ s) : doubled s = s := by
  induction s with
  | nil => rfl
  | cons c s ih =>
    have hc : c ≠ '%' := by
      rintro rfl
      exact h List.mem_cons_self
    rw [doubled_cons hc, ih fun hs => h (List.mem_cons_of_mem c hs)]

theorem doubled_head (h : s.head? ≠ some '%') : (doubled s).head? ≠ some '%' := by
  cases s with
  | nil => exact h
  | cons c s =>
    have hc : c ≠ '%' := by simpa using h
    rw [doubled_cons hc]
    simpa using hc

end Doubled

section Scanner
variable {str fmt nstr t rest : List Char} {part : PatternPart}

theorem scanFormat_doubled (f : List Char)
    (h : scanFormat str (doubled f) (doubled t) = some (part,rest)) :
    ∃ x t', t = x ++ '}' :: t' ∧ '}' ∉ x ∧ part = .directive str (doubled (f ++ x)) ∧
      rest = doubled t' := by
  induction t generalizing f with
  | nil => cases h
  | cons c t ih =>
    have hcons : ∀ c, c ≠ '}' →
        scanFormat str (doubled (f ++ [c])) (doubled t) = some (part,rest) →
        ∃ x t', c :: t = x ++ '}' :: t' ∧ '}' ∉ x ∧ part = .directive str (doubled (f ++ x)) ∧
          rest = doubled t' := by
      intro c hc h
      obtain ⟨x,t',rfl,hx,hpart,hrest⟩ := ih (f ++ [c]) h
      refine ⟨c :: x,t',rfl,?_,by simpa using hpart,hrest⟩
      intro hmem
      rcases List.mem_cons.mp hmem with hmem | hmem
      · exact hc hmem.symm
      · exact hx hmem
    by_cases hpercent : c = '%'
    · subst hpercent
      refine hcons _ (by decide) ?_
      rw [doubled_percent] at h
      simpa [scanFormat, doubled_append, doubled] using h
    · rw [doubled_cons hpercent, scanFormat] at h
      by_cases hc : c = '}'
      · subst hc
        rw [if_pos rfl] at h
        cases h
        exact ⟨[],t,rfl,by simp,by simp,rfl⟩
      · rw [if_neg hc] at h
        refine hcons c hc ?_
        rwa [doubled_append, doubled_cons hpercent]

/-- A directive in doubled text: its name, and possibly a format in braces that is doubled text
itself. -/
theorem scanDirective_doubled (h : scanDirective str (doubled t) = some (part,rest)) :
    ∃ name t', rest = doubled t' ∧
      ((part = .directive (str ++ name) [] ∧ t = name ++ t') ∨
        ∃ x, part = .directive (str ++ name) (doubled x) ∧ '}' ∉ x ∧
          t = name ++ '{' :: (x ++ '}' :: t')) := by
  induction t generalizing str with
  | nil =>
    cases h
    exact ⟨[],[],rfl,.inl ⟨by simp,rfl⟩⟩
  | cons c t ih =>
    by_cases hpercent : c = '%'
    · subst hpercent
      cases h
      exact ⟨[],'%' :: t,rfl,.inl ⟨by simp,rfl⟩⟩
    · rw [doubled_cons hpercent, scanDirective] at h
      by_cases hend : (!c.isAlpha && decide (c ≠ '{') && decide (c ≠ '}')) = true
      · rw [if_pos hend] at h
        cases h
        exact ⟨[],c :: t,(doubled_cons hpercent t).symm,.inl ⟨by simp,rfl⟩⟩
      · rw [if_neg hend] at h
        by_cases hopen : c = '{'
        · subst hopen
          obtain ⟨x,t',rfl,hx,hpart,hrest⟩ := scanFormat_doubled [] h
          exact ⟨[],t',hrest,.inr ⟨x,by simpa using hpart,hx,rfl⟩⟩
        · rw [if_neg hopen] at h
          obtain ⟨name,t',hrest,hcases⟩ := ih h
          refine ⟨c :: name,t',hrest,?_⟩
          rcases hcases with ⟨hpart,rfl⟩ | ⟨x,hpart,hx,rfl⟩
          · exact .inl ⟨by simpa using hpart,rfl⟩
          · exact .inr ⟨x,by simpa using hpart,hx,rfl⟩

theorem scanFormat_part {f cs : List Char} (h : scanFormat str f cs = some (part,rest)) :
    ∃ name fmt, part = .directive name fmt := by
  induction cs generalizing f with
  | nil => cases h
  | cons c cs ih =>
    rw [scanFormat] at h
    split at h
    · cases h
      exact ⟨str,f,rfl⟩
    · exact ih h

theorem scanDirective_part {cs : List Char} (h : scanDirective str cs = some (part,rest)) :
    ∃ name fmt, part = .directive name fmt := by
  induction cs generalizing str with
  | nil =>
    cases h
    exact ⟨str,[],rfl⟩
  | cons c cs ih =>
    rw [scanDirective] at h
    split at h
    · cases h
      exact ⟨str,[],rfl⟩
    · split at h
      · exact scanFormat_part h
      · exact ih h

/-- The first percent sign of a pair is a text. -/
theorem scan_pair (nstr cs : List Char) :
    scan nstr 0 ('%' :: '%' :: cs) = scan (nstr ++ ['%']) 0 ('%' :: cs) := by
  rw [scan]
  simp

/-- A row of percent signs, but for the last one. -/
theorem scan_row (nstr t : List Char) (n : ℕ) :
    scan nstr 0 ('%' :: doubled (List.replicate n '%' ++ t)) =
      scan (nstr ++ List.replicate (2 * n) '%') 0 ('%' :: doubled t) := by
  induction n generalizing nstr with
  | zero => simp
  | succ n ih =>
    rw [List.replicate_succ, List.cons_append, doubled_percent, scan_pair, scan_pair, ih]
    congr 1
    rw [Nat.mul_succ, List.replicate_succ, List.replicate_succ]
    simp

/-- The last percent sign of a row: either its brace is not closed, or there is a directive. -/
theorem scan_last (nstr : List Char) (ht : t.head? ≠ some '%') :
    (∃ parts, scan nstr 0 ('%' :: doubled t) = .patternError :: parts) ∨
    ∃ name fmt t', scan nstr 0 ('%' :: doubled t) =
        flush nstr ++ .directive name fmt :: scan [] 0 (doubled t') ∧
      ((fmt = [] ∧ t = name ++ t') ∨
        ∃ x, fmt = doubled x ∧ '}' ∉ x ∧ t = name ++ '{' :: (x ++ '}' :: t')) := by
  have hhead := doubled_head ht
  cases hpart : scanDirective [] (doubled t) with
  | none => exact .inl ⟨_,scan_open hhead hpart⟩
  | some r =>
    obtain ⟨part,rest⟩ := r
    refine .inr ?_
    obtain ⟨name,t',rfl,hcases⟩ := scanDirective_doubled hpart
    rcases hcases with ⟨rfl,rfl⟩ | ⟨x,rfl,hx,rfl⟩
    · rw [doubled_append] at hhead hpart
      refine ⟨name,[],t',?_,.inl ⟨rfl,rfl⟩⟩
      rw [doubled_append, scan_directive hhead hpart, List.nil_append]
    · have hsplit : doubled (name ++ '{' :: (x ++ '}' :: t')) =
          doubled (name ++ '{' :: (x ++ ['}'])) ++ doubled t' := by
        rw [← doubled_append]
        simp
      rw [hsplit] at hhead hpart
      refine ⟨name,doubled x,t',?_,.inr ⟨x,rfl,hx,rfl⟩⟩
      rw [hsplit, scan_directive hhead hpart, List.nil_append]

end Scanner

end Gudov
