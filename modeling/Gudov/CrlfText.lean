import Mathlib.Data.List.Basic

/-!
# Texts of lines

A text is cut at its first empty line, and what stands in front of that is cut into lines at
every CR LF. A text that was printed line by line is cut back into its lines, as long as none
of them is empty or has a CR in it.
-/
namespace Gudov.CrlfText
variable {c : UInt8} {l rest body : List UInt8}

/-- What stands in front of the first CR LF CR LF, and what stands behind it. -/
def splitBlank : List UInt8 → Option (List UInt8 × List UInt8)
  | [] => none
  | c :: rest =>
    if [13, 10, 13, 10].isPrefixOf (c :: rest) then some ([], rest.drop 3)
    else (splitBlank rest).map fun p => (c :: p.1, p.2)

/-- A character in front of the first line. -/
def consFirst (c : UInt8) : List (List UInt8) → List (List UInt8)
  | [] => [[c]]
  | l :: ls => (c :: l) :: ls

/-- The lines of a text, between its CR LFs. -/
def lines : List UInt8 → List (List UInt8)
  | [] => [[]]
  | [c] => [[c]]
  | c :: d :: rest =>
    if c = 13 ∧ d = 10 then [] :: lines rest else consFirst c (lines (d :: rest))

/-- Every line with a CR LF behind it. -/
def printLines (ls : List (List UInt8)) : List UInt8 := ls.flatMap (· ++ [13, 10])

theorem lines_of_not_mem (h : 13 ∉ l) : lines l = [l] := by
  induction l with
  | nil => rfl
  | cons c l ih =>
    rw [List.mem_cons, not_or] at h
    cases l with
    | nil => rfl
    | cons d l =>
      rw [lines, if_neg (fun hc => h.1 hc.1.symm), ih h.2]
      rfl

theorem lines_append (h : 13 ∉ l) : lines (l ++ 13 :: 10 :: rest) = l :: lines rest := by
  induction l with
  | nil => rfl
  | cons c l ih =>
    rw [List.mem_cons, not_or] at h
    have hrest := ih h.2
    obtain ⟨d,tail,htail⟩ := List.exists_cons_of_ne_nil (l := l ++ 13 :: 10 :: rest) (by simp)
    rw [htail] at hrest
    rw [List.cons_append, htail, lines, if_neg (fun hc => h.1 hc.1.symm), hrest]
    rfl

/-- A character that does not start an empty line. -/
theorem splitBlank_cons (h : [13, 10, 13, 10].isPrefixOf (c :: rest) = false) :
    splitBlank (c :: rest) = (splitBlank rest).map fun p => (c :: p.1, p.2) := by
  rw [splitBlank, h, if_neg Bool.false_ne_true]

theorem splitBlank_line (h : 13 ∉ l) :
    splitBlank (l ++ rest) = (splitBlank rest).map fun p => (l ++ p.1, p.2) := by
  induction l with
  | nil => simp
  | cons c l ih =>
    rw [List.mem_cons, not_or] at h
    have hne : ((13 : UInt8) == c) = false := beq_false_of_ne h.1
    rw [List.cons_append, splitBlank_cons (by simp [List.isPrefixOf, hne]), ih h.2, Option.map_map]
    rfl

/-- The end of a line in front of a line that is not empty. -/
theorem splitBlank_break (h : c ≠ 13) :
    splitBlank (13 :: 10 :: c :: rest) =
      (splitBlank (c :: rest)).map fun p => (13 :: 10 :: p.1, p.2) := by
  have hne : ((13 : UInt8) == c) = false := beq_false_of_ne h.symm
  rw [splitBlank_cons (by simp [List.isPrefixOf, hne]), splitBlank_cons (by simp [List.isPrefixOf]),
    Option.map_map]
  rfl

/-- Lines printed one after another, an empty line and anything behind it. -/
theorem split_printLines {ls : List (List UInt8)} (hne : ls ≠ [])
    (hls : ∀ l ∈ ls, l ≠ [] ∧ 13 ∉ l) (body : List UInt8) :
    ∃ head, splitBlank (printLines ls ++ 13 :: 10 :: body) = some (head, body) ∧
      lines head = ls := by
  induction ls with
  | nil => exact absurd rfl hne
  | cons l ls ih =>
    obtain ⟨-,hl⟩ := hls l (by simp)
    cases ls with
    | nil =>
      refine ⟨l,?_,lines_of_not_mem hl⟩
      have hend : splitBlank (13 :: 10 :: 13 :: 10 :: body) = some ([], body) := by
        simp [splitBlank, List.isPrefixOf]
      simp [printLines, splitBlank_line hl, hend]
    | cons l' ls =>
      obtain ⟨head,hsplit,hlines⟩ := ih (by simp) fun x hx => hls x (by simp [hx])
      obtain ⟨hne',hl'⟩ := hls l' (by simp)
      obtain ⟨c,w,rfl⟩ := List.exists_cons_of_ne_nil hne'
      have hc : c ≠ 13 := fun h => hl' (by simp [h])
      refine ⟨l ++ 13 :: 10 :: head,?_,by rw [lines_append hl, hlines]⟩
      have hbreak : splitBlank (13 :: 10 :: c :: (w ++ 13 :: 10 :: (printLines ls ++
          13 :: 10 :: body))) = _ := splitBlank_break hc
      have htext : printLines ((c :: w) :: ls) ++ 13 :: 10 :: body =
          c :: (w ++ 13 :: 10 :: (printLines ls ++ 13 :: 10 :: body)) := by
        simp [printLines]
      rw [htext] at hsplit
      rw [hsplit] at hbreak
      have hall : printLines (l :: (c :: w) :: ls) ++ 13 :: 10 :: body =
          l ++ 13 :: 10 :: c :: (w ++ 13 :: 10 :: (printLines ls ++ 13 :: 10 :: body)) := by
        simp [printLines]
      rw [hall, splitBlank_line hl, hbreak]
      rfl

end Gudov.CrlfText
