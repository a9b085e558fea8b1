import Gudov.LogFormatter

/-!
# What the scanner of log patterns reads

A pattern is written from pieces: literal texts without a percent sign, and specifiers with or
without a format in braces. The scanner finds the pieces again and joins adjacent literals. The
end of a specifier without braces is only found if what follows is not a letter or a brace, so
this is part of the shape of a pattern.
-/
namespace Gudov

inductive Piece
  | literal (str : List Char)
  | specifier (str : List Char) (fmt : Option (List Char))
deriving Repr, DecidableEq

namespace Piece

def render : Piece → List Char
  | literal str => str
  | specifier str none => '%' :: str
  | specifier str (some fmt) => '%' :: (str ++ '{' :: (fmt ++ ['}']))

def renderAll (ps : List Piece) : List Char := ps.flatMap render

/-- The names of the specifiers. -/
def names : List Char := ['m', 'p', 'r', 'c', 't', 'n', 'd', 'f', 'l', 'T', 'F']

def Listed (str : List Char) : Prop := ∃ c ∈ names, str = [c]

def Word (str : List Char) : Prop := str ≠ [] ∧ ∀ c ∈ str, c.isAlpha = true

/-- What may follow a specifier without braces. -/
def Ends (cs : List Char) : Prop :=
  ∀ c, cs.head? = some c → c.isAlpha = false ∧ c ≠ '{' ∧ c ≠ '}'

def Shape : List Piece → Prop
  | [] => True
  | literal str :: ps => '%' ∉ str ∧ Shape ps
  | specifier str none :: ps => Word str ∧ Ends (renderAll ps) ∧ Shape ps
  | specifier str (some fmt) :: ps => Word str ∧ '}' ∉ fmt ∧ Shape ps

/-- All specifiers have a name of the list. -/
def AllListed (ps : List Piece) : Prop := ∀ str fmt, specifier str fmt ∈ ps → Listed str

/-- The item of a piece. -/
def item : Piece → FormatItem
  | literal str => .text (String.ofList str)
  | specifier str fmt =>
    (FormatItem.ofDirective str (fmt.getD [])).getD (.text (String.ofList str))

/-- The items of the pieces in order, where `nstr` is the literal text in front of them. -/
def items (nstr : List Char) : List Piece → List FormatItem
  | [] => if nstr = [] then [] else [.text (String.ofList nstr)]
  | literal str :: ps => items (nstr ++ str) ps
  | specifier str fmt :: ps =>
    (if nstr = [] then [] else [.text (String.ofList nstr)]) ++
      (specifier str fmt).item :: items [] ps

end Piece

open Piece PatternPart

/-! ## The scanner -/

section Scan
variable {nstr str fmt w u t : List Char} {c : Char} {part : PatternPart}

theorem scan_literal (hu : '%' ∉ u) (nstr t : List Char) :
    scan nstr 0 (u ++ t) = scan (nstr ++ u) 0 t := by
  induction u generalizing nstr with
  | nil => simp
  | cons c u ih =>
    have hc : c ≠ '%' := by
      rintro rfl
      exact hu List.mem_cons_self
    rw [List.cons_append, scan, if_pos hc, ih fun h => hu (List.mem_cons_of_mem c h)]
    simp

theorem scan_skip (nstr u t : List Char) : scan nstr u.length (u ++ t) = scan nstr 0 t := by
  induction u with
  | nil => rfl
  | cons c u ih => exact ih

/-- A percent sign that is not followed by another one. -/
theorem scan_directive (hhead : (u ++ t).head? ≠ some '%')
    (hpart : scanDirective [] (u ++ t) = some (part,t)) :
    scan nstr 0 ('%' :: (u ++ t)) = flush nstr ++ part :: scan [] 0 t := by
  have hlen : (u ++ t).length - t.length = u.length := by simp
  rw [scan, if_neg (not_not.mpr rfl), if_neg hhead, hpart]
  simp only [hlen, scan_skip]

theorem scan_open (hhead : t.head? ≠ some '%') (hpart : scanDirective [] t = none) :
    scan nstr 0 ('%' :: t) = .patternError :: scan nstr 0 t := by
  rw [scan, if_neg (not_not.mpr rfl), if_neg hhead, hpart]

theorem scanDirective_word (hw : ∀ c ∈ w, c.isAlpha = true) (str t : List Char) :
    scanDirective str (w ++ t) = scanDirective (str ++ w) t := by
  induction w generalizing str with
  | nil => simp
  | cons c w ih =>
    have hc := hw c List.mem_cons_self
    have hbrace : c ≠ '{' := by
      rintro rfl
      exact absurd hc (by decide)
    rw [List.cons_append, scanDirective, hc]
    simp only [Bool.not_true, Bool.false_and, Bool.false_eq_true, if_false, hbrace]
    rw [ih fun c h => hw c (List.mem_cons_of_mem _ h)]
    simp

theorem scanDirective_ends (ht : Ends t) (str : List Char) :
    scanDirective str t = some (.directive str [],t) := by
  cases t with
  | nil => rfl
  | cons c t =>
    obtain ⟨halpha,hopen,hclose⟩ := ht c rfl
    rw [scanDirective]
    simp [halpha, hopen, hclose]

theorem scanFormat_closed (hf : '}' ∉ fmt) (str f t : List Char) :
    scanFormat str f (fmt ++ '}' :: t) = some (.directive str (f ++ fmt),t) := by
  induction fmt generalizing f with
  | nil => simp [scanFormat]
  | cons c fmt ih =>
    have hc : c ≠ '}' := by
      rintro rfl
      exact hf List.mem_cons_self
    rw [List.cons_append, scanFormat, if_neg hc, ih fun h => hf (List.mem_cons_of_mem c h)]
    simp

theorem scanFormat_open (ht : '}' ∉ t) (str f : List Char) : scanFormat str f t = none := by
  induction t generalizing f with
  | nil => rfl
  | cons c t ih =>
    have hc : c ≠ '}' := by
      rintro rfl
      exact ht List.mem_cons_self
    rw [scanFormat, if_neg hc, ih fun h => ht (List.mem_cons_of_mem c h)]

theorem Piece.Word.head (hw : Word w) (t : List Char) : (w ++ t).head? ≠ some '%' := by
  obtain ⟨hne,halpha⟩ := hw
  cases w with
  | nil => exact absurd rfl hne
  | cons c w =>
    intro h
    simp only [List.cons_append, List.head?_cons, Option.some.injEq] at h
    have hc := halpha c List.mem_cons_self
    rw [h] at hc
    exact absurd hc (by decide)

theorem scan_specifier (hw : Word str) (ht : Ends t) :
    scan nstr 0 ('%' :: (str ++ t)) = flush nstr ++ .directive str [] :: scan [] 0 t := by
  refine scan_directive (hw.head t) ?_
  rw [scanDirective_word hw.2, scanDirective_ends ht, List.nil_append]

theorem scan_braced (hw : Word str) (hf : '}' ∉ fmt) :
    scan nstr 0 ('%' :: (str ++ '{' :: (fmt ++ '}' :: t))) =
      flush nstr ++ .directive str fmt :: scan [] 0 t := by
  have hsplit : str ++ '{' :: (fmt ++ '}' :: t) = (str ++ '{' :: (fmt ++ ['}'])) ++ t := by simp
  rw [hsplit]
  refine scan_directive (by rw [← hsplit]; exact hw.head _) ?_
  rw [← hsplit, scanDirective_word hw.2, scanDirective]
  simp [scanFormat_closed hf]

theorem scan_unclosed (hw : Word str) (ht : '}' ∉ t) :
    scan nstr 0 ('%' :: (str ++ '{' :: t)) = .patternError :: scan nstr 0 (str ++ '{' :: t) := by
  refine scan_open (hw.head _) ?_
  rw [scanDirective_word hw.2, scanDirective]
  simp [scanFormat_open ht]

end Scan

/-! ## Pieces -/

namespace Piece

/-- The parts of the pieces, and the literal text at their end. -/
def parts (nstr : List Char) : List Piece → List PatternPart × List Char
  | [] => ([], nstr)
  | literal str :: ps => parts (nstr ++ str) ps
  | specifier str fmt :: ps =>
    let r := parts [] ps
    (flush nstr ++ .directive str (fmt.getD []) :: r.1, r.2)

theorem renderAll_cons (p : Piece) (ps : List Piece) :
    renderAll (p :: ps) = p.render ++ renderAll ps := by
  rw [renderAll, List.flatMap_cons, renderAll]

theorem renderAll_append (ps qs : List Piece) :
    renderAll (ps ++ qs) = renderAll ps ++ renderAll qs := by
  rw [renderAll, List.flatMap_append, renderAll, renderAll]

theorem Ends.append {s t : List Char} (hs : Ends s) (ht : Ends t) : Ends (s ++ t) := by
  cases s with
  | nil => exact ht
  | cons c s => exact hs

theorem ends_percent (cs : List Char) : Ends ('%' :: cs) := by
  intro c h
  simp only [List.head?_cons, Option.some.injEq] at h
  subst h
  decide

/-- The scanner finds the pieces of a pattern, whatever follows them: `t` is the rest of the
pattern. -/
theorem scan_render {ps : List Piece} (hps : Shape ps) {t : List Char} (ht : Ends t)
    (nstr : List Char) : scan nstr 0 (renderAll ps ++ t) =
      (parts nstr ps).1 ++ scan (parts nstr ps).2 0 t := by
  induction ps generalizing nstr with
  | nil => rfl
  | cons p ps ih =>
    rw [renderAll_cons, List.append_assoc]
    cases p with
    | literal str =>
      rw [render, scan_literal hps.1, ih hps.2]
      rfl
    | specifier str fmt =>
      cases fmt with
      | none =>
        obtain ⟨hw,hends,hps⟩ := hps
        rw [render, List.cons_append, scan_specifier hw (hends.append ht), ih hps]
        simp [parts]
      | some fmt =>
        obtain ⟨hw,hf,hps⟩ := hps
        have hsplit : (specifier str (some fmt)).render ++ (renderAll ps ++ t) =
            '%' :: (str ++ '{' :: (fmt ++ '}' :: (renderAll ps ++ t))) := by
          simp [render]
        rw [hsplit, scan_braced hw hf, ih hps]
        simp [parts]

theorem listed_iff (str fmt : List Char) :
    Listed str ↔ ∃ item, FormatItem.ofDirective str fmt = some item := by
  constructor
  · rintro ⟨c,hc,rfl⟩
    simp only [names, List.mem_cons, List.not_mem_nil, or_false] at hc
    rcases hc with rfl | rfl | rfl | rfl | rfl | rfl | rfl | rfl | rfl | rfl | rfl <;>
      exact ⟨_,rfl⟩
  · rintro ⟨item,h⟩
    unfold FormatItem.ofDirective at h
    split at h
    all_goals first
      | exact ⟨_,by decide,rfl⟩
      | cases h

theorem directive_item {str : List Char} (h : Listed str) (fmt : Option (List Char)) :
    (PatternPart.directive str (fmt.getD [])).item = ((specifier str fmt).item, false) := by
  obtain ⟨item,hitem⟩ := (listed_iff str (fmt.getD [])).mp h
  rw [PatternPart.item, hitem, Piece.item, hitem]
  rfl

theorem directive_error {str : List Char} (h : ¬ Listed str) (fmt : List Char) :
    (PatternPart.directive str fmt).item.2 = true := by
  rw [listed_iff str fmt] at h
  rw [PatternPart.item]
  cases hitem : FormatItem.ofDirective str fmt with
  | none => rfl
  | some item => exact absurd ⟨item,hitem⟩ h

theorem flush_items (nstr : List Char) : (flush nstr).map PatternPart.item =
    (if nstr = [] then [] else [FormatItem.text (String.ofList nstr)]).map fun i => (i, false) := by
  rw [flush]
  split
  · rfl
  · rfl

/-- With names of the list every part is an item of its piece and no error. -/
theorem parts_items {ps : List Piece} (h : AllListed ps) (nstr : List Char) :
    ((parts nstr ps).1 ++ flush (parts nstr ps).2).map PatternPart.item =
      (items nstr ps).map fun i => (i, false) := by
  induction ps generalizing nstr with
  | nil => exact flush_items nstr
  | cons p ps ih =>
    have hps : AllListed ps := fun str fmt hmem => h str fmt (List.mem_cons_of_mem p hmem)
    cases p with
    | literal str => exact ih hps (nstr ++ str)
    | specifier str fmt =>
      have hitem := directive_item (h str fmt List.mem_cons_self) fmt
      have hrest := ih hps []
      rw [List.map_append, flush_items] at hrest
      simp only [parts, List.append_assoc, List.cons_append, List.map_append, List.map_cons,
        flush_items, hitem, items, hrest]

theorem parts_error {ps : List Piece} {str : List Char} {fmt : Option (List Char)}
    (hmem : specifier str fmt ∈ ps) (h : ¬ Listed str) (nstr : List Char) :
    ∃ part ∈ (parts nstr ps).1, part.item.2 = true := by
  induction ps generalizing nstr with
  | nil => exact absurd hmem List.not_mem_nil
  | cons p ps ih =>
    cases p with
    | literal s =>
      have htail : specifier str fmt ∈ ps := by simpa using hmem
      exact ih htail (nstr ++ s)
    | specifier s f =>
      rw [List.mem_cons] at hmem
      rcases hmem with hmem | hmem
      · cases hmem
        exact ⟨_,by simp [parts],directive_error h (fmt.getD [])⟩
      · obtain ⟨part,hpart,herr⟩ := ih hmem []
        exact ⟨part,by simp [parts, hpart],herr⟩

end Piece

theorem init_error_of_mem {cs : List Char} {part : PatternPart} (hpart : part ∈ scan [] 0 cs)
    (herr : part.item.2 = true) : (LogFormatter.init (String.ofList cs)).error = true := by
  simp only [LogFormatter.init, String.toList_ofList, List.any_map, List.any_eq_true]
  exact ⟨part,hpart,herr⟩

theorem init_of_items {cs : List Char} {is : List FormatItem}
    (h : (scan [] 0 cs).map PatternPart.item = is.map fun i => (i, false)) :
    LogFormatter.init (String.ofList cs) = ⟨String.ofList cs, is, false⟩ := by
  simp only [LogFormatter.init, String.toList_ofList, h, List.map_map, List.any_map,
    LogFormatter.mk.injEq, true_and]
  constructor
  · exact List.map_id is
  · simp

/-- A pattern of the shape gives the items of its pieces and no error if all names are listed,
and an error if one is not. So does a specifier at the end whose brace is not closed. -/
theorem init_render {ps : List Piece} (hps : Shape ps) :
    (AllListed ps → LogFormatter.init (String.ofList (renderAll ps)) =
      ⟨String.ofList (renderAll ps), items [] ps, false⟩) ∧
    ((∃ str fmt, specifier str fmt ∈ ps ∧ ¬ Listed str) →
      (LogFormatter.init (String.ofList (renderAll ps))).error = true) ∧
    ∀ str fmt, Word str → '}' ∉ fmt →
      (LogFormatter.init (String.ofList (renderAll ps ++ '%' :: (str ++ '{' :: fmt)))).error =
        true := by
  have hscan := scan_render hps (t := []) (by intro c h; cases h) []
  rw [List.append_nil] at hscan
  refine ⟨?_,?_,?_⟩
  · intro hlisted
    refine init_of_items ?_
    rw [hscan]
    exact parts_items hlisted []
  · rintro ⟨str,fmt,hmem,hstr⟩
    obtain ⟨part,hpart,herr⟩ := parts_error hmem hstr []
    refine init_error_of_mem ?_ herr
    rw [hscan]
    exact List.mem_append_left _ hpart
  · intro str fmt hw hfmt
    have hmem : PatternPart.patternError ∈
        scan [] 0 (renderAll ps ++ '%' :: (str ++ '{' :: fmt)) := by
      rw [scan_render hps (ends_percent _), scan_unclosed hw hfmt]
      simp
    exact init_error_of_mem hmem rfl

theorem word_singleton {c : Char} (h : c.isAlpha = true) : Word [c] := by
  refine ⟨List.cons_ne_nil c [],?_⟩
  intro c' hc'
  rw [List.mem_singleton.mp hc']
  exact h

/-- `[%p] %d{%H}`, the same with `%x`, and `%d{%H`. -/
theorem init_render_level :
    LogFormatter.init "[%p] %d\x7b%H\x7d" =
      ⟨"[%p] %d\x7b%H\x7d", [.text "[", .level, .text "] ", .dateTime "%H"], false⟩ ∧
    (LogFormatter.init "[%x").error = true ∧ (LogFormatter.init "[%d\x7b%H").error = true := by
  have hp : Word ['p'] := word_singleton rfl
  have hd : Word ['d'] := word_singleton rfl
  have hx : Word ['x'] := word_singleton rfl
  have hbracket : Ends (renderAll [literal "] ".toList, specifier ['d'] (some ['%', 'H'])]) := by
    intro c h
    cases h
    decide
  refine ⟨?_,?_,?_⟩
  · have hshape : Shape [literal ['['], specifier ['p'] none, literal "] ".toList,
        specifier ['d'] (some ['%', 'H'])] :=
      ⟨by decide,hp,hbracket,by decide,hd,by decide,trivial⟩
    refine (init_render hshape).1 ?_
    intro str fmt hmem
    simp only [List.mem_cons, reduceCtorEq, specifier.injEq, List.not_mem_nil, or_false,
      false_or] at hmem
    rcases hmem with ⟨rfl,_⟩ | ⟨rfl,_⟩
    · exact ⟨'p',by decide,rfl⟩
    · exact ⟨'d',by decide,rfl⟩
  · have hends : Ends (renderAll []) := by
      intro c h
      cases h
    have hshape : Shape [literal ['['], specifier ['x'] none] := ⟨by decide,hx,hends,trivial⟩
    refine (init_render hshape).2.1 ⟨['x'],none,by simp,?_⟩
    rintro ⟨c,hc,h⟩
    cases h
    exact absurd hc (by decide)
  · have hshape : Shape [literal ['[']] := ⟨by decide,trivial⟩
    exact (init_render hshape).2.2 ['d'] ['%', 'H'] hd (by decide)

end Gudov
