import Gudov.LogEvent
import Gudov.LogPattern

/-!
# Texts of valid patterns

What a formatter puts out for an event is what the pieces of its pattern put out, one after the
other: joining adjacent literals does not change the text.
-/
namespace Gudov
open Piece PatternPart

section Format
variable (lib : TimeLibrary) (event : LogEvent)

theorem formatAll_cons {i : FormatItem} {is : List FormatItem} {out : List Char}
    (h : FormatItem.formatAll lib event (i :: is) = some out) :
    ∃ text rest, i.format lib event = some text ∧
      FormatItem.formatAll lib event is = some rest ∧ out = text ++ rest := by
  rw [FormatItem.formatAll] at h
  cases hi : i.format lib event with
  | none =>
    rw [hi] at h
    cases h
  | some text =>
    cases his : FormatItem.formatAll lib event is with
    | none =>
      rw [hi, his] at h
      cases h
    | some rest =>
      rw [hi, his] at h
      cases h
      exact ⟨text,rest,rfl,rfl,rfl⟩

theorem formatAll_append (is js : List FormatItem) :
    FormatItem.formatAll lib event (is ++ js) =
      (FormatItem.formatAll lib event is).bind fun a =>
        (FormatItem.formatAll lib event js).map fun b => a ++ b := by
  induction is with
  | nil => cases h : FormatItem.formatAll lib event js <;> simp [FormatItem.formatAll, h]
  | cons i is ih =>
    rw [List.cons_append, FormatItem.formatAll, FormatItem.formatAll, ih]
    cases i.format lib event with
    | none => rfl
    | some a =>
      cases FormatItem.formatAll lib event is with
      | none => rfl
      | some b => cases FormatItem.formatAll lib event js <;> simp

/-- Joining adjacent literals does not change the text. -/
theorem formatAll_items (nstr : List Char) (ps : List Piece) :
    FormatItem.formatAll lib event (items nstr ps) =
      (FormatItem.formatAll lib event (ps.map Piece.item)).map fun rest => nstr ++ rest := by
  have hflush : ∀ nstr : List Char, FormatItem.formatAll lib event
      (if nstr = [] then [] else [.text (String.ofList nstr)]) = some nstr := by
    intro nstr
    by_cases h : nstr = []
    · rw [if_pos h, h]
      rfl
    · rw [if_neg h]
      simp [FormatItem.formatAll, FormatItem.format]
  induction ps generalizing nstr with
  | nil => simp [items, hflush, FormatItem.formatAll]
  | cons p ps ih =>
    cases p with
    | literal str =>
      rw [items, ih, List.map_cons, FormatItem.formatAll, Piece.item, FormatItem.format,
        String.toList_ofList]
      cases FormatItem.formatAll lib event (ps.map Piece.item) <;> simp
    | specifier str fmt =>
      rw [items, formatAll_append, hflush, List.map_cons, FormatItem.formatAll,
        FormatItem.formatAll, ih]
      cases (specifier str fmt).item.format lib event with
      | none => rfl
      | some text => cases FormatItem.formatAll lib event (ps.map Piece.item) <;> simp

end Format

/-- Pieces of a pattern that are valid as a whole. -/
def ValidPattern (ps : List Piece) : Prop := Shape ps ∧ AllListed ps

section Valid
variable {ps qs : List Piece}

theorem Piece.Shape.append (hps : Shape ps) (hqs : Shape qs) (hends : Ends (renderAll qs)) :
    Shape (ps ++ qs) := by
  induction ps with
  | nil => exact hqs
  | cons p ps ih =>
    cases p with
    | literal str => exact ⟨hps.1,ih hps.2⟩
    | specifier str fmt =>
      cases fmt with
      | none =>
        refine ⟨hps.1,?_,ih hps.2.2⟩
        have happend := renderAll_append ps qs
        exact happend ▸ hps.2.1.append hends
      | some fmt => exact ⟨hps.1,hps.2.1,ih hps.2.2⟩

theorem render_specifier_ends (str : List Char) (fmt : Option (List Char)) (ps : List Piece) :
    Ends (renderAll (specifier str fmt :: ps)) := by
  rw [renderAll_cons]
  cases fmt with
  | none => exact ends_percent _
  | some fmt => exact ends_percent _

theorem format_valid (lib : TimeLibrary) (event : LogEvent) (h : ValidPattern ps) :
    (LogFormatter.init (String.ofList (renderAll ps))).format lib event =
      FormatItem.formatAll lib event (ps.map Piece.item) := by
  rw [(init_render h.1).1 h.2, LogFormatter.format, formatAll_items]
  cases FormatItem.formatAll lib event (ps.map Piece.item) <;> rfl

end Valid

end Gudov
