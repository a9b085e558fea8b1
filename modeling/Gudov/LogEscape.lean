import Gudov.DoubledPercent
import Gudov.LogText

/-!
# Percent signs in log patterns

With doubled percent signs a text is itself again only if it has none. In a row of two or more
the signs are too many. After a single sign the directive begins with the next character of the
text, and no item puts out what its directive reads. A date whose format is a text comes closest
to it. But the braces around the format are lost, and nothing else puts out a closing brace.
-/
namespace Gudov
open Piece PatternPart

/-! ## A text as a pattern -/

/-- The formatter of a text with doubled percent signs formats every event to the text. -/
def FormatsToText (lib : TimeLibrary) (s : List Char) : Prop :=
  (LogFormatter.init (String.ofList (doubled s))).error = false ∧
    ∀ event, (LogFormatter.init (String.ofList (doubled s))).format lib event = some s

/-- Between two specifiers the text is put out between their texts. -/
def FormatsBetween (lib : TimeLibrary) (s : List Char) : Prop :=
  ∀ ps str fmt str' fmt' qs, ValidPattern (ps ++ [specifier str fmt]) →
    ValidPattern (specifier str' fmt' :: qs) →
    (LogFormatter.init (String.ofList (renderAll (ps ++ [specifier str fmt]) ++ doubled s ++
      renderAll (specifier str' fmt' :: qs)))).error = false ∧
    ∀ event, (LogFormatter.init (String.ofList (renderAll (ps ++ [specifier str fmt]) ++
        doubled s ++ renderAll (specifier str' fmt' :: qs)))).format lib event = do
      let a ← (LogFormatter.init (String.ofList (renderAll (ps ++ [specifier str fmt])))).format
        lib event
      let b ← (LogFormatter.init (String.ofList (renderAll (specifier str' fmt' :: qs)))).format
        lib event
      some (a ++ s ++ b)

section Literal
variable {ps qs : List Piece} {s : List Char}

/-- A text without percent signs is a literal. -/
theorem valid_literal (hs : '%' ∉ s) : ValidPattern [literal s] := by
  refine ⟨⟨hs,trivial⟩,?_⟩
  intro str fmt hmem
  simp at hmem

theorem formatsToText_of_not_mem (lib : TimeLibrary) (hs : '%' ∉ s) : FormatsToText lib s := by
  have hrender : doubled s = renderAll [literal s] := by
    rw [doubled_of_not_mem hs]
    simp [renderAll, render]
  have hvalid := valid_literal hs
  rw [FormatsToText, hrender]
  refine ⟨by rw [(init_render hvalid.1).1 hvalid.2],?_⟩
  intro event
  rw [format_valid lib event hvalid]
  simp [FormatItem.formatAll, Piece.item, FormatItem.format]

theorem formatsBetween_of_not_mem (lib : TimeLibrary) (hs : '%' ∉ s) (hends : Ends s) :
    FormatsBetween lib s := by
  intro ps str fmt str' fmt' qs hps hqs
  have hrender : renderAll (ps ++ [specifier str fmt]) ++ doubled s ++
      renderAll (specifier str' fmt' :: qs) =
        renderAll (ps ++ [specifier str fmt] ++ literal s :: specifier str' fmt' :: qs) := by
    rw [doubled_of_not_mem hs, renderAll_append _ (literal s :: _), renderAll_cons (literal s),
      render, List.append_assoc]
  have hvalid : ValidPattern
      (ps ++ [specifier str fmt] ++ literal s :: specifier str' fmt' :: qs) := by
    constructor
    · refine hps.1.append ⟨hs,hqs.1⟩ ?_
      rw [renderAll_cons]
      exact hends.append (render_specifier_ends _ _ _)
    · intro str₁ fmt₁ hmem
      rw [List.mem_append, List.mem_cons] at hmem
      rcases hmem with hmem | hmem | hmem
      · exact hps.2 str₁ fmt₁ hmem
      · cases hmem
      · exact hqs.2 str₁ fmt₁ hmem
  rw [hrender]
  refine ⟨by rw [(init_render hvalid.1).1 hvalid.2],?_⟩
  intro event
  rw [format_valid lib event hvalid, format_valid lib event hps, format_valid lib event hqs,
    List.map_append, formatAll_append, List.map_cons (a := literal s), FormatItem.formatAll]
  cases FormatItem.formatAll lib event ((ps ++ [specifier str fmt]).map Piece.item) with
  | none => rfl
  | some a =>
    cases FormatItem.formatAll lib event ((specifier str' fmt' :: qs).map Piece.item) with
    | none => rfl
    | some b => simp [Piece.item, FormatItem.format]

end Literal

/-! ## Texts without closing braces -/

/-- An event of which no field begins with the name of a specifier. -/
def zeroEvent : LogEvent where
  file := ['0']
  line := 0
  elapse := 0
  threadId := 0
  fiberId := 0
  time := 0
  content := ['0']
  loggerName := ['0']
  level := .info

/-- A text that begins with no name of a specifier and has no closing brace. -/
def Bland (text : List Char) : Prop := (∃ c cs, text = c :: cs ∧ c ∉ names) ∧ '}' ∉ text

section Bland
variable {lib : TimeLibrary} {tm : Tm} {text : List Char}

def Plain (c : Char) : Prop := c.isDigit = true ∨ c ∈ ['-', ' ', ':', '\n', '\t']

theorem bland_of_plain (hne : text ≠ []) (h : ∀ c ∈ text, Plain c) : Bland text := by
  have hdigits : names.all (fun c => !c.isDigit) = true := rfl
  have hothers : ['-', ' ', ':', '\n', '\t'].all (fun c => !names.contains c) = true := rfl
  have hnames : ∀ c ∈ names, ¬ Plain c := by
    rintro c hc (hdigit | hmem)
    · have hnot := List.all_eq_true.mp hdigits c hc
      rw [hdigit] at hnot
      cases hnot
    · have hnot := List.all_eq_true.mp hothers c hmem
      rw [List.contains_iff_mem.mpr hc] at hnot
      cases hnot
  constructor
  · cases text with
    | nil => exact absurd rfl hne
    | cons c cs => exact ⟨c,cs,rfl,fun hc => hnames c hc (h c List.mem_cons_self)⟩
  · intro hbrace
    have hnot : ¬ Plain '}' := by
      rintro (hdigit | hmem)
      · exact absurd hdigit (by decide)
      · exact absurd hmem (by decide)
    exact hnot (h '}' hbrace)

theorem plain_toDigits (n : ℕ) : ∀ c ∈ Nat.toDigits 10 n, Plain c :=
  fun _ hc => .inl (Nat.isDigit_of_mem_toDigits (by decide) (by decide) hc)

theorem plain_decimal (n : ℤ) : ∀ c ∈ LogEvent.decimal n, Plain c := by
  cases n with
  | ofNat n => exact plain_toDigits n
  | negSucc n =>
    intro c hc
    rcases List.mem_cons.mp hc with rfl | hc
    · exact .inr (by decide)
    · exact plain_toDigits (n + 1) c hc

theorem plain_twoDigits (n : ℕ) : ∀ c ∈ LogEvent.twoDigits n, Plain c := by
  rw [LogEvent.twoDigits]
  intro c hc
  split at hc
  · rcases List.mem_cons.mp hc with rfl | hc
    · exact .inl (by decide)
    · exact plain_toDigits n c hc
  · exact plain_toDigits n c hc

theorem LogEvent.decimal_ne_nil (n : ℤ) : LogEvent.decimal n ≠ [] := by
  cases n with
  | ofNat n => exact Nat.toDigits_ne_nil
  | negSucc n => exact List.cons_ne_nil _ _

theorem bland_decimal (n : ℤ) : Bland (LogEvent.decimal n) :=
  bland_of_plain (LogEvent.decimal_ne_nil n) (plain_decimal n)

/-- The text of the format that a date without one has. -/
theorem strftimeText_default (lib : TimeLibrary) (tm : Tm) :
    lib.strftimeText tm 0 "%Y-%m-%d %H:%M:%S".toList =
      LogEvent.decimal (tm.tmYear + 1900) ++ '-' :: (LogEvent.twoDigits (tm.tmMon + 1) ++
        '-' :: (LogEvent.twoDigits tm.tmMday ++ ' ' :: (LogEvent.twoDigits tm.tmHour ++
          ':' :: (LogEvent.twoDigits tm.tmMin ++ ':' :: LogEvent.twoDigits tm.tmSec)))) := by
  simp [TimeLibrary.strftimeText, TimeLibrary.convert]

theorem bland_default (lib : TimeLibrary) (tm : Tm) :
    Bland (lib.strftimeText tm 0 "%Y-%m-%d %H:%M:%S".toList) := by
  rw [strftimeText_default]
  refine bland_of_plain ?_ ?_
  · simp [LogEvent.decimal_ne_nil]
  · intro c hc
    have hdash : Plain '-' := .inr (by decide)
    have hspace : Plain ' ' := .inr (by decide)
    have hcolon : Plain ':' := .inr (by decide)
    simp only [List.mem_append, List.mem_cons] at hc
    rcases hc with hc | rfl | hc | rfl | hc | rfl | hc | rfl | hc | rfl | hc
    · exact plain_decimal _ c hc
    · exact hdash
    · exact plain_twoDigits _ c hc
    · exact hdash
    · exact plain_twoDigits _ c hc
    · exact hspace
    · exact plain_twoDigits _ c hc
    · exact hcolon
    · exact plain_twoDigits _ c hc
    · exact hcolon
    · exact plain_twoDigits _ c hc

/-- A format that is doubled text gives the text. -/
theorem strftimeText_doubled (lib : TimeLibrary) (tm : Tm) (x : List Char) :
    lib.strftimeText tm 0 (doubled x) = x := by
  induction x with
  | nil => rfl
  | cons c x ih =>
    by_cases hc : c = '%'
    · subst hc
      rw [doubled_percent, TimeLibrary.strftimeText, if_pos rfl]
      simp [TimeLibrary.convert, TimeLibrary.strftimeText, ih]
    · rw [doubled_cons hc, TimeLibrary.strftimeText, if_neg hc, ih]

theorem strftime_text {maxsize : ℕ} {format : List Char}
    (h : lib.strftime tm maxsize format = some text) :
    text = lib.strftimeText tm 0 (format.takeWhile (· ≠ '\x00')) := by
  rw [TimeLibrary.strftime] at h
  split at h
  · cases h
  · exact (Option.some.inj h).symm

theorem takeWhile_doubled (x : List Char) :
    (doubled x).takeWhile (· ≠ '\x00') = doubled (x.takeWhile (· ≠ '\x00')) := by
  induction x with
  | nil => rfl
  | cons c x ih =>
    by_cases hc : c = '%'
    · subst hc
      simpa [doubled] using ih
    · rw [doubled_cons hc]
      by_cases hnull : c = '\x00'
      · simp [hnull, doubled]
      · simp only [ne_eq, hnull, not_false_eq_true, decide_true, List.takeWhile_cons_of_pos,
          doubled_cons hc]
        rw [← ih]

end Bland

/-! ## The text of a scanned pattern -/

/-- The parts are no errors, and this is the text of the event. -/
def Puts (lib : TimeLibrary) (parts : List PatternPart) (out : List Char) : Prop :=
  (∀ p ∈ parts, p.item.2 = false) ∧
    FormatItem.formatAll lib zeroEvent (parts.map fun p => p.item.1) = some out

section Puts
variable {lib : TimeLibrary} {parts : List PatternPart} {part : PatternPart}
  {nstr name fmt s t x text out : List Char}

theorem Puts.not_error (h : Puts lib (.patternError :: parts) out) : False :=
  Bool.noConfusion (h.1 _ List.mem_cons_self)

theorem Puts.flushed (h : Puts lib (flush nstr) out) : out = nstr := by
  obtain ⟨_,hout⟩ := h
  by_cases hnil : nstr = []
  · subst hnil
    cases hout
    rfl
  · rw [flush, if_neg hnil] at hout
    simpa [PatternPart.item, FormatItem.formatAll, FormatItem.format] using hout.symm

theorem Puts.directive (h : Puts lib (flush nstr ++ .directive name fmt :: parts) out) :
    ∃ i text rest, FormatItem.ofDirective name fmt = some i ∧
      i.format lib zeroEvent = some text ∧ Puts lib parts rest ∧ out = nstr ++ (text ++ rest) := by
  obtain ⟨herr,hout⟩ := h
  have hflush : FormatItem.formatAll lib zeroEvent ((flush nstr).map fun p => p.item.1) =
      some nstr := by
    by_cases hnil : nstr = []
    · rw [hnil]
      rfl
    · rw [flush, if_neg hnil]
      simp [PatternPart.item, FormatItem.formatAll, FormatItem.format]
  have hitem : ∃ i, FormatItem.ofDirective name fmt = some i := by
    have hnone := herr (.directive name fmt) (by simp)
    cases h : FormatItem.ofDirective name fmt with
    | none =>
      rw [PatternPart.item, h] at hnone
      cases hnone
    | some i => exact ⟨i,rfl⟩
  obtain ⟨i,hi⟩ := hitem
  have hfirst : (PatternPart.directive name fmt).item.1 = i := by rw [PatternPart.item, hi]
  rw [List.map_append, List.map_cons, formatAll_append, hflush, hfirst] at hout
  cases hrest : FormatItem.formatAll lib zeroEvent (i :: parts.map fun p => p.item.1) with
  | none =>
    rw [hrest] at hout
    cases hout
  | some r =>
    rw [hrest] at hout
    cases hout
    obtain ⟨text,rest,htext,hparts,rfl⟩ := formatAll_cons lib zeroEvent hrest
    refine ⟨i,text,rest,hi,htext,⟨?_,hparts⟩,rfl⟩
    intro p hp
    exact herr p (by simp [hp])

/-- The collected text is put out first. -/
theorem Puts.first {skip : ℕ} {cs : List Char} (h : Puts lib (scan nstr skip cs) out) :
    ∃ rest, out = nstr ++ rest := by
  induction cs generalizing nstr skip with
  | nil =>
    rw [scan] at h
    exact ⟨[],by rw [h.flushed, List.append_nil]⟩
  | cons c cs ih =>
    cases skip with
    | succ skip => exact ih h
    | zero =>
      rw [scan] at h
      by_cases hc : c = '%'
      · rw [if_neg (not_not.mpr hc)] at h
        by_cases hhead : cs.head? = some '%'
        · rw [if_pos hhead] at h
          obtain ⟨rest,rfl⟩ := ih h
          exact ⟨'%' :: rest,by simp⟩
        · rw [if_neg hhead] at h
          cases hpart : scanDirective [] cs with
          | none =>
            rw [hpart] at h
            exact h.not_error.elim
          | some r =>
            obtain ⟨part,rest⟩ := r
            rw [hpart] at h
            obtain ⟨name,fmt,rfl⟩ := scanDirective_part hpart
            obtain ⟨_,text,out',_,_,_,rfl⟩ := h.directive
            exact ⟨text ++ out',rfl⟩
      · rw [if_pos hc] at h
        obtain ⟨rest,rfl⟩ := ih h
        exact ⟨c :: rest,by simp⟩

theorem bland_singleton {c : Char} (hc : c ∉ names) (hbrace : c ≠ '}') : Bland [c] :=
  ⟨⟨c,[],rfl,hc⟩,by simpa using hbrace.symm⟩

/-- The text of a directive is bland, but for a date with a format. -/
theorem directive_text {c : Char} {i : FormatItem} (hi : FormatItem.ofDirective [c] fmt = some i)
    (htext : i.format lib zeroEvent = some text) : Bland text ∨
      fmt ≠ [] ∧ ∃ tm, text = lib.strftimeText tm 0 (fmt.takeWhile (· ≠ '\x00')) := by
  obtain ⟨_,hc,hname⟩ := (listed_iff [c] fmt).mpr ⟨i,hi⟩
  cases hname
  by_cases hdate : c = 'd'
  · subst hdate
    cases hi
    obtain ⟨tm,_,htm⟩ := Option.bind_eq_some_iff.mp htext
    rw [strftime_text htm]
    by_cases hfmt : fmt = []
    · subst hfmt
      exact .inl (bland_default lib tm)
    · have hne : String.ofList fmt ≠ "" := by simpa using hfmt
      exact .inr ⟨hfmt,tm,by rw [if_neg hne, String.toList_ofList]⟩
  · refine .inl ?_
    have hzero : Bland ['0'] := bland_singleton (by decide) (by decide)
    have hinfo : Bland "INFO".toList := ⟨⟨_,_,rfl,by decide⟩,by decide⟩
    have hnewline : Bland ['\n'] := bland_singleton (by decide) (by decide)
    have htab : Bland ['\t'] := bland_singleton (by decide) (by decide)
    have hnumber := bland_decimal 0
    simp only [names, List.mem_cons, List.not_mem_nil, or_false, hdate, false_or] at hc
    rcases hc with rfl | rfl | rfl | rfl | rfl | rfl | rfl | rfl | rfl | rfl
    all_goals
      cases hi
      cases htext
      assumption

/-- With doubled text as its format no directive puts out a closing brace. -/
theorem no_brace {i : FormatItem} (hi : FormatItem.ofDirective name (doubled x) = some i)
    (hx : '}' ∉ x) (htext : i.format lib zeroEvent = some text) : '}' ∉ text := by
  obtain ⟨c,_,rfl⟩ := (listed_iff name (doubled x)).mpr ⟨i,hi⟩
  rcases directive_text hi htext with hbland | ⟨_,tm,rfl⟩
  · exact hbland.2
  · rw [takeWhile_doubled, strftimeText_doubled]
    exact fun hmem => hx ((List.takeWhile_prefix _).subset hmem)

theorem row_split (t : List Char) :
    ∃ n w, t = List.replicate n '%' ++ w ∧ w.head? ≠ some '%' := by
  induction t with
  | nil => exact ⟨0,[],rfl,by simp⟩
  | cons c t ih =>
    by_cases hc : c = '%'
    · obtain ⟨n,w,rfl,hw⟩ := ih
      exact ⟨n + 1,w,by rw [hc]; rfl,hw⟩
    · exact ⟨0,c :: t,rfl,by simpa using hc⟩

/-- The text of a scan of doubled text has no more closing braces than the text. -/
def FewBraces (lib : TimeLibrary) (t : List Char) : Prop :=
  ∀ nstr out, Puts lib (scan nstr 0 (doubled t)) out →
    out.count '}' ≤ nstr.count '}' + t.count '}'

theorem fewBraces_last (ih : ∀ t', t'.length ≤ t.length → FewBraces lib t')
    (h : Puts lib (scan nstr 0 ('%' :: doubled t)) out) :
    out.count '}' ≤ nstr.count '}' + t.count '}' := by
  obtain ⟨n,w,rfl,hw⟩ := row_split t
  have hrow : ∀ n, (List.replicate n '%').count '}' = 0 := by
    intro n
    rw [List.count_replicate]
    simp
  rw [scan_row] at h
  rw [List.count_append, hrow]
  rcases scan_last (nstr ++ List.replicate (2 * n) '%') hw with ⟨parts,herr⟩ | hlast
  · rw [herr] at h
    exact h.not_error.elim
  · obtain ⟨name,fmt,t',hscan,hcases⟩ := hlast
    rw [hscan] at h
    obtain ⟨i,text,rest,hi,htext,hrest,rfl⟩ := h.directive
    rw [List.count_append, List.count_append, List.count_append, hrow]
    rcases hcases with ⟨rfl,rfl⟩ | ⟨x,rfl,hx,rfl⟩
    · have hfew := ih t' (by simp; omega) [] rest hrest
      have hnone := List.count_eq_zero.mpr (no_brace (x := []) hi (by simp) htext)
      simp only [List.count_nil, List.count_append] at hfew ⊢
      omega
    · have hfew := ih t' (by simp; omega) [] rest hrest
      have hnone := List.count_eq_zero.mpr (no_brace hi hx htext)
      simp only [List.count_nil, List.count_append, List.count_cons] at hfew ⊢
      omega

theorem fewBraces (lib : TimeLibrary) (t : List Char) : FewBraces lib t := by
  induction hn : t.length using Nat.strong_induction_on generalizing t with
  | _ n ih =>
    subst hn
    intro nstr out h
    cases t with
    | nil =>
      rw [h.flushed]
      exact Nat.le_add_right _ _
    | cons c t =>
      have hlt : ∀ t' : List Char, t'.length ≤ t.length → FewBraces lib t' :=
        fun t' ht' => ih t'.length (by simp; omega) t' rfl
      by_cases hc : c = '%'
      · subst hc
        rw [doubled_percent, scan_pair] at h
        have hfew := fewBraces_last hlt h
        simp only [List.count_append, List.count_cons, List.count_nil] at hfew ⊢
        simpa using hfew
      · rw [doubled_cons hc, scan, if_pos hc] at h
        have hfew := hlt t (Nat.le_refl _) _ _ h
        simp only [List.count_append, List.count_cons, List.count_nil] at hfew ⊢
        omega

/-- After a row of one percent sign. -/
theorem single_percent (hw : t.head? ≠ some '%')
    (h : Puts lib (scan nstr 0 ('%' :: doubled t)) out) : out ≠ nstr ++ t := by
  rcases scan_last nstr hw with ⟨parts,herr⟩ | ⟨name,fmt,t',hscan,hcases⟩
  · rw [herr] at h
    exact h.not_error.elim
  · rw [hscan] at h
    obtain ⟨i,text,rest,hi,htext,hrest,rfl⟩ := h.directive
    obtain ⟨c,hc,rfl⟩ := (listed_iff name fmt).mpr ⟨i,hi⟩
    intro heq
    have ht := List.append_cancel_left heq
    rcases directive_text hi htext with ⟨⟨c',cs,rfl,hc'⟩,_⟩ | ⟨hfmt,_⟩
    · -- the directive reads `c`, and its text begins with `c'`
      have hhead : c' = c := by
        rcases hcases with ⟨_,rfl⟩ | ⟨x,_,_,rfl⟩
        · exact (List.cons.inj ht).1
        · exact (List.cons.inj ht).1
      subst hhead
      exact hc' hc
    · rcases hcases with ⟨hnil,_⟩ | ⟨x,rfl,hx,rfl⟩
      · exact hfmt hnil
      · have hcount := congrArg (List.count '}') ht
        have hnone := List.count_eq_zero.mpr (no_brace hi hx htext)
        have hfew := fewBraces lib t' [] rest hrest
        simp only [List.count_append, List.count_cons, List.count_nil, beq_self_eq_true,
          if_true] at hcount hfew
        omega

end Puts

theorem not_formatsToText (lib : TimeLibrary) {s : List Char} (hs : '%' ∈ s) :
    ¬ FormatsToText lib s := by
  rintro ⟨herr,hformat⟩
  obtain ⟨u,v,rfl,hu⟩ := List.eq_append_cons_of_mem hs
  obtain ⟨n,w,rfl,hw⟩ := row_split v
  have hscan : scan [] 0 (doubled (u ++ '%' :: (List.replicate n '%' ++ w))) =
      scan (u ++ ['%'] ++ List.replicate (2 * n) '%') 0 ('%' :: doubled w) := by
    rw [doubled_append, doubled_of_not_mem hu, doubled_percent, scan_literal hu, scan_pair,
      scan_row]
    rfl
  have hputs : Puts lib (scan (u ++ ['%'] ++ List.replicate (2 * n) '%') 0 ('%' :: doubled w))
      (u ++ '%' :: (List.replicate n '%' ++ w)) := by
    rw [← hscan]
    constructor
    · intro p hp
      rw [LogFormatter.init, String.toList_ofList, List.any_map, List.any_eq_false] at herr
      simpa using herr p hp
    · have hzero := hformat zeroEvent
      rw [LogFormatter.format, LogFormatter.init, String.toList_ofList, List.map_map] at hzero
      exact hzero
  cases n with
  | zero =>
    have hne := single_percent hw (by simpa using hputs)
    exact hne (by simp)
  | succ n =>
    obtain ⟨rest,hrest⟩ := hputs.first
    have hrow : List.replicate (n + 1) '%' ++ w = List.replicate (2 * (n + 1)) '%' ++ rest := by
      simpa using hrest
    rw [Nat.two_mul, List.replicate_add (n + 1) (n + 1), List.append_assoc] at hrow
    rw [List.append_cancel_left hrow] at hw
    exact hw rfl

/-- A text formats to itself, and between specifiers to itself, exactly when it has no percent
sign. -/
theorem percentEscape_iff (lib : TimeLibrary) (s : List Char) :
    FormatsToText lib s ∧ (Ends s → FormatsBetween lib s) ↔ '%' ∉ s := by
  constructor
  · rintro ⟨htext,_⟩ hs
    exact not_formatsToText lib hs htext
  · intro hs
    exact ⟨formatsToText_of_not_mem lib hs,formatsBetween_of_not_mem lib hs⟩

/-- `100%` is written as `100%%`. -/
theorem percentEscape_hundred :
    doubled "100%".toList = "100%%".toList ∧ LogFormatter.init "100%%" =
      ⟨"100%%", [.text "100%", .text "<<error_format %>>"], true⟩ := by
  decide

end Gudov
