import Gudov.UriTrace

/-!
# The components of a URI

The components in the words of RFC 3986: an optional scheme, an optional authority with its
parts, a path, and an optional query and fragment. The texts that `uri_parser` accepts are
those of components that fit its rules, and each of them has one trace.
-/
namespace Gudov.UriParser
open ActionMachine ActionMachine.Machine
open Http11 (chars digit alpha)

structure Authority where
  userinfo : Option (List UInt8)
  host : List UInt8
  port : Option (List UInt8)
deriving Repr, DecidableEq

structure Components where
  scheme : Option (List UInt8)
  authority : Option Authority
  path : List UInt8
  query : Option (List UInt8)
  fragment : Option (List UInt8)
deriving Repr, DecidableEq

namespace Authority

def userinfoText (a : Authority) : List UInt8 :=
  match a.userinfo with
  | none => []
  | some ui => ui ++ [atSign]

def text (a : Authority) : List UInt8 := a.userinfoText ++ (a.host ++ delimited colon a.port)

/-- The parts fit the rules. -/
structure Valid (a : Authority) : Prop where
  userinfo : ∀ ui ∈ a.userinfo, (UriParser.userinfo : Numbered).Accepts ui
  host : (UriParser.host : Numbered).Accepts a.host
  port : ∀ ds ∈ a.port, (UriParser.port : Numbered).Accepts ds

/-- The actions of `authority`. -/
def trace (a : Authority) (p n : ℕ) : List (ℕ × ℕ × Action) :=
  match a.userinfo with
  | none => (p, n, .markh) :: hostAndPortTrace p (n + 2) a.host a.port
  | some ui => (p, n, .markh) :: (strayTrace p (n + 2) ui ++
      (p + ui.length, n + 1, .saveUserinfo) ::
        hostAndPortTrace (p + ui.length + 1) (n + 2) a.host a.port)

variable {a : Authority} {p n : ℕ} {w : List UInt8}

theorem Valid.trace (ha : a.Valid) : (authorityAt n).HasTrace p a.text (a.trace p n) := by
  obtain ⟨ui,h,o⟩ := a
  cases ui with
  | none => exact authority_trace ha.host ha.port
  | some ui =>
    have htext : text ⟨some ui, h, o⟩ = ui ++ atSign :: (h ++ delimited colon o) := by
      simp [text, userinfoText]
    rw [htext]
    exact authority_trace_userinfo (ha.userinfo ui rfl) ha.host ha.port

theorem accepts_iff : (authorityAt n).Accepts w ↔ ∃ a : Authority, a.Valid ∧ w = a.text := by
  rw [authorityAt, accepts_enter, accepts_seq]
  have hrest : ∀ v, (hostAndPortAt (n + 2)).Accepts v ↔ ∃ h o, v = h ++ delimited colon o ∧
      (UriParser.host : Numbered).Accepts h ∧ ∀ ds ∈ o, (UriParser.port : Numbered).Accepts ds := by
    intro v
    rw [hostAndPortAt, accepts_seq, portAt, lit, show bytes ":" = [colon] from rfl]
    simp only [accepts_delimited, accepts_framed]
    constructor
    · rintro ⟨h,_,rfl,hh,o,rfl,ho⟩
      exact ⟨h,o,rfl,hh,ho⟩
    · rintro ⟨h,o,rfl,hh,ho⟩
      exact ⟨h,_,rfl,hh,o,rfl,ho⟩
  simp only [accepts_userinfo, hrest]
  constructor
  · rintro ⟨u,_,rfl,rfl | ⟨ui,rfl,hui⟩,h,o,rfl,hh,ho⟩
    · exact ⟨⟨none,h,o⟩,⟨by simp,hh,ho⟩,rfl⟩
    · exact ⟨⟨some ui,h,o⟩,⟨by simpa using hui,hh,ho⟩,rfl⟩
  · rintro ⟨⟨ui,h,o⟩,ha,rfl⟩
    refine ⟨userinfoText ⟨ui,h,o⟩,_,rfl,?_,h,o,rfl,ha.host,ha.port⟩
    cases ui with
    | none => exact .inl rfl
    | some ui => exact .inr ⟨ui,rfl,ha.userinfo ui rfl⟩

theorem Valid.trace_numbers (ha : a.Valid) {x : ℕ × ℕ × Action} (hx : x ∈ a.trace p n) :
    n ≤ x.2.1 ∧ x.2.1 < n + 6 := by
  obtain ⟨ui,h,o⟩ := a
  cases ui with
  | none =>
    rcases List.mem_cons.mp hx with rfl | hx
    · simp
    · have hnum := hostAndPortTrace_numbers hx
      omega
  | some ui =>
    rcases List.mem_cons.mp hx with rfl | hx
    · simp
    rcases List.mem_append.mp hx with hx | hx
    · have hnum := strayTrace_numbers (ha.userinfo ui rfl) hx
      omega
    rcases List.mem_cons.mp hx with rfl | hx
    · simp
    · have hnum := hostAndPortTrace_numbers hx
      omega

end Authority

section Paths

theorem authority_avoids (n : ℕ) :
    (authorityAt n).Avoids (fun c => c = slash ∨ c = question ∨ c = hash) := by
  apply avoids_of_uses
  rintro c (rfl | rfl | rfl) <;> rfl

theorem pathAbempty_startsIn {L : Type} : (pathAbempty : Machine L).StartsIn (· = slash) := by
  apply startsIn_of_firsts
  have hfirsts : (pathAbempty : Machine L).firsts = [.range 47 47, .range 47 47] := rfl
  simp [hfirsts, has_single]

theorem segment_startsIn {L : Type} {s : ByteSet} {m : Machine L} (hs : s.has slash = false) :
    (seq (plus (orPct s)) m).StartsIn (· ≠ slash) := by
  apply startsIn_of_firsts
  have hfirsts : (seq (plus (orPct s)) m).firsts = [s, .range 37 37] := rfl
  rw [hfirsts]
  rintro t ht c hc rfl
  simp only [List.mem_cons, List.not_mem_nil, or_false] at ht
  rcases ht with rfl | rfl
  · rw [hs] at hc
    cases hc
  · cases hc

/-- A path without an authority does not start with two slashes. -/
theorem no_double_slash {L : Type} {s : ByteSet} (hs : s.has slash = false) {v : List UInt8}
    (h : (alt pathAbsolute (alt (seq (plus (orPct s)) slashSegments) null) : Machine L).Accepts
      (slash :: slash :: v)) : False := by
  rcases accepts_alt.mp h with h | h
  · obtain ⟨w,heq,hw⟩ := accepts_word_seq.mp h
    obtain rfl : slash :: v = w := (List.cons.inj heq).2
    rcases accepts_opt.mp hw with hw | hw
    · exact segment_startsIn (by rfl) slash (hw.live.left (u := [slash])) rfl
    · cases hw
  · rcases accepts_alt.mp h with h | h
    · exact segment_startsIn hs slash (h.live.left (u := [slash])) rfl
    · cases accepts_null.mp h

/-- Such a path has no actions, and is not taken for an authority. -/
theorem path_trace {s : ByteSet} (hs : s.has slash = false) {m : Numbered} {p : ℕ}
    {path : List UInt8}
    (h : (alt pathAbsolute (alt (seq (plus (orPct s)) slashSegments) null) : Numbered).Accepts
      path) :
    (alt (seq (lit "//") m) (alt pathAbsolute (alt (seq (plus (orPct s)) slashSegments) null))
      ).HasTrace p path [] := by
  have hplain : (alt pathAbsolute (alt (seq (plus (orPct s)) slashSegments) null) :
      Numbered).HasTrace p path [] := hasTrace_plain rfl
  refine HasTrace.alt (T := []) ⟨List.Pairwise.nil,?_⟩ hplain List.Pairwise.nil (by simp)
  intro x
  have hlit : ∀ u b, ¬(lit "//" : Numbered).At u b x.2 := fun u b => not_at_of_plain rfl
  simp only [List.not_mem_nil, false_iff, not_exists, not_and, at_seq, hlit, and_false, false_or]
  rintro u v rfl _ y z rfl hy _
  obtain rfl : y = [slash, slash] := accepts_word.mp hy
  exact no_double_slash hs h

end Paths

section AuthorityPart
variable {p n : ℕ}

/-- Two slashes, an authority and a path behind it, beside paths without an authority. -/
theorem authorityPart_trace {a : Authority} (ha : a.Valid) {m alternatives : Numbered}
    {path : List UInt8} {T : List (ℕ × ℕ × Action)}
    (hT : m.HasTrace (p + 2 + a.text.length) path T) (hpath : m.Accepts path)
    (hstart : m.StartsIn (· = slash)) (hnum : ∀ x ∈ T, n + 6 ≤ x.2.1)
    (hplain : alternatives.plain = true) :
    (alt (seq (lit "//") (seq (authorityAt n) m)) alternatives).Accepts
        ([slash, slash] ++ (a.text ++ path)) ∧
      (alt (seq (lit "//") (seq (authorityAt n) m)) alternatives).HasTrace p
        ([slash, slash] ++ (a.text ++ path)) (a.trace (p + 2) n ++ T) := by
  have hauth : (authorityAt n).Accepts a.text := Authority.accepts_iff.mpr ⟨a,ha,rfl⟩
  have hboth : (seq (authorityAt n) m).Accepts (a.text ++ path) :=
    accepts_seq.mpr ⟨a.text,path,rfl,hauth,hpath⟩
  have hseq : (seq (authorityAt n) m).HasTrace (p + 2) (a.text ++ path)
      (a.trace (p + 2) n ++ T) := by
    refine ha.trace.seq hT hauth hpath ?_ ?_
    · refine SplitsAt.of_delimiter ?_ hstart hauth hpath.opens
      intro w d v _ hd hlive
      exact authority_avoids n _ hlive d (by simp) (.inl hd)
    · intro x hx y hy
      have hx := ha.trace_numbers hx
      have hy := hnum y hy
      omega
  have hlit : (lit "//" : Numbered).HasTrace p [slash, slash] [] := hasTrace_plain rfl
  have hword : (seq (lit "//") (seq (authorityAt n) m)).HasTrace p
      ([slash, slash] ++ (a.text ++ path)) (a.trace (p + 2) n ++ T) :=
    hlit.seq hseq (accepts_word.mpr rfl) hboth SplitsAt.word (by simp)
  refine ⟨accepts_alt.mpr (.inl (accepts_word_seq.mpr ⟨_,rfl,hboth⟩)),?_⟩
  exact hword.alt (hasTrace_plain hplain) hword.sorted (by simp)

end AuthorityPart

namespace Components
variable {c : Components} {p n : ℕ}

def schemeText (c : Components) : List UInt8 :=
  match c.scheme with
  | none => []
  | some s => s ++ [colon]

def authorityText (c : Components) : List UInt8 :=
  match c.authority with
  | none => []
  | some a => [slash, slash] ++ a.text

/-- What stands before the query. -/
def hierText (c : Components) : List UInt8 := c.authorityText ++ c.path

def queryText (c : Components) : List UInt8 :=
  delimited question c.query ++ delimited hash c.fragment

def text (c : Components) : List UInt8 := c.schemeText ++ (c.hierText ++ c.queryText)

/-- The rule of the path. -/
def pathRule (c : Components) : Numbered :=
  match c.authority, c.scheme with
  | some _, _ => pathAbempty
  | none, some _ => alt pathAbsolute (alt pathRootless null)
  | none, none => alt pathAbsolute (alt pathNoscheme null)

/-- The components fit the rules. -/
structure Valid (c : Components) : Prop where
  scheme : ∀ s ∈ c.scheme, (UriParser.schemeText : Numbered).Accepts s
  authority : ∀ a ∈ c.authority, a.Valid
  path : c.pathRule.Accepts c.path
  query : ∀ q ∈ c.query, (star pcharSlash : Numbered).Accepts q
  fragment : ∀ f ∈ c.fragment, (star pcharSlash : Numbered).Accepts f

theorem Valid.queryText (hc : c.Valid) : (queryAndFragmentAt n).Accepts c.queryText :=
  accepts_queryAndFragment.mpr ⟨c.query,c.fragment,rfl,hc.query,hc.fragment⟩

theorem Valid.query_head (hc : c.Valid) : ∀ b ∈ c.queryText.head?, b ∈ [question, hash] := by
  intro b hb
  have hquery := hc.queryText (n := 0)
  cases ht : c.queryText with
  | nil =>
    rw [ht] at hb
    cases hb
  | cons d r =>
    rw [ht] at hb hquery
    obtain rfl : d = b := by simpa using hb
    simpa using queryAndFragment_startsIn d (hquery.live.left (u := [d]))

/-- What follows an authority. -/
theorem Valid.after_authority (hc : c.Valid) {a : Authority} (ha : c.authority = some a) :
    ∀ b ∈ (c.path ++ c.queryText).head?, b ∈ [slash, question, hash] := by
  intro b hb
  have hpath := hc.path
  simp only [pathRule, ha] at hpath
  cases hp : c.path with
  | nil =>
    rw [hp, List.nil_append] at hb
    exact List.mem_cons_of_mem _ (hc.query_head b hb)
  | cons d r =>
    rw [hp] at hb hpath
    obtain rfl : d = b := by simpa using hb
    rw [show d = slash from pathAbempty_startsIn d (hpath.live.left (u := [d]))]
    exact List.mem_cons_self

/-- The actions of `hier_part`. -/
def hierTrace (c : Components) (p : ℕ) : List (ℕ × ℕ × Action) :=
  match c.authority with
  | none => []
  | some a => a.trace (p + 2) 2 ++ frame (p + 2 + a.text.length) 8 .markh .savePath c.path

/-- The actions of `relative_part`. -/
def relativeTrace (c : Components) (p : ℕ) : List (ℕ × ℕ × Action) :=
  match c.authority with
  | none => []
  | some a => a.trace (p + 2) 14

theorem hier_trace (hc : c.Valid) {s : List UInt8} (hs : c.scheme = some s) :
    numberedHierPart.Accepts c.hierText ∧
      numberedHierPart.HasTrace p c.hierText (c.hierTrace p) := by
  have hpath := hc.path
  cases ha : c.authority with
  | none =>
    simp only [pathRule, ha, hs] at hpath
    simp only [hierText, authorityText, hierTrace, ha, List.nil_append]
    exact ⟨accepts_alt.mpr (.inr hpath),path_trace rfl hpath⟩
  | some a =>
    simp only [pathRule, ha] at hpath
    simp only [hierText, authorityText, hierTrace, ha, List.append_assoc]
    refine authorityPart_trace (hc.authority a ha) (hasTrace_framed rfl hpath)
      (accepts_framed.mpr hpath) ?_ ?_ rfl
    · intro b hb
      exact pathAbempty_startsIn b (live_framed.mp hb)
    · intro x hx
      exact (frame_numbers hx).1

theorem relative_trace (hc : c.Valid) (hs : c.scheme = none) :
    numberedRelativePart.Accepts c.hierText ∧
      numberedRelativePart.HasTrace p c.hierText (c.relativeTrace p) := by
  have hpath := hc.path
  cases ha : c.authority with
  | none =>
    simp only [pathRule, ha, hs] at hpath
    simp only [hierText, authorityText, relativeTrace, ha, List.nil_append]
    exact ⟨accepts_alt.mpr (.inr hpath),path_trace rfl hpath⟩
  | some a =>
    simp only [pathRule, ha] at hpath
    simp only [hierText, authorityText, relativeTrace, ha, List.append_assoc]
    have htrace := authorityPart_trace (p := p) (n := 14) (hc.authority a ha)
      (hasTrace_plain (m := pathAbempty) rfl) hpath pathAbempty_startsIn (by simp)
      (show (alt pathAbsolute (alt pathNoscheme null) : Numbered).plain = true from rfl)
    rwa [List.append_nil] at htrace

theorem withQuery_trace (hc : c.Valid) {m : Numbered} {T : List (ℕ × ℕ × Action)}
    (hm : m.Accepts c.hierText ∧ m.HasTrace p c.hierText T)
    (hstops : m.Avoids (fun c => c = question ∨ c = hash)) (hnum : ∀ x ∈ T, x.2.1 < n) :
    (seq m (queryAndFragmentAt n)).Accepts (c.hierText ++ c.queryText) ∧
      (seq m (queryAndFragmentAt n)).HasTrace p (c.hierText ++ c.queryText)
        (T ++ queryAndFragmentTrace (p + c.hierText.length) n c.query c.fragment) := by
  have hquery := hc.queryText (n := n)
  refine ⟨accepts_seq.mpr ⟨_,_,rfl,hm.1,hquery⟩,?_⟩
  refine hm.2.seq (queryAndFragment_trace hc.query hc.fragment) hm.1 hquery ?_ ?_
  · exact SplitsAt.of_delimiter hstops.stops queryAndFragment_startsIn hm.1 hquery.opens
  · intro x hx y hy
    exact lt_of_lt_of_le (hnum x hx) (queryAndFragmentTrace_numbers hy)

theorem hier_avoids : numberedHierPart.Avoids (fun c => c = question ∨ c = hash) := by
  apply avoids_of_uses
  rintro c (rfl | rfl) <;> rfl

theorem relative_avoids : numberedRelativePart.Avoids (fun c => c = question ∨ c = hash) := by
  apply avoids_of_uses
  rintro c (rfl | rfl) <;> rfl

theorem hierTrace_numbers (hc : c.Valid) {x : ℕ × ℕ × Action} (hx : x ∈ c.hierTrace p) :
    2 ≤ x.2.1 ∧ x.2.1 < 10 := by
  rw [hierTrace] at hx
  split at hx
  next => cases hx
  next a ha =>
    rcases List.mem_append.mp hx with hx | hx
    · have hnum := (hc.authority a ha).trace_numbers hx
      omega
    · have hnum := frame_numbers hx
      omega

theorem relativeTrace_numbers (hc : c.Valid) {x : ℕ × ℕ × Action} (hx : x ∈ c.relativeTrace p) :
    14 ≤ x.2.1 ∧ x.2.1 < 20 := by
  rw [relativeTrace] at hx
  split at hx
  next => cases hx
  next a ha => exact (hc.authority a ha).trace_numbers hx

theorem scheme_avoids : numberedScheme.Avoids
    (fun c => c = colon ∨ c = slash ∨ c = question ∨ c = hash) := by
  apply avoids_of_uses
  rintro c (rfl | rfl | rfl | rfl) <;> rfl

theorem afterScheme_startsIn : afterScheme.StartsIn (· = colon) := by
  apply startsIn_of_firsts
  have hfirsts : afterScheme.firsts = [.range 58 58] := rfl
  simp [hfirsts, has_single]

/-- The actions of `URI`. -/
def uriTrace (c : Components) (s : List UInt8) : List (ℕ × ℕ × Action) :=
  frame 0 0 .marku .saveScheme s ++ (c.hierTrace (s.length + 1) ++
    queryAndFragmentTrace (s.length + 1 + c.hierText.length) 10 c.query c.fragment)

theorem uri_trace (hc : c.Valid) {s : List UInt8} (hs : c.scheme = some s) :
    numberedUri.Accepts c.text ∧ numberedUri.HasTrace 0 c.text (c.uriTrace s) := by
  have hscheme := hc.scheme s hs
  have hframed : numberedScheme.Accepts s := accepts_framed.mpr hscheme
  obtain ⟨hacc,htrace⟩ := withQuery_trace (p := s.length + 1) (n := 10) hc (hier_trace hc hs)
    hier_avoids fun x hx => (hierTrace_numbers hc hx).2
  have hlit : (lit ":" : Numbered).HasTrace s.length [colon] [] := hasTrace_plain rfl
  have hrest : afterScheme.Accepts ([colon] ++ (c.hierText ++ c.queryText)) :=
    accepts_word_seq.mpr ⟨_,rfl,hacc⟩
  have hcolon : afterScheme.HasTrace s.length ([colon] ++ (c.hierText ++ c.queryText))
      (c.hierTrace (s.length + 1) ++
        queryAndFragmentTrace (s.length + 1 + c.hierText.length) 10 c.query c.fragment) :=
    hlit.seq htrace (accepts_word.mpr rfl) hacc SplitsAt.word (by simp)
  have htext : c.text = s ++ ([colon] ++ (c.hierText ++ c.queryText)) := by
    simp [text, schemeText, hs]
  rw [htext]
  refine ⟨accepts_seq.mpr ⟨_,_,rfl,hframed,hrest⟩,?_⟩
  have hzero : (0 : ℕ) + s.length = s.length := Nat.zero_add _
  refine (hasTrace_framed rfl hscheme).seq (by rw [hzero]; exact hcolon) hframed hrest ?_ ?_
  · refine SplitsAt.of_delimiter ?_ afterScheme_startsIn hframed hrest.opens
    intro w d v _ hd hlive
    exact scheme_avoids _ hlive d (by simp) (.inl hd)
  · intro x hx y hy
    have hx := frame_numbers hx
    rcases List.mem_append.mp hy with hy | hy
    · have hy := hierTrace_numbers hc hy
      omega
    · have hy := queryAndFragmentTrace_numbers hy
      omega

theorem relativeRef_trace (hc : c.Valid) (hs : c.scheme = none) :
    numberedRelativeRef.Accepts c.text ∧ numberedRelativeRef.HasTrace 0 c.text
      (c.relativeTrace 0 ++ queryAndFragmentTrace c.hierText.length 20 c.query c.fragment) := by
  have h := withQuery_trace (p := 0) (n := 20) hc (relative_trace hc hs) relative_avoids
    fun x hx => (relativeTrace_numbers hc hx).2
  have htext : c.text = c.hierText ++ c.queryText := by simp [text, schemeText, hs]
  rw [Nat.zero_add] at h
  rw [htext]
  exact h

theorem slashSegments_startsIn {L : Type} : (slashSegments : Machine L).StartsIn (· = slash) := by
  apply startsIn_of_firsts
  have hfirsts : (slashSegments : Machine L).firsts = [.range 47 47] := rfl
  simp [hfirsts, has_single]

theorem slash_startsIn {m : Numbered} {k : List UInt8} :
    (seq (word (slash :: k)) m).StartsIn (· = slash) := by
  intro d hd
  rcases live_seq.mp hd with hd | ⟨u,v,heq,hv,hu,_⟩
  · simpa using live_word.mp hd
  · rw [accepts_word.mp hu] at heq
    simpa using (List.cons.inj heq).1

theorem StartsIn.mem {m : Numbered} {D : UInt8 → Prop} (h : m.StartsIn D) {w : List UInt8}
    (hw : m.Live w) (hne : w ≠ []) : ∃ d ∈ w, D d := by
  cases w with
  | nil => exact absurd rfl hne
  | cons d w => exact ⟨d,by simp,h d (hw.left (u := [d]))⟩

theorem segment_avoids : (plus pcharNoColon : Numbered).Avoids (· = colon) := by
  apply avoids_of_uses
  rintro c rfl
  rfl

theorem scheme_free {u : List UInt8} (hu : (UriParser.schemeText : Numbered).Accepts u) :
    ∀ d ∈ u, d ≠ colon ∧ d ≠ slash ∧ d ≠ question ∧ d ≠ hash := by
  intro d hd
  have hscheme : numberedScheme.Live u := live_framed.mpr hu.live
  simpa only [not_or] using scheme_avoids u hscheme d hd

/-- A colon in the first segment ends a relative reference. -/
theorem relativeRef_dead {u : List UInt8}
    (hu : ∀ d ∈ u, d ≠ slash ∧ d ≠ question ∧ d ≠ hash) :
    ¬numberedRelativeRef.Live (u ++ [colon]) := by
  have hfree : ∀ d ∈ u ++ [colon], d ≠ slash ∧ d ≠ question ∧ d ≠ hash := by
    intro d hd
    rcases List.mem_append.mp hd with hd | hd
    · exact hu d hd
    · rw [List.mem_singleton.mp hd]
      decide
  intro h
  have hslash : ∀ {m : Numbered} {v : List UInt8}, m.StartsIn (· = slash) → m.Live v → v ≠ [] →
      v <:+ u ++ [colon] → False := by
    intro m v hm hlive hne hsuffix
    obtain ⟨d,hd,rfl⟩ := StartsIn.mem hm hlive hne
    exact (hfree slash (hsuffix.subset hd)).1 rfl
  rcases live_seq.mp h with h | ⟨x,y,heq,hy,_,hlive⟩
  · rcases live_alt.mp h with h | h
    · exact hslash slash_startsIn h (by simp) (List.suffix_refl _)
    rcases live_alt.mp h with h | h
    · exact hslash slash_startsIn h (by simp) (List.suffix_refl _)
    rcases live_alt.mp h with h | h
    · rcases live_seq.mp h with h | ⟨x,y,heq,hy,_,hlive⟩
      · exact segment_avoids _ h colon (by simp) rfl
      · exact hslash slashSegments_startsIn hlive hy (heq ▸ List.suffix_append x y)
    · cases u with
      | nil =>
        obtain ⟨t,ht,_⟩ := h
        simp at ht
      | cons d u =>
        obtain ⟨t,ht,_⟩ := h
        simp at ht
  · obtain ⟨d,hd,hquery⟩ := StartsIn.mem queryAndFragment_startsIn hlive hy
    have hnot := hfree d (by rw [heq]; simp [hd])
    exact hquery.elim hnot.2.1 hnot.2.2

/-- The mark of a scheme that a relative reference might have had. -/
def strayMark : List UInt8 → List (ℕ × ℕ × Action)
  | [] => []
  | c :: _ => if alpha.has c then [(0, 0, .marku)] else []

theorem strayMark_sorted (w : List UInt8) : (strayMark w).Pairwise Before := by
  cases w with
  | nil => exact List.Pairwise.nil
  | cons d w =>
    rw [strayMark]
    split
    · exact List.pairwise_singleton _ _
    · exact List.Pairwise.nil

theorem strayMark_first {w : List UInt8} {x : ℕ × ℕ × Action} (hx : x ∈ strayMark w) :
    x.1 = 0 ∧ x.2.1 = 0 := by
  cases w with
  | nil => cases hx
  | cons d w =>
    rw [strayMark, List.mem_ite_nil_right, List.mem_singleton] at hx
    rw [hx.2]
    exact ⟨rfl,rfl⟩

theorem opens_schemeText {d : UInt8} :
    (UriParser.schemeText : Numbered).opens (some d) ↔ alpha.has d = true := by
  by_cases hd : alpha.has d = true <;> simp [opens, UriParser.schemeText, hd, outs]

theorem opens_afterScheme {v : List UInt8} (h : afterScheme.opens v.head?) :
    ∃ t, v = colon :: t := by
  cases v with
  | nil => cases h
  | cons d v => exact ⟨v,by rw [show d = colon from afterScheme_startsIn d (opens_some.mp h)]⟩

theorem uri_beside {w : List UInt8} (hw : numberedRelativeRef.Accepts w) :
    numberedUri.HasTrace 0 w (strayMark w) := by
  have hnot : ∀ u v, (UriParser.schemeText : Numbered).Accepts u → w ≠ u ++ colon :: v := by
    rintro u v hu rfl
    refine relativeRef_dead (fun d hd => (scheme_free hu d hd).2) (Live.left (v := v) ?_)
    simpa using hw.live
  refine ⟨strayMark_sorted w,?_⟩
  intro x
  simp only [numberedUri, at_seq, numberedScheme,
    at_framed (show (UriParser.schemeText : Numbered).plain = true from rfl)]
  constructor
  · intro hx
    cases w with
    | nil => cases hx
    | cons d w =>
      simp only [strayMark, List.mem_ite_nil_right, List.mem_singleton] at hx
      obtain ⟨hd,rfl⟩ := hx
      exact ⟨[],d :: w,rfl,rfl,.inl ⟨by simp,.inl ⟨rfl,rfl,opens_schemeText.mpr hd⟩⟩⟩
  · rintro ⟨u,v,rfl,hp,⟨_,⟨rfl,hl,hopens⟩ | ⟨ho,_⟩⟩ | ⟨hopens,⟨_,_,hempty⟩ | ⟨_,_,hu⟩⟩ |
      ⟨y,z,rfl,hy,hat⟩⟩
    · cases v with
      | nil => cases hopens
      | cons d v =>
        obtain rfl : x = (0, 0, .marku) := Prod.ext hp hl
        simp [strayMark, opens_schemeText.mp hopens]
    · contradiction
    · cases hempty
    · obtain ⟨t,rfl⟩ := opens_afterScheme hopens
      exact absurd rfl (hnot u t hu)
    · obtain ⟨t,ht⟩ := opens_afterScheme hat.goes.opens
      refine absurd ?_ (hnot y t (accepts_framed.mp hy))
      rw [List.append_assoc, ht]

theorem relativeRef_beside {s r : List UInt8} (hs : (UriParser.schemeText : Numbered).Accepts s) :
    numberedRelativeRef.HasTrace 0 (s ++ colon :: r) [] := by
  refine ⟨List.Pairwise.nil,?_⟩
  intro x
  simp only [List.not_mem_nil, false_iff]
  rintro ⟨u,v,heq,_,hat⟩
  have hdead := relativeRef_dead fun d hd => (scheme_free hs d hd).2
  -- The reference is alive at most up to the last byte of the scheme.
  obtain ⟨d,t,rfl,hd⟩ : ∃ d t, s = u ++ d :: t ∧ v.head? = some d := by
    rcases List.append_eq_append_iff.mp heq with ⟨t,rfl,ht⟩ | ⟨t,rfl,rfl⟩
    · cases t with
      | nil =>
        rw [List.nil_append] at ht
        rw [← ht, List.append_nil] at hat
        exact absurd (goes_some.mp hat.goes) hdead
      | cons d t =>
        obtain ⟨rfl,_⟩ := List.cons.inj ht
        refine absurd (Live.left (v := t) ?_) hdead
        simpa using hat.goes.live
    · cases t with
      | nil =>
        rw [List.append_nil] at hdead
        exact absurd (goes_some.mp hat.goes) hdead
      | cons d t => exact ⟨d,t,rfl,rfl⟩
  rw [hd] at hat
  have hfree : ∀ b ∈ u ++ [d], b ≠ slash ∧ ¬(b = question ∨ b = hash) := by
    intro b hb
    have hnot := scheme_free hs b (by simp at hb ⊢; tauto)
    exact ⟨hnot.2.1,not_or.mpr hnot.2.2⟩
  rcases at_seq.mp hat with ⟨_,hat⟩ | ⟨hopens,_⟩ | ⟨y,z,rfl,_,hat⟩
  · rcases at_alt.mp hat with hat | hat
    · rcases at_seq.mp hat with ⟨_,hat⟩ | ⟨_,hat⟩ | ⟨y,z,rfl,hy,_⟩
      · exact not_at_of_plain rfl hat
      · exact not_at_of_plain rfl hat
      · obtain rfl : y = [slash, slash] := accepts_word.mp hy
        exact (hfree slash (by simp)).1 rfl
    · exact not_at_of_plain rfl hat
  · exact (hfree d (by simp)).2 (queryAndFragment_startsIn d (opens_some.mp hopens))
  · obtain ⟨b,hb,hquery⟩ := StartsIn.mem queryAndFragment_startsIn (goes_some.mp hat.goes) (by simp)
    refine (hfree b ?_).2 hquery
    simp at hb ⊢
    tauto

/-- The actions on the text of the components. -/
def trace (c : Components) : List (ℕ × ℕ × Action) :=
  match c.scheme with
  | some s => c.uriTrace s
  | none => strayMark c.text ++ (c.relativeTrace 0 ++
      queryAndFragmentTrace c.hierText.length 20 c.query c.fragment)

theorem main_trace (hc : c.Valid) : (main.number 0).1.Accepts c.text ∧
    (main.number 0).1.HasTrace 0 c.text c.trace := by
  rw [number_main]
  cases hs : c.scheme with
  | some s =>
    obtain ⟨hacc,htrace⟩ := uri_trace hc hs
    refine ⟨accepts_alt.mpr (.inl hacc),?_⟩
    have hbeside := relativeRef_beside (r := c.hierText ++ c.queryText) (hc.scheme s hs)
    have htext : s ++ colon :: (c.hierText ++ c.queryText) = c.text := by
      simp [text, schemeText, hs]
    rw [htext] at hbeside
    simp only [trace, hs]
    exact htrace.alt hbeside htrace.sorted (by simp)
  | none =>
    obtain ⟨hacc,htrace⟩ := relativeRef_trace hc hs
    refine ⟨accepts_alt.mpr (.inr hacc),?_⟩
    simp only [trace, hs]
    refine (uri_beside hacc).alt htrace ?_ (by simp)
    refine List.pairwise_append.mpr ⟨strayMark_sorted _,htrace.sorted,?_⟩
    intro x hx y hy
    have hfirst := strayMark_first hx
    have hnum : 14 ≤ y.2.1 := by
      rcases List.mem_append.mp hy with hy | hy
      · exact (relativeTrace_numbers hc hy).1
      · have hnum := queryAndFragmentTrace_numbers hy
        omega
    simp only [Before]
    omega

/-- An accepted text has components. -/
theorem of_accepts {w : List UInt8} (h : (main.number 0).1.Accepts w) :
    ∃ c : Components, c.Valid ∧ w = c.text := by
  rw [number_main] at h
  rcases accepts_alt.mp h with huri | hrelative
  · obtain ⟨s,r,rfl,hs,hafter⟩ := accepts_seq.mp huri
    obtain ⟨r,rfl,hrest⟩ := accepts_word_seq.mp hafter
    obtain ⟨t,r,rfl,ht,hquery⟩ := accepts_seq.mp hrest
    obtain ⟨q,f,rfl,hq,hf⟩ := accepts_queryAndFragment.mp hquery
    have hs' := accepts_framed.mp hs
    rcases accepts_alt.mp ht with hauth | hpath
    · obtain ⟨r,rfl,hboth⟩ := accepts_word_seq.mp hauth
      obtain ⟨r,path,rfl,ha,hpath⟩ := accepts_seq.mp hboth
      obtain ⟨a,hvalid,rfl⟩ := Authority.accepts_iff.mp ha
      refine ⟨⟨some s,some a,path,q,f⟩,⟨by simpa using hs',by simpa using hvalid,
        accepts_framed.mp hpath,hq,hf⟩,?_⟩
      simp [text, schemeText, hierText, authorityText, queryText, bytes]
    · refine ⟨⟨some s,none,t,q,f⟩,⟨by simpa using hs',by simp,hpath,hq,hf⟩,?_⟩
      simp [text, schemeText, hierText, authorityText, queryText, bytes]
  · obtain ⟨t,r,rfl,ht,hquery⟩ := accepts_seq.mp hrelative
    obtain ⟨q,f,rfl,hq,hf⟩ := accepts_queryAndFragment.mp hquery
    rcases accepts_alt.mp ht with hauth | hpath
    · obtain ⟨r,rfl,hboth⟩ := accepts_word_seq.mp hauth
      obtain ⟨r,path,rfl,ha,hpath⟩ := accepts_seq.mp hboth
      obtain ⟨a,hvalid,rfl⟩ := Authority.accepts_iff.mp ha
      refine ⟨⟨none,some a,path,q,f⟩,⟨by simp,by simpa using hvalid,hpath,hq,hf⟩,?_⟩
      simp [text, schemeText, hierText, authorityText, queryText, bytes]
    · refine ⟨⟨none,none,t,q,f⟩,⟨by simp,by simp,hpath,hq,hf⟩,?_⟩
      simp [text, schemeText, hierText, authorityText, queryText]

end Components

end Gudov.UriParser
