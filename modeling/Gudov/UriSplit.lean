import Gudov.UriComponents

/-!
# Splitting a text into its components

The components of a reference are found by its delimiters alone, as the regular expression in
appendix B of RFC 3986 does: `^(([^:/?#]+):)?(//([^/?#]*))?([^?#]*)(\?([^#]*))?(#(.*))?`. On
the texts that `uri_parser` accepts this is the way in which its rules split them.
-/
namespace Gudov.UriParser
open ActionMachine ActionMachine.Machine

/-- What stands before the first of the delimiters, and the rest. -/
def before (ds text : List UInt8) : List UInt8 × List UInt8 :=
  (text.takeWhile (· ∉ ds), text.dropWhile (· ∉ ds))

def splitScheme (text : List UInt8) : Option (List UInt8) × List UInt8 :=
  match before [colon, slash, question, hash] text with
  | (s, c :: rest) => if c = colon ∧ s ≠ [] then (some s, rest) else (none, text)
  | (_, []) => (none, text)

/-- A host in brackets ends with them, another one before a colon. -/
def splitHost (text : List UInt8) : List UInt8 × List UInt8 :=
  if text.head? = some 91 then
    match before [93] text with
    | (h, c :: rest) => (h ++ [c], rest)
    | (h, []) => (h, [])
  else before [colon] text

/-- What stands behind a delimiter. -/
def behind : List UInt8 → Option (List UInt8)
  | _ :: w => some w
  | [] => none

/-- `[ userinfo "@" ] host [ ":" port ]`. -/
def splitAuthority (text : List UInt8) : Authority :=
  let (userinfo, rest) :=
    match before [atSign] text with
    | (ui, _ :: rest) => (some ui, rest)
    | (_, []) => (none, text)
  let (host, rest) := splitHost rest
  { userinfo, host, port := behind rest }

def splitHier (text : List UInt8) : Option Authority × List UInt8 :=
  match text with
  | 47 :: 47 :: rest =>
    let (a, rest) := before [slash, question, hash] rest
    (some (splitAuthority a), rest)
  | rest => (none, rest)

def splitQuery (text : List UInt8) : Option (List UInt8) × Option (List UInt8) :=
  match text with
  | 63 :: rest =>
    let (q, rest) := before [hash] rest
    (some q, behind rest)
  | rest => (none, behind rest)

def components (text : List UInt8) : Components :=
  let (scheme, rest) := splitScheme text
  let (authority, rest) := splitHier rest
  let (path, rest) := before [question, hash] rest
  let (query, fragment) := splitQuery rest
  { scheme, authority, path, query, fragment }

section Before
variable {ds u v : List UInt8}

theorem before_append (hu : ∀ c ∈ u, c ∉ ds) (hv : ∀ c ∈ v.head?, c ∈ ds) :
    before ds (u ++ v) = (u, v) := by
  have hall : ∀ c ∈ u, decide (c ∉ ds) = true := fun c hc => decide_eq_true (hu c hc)
  rw [before, List.takeWhile_append_of_pos hall, List.dropWhile_append_of_pos hall]
  cases v with
  | nil => simp
  | cons c v => simp [hv c rfl]

theorem before_self (hu : ∀ c ∈ u, c ∉ ds) : before ds u = (u, []) := by
  have h := before_append (v := []) hu (by simp)
  rwa [List.append_nil] at h

end Before

section Parts
variable {c : Components} {a : Authority} {h : List UInt8} {o : Option (List UInt8)}

theorem splitHost_eq (hh : (host : Numbered).Accepts h) :
    splitHost (h ++ delimited colon o) = (h, delimited colon o) := by
  have hnext : ∀ b ∈ (delimited colon o).head?, b = colon := by
    cases o with
    | none => simp [delimited]
    | some ds => simp [delimited]
  rcases accepts_alt.mp hh with hh | hh
  · obtain ⟨x,rfl,hx⟩ := accepts_word_seq.mp hh
    obtain ⟨y,z,rfl,hy,hz⟩ := accepts_seq.mp hx
    obtain rfl : z = [93] := accepts_word.mp hz
    have hfree : ∀ b ∈ 91 :: y, b ∉ [(93 : UInt8)] := by
      intro b hb hmem
      rw [List.mem_singleton.mp hmem] at hb
      rcases List.mem_cons.mp hb with hb | hb
      · cases hb
      · exact inner_avoids _ hy.live 93 hb rfl
    have hsplit := before_append (v := 93 :: delimited colon o) hfree (by simp)
    have htext : bytes "[" ++ (y ++ [93]) ++ delimited colon o =
        91 :: y ++ 93 :: delimited colon o := by simp [bytes]
    rw [splitHost, if_pos (by simp [bytes]), htext, hsplit]
    simp [bytes]
  · have hfree : ∀ b ∈ h, b ∉ [colon] := by
      intro b hb hmem
      rw [List.mem_singleton.mp hmem] at hb
      exact nameOrIpv4_avoids _ hh.live colon hb (.inr rfl)
    have hbracket : (h ++ delimited colon o).head? ≠ some 91 := by
      cases h with
      | nil =>
        intro heq
        cases hnext 91 heq
      | cons b h =>
        intro heq
        obtain rfl : b = 91 := by simpa using heq
        exact nameOrIpv4_avoids _ hh.live 91 (by simp) (.inl rfl)
    rw [splitHost, if_neg hbracket]
    refine before_append hfree ?_
    intro b hb
    rw [hnext b hb]
    simp

theorem splitAuthority_text (ha : a.Valid) : splitAuthority a.text = a := by
  obtain ⟨ui,h,o⟩ := a
  have hrest : ∀ (b : UInt8), b ∈ h ++ delimited colon o → b ∉ [atSign] := by
    intro b hb hmem
    rw [List.mem_singleton.mp hmem] at hb
    exact hostAndPort_avoids _ (hostAndPort_accepts (n := 0) ha.host ha.port).live _ hb rfl
  have hport : behind (delimited colon o) = o := by
    cases o <;> rfl
  cases ui with
  | none =>
    have htext : Authority.text ⟨none, h, o⟩ = h ++ delimited colon o := rfl
    rw [splitAuthority, htext, before_self hrest]
    simp only [splitHost_eq ha.host, hport]
  | some ui =>
    have htext : Authority.text ⟨some ui, h, o⟩ =
        ui ++ atSign :: (h ++ delimited colon o) := by
      simp [Authority.text, Authority.userinfoText]
    have hfree : ∀ b ∈ ui, b ∉ [atSign] := by
      intro b hb hmem
      rw [List.mem_singleton.mp hmem] at hb
      exact userinfo_avoids _ (ha.userinfo ui rfl).live _ hb (.inr rfl)
    rw [splitAuthority, htext, before_append hfree (by simp)]
    simp only [splitHost_eq ha.host, hport]

theorem splitScheme_uri (hc : c.Valid) {s : List UInt8} (hs : c.scheme = some s) :
    splitScheme c.text = (some s, c.hierText ++ c.queryText) := by
  have hscheme := hc.scheme s hs
  have htext : c.text = s ++ colon :: (c.hierText ++ c.queryText) := by
    simp [Components.text, Components.schemeText, hs]
  have hfree : ∀ b ∈ s, b ∉ [colon, slash, question, hash] := by
    intro b hb
    simpa using Components.scheme_free hscheme b hb
  have hne : s ≠ [] := by
    rintro rfl
    cases hscheme
  rw [splitScheme, htext, before_append hfree (by simp)]
  simp [hne]

theorem splitScheme_relative (hc : c.Valid) (hs : c.scheme = none) :
    splitScheme c.text = (none, c.hierText ++ c.queryText) := by
  have htext : c.text = c.hierText ++ c.queryText := by
    simp [Components.text, Components.schemeText, hs]
  have hlive := (Components.relativeRef_trace hc hs).1.live
  rw [splitScheme, ← htext]
  split
  next s b rest hbefore =>
    have hparts := Prod.mk.inj hbefore
    refine if_neg ?_
    rintro ⟨rfl,_⟩
    have hwhole := List.takeWhile_append_dropWhile
      (p := fun d => decide (d ∉ [colon, slash, question, hash])) (l := c.text)
    rw [hparts.1, hparts.2] at hwhole
    rw [← hwhole] at hlive
    refine Components.relativeRef_dead (u := s) ?_ (Live.left (v := rest) (by simpa using hlive))
    intro d hd
    rw [← hparts.1] at hd
    have hmem := List.mem_takeWhile_imp hd
    simp only [decide_eq_true_eq, List.mem_cons, List.not_mem_nil, or_false, not_or] at hmem
    exact hmem.2
  next => rfl

theorem path_free (hc : c.Valid) : ∀ b ∈ c.path, b ∉ [question, hash] := by
  intro b hb hmem
  have hdelimiter : b = question ∨ b = hash := by simpa using hmem
  have hhier : b ∈ c.hierText := List.mem_append_right _ hb
  cases hs : c.scheme with
  | some s =>
    exact Components.hier_avoids _ (Components.hier_trace (p := 0) hc hs).1.live b hhier hdelimiter
  | none =>
    exact Components.relative_avoids _ (Components.relative_trace (p := 0) hc hs).1.live b hhier
      hdelimiter

/-- Without an authority there are no two slashes for one. -/
theorem no_authority (hc : c.Valid) (ha : c.authority = none) (r : List UInt8) :
    c.path ++ c.queryText ≠ slash :: slash :: r := by
  intro heq
  have hquery : c.queryText.head? ≠ some slash := by
    intro h
    have hmem := hc.query_head slash h
    simp only [List.mem_cons, List.not_mem_nil, or_false] at hmem
    rcases hmem with hmem | hmem <;> cases hmem
  have hpath := hc.path
  match hp : c.path with
  | [] =>
    rw [hp, List.nil_append] at heq
    simp [heq] at hquery
  | [b] =>
    rw [hp, List.singleton_append] at heq
    simp [(List.cons.inj heq).2] at hquery
  | b :: d :: path =>
    rw [hp, List.cons_append, List.cons_append] at heq
    simp only [List.cons.injEq] at heq
    obtain ⟨rfl,rfl,_⟩ := heq
    rw [hp] at hpath
    cases hs : c.scheme with
    | some s =>
      simp only [Components.pathRule, ha, hs] at hpath
      exact no_double_slash rfl hpath
    | none =>
      simp only [Components.pathRule, ha, hs] at hpath
      exact no_double_slash rfl hpath

theorem splitHier_eq (hc : c.Valid) :
    splitHier (c.hierText ++ c.queryText) = (c.authority, c.path ++ c.queryText) := by
  cases ha : c.authority with
  | none =>
    have htext : c.hierText ++ c.queryText = c.path ++ c.queryText := by
      simp [Components.hierText, Components.authorityText, ha]
    rw [htext, splitHier]
    exact no_authority hc ha
  | some a =>
    have hvalid := hc.authority a ha
    have htext : c.hierText ++ c.queryText =
        slash :: slash :: (a.text ++ (c.path ++ c.queryText)) := by
      simp [Components.hierText, Components.authorityText, ha]
    have hfree : ∀ b ∈ a.text, b ∉ [slash, question, hash] := by
      intro b hb hmem
      have hlive := (Authority.accepts_iff (n := 0)).mpr ⟨a,hvalid,rfl⟩
      exact authority_avoids 0 _ hlive.live b hb (by simpa using hmem)
    rw [htext, splitHier, before_append hfree (hc.after_authority ha)]
    simp only [splitAuthority_text hvalid]

theorem splitQuery_eq (hc : c.Valid) : splitQuery c.queryText = (c.query, c.fragment) := by
  have hbehind : behind (delimited hash c.fragment) = c.fragment := by
    cases c.fragment <;> rfl
  cases hq : c.query with
  | none =>
    have htext : c.queryText = delimited hash c.fragment := by
      simp [Components.queryText, hq, delimited]
    rw [htext, splitQuery, hbehind]
    intro r heq
    cases hf : c.fragment with
    | none => simp [hf, delimited] at heq
    | some f =>
      rw [hf] at heq
      cases (List.cons.inj heq).1
  | some q =>
    have htext : c.queryText = question :: (q ++ delimited hash c.fragment) := by
      simp [Components.queryText, hq, delimited]
    have hfree : ∀ b ∈ q, b ∉ [hash] := by
      intro b hb hmem
      rw [List.mem_singleton.mp hmem] at hb
      have hquery : (queryAt 0).Accepts (question :: q) :=
        accepts_delimited.mpr ⟨some q,rfl,by simpa [accepts_framed] using hc.query q hq⟩
      exact query_avoids _ hquery.live hash (by simp [hb]) rfl
    have hnext : ∀ b ∈ (delimited hash c.fragment).head?, b ∈ [hash] := by
      cases c.fragment <;> simp [delimited]
    rw [htext, splitQuery, before_append hfree hnext]
    simp only [hbehind]

/-- An accepted text is split as the rules split it. -/
theorem components_text (hc : c.Valid) : components c.text = c := by
  have hscheme : splitScheme c.text = (c.scheme, c.hierText ++ c.queryText) := by
    cases hs : c.scheme with
    | none => exact splitScheme_relative hc hs
    | some s => exact splitScheme_uri hc hs
  rw [components, hscheme]
  simp only [splitHier_eq hc, before_append (path_free hc) hc.query_head, splitQuery_eq hc]

end Parts

end Gudov.UriParser
