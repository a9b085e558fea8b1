import Gudov.HttpClientMachine
import Gudov.MachinePaths
import Mathlib.Data.List.DropRight

/-!
# Heads that may go on

A head that ends in an empty line leads the machine to a final state. The state is not
`first_final` when the last line before the empty one is a `Connection`, `Content-Length` or
`Transfer-Encoding` line without a value: the rules for these lines take any white space behind
the colon, line ends among it, and wait for their value beyond the end of the head. In all
other states after a line feed the machine is between two lines or at the end.
-/
namespace Gudov.HttpClient
open ActionMachine ActionMachine.Machine
open Http11 (any digit xdigit space)

/-- Without the white space at its end the head ends in the name of a rule and its colon. -/
def endsValueless (head : List UInt8) : Bool :=
  ruled.any fun name =>
    (10 :: name ++ [58]).isSuffixOf ((head.rdropWhile space.has).map toLower)

section Text
variable {head : List UInt8}

theorem byte_toLower : ∀ n : Fin 256,
    (toLower (UInt8.ofNat n) = 10 → UInt8.ofNat n = 10) ∧
      (toLower (UInt8.ofNat n) = 58 → UInt8.ofNat n = 58) := by
  decide +kernel

theorem eq_of_toLower {c : UInt8} :
    (toLower c = 10 → c = 10) ∧ (toLower c = 58 → c = 58) := by
  have hbyte := byte_toLower ⟨c.toNat,c.toNat_lt⟩
  rw [UInt8.ofNat_toNat] at hbyte
  exact hbyte

theorem rdropWhile_append {p : UInt8 → Bool} {u v : List UInt8} {c : UInt8} (hc : p c = false)
    (hv : ∀ d ∈ v, p d = true) : (u ++ c :: v).rdropWhile p = u ++ [c] := by
  have hc' : ¬ p c = true := by simp [hc]
  rw [List.rdropWhile, List.reverse_append, List.reverse_cons, List.append_assoc,
    List.dropWhile_append_of_pos (by simpa using hv), List.singleton_append,
    List.dropWhile_cons_of_neg hc', List.reverse_cons, List.reverse_reverse]

/-- The name of such a line in the head itself, with the white space behind it. -/
theorem endsValueless_iff : endsValueless head = true ↔
    ∃ u name blank, head = u ++ 10 :: (name ++ 58 :: blank) ∧ name.map toLower ∈ ruled ∧
      ∀ c ∈ blank, space.has c = true := by
  rw [endsValueless, List.any_eq_true]
  constructor
  · rintro ⟨name,hname,hsuffix⟩
    obtain ⟨u,hu⟩ := List.isSuffixOf_iff_suffix.mp hsuffix
    obtain ⟨u',v,hhead,_,hv⟩ := List.map_eq_append_iff.mp hu.symm
    obtain ⟨x,line,rfl,hx,hline⟩ := List.map_eq_cons_iff.mp hv
    obtain ⟨name',v,rfl,hname',hcolon⟩ := List.map_eq_append_iff.mp hline
    obtain ⟨y,v,rfl,hy,hnil⟩ := List.map_eq_cons_iff.mp hcolon
    obtain rfl := List.map_eq_nil_iff.mp hnil
    obtain rfl := eq_of_toLower.1 hx
    obtain rfl := eq_of_toLower.2 hy
    refine ⟨u',name',head.rtakeWhile space.has,?_,hname' ▸ hname,fun c hc => ?_⟩
    · have hsplit := List.rdropWhile_append_rtakeWhile (l := head) (p := space.has)
      rw [hhead] at hsplit
      exact hsplit.symm.trans (by simp)
    · rw [List.rtakeWhile, List.mem_reverse] at hc
      exact List.mem_takeWhile_imp hc
  · rintro ⟨u,name,blank,rfl,hname,hblank⟩
    refine ⟨_,hname,List.isSuffixOf_iff_suffix.mpr ⟨u.map toLower,?_⟩⟩
    have hsplit : u ++ 10 :: (name ++ 58 :: blank) = (u ++ 10 :: name) ++ 58 :: blank := by simp
    rw [hsplit, rdropWhile_append rfl hblank]
    simp [toLower]

end Text

section Lines

def LineEnd (e : List UInt8) : Prop := e = [10] ∨ e = [13, 10]

/-- The text ends in an empty line. -/
def EmptyLine (w : List UInt8) : Prop := [10, 10] <:+ w ∨ [10, 13, 10] <:+ w

variable {u v w e : List UInt8} {z : UInt8}

theorem lineFeed_suffix (hv : v ≠ []) : [10] <:+ u ++ v ↔ [10] <:+ v := by
  obtain ⟨v,z,rfl⟩ := (List.eq_nil_or_concat v).resolve_left hv
  rw [← List.reverse_prefix, ← List.reverse_prefix]
  simp [List.cons_prefix_cons]

theorem LineEnd.suffix (he : LineEnd e) : [10] <:+ u ++ e := by
  rcases he with rfl | rfl
  · exact List.suffix_append u [10]
  · exact ⟨u ++ [13],by simp⟩

theorem not_suffix_of_not_mem (h : 10 ∉ w) : ¬ [10] <:+ w := fun hs => h (hs.subset (by simp))

theorem LineEnd.emptyLine (he : LineEnd e) (hu : [10] <:+ u) : EmptyLine (u ++ e) := by
  obtain ⟨x,rfl⟩ := hu
  rcases he with rfl | rfl
  · exact .inl ⟨x,by simp⟩
  · exact .inr ⟨x,by simp⟩

theorem EmptyLine.suffix (h : EmptyLine w) : [10] <:+ w := by
  rcases h with ⟨x,rfl⟩ | ⟨x,rfl⟩
  · exact ⟨x ++ [10],by simp⟩
  · exact ⟨x ++ [10, 13],by simp⟩

/-- A text of one line. -/
theorem LineEnd.not_emptyLine_of_once (he : LineEnd e) (hu : 10 ∉ u) : ¬ EmptyLine (u ++ e) := by
  have hone : (u ++ e).count 10 = 1 := by
    rw [List.count_append, List.count_eq_zero.mpr hu]
    rcases he with rfl | rfl <;> rfl
  rintro (h | h)
  · have hle := h.sublist.count_le 10
    rw [hone] at hle
    revert hle
    decide
  · have hle := h.sublist.count_le 10
    rw [hone] at hle
    revert hle
    decide

/-- Something stands in the last line. -/
theorem LineEnd.not_emptyLine (he : LineEnd e) (hfeed : z ≠ 10) (hreturn : z ≠ 13) :
    ¬ EmptyLine (u ++ z :: e) := by
  have hreverse : ∀ w : List UInt8, EmptyLine w ↔
      [10, 10] <+: w.reverse ∨ [10, 13, 10] <+: w.reverse := by
    intro w
    rw [EmptyLine, ← List.reverse_prefix, ← List.reverse_prefix]
    rfl
  rw [hreverse]
  rcases he with rfl | rfl <;> simp [List.cons_prefix_cons, hfeed.symm, hreturn.symm]

theorem exists_last (hu : u ≠ []) (hfeed : 10 ∉ u) (hreturn : 13 ∉ u) :
    ∃ x z, u = x ++ [z] ∧ z ≠ 10 ∧ z ≠ 13 := by
  obtain ⟨x,z,rfl⟩ := (List.eq_nil_or_concat u).resolve_left hu
  rw [List.concat_eq_append] at hfeed hreturn
  refine ⟨x,z,List.concat_eq_append,?_,?_⟩
  · rintro rfl
    simp at hfeed
  · rintro rfl
    simp at hreturn

end Lines

section Grammar
variable {u v w x y e : List UInt8} {c : UInt8} {m n p q value : Machine Empty}

/-- Behind a carriage return. -/
def returned : Machine Empty := seq null (one (.range 10 10))

theorem crlf_bare :
    crlf.bare = alt (seq (one (.range 13 13)) (one (.range 10 10))) (one (.range 10 10)) := rfl

theorem crlf_moves : crlf.bare.moves 10 ≠ [] ∧ crlf.bare.moves 13 ≠ [] :=
  ⟨List.isEmpty_eq_false_iff.mp (by decide),List.isEmpty_eq_false_iff.mp (by decide)⟩

theorem path_byte {d : UInt8} (h : Path (one (.range d d)) w p) (hw : w ≠ []) :
    w = [d] ∧ p = null := by
  rcases h.one with ⟨rfl,_⟩ | ⟨c,rfl,hc,rfl⟩
  · exact absurd rfl hw
  · rw [ByteSet.single_has, decide_eq_true_eq] at hc
    exact ⟨by rw [hc],rfl⟩

theorem crlf_path (h : Path crlf.bare e p) (he : e ≠ []) :
    e = [13] ∧ p = returned ∨ LineEnd e ∧ p = null := by
  rw [crlf_bare] at h
  rcases h.alt he with h | h
  · rcases h.seq with ⟨a',ha,rfl⟩ | ⟨u,v,rfl,hv,ha,hb⟩
    · obtain ⟨rfl,rfl⟩ := path_byte ha he
      exact .inl ⟨rfl,rfl⟩
    · have hu := ha.ne_nil rfl
      obtain ⟨a',ha,_⟩ := ha
      obtain ⟨rfl,_⟩ := path_byte ha hu
      obtain ⟨rfl,rfl⟩ := path_byte hb hv
      exact .inr ⟨.inr rfl,rfl⟩
  · obtain ⟨rfl,rfl⟩ := path_byte h he
    exact .inr ⟨.inl rfl,rfl⟩

/-- A literal in either case. -/
def literal (s : List UInt8) : Machine Empty := s.foldr (fun c m => seq (one (eitherCase c)) m) null

theorem litIgnoreCase_bare (s : String) : (litIgnoreCase s).bare = literal (bytes s) := by
  rw [litIgnoreCase, literal]
  induction bytes s with
  | nil => rfl
  | cons c s ih => simp only [List.foldr_cons, bare, ih]

theorem literal_completes {s : List UInt8} (h : (literal s).Completes w) :
    w.map toLower = s.map toLower := by
  induction s generalizing w with
  | nil =>
    obtain ⟨p,hpath,_⟩ := h
    rw [hpath.null.1]
  | cons d s ih =>
    obtain ⟨u,v,rfl,ha,hb⟩ := Completes.seq h
    have hu := ha.ne_nil rfl
    obtain ⟨a',ha,_⟩ := ha
    rcases ha.one with ⟨rfl,_⟩ | ⟨c,rfl,hc,_⟩
    · exact absurd rfl hu
    · rw [List.singleton_append, List.map_cons, List.map_cons, eitherCase_has hc, ih hb]

theorem eitherCase_of_toLower {d : UInt8} (h : toLower c = toLower d) :
    (eitherCase d).has c = true := by
  have hsame : eitherCase (toLower d) = eitherCase d :=
    byte_cases (P := fun d => eitherCase (toLower d) = eitherCase d) (by decide +kernel) d
  have hself := eitherCase_self c
  rwa [h, hsame] at hself

theorem freePath_literal {s : List UInt8} (h : w.map toLower = s.map toLower) :
    ∃ p, FreePath (literal s) w p ∧ p.outs.isSome = true := by
  induction s generalizing w with
  | nil =>
    obtain rfl := List.map_eq_nil_iff.mp h
    exact ⟨null,FreePath.nil null,rfl⟩
  | cons d s ih =>
    obtain ⟨c,w,rfl,hc,hw⟩ := List.map_eq_cons_iff.mp h
    obtain ⟨p,hpath,hout⟩ := ih hw
    have hfirst : FreePath (literal (d :: s)) [c] (seq null (literal s)) :=
      (FreePath.one (eitherCase_of_toLower hc)).first _
    by_cases hnil : w = []
    · obtain rfl := hnil
      cases hpath
      exact ⟨_,hfirst,by rw [isSome_outs_seq, hout]; rfl⟩
    · exact ⟨p,hfirst.append (FreePath.second rfl hpath hnil),hout⟩

/-- A header line of a rule: the name, a colon, white space and the value. -/
def rule (name : String) (value : Machine Empty) : Machine Empty :=
  seq (seq (literal (bytes name)) (seq (one (.range 58 58)) (seq spaces.bare value))) crlf.bare

/-- In the white space behind the colon of a rule. -/
def waiting (value : Machine Empty) : Machine Empty :=
  seq (seq (seq null spaces.bare) value) crlf.bare

def digits : Machine Empty := seq (one digit) (star (one digit))

theorem messageHeader_bare : messageHeader.bare =
    alt (rule "Transfer-Encoding" (literal (bytes "chunked")))
      (alt (rule "Connection" (literal (bytes "close")))
        (alt (rule "Content-Length" digits) fields.bare)) := by
  simp only [messageHeader, transferEncodingChunked, connClose, contentLength, bare,
    litIgnoreCase_bare]
  rfl

/-- What the value of a rule is like. The letter T stands in the name of every rule. -/
structure Plain (value : Machine Empty) : Prop where
  some : value.outs.isSome = false
  noFeed : value.avoids 10 = true
  noReturn : value.avoids 13 = true
  noNul : value.avoids 0 = true
  noT : value.avoids 84 = true ∧ value.avoids 116 = true

/-- Where the bytes of a header line lead to: into the line, into the white space of a rule, or
behind the line, in which something stands. -/
inductive LinePlace (w : List UInt8) (p : Machine Empty) : Prop
  | inside (hlast : ¬ [10] <:+ w) (hout : p.outs.isSome = false)
  | waiting (name blank : List UInt8) (value : Machine Empty)
      (hw : w = name ++ 58 :: blank) (hname : name.map toLower ∈ ruled)
      (hblank : ∀ c ∈ blank, space.has c = true) (hvalue : Plain value)
      (hp : p = HttpClient.waiting value)
  | behind (u e : List UInt8) (z : UInt8) (hw : w = u ++ z :: e) (hfeed : z ≠ 10)
      (hreturn : z ≠ 13) (he : LineEnd e) (hp : p = null)

theorem not_isSome_crlf (m : Machine Empty) : (seq m crlf.bare).outs.isSome = false := by
  rw [isSome_outs_seq]
  exact Bool.and_false _

/-- Behind the last byte of a line but for its end. -/
theorem linePlace_end (hu : u ≠ []) (hfeed : 10 ∉ u) (hreturn : 13 ∉ u) (he : e ≠ [])
    (h : Path crlf.bare e p) : LinePlace (v ++ u ++ e) p := by
  rcases crlf_path h he with ⟨rfl,rfl⟩ | ⟨hend,rfl⟩
  · refine .inside ?_ rfl
    rw [lineFeed_suffix (List.cons_ne_nil _ _)]
    decide
  · obtain ⟨x,z,rfl,hz,hz'⟩ := exists_last hu hfeed hreturn
    exact .behind (v ++ x) e z (by simp) hz hz' hend rfl

theorem rule_path {name : String} (hname : (bytes name).map toLower ∈ ruled)
    (havoids : (literal (bytes name)).avoids 10 = true) (hvalue : Plain value)
    (h : Path (rule name value) w p) (hw : w ≠ []) : LinePlace w p := by
  rcases h.seq with ⟨a,ha,rfl⟩ | ⟨u,e,rfl,he,ha,hb⟩
  · rcases ha.seq with ⟨b,hb,rfl⟩ | ⟨u,v,rfl,hv,hu,hv'⟩
    · exact .inside (not_suffix_of_not_mem (hb.avoids havoids).1) (not_isSome_crlf _)
    · rcases hv'.seq with ⟨b,hb,rfl⟩ | ⟨x,y,rfl,hy,hx,hy'⟩
      · obtain ⟨rfl,_⟩ := path_byte hb hv
        refine .inside ?_ (not_isSome_crlf _)
        rw [lineFeed_suffix hv]
        decide
      · have hcolon := hx.ne_nil rfl
        obtain ⟨b,hx,_⟩ := hx
        obtain ⟨rfl,_⟩ := path_byte hx hcolon
        rcases hy'.seq with ⟨b,hb,rfl⟩ | ⟨s,t,rfl,ht,_,ht'⟩
        · obtain ⟨hspace,⟨hnil,_⟩ | ⟨_,rfl⟩⟩ := hb.star_one
          · exact absurd hnil hy
          · exact .waiting u y value rfl (literal_completes hu ▸ hname) hspace hvalue rfl
        · refine .inside ?_ (not_isSome_crlf _)
          have hsplit : u ++ ([58] ++ (s ++ t)) = (u ++ [58] ++ s) ++ t := by simp
          rw [hsplit, lineFeed_suffix ht]
          exact not_suffix_of_not_mem (ht'.avoids hvalue.noFeed).1
  · obtain ⟨x,y,rfl,_,hy⟩ := ha.seq
    obtain ⟨s,t,rfl,_,ht⟩ := hy.seq
    obtain ⟨b,v,rfl,_,hv⟩ := ht.seq
    have hsome := hv.ne_nil hvalue.some
    obtain ⟨q,hq,_⟩ := hv
    have hplace := linePlace_end (v := x ++ s ++ b) hsome (hq.avoids hvalue.noFeed).1
      (hq.avoids hvalue.noReturn).1 he hb
    simpa using hplace

/-- The name, the colon and the value of a header line. -/
def fieldLine : Machine Empty :=
  seq (seq (one token) (star (one token)))
    (seq (one (.range 58 58)) (seq (star (one space)) (star (one any))))

theorem fields_bare : fields.bare = entryGuarded 1 fieldLine crlf.bare := rfl

/-- Behind the colon the line may end everywhere, so a line end ends it. -/
theorem fieldLine_ready
    (hname : (seq (one token) (star (one token)) : Machine Empty).avoids c = true)
    (hcolon : (one (.range 58 58) : Machine Empty).avoids c = true) : fieldLine.Ready c :=
  Ready.seq hname (Ready.seq hcolon ((loose_star_one.seq loose_star_one).ready c))

theorem fields_path (h : Path fields.bare w p) (hw : w ≠ []) : LinePlace w p := by
  have hfeed : fieldLine.Ready 10 := fieldLine_ready (by decide) (by decide)
  have hreturn : fieldLine.Ready 13 := fieldLine_ready (by decide) (by decide)
  rw [fields_bare] at h
  rcases h.entryGuarded with ⟨a,_,rfl,hguard⟩ | ⟨u,e,rfl,he,hu,hb,hguard⟩
  · refine .inside (not_suffix_of_not_mem fun hmem => crlf_moves.1 (hguard 10 hmem hfeed)) ?_
    rw [isSome_outs_seq]
    exact Bool.and_false _
  · exact linePlace_end (v := []) (hu.ne_nil rfl) (fun hmem => crlf_moves.1 (hguard 10 hmem hfeed))
      (fun hmem => crlf_moves.2 (hguard 13 hmem hreturn)) he hb

theorem plain_value : Plain digits ∧ Plain (literal (bytes "close")) ∧
    Plain (literal (bytes "chunked")) :=
  ⟨⟨rfl,rfl,rfl,rfl,rfl,rfl⟩,⟨rfl,rfl,rfl,rfl,rfl,rfl⟩,⟨rfl,rfl,rfl,rfl,rfl,rfl⟩⟩

theorem messageHeader_path (h : Path messageHeader.bare w p) (hw : w ≠ []) : LinePlace w p := by
  obtain ⟨hdigits,hclose,hchunked⟩ := plain_value
  rw [messageHeader_bare] at h
  rcases h.alt hw with h | h
  · exact rule_path (by decide +kernel) (by decide +kernel) hchunked h hw
  · rcases h.alt hw with h | h
    · exact rule_path (by decide +kernel) (by decide +kernel) hclose h hw
    · rcases h.alt hw with h | h
      · exact rule_path (by decide +kernel) (by decide +kernel) hdigits h hw
      · exact fields_path h hw

theorem messageHeader_completes (h : messageHeader.bare.Completes w) :
    ∃ u e z, w = u ++ z :: e ∧ z ≠ 10 ∧ z ≠ 13 ∧ LineEnd e := by
  have hw : w ≠ [] := h.ne_nil (by decide +kernel)
  obtain ⟨p,hpath,hout⟩ := h
  cases messageHeader_path hpath hw with
  | inside _ hnot =>
    rw [hnot] at hout
    cases hout
  | waiting name blank value _ _ _ _ hp =>
    rw [hp, waiting, not_isSome_crlf] at hout
    cases hout
  | behind u e z hw hfeed hreturn he _ => exact ⟨u,e,z,hw,hfeed,hreturn,he⟩

/-- The header lines of a response, and the empty one. -/
def afterStatus : Machine Empty := seq (star messageHeader.bare) crlf.bare

theorem response_bare : response.bare = seq statusLine.bare afterStatus := rfl

/-- A line without a line feed but at its end. -/
theorem line_path {key : ℕ} (hm : m.avoids 10 = true)
    (h : Path (entryGuarded key m crlf.bare) w p) :
    (¬ [10] <:+ w ∧ p.outs.isSome = false) ∨
      ∃ u e, w = u ++ e ∧ 10 ∉ u ∧ LineEnd e ∧ p = null := by
  rcases h.entryGuarded with ⟨a,ha,rfl,_⟩ | ⟨u,e,rfl,he,⟨a,ha,_⟩,hb,_⟩
  · refine .inl ⟨not_suffix_of_not_mem (ha.avoids hm).1,?_⟩
    rw [isSome_outs_seq]
    exact Bool.and_false _
  · rcases crlf_path hb he with ⟨rfl,rfl⟩ | ⟨hend,rfl⟩
    · refine .inl ⟨?_,rfl⟩
      rw [lineFeed_suffix (List.cons_ne_nil _ _)]
      decide
    · exact .inr ⟨u,e,rfl,(ha.avoids hm).1,hend,rfl⟩

theorem statusLine_path (h : Path statusLine.bare w p) :
    (¬ [10] <:+ w ∧ p.outs.isSome = false) ∨
      ∃ u e, w = u ++ e ∧ 10 ∉ u ∧ LineEnd e ∧ p = null := by
  have hstatus : statusLine.bare = entryGuarded 0 (seq httpVersion.bare (seq (lit " ").bare
    (seq statusCode.bare (seq (lit " ").bare reasonPhrase.bare)))) crlf.bare := rfl
  rw [hstatus] at h
  exact line_path (by decide +kernel) h

/-- Between two lines of a head. -/
def Between (q : Machine Empty) : Prop :=
  q = seq null afterStatus ∨ q = seq (seq null (star messageHeader.bare)) crlf.bare

/-- Where the bytes of a response lead to: into a line, between two lines, into the white space
of a rule, or behind the empty line. -/
inductive Place (w : List UInt8) (q : Machine Empty) : Prop
  | inside (hlast : ¬ [10] <:+ w) (hout : q.outs.isSome = false)
  | between (hlast : [10] <:+ w) (hempty : ¬ EmptyLine w) (hq : Between q)
  | waiting (value : Machine Empty) (hw : endsValueless w = true) (hvalue : Plain value)
      (hq : q = seq (seq (HttpClient.waiting value) (star messageHeader.bare)) crlf.bare)
  | done (hempty : EmptyLine w) (hq : q = null)

theorem response_path (h : Path response.bare w q) (hw : w ≠ []) : Place w q := by
  rw [response_bare] at h
  rcases h.seq with ⟨a,ha,rfl⟩ | ⟨u,v,rfl,hv,⟨a,ha,hout⟩,hafter⟩
  · rcases statusLine_path ha with ⟨hlast,_⟩ | ⟨u,e,rfl,hu,he,rfl⟩
    · refine .inside hlast ?_
      rw [isSome_outs_seq, afterStatus, not_isSome_crlf]
      exact Bool.and_false _
    · exact .between he.suffix (he.not_emptyLine_of_once hu) (.inl rfl)
  · have hlast : [10] <:+ u := by
      rcases statusLine_path ha with ⟨_,hnot⟩ | ⟨u,e,rfl,_,he,_⟩
      · rw [hnot] at hout
        cases hout
      · exact he.suffix
    -- Behind whole lines.
    have hlines : ∀ x, (x = [] ∨ ∃ x' l, x = x' ++ l ∧ l ≠ [] ∧ messageHeader.bare.Completes l) →
        [10] <:+ u ++ x := by
      rintro x (rfl | ⟨x',l,rfl,_,hl⟩)
      · rwa [List.append_nil]
      · obtain ⟨y,e,z,rfl,_,_,he⟩ := messageHeader_completes hl
        have hsplit : u ++ (x' ++ (y ++ z :: e)) = (u ++ x' ++ y ++ [z]) ++ e := by simp
        rw [hsplit]
        exact he.suffix
    rcases hafter.seq with ⟨b,hlines',rfl⟩ | ⟨x,e,rfl,he,hx,hend⟩
    · obtain ⟨x,y,m,rfl,hy,hpath,rfl,hx⟩ := hlines'.star hv
      cases messageHeader_path hpath hy with
      | inside hnot _ =>
        refine .inside ?_ (not_isSome_crlf _)
        rwa [← List.append_assoc, lineFeed_suffix hy]
      | waiting name blank value hline hname hblank hvalue hm =>
        obtain ⟨s,hs⟩ := hlines x hx
        refine .waiting value ?_ hvalue (by rw [hm])
        refine endsValueless_iff.mpr ⟨s,name,blank,?_,hname,hblank⟩
        rw [← List.append_assoc, ← hs, hline]
        simp
      | behind s e z hline hfeed hreturn he hm =>
        have hsplit : u ++ (x ++ (s ++ z :: e)) = (u ++ x ++ s) ++ z :: e := by simp
        rw [hline, hm, hsplit]
        refine .between ?_ (he.not_emptyLine hfeed hreturn) (.inr rfl)
        have hend : (u ++ x ++ s) ++ z :: e = (u ++ x ++ s ++ [z]) ++ e := by simp
        rw [hend]
        exact he.suffix
    · rw [← List.append_assoc]
      rcases crlf_path hend he with ⟨rfl,rfl⟩ | ⟨he,rfl⟩
      · refine .inside ?_ rfl
        rw [lineFeed_suffix (List.cons_ne_nil _ _)]
        decide
      · exact .done (he.emptyLine (hlines x hx.star)) rfl

theorem chunkedHeader_path (h : Path chunkedHeader.bare w p) :
    (¬ [10] <:+ w ∧ p.outs.isSome = false) ∨
      ∃ u e, w = u ++ e ∧ 10 ∉ u ∧ LineEnd e ∧ p = null := by
  have hchunk : chunkedHeader.bare =
    entryGuarded 2 (seq chunkSize.bare chunkExtension.bare) crlf.bare := rfl
  rw [hchunk] at h
  exact line_path (by decide +kernel) h

/-- A response and the line of a chunk differ in their first byte. -/
theorem main_path (h : Path main.bare w p) (hw : w ≠ []) :
    (w.head? = some 72 ∧ Path response.bare w p) ∨
      (w.head? ≠ some 72 ∧ Path chunkedHeader.bare w p) := by
  obtain ⟨c,w,rfl⟩ := List.exists_cons_of_ne_nil hw
  rcases Path.alt (a := response.bare) (b := chunkedHeader.bare) h hw with h | h
  · obtain ⟨s,hs,hc⟩ := h.exists_first
    have hfirsts : response.bare.firsts = [.range 72 72] := by decide +kernel
    rw [hfirsts, List.mem_singleton] at hs
    rw [hs, ByteSet.single_has, decide_eq_true_eq] at hc
    exact .inl ⟨by rw [hc]; rfl,h⟩
  · obtain ⟨s,hs,hc⟩ := h.exists_first
    have hfirsts : chunkedHeader.bare.firsts = [xdigit] := by decide +kernel
    rw [hfirsts, List.mem_singleton] at hs
    refine .inr ⟨?_,h⟩
    rintro h72
    obtain rfl : c = 72 := Option.some.inj h72
    rw [hs] at hc
    revert hc
    decide

end Grammar

section Final
variable {head u : List UInt8} {p : Machine (ℕ × Action)}

theorem path_of_mem_run {w : List UInt8} (hp : p ∈ (start main).run w) :
    Path main.bare w p.bare := by
  obtain ⟨m,hm,hpath⟩ := State.path_of_mem_run hp
  rw [start, List.mem_singleton] at hm
  rwa [hm, number_bare] at hpath

/-- A final state is that of an empty line, or of the line of a chunk. -/
theorem final_cases (hfinal : ((start main).run head).isFinal = true) :
    head ≠ [] ∧ [10] <:+ head ∧ (head.head? = some 72 → EmptyLine head) := by
  have hne : head ≠ [] := by
    rintro rfl
    revert hfinal
    decide +kernel
  obtain ⟨f,hf,hout⟩ := List.any_eq_true.mp hfinal
  rw [← isSome_outs_bare] at hout
  rcases main_path (path_of_mem_run hf) hne with ⟨_,hpath⟩ | ⟨hchunk,hpath⟩
  · cases response_path hpath hne with
    | inside _ hnot =>
      rw [hnot] at hout
      cases hout
    | between _ _ hq =>
      rcases hq with hq | hq
      · rw [hq, isSome_outs_seq, afterStatus, not_isSome_crlf] at hout
        cases hout
      · rw [hq, not_isSome_crlf] at hout
        cases hout
    | waiting value _ _ hq =>
      rw [hq, not_isSome_crlf] at hout
      cases hout
    | done hempty _ => exact ⟨hne,hempty.suffix,fun _ => hempty⟩
  · rcases chunkedHeader_path hpath with ⟨_,hnot⟩ | ⟨u,e,hline,_,he,_⟩
    · rw [hnot] at hout
      cases hout
    · refine ⟨hne,?_,fun h => absurd h hchunk⟩
      rw [hline]
      exact he.suffix

/-- In a final state the machine is at its end, or it waits for the value of a rule. -/
theorem final_positions (hfinal : ((start main).run head).isFinal = true)
    (hp : p ∈ (start main).run head) :
    p.bare = null ∨ endsValueless head = true ∧ ∃ value, Plain value ∧
      p.bare = seq (seq (waiting value) (star messageHeader.bare)) crlf.bare := by
  obtain ⟨hne,hlast,hempty⟩ := final_cases hfinal
  rcases main_path (path_of_mem_run hp) hne with ⟨hhead,hpath⟩ | ⟨_,hpath⟩
  · cases response_path hpath hne with
    | inside hnot _ => exact absurd hlast hnot
    | between _ hnot _ => exact absurd (hempty hhead) hnot
    | waiting value hw hvalue hq => exact .inr ⟨hw,value,hvalue,hq⟩
    | done _ hq => exact .inl hq
  · rcases chunkedHeader_path hpath with ⟨hnot,_⟩ | ⟨_,_,_,_,_,hq⟩
    · exact absurd hlast hnot
    · exact .inl hq

theorem waiting_moves {value m : Machine Empty} {c : UInt8} (hvalue : value.avoids c = true)
    (hspace : spaces.bare.avoids c = true) (hline : crlf.bare.avoids c = true) :
    (seq (seq (waiting value) m) crlf.bare).moves c = [] := by
  have hnot : (waiting value).outs.isSome = false := not_isSome_crlf _
  have havoids : (waiting value).avoids c = true := by
    simp only [waiting, avoids, hvalue, hspace, hline, Bool.and_self]
  rw [List.eq_nil_iff_forall_not_mem]
  intro t ht
  rcases mem_moves_seq.mp ht with ⟨t,ht,_⟩ | ⟨x,hx,_⟩
  · rcases mem_moves_seq.mp ht with ⟨t,ht,_⟩ | ⟨x,hx,_⟩
    · exact absurd rfl (avoids_moves havoids ht).1
    · rw [hx] at hnot
      cases hnot
  · have hnone : (seq (waiting value) m).outs.isSome = false := by
      rw [isSome_outs_seq, hnot]
      rfl
    rw [hx] at hnone
    cases hnone

/-- On a 0 byte no final state goes on. -/
theorem final_step_zero (hfinal : ((start main).run head).isFinal = true) :
    (((start main).run head).step 0).1 = [] := by
  refine State.step_dead fun p hp => ?_
  rcases final_positions hfinal hp with hnull | ⟨_,value,hvalue,hwaits⟩
  · rw [hnull]
    rfl
  · rw [hwaits]
    exact waiting_moves hvalue.noNul rfl rfl

theorem between_moves_zero {q : Machine Empty} (hq : Between q) : q.moves 0 = [] := by
  rw [← List.isEmpty_iff]
  rcases hq with rfl | rfl <;> decide +kernel

/-- Nor does the state between two lines of a response, or behind the last one. -/
theorem line_step_zero {w : List UInt8} (hresponse : w.head? = some 72) (hlast : [10] <:+ w)
    (hvalue : endsValueless w = false) : (((start main).run w).step 0).1 = [] := by
  refine State.step_dead fun p hp => ?_
  have hne : w ≠ [] := by
    rintro rfl
    cases hresponse
  obtain ⟨_,hpath⟩ := (main_path (path_of_mem_run hp) hne).resolve_right
    fun h => h.1 hresponse
  cases response_path hpath hne with
  | inside hnot _ => exact absurd hlast hnot
  | between _ _ hq => exact between_moves_zero hq
  | waiting value hvalueless _ _ =>
    rw [hvalueless] at hvalue
    cases hvalue
  | done _ hq =>
    rw [hq]
    rfl

theorem not_final_of_not_emptyLine {w : List UInt8} (hresponse : w.head? = some 72)
    (hempty : ¬ EmptyLine w) : ((start main).run w).isFinal = false := by
  rw [← Bool.not_eq_true]
  exact fun hfinal => hempty ((final_cases hfinal).2.2 hresponse)

/-- A head that ends in such a line is that of a response, for the line of a chunk is one line. -/
theorem response_of_valueless (hfinal : ((start main).run head).isFinal = true)
    (hvalueless : endsValueless head = true) : head.head? = some 72 := by
  obtain ⟨hne,hlast,_⟩ := final_cases hfinal
  obtain ⟨f,hf,hout⟩ := List.any_eq_true.mp hfinal
  rw [← isSome_outs_bare] at hout
  rcases main_path (path_of_mem_run hf) hne with ⟨hresponse,_⟩ | ⟨_,hpath⟩
  · exact hresponse
  · rcases chunkedHeader_path hpath with ⟨_,hnot⟩ | ⟨u,e,hline,hu,he,_⟩
    · rw [hnot] at hout
      cases hout
    · obtain ⟨x,name,blank,hhead,_,_⟩ := endsValueless_iff.mp hvalueless
      have hone : head.count 10 = 1 := by
        rw [hline, List.count_append, List.count_eq_zero.mpr hu]
        rcases he with rfl | rfl <;> rfl
      have hsplit : head = (x ++ 10 :: name) ++ 58 :: blank := by
        rw [hhead]
        simp
      rw [hsplit, lineFeed_suffix (List.cons_ne_nil _ _)] at hlast
      have hfeed : 0 < (58 :: blank).count 10 :=
        List.count_pos_iff.mpr (hlast.subset (List.mem_singleton_self 10))
      have hfirst : 0 < (x ++ 10 :: name).count 10 := List.count_pos_iff.mpr (by simp)
      rw [hsplit, List.count_append] at hone
      omega

theorem crlf_completes {e : List UInt8} (h : crlf.bare.Completes e) : LineEnd e := by
  have he := h.ne_nil rfl
  obtain ⟨p,hpath,hout⟩ := h
  rcases crlf_path hpath he with ⟨_,rfl⟩ | ⟨hend,_⟩
  · cases hout
  · exact hend

theorem name_letter : ∀ name ∈ ruled, 116 ∈ name ∧ 10 ∉ name := by
  decide +kernel

theorem eq_of_toLower_t {c : UInt8} (h : toLower c = 116) : c = 84 ∨ c = 116 :=
  byte_cases (P := fun c => toLower c = 116 → c = 84 ∨ c = 116) (by decide +kernel) c h

/-- The name of a rule does not follow where the value of another one is waited for. -/
theorem not_path_waiting {value m p : Machine Empty} {name rest : List UInt8}
    (hvalue : Plain value) (hname : name.map toLower ∈ ruled) :
    ¬ Path (seq (seq (waiting value) m) crlf.bare) (name ++ rest) p := by
  intro h
  obtain ⟨ht,hfeed⟩ := name_letter _ hname
  obtain ⟨t,htname,htlower⟩ := List.mem_map.mp ht
  have hfeed' : 10 ∉ name := fun hmem => hfeed (List.mem_map.mpr ⟨10,hmem,rfl⟩)
  have havoids : ∀ {z q}, Path (waiting value) z q → t ∉ z := by
    intro z q hz
    rcases eq_of_toLower_t htlower with rfl | rfl
    · refine (hz.avoids ?_).1
      simp only [waiting, avoids, hvalue.noT.1, Bool.true_and]
      decide
    · refine (hz.avoids ?_).1
      simp only [waiting, avoids, hvalue.noT.2, Bool.true_and]
      decide
  -- The white space, the value and the line end last for all bytes or end with a line feed.
  obtain ⟨z,z',hsplit,hz⟩ : ∃ z z', name ++ rest = z ++ z' ∧
      (z' = [] ∧ (∃ q, Path (waiting value) z q) ∨ (waiting value).Completes z) := by
    rcases h.seq with ⟨a,ha,_⟩ | ⟨u,v,hsplit,_,hu,_⟩
    · rcases ha.seq with ⟨q,hq,_⟩ | ⟨z,z',hsplit,_,hz,_⟩
      · exact ⟨_,[],(List.append_nil _).symm,.inl ⟨rfl,q,hq⟩⟩
      · exact ⟨z,z',hsplit,.inr hz⟩
    · obtain ⟨z,z',rfl,hz,_⟩ := hu.seq
      exact ⟨z,z' ++ v,by rw [hsplit, List.append_assoc],.inr hz⟩
  rcases hz with ⟨rfl,q,hq⟩ | hz
  · rw [List.append_nil] at hsplit
    exact havoids hq (hsplit ▸ List.mem_append_left _ htname)
  · obtain ⟨s,e,rfl,_,he⟩ := hz.seq
    have hmem : 10 ∈ s ++ e := (LineEnd.suffix (crlf_completes he)).subset (by simp)
    obtain ⟨q,hq,_⟩ := hz
    rcases List.append_eq_append_iff.mp hsplit with ⟨a,ha,_⟩ | ⟨a,ha,_⟩
    · exact havoids hq (ha ▸ List.mem_append_left _ htname)
    · exact hfeed' (ha ▸ List.mem_append_left _ hmem)

theorem freePath_rule {value : Machine Empty} {s : String} {w blank : List UInt8}
    (hname : w.map toLower = (bytes s).map toLower)
    (hblank : ∀ c ∈ blank, space.has c = true) (hne : blank ≠ []) :
    FreePath (rule s value) (w ++ 58 :: blank) (waiting value) := by
  have hspaces : FreePath (seq spaces.bare value) blank (seq (seq null spaces.bare) value) :=
    (FreePath.star_one hblank hne).first value
  have hcolon : FreePath (seq (one (.range 58 58)) (seq spaces.bare value)) (58 :: blank)
      (seq (seq null spaces.bare) value) :=
    ((FreePath.one rfl).first _).append (FreePath.second rfl hspaces hne)
  obtain ⟨p,hpath,hout⟩ := freePath_literal hname
  exact ((hpath.first _).append (FreePath.second hout hcolon (List.cons_ne_nil _ _))).first _

/-- Between two lines the name of a rule, its colon and white space may follow. -/
theorem freePath_between {q : Machine Empty} {name blank : List UInt8} (hq : Between q)
    (hname : name.map toLower ∈ ruled) (hblank : ∀ c ∈ blank, space.has c = true)
    (hne : blank ≠ []) :
    ∃ p, FreePath q (name ++ 58 :: blank) p ∧ p.firsts ≠ [] := by
  have hw : name ++ 58 :: blank ≠ [] := List.append_ne_nil_of_right_ne_nil _ (List.cons_ne_nil _ _)
  obtain ⟨value,hline⟩ : ∃ value,
      FreePath messageHeader.bare (name ++ 58 :: blank) (waiting value) := by
    rw [messageHeader_bare]
    have hcases : name.map toLower = bytes "connection" ∨
        name.map toLower = bytes "content-length" ∨
          name.map toLower = bytes "transfer-encoding" := by
      simpa [ruled] using hname
    rcases hcases with hrule | hrule | hrule
    · exact ⟨_,((freePath_rule (s := "Connection") hrule hblank hne).left hw _).right hw _⟩
    · exact ⟨_,(((freePath_rule (s := "Content-Length") hrule hblank hne).left hw _).right hw
        _).right hw _⟩
    · exact ⟨_,(freePath_rule (s := "Transfer-Encoding") hrule hblank hne).left hw _⟩
  have hlines := hline.star hw
  refine ⟨seq (seq (waiting value) (star messageHeader.bare)) crlf.bare,?_,?_⟩
  · rcases hq with rfl | rfl
    · exact FreePath.second rfl (hlines.first _) hw
    · exact (FreePath.second rfl hlines hw).first _
  · simp [waiting, firsts, outs, spaces, bare]

/-- The state behind a head with an empty line is `first_final` unless the head ends in a line of
a rule without a value. -/
theorem isFirstFinal_run (hfinal : ((start main).run head).isFinal = true) :
    isFirstFinal ((start main).run head) = true ↔ endsValueless head = false := by
  rw [isFirstFinal, hfinal, Bool.true_and, List.isEmpty_iff, ← Bool.not_eq_true]
  constructor
  · intro hfirsts hvalueless
    obtain ⟨u,name,blank,rfl,hname,hblank⟩ := endsValueless_iff.mp hvalueless
    have hlast := (final_cases hfinal).2.1
    have hne : blank ≠ [] := by
      rintro rfl
      have hsplit : u ++ 10 :: (name ++ [58]) = (u ++ 10 :: name) ++ [58] := by simp
      rw [hsplit, lineFeed_suffix (List.cons_ne_nil _ _)] at hlast
      revert hlast
      decide
    have hsplit : u ++ 10 :: (name ++ 58 :: blank) = (u ++ [10]) ++ (name ++ 58 :: blank) := by simp
    rw [hsplit, State.run_append] at hfinal hfirsts
    obtain ⟨f,hf,_⟩ := List.any_eq_true.mp hfinal
    obtain ⟨q,hq,hpath⟩ := State.path_of_mem_run hf
    have hsuffix : [10] <:+ u ++ [10] := List.suffix_append _ _
    have hbetween : Between q.bare := by
      have hnonempty : u ++ [10] ≠ [] := List.append_ne_nil_of_right_ne_nil _ (List.cons_ne_nil _ _)
      have hnull : q.bare ≠ null := by
        intro hnull
        rw [hnull] at hpath
        simpa using hpath.null.1
      rcases main_path (path_of_mem_run hq) hnonempty with ⟨_,hplace⟩ | ⟨_,hplace⟩
      · cases response_path hplace hnonempty with
        | inside hnot _ => exact absurd hsuffix hnot
        | between _ _ hbetween => exact hbetween
        | waiting value _ hvalue hwaits =>
          rw [hwaits] at hpath
          exact absurd hpath (not_path_waiting hvalue hname)
        | done _ hdone => exact absurd hdone hnull
      · rcases chunkedHeader_path hplace with ⟨hnot,_⟩ | ⟨_,_,_,_,_,hdone⟩
        · exact absurd hsuffix hnot
        · exact absurd hdone hnull
    obtain ⟨p,hfree,hmore⟩ := freePath_between hbetween hname hblank hne
    obtain ⟨p,hp,rfl⟩ := State.mem_run_of_freePath hq hfree
    rw [firsts_bare] at hmore
    obtain ⟨s,hs⟩ := List.exists_mem_of_ne_nil _ hmore
    have hmem : s ∈ (((start main).run (u ++ [10])).run (name ++ 58 :: blank)).firsts :=
      List.mem_flatMap.mpr ⟨p,hp,hs⟩
    rw [hfirsts] at hmem
    cases hmem
  · intro hnot
    rw [State.firsts, List.flatMap_eq_nil_iff]
    intro p hp
    rcases final_positions hfinal hp with hnull | ⟨hvalueless,_⟩
    · rw [← firsts_bare, hnull]
      rfl
    · exact absurd hvalueless hnot

end Final

end Gudov.HttpClient
