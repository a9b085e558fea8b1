import Gudov.DelimitedList
import Gudov.UriMachine

/-!
# Traces of the rules of `uri_parser`

Each rule stops before the delimiter that follows it, so an accepted text splits in one way
into its parts, and the trace of a text is put together from those of the parts. Only in front
of an `@` two rules are alive: until it comes, a user information is also read as a host and
a port, and their actions are performed.
-/
namespace Gudov.UriParser
open ActionMachine ActionMachine.Machine
open Http11 (chars digit xdigit unreserved)

abbrev colon : UInt8 := 58
abbrev slash : UInt8 := 47
abbrev atSign : UInt8 := 64
abbrev question : UInt8 := 63
abbrev hash : UInt8 := 35

section Host
variable {L : Type}

/-- What stands between the brackets. -/
theorem inner_avoids :
    (alt ipv6Address ipvFuture : Machine L).Avoids (· = 93) := by
  apply avoids_of_uses
  rintro c rfl
  rfl

theorem nameOrIpv4_avoids :
    (alt ipv4Address regName : Machine L).Avoids (fun c => c = 91 ∨ c = colon) := by
  apply avoids_of_uses
  rintro c (rfl | rfl) <;> rfl

theorem ipLiteral_startsIn : (ipLiteral : Machine L).StartsIn (· = 91) := by
  apply startsIn_of_firsts
  have hfirsts : (ipLiteral : Machine L).firsts = [.range 91 91] := rfl
  simp [hfirsts, has_single]

/-- Nothing follows the closing bracket. -/
theorem ipLiteral_stops (D : UInt8 → Prop) : (ipLiteral : Machine L).Stops D := by
  intro w c v hw _ hlive
  obtain ⟨x,rfl,hx⟩ := accepts_word_seq.mp hw
  obtain ⟨y,z,rfl,hy,hz⟩ := accepts_seq.mp hx
  obtain rfl : z = [93] := accepts_word.mp hz
  simp only [List.append_assoc, List.cons_append, List.nil_append] at hlive
  have hrest := live_word_seq (k := bytes "[") hlive
  rcases live_seq.mp hrest with hlive | ⟨u,r,heq,_,hu,hr⟩
  · exact inner_avoids _ hlive 93 (by simp) rfl
  · have hnot : 93 ∉ u := fun h => inner_avoids u hu.live 93 h rfl
    have hlen := (live_word.mp hr).length_le
    rcases List.append_eq_append_iff.mp heq with ⟨t,rfl,ht⟩ | ⟨t,rfl,ht⟩
    · cases t with
      | nil =>
        rw [List.nil_append] at ht
        rw [← ht] at hlen
        simp [bytes] at hlen
      | cons d t =>
        obtain ⟨rfl,_⟩ := List.cons.inj ht
        simp at hnot
    · rw [ht] at hlen
      simp [bytes] at hlen
      omega

theorem host_stops : (host : Machine L).Stops (· = colon) := by
  rintro w c v hw rfl hlive
  rcases accepts_alt.mp hw with hw | hw
  · rcases live_alt.mp hlive with hlive | hlive
    · exact ipLiteral_stops _ w colon v hw rfl hlive
    · obtain ⟨x,rfl,_⟩ := accepts_word_seq.mp hw
      exact nameOrIpv4_avoids _ hlive 91 (by simp [bytes]) (.inl rfl)
  · rcases live_alt.mp hlive with hlive | hlive
    · cases w with
      | nil =>
        have hc := ipLiteral_startsIn colon (hlive.left (u := [colon]))
        cases hc
      | cons d w =>
        obtain rfl : d = 91 := ipLiteral_startsIn d (hlive.left (u := [d]))
        exact nameOrIpv4_avoids _ hw.live 91 (by simp) (.inl rfl)
    · exact nameOrIpv4_avoids _ hlive colon (by simp) (.inr rfl)

end Host

section Userinfo
variable {u r : List UInt8} {c : UInt8}

theorem userinfo_avoids :
    (userinfo : Numbered).Avoids (fun c => c = 91 ∨ c = atSign) := by
  apply avoids_of_uses
  rintro c (rfl | rfl) <;> rfl

theorem has_colon : (chars ":").has c = true ↔ c = colon := by
  have hchars : chars ":" = .union (.range 58 58) .empty := rfl
  simp [hchars, ByteSet.has, ← has_single]

theorem userinfoSet_has : (ByteSet.union unreserved (.union subDelims (chars ":"))).has c = true ↔
    (ByteSet.union unreserved subDelims).has c = true ∨ c = colon := by
  simp only [ByteSet.has, Bool.or_eq_true, has_colon, or_assoc]

theorem accepts_orPct {L : Type} {s : ByteSet} : (orPct s : Machine L).Accepts (c :: u) ↔
    (s.has c = true ∧ u = []) ∨ (c = 37 ∧ ∃ x y, u = [x, y] ∧ xdigit.has x = true ∧
      xdigit.has y = true) := by
  have hbytes : bytes "%" = [37] := rfl
  rw [orPct, accepts_alt, accepts_one, pctEncoded, lit, accepts_word_seq, hbytes]
  simp only [accepts_seq, accepts_one]
  constructor
  · rintro (⟨d,heq,hd⟩ | ⟨v,heq,_,_,rfl,⟨x,rfl,hx⟩,y,rfl,hy⟩)
    · obtain ⟨rfl,rfl⟩ := List.cons.inj heq
      exact .inl ⟨hd,rfl⟩
    · obtain ⟨rfl,rfl⟩ := List.cons.inj heq
      exact .inr ⟨rfl,x,y,rfl,hx,hy⟩
  · rintro (⟨hc,rfl⟩ | ⟨rfl,x,y,rfl,hx,hy⟩)
    · exact .inl ⟨c,rfl,hc⟩
    · exact .inr ⟨[x, y],rfl,[x],[y],rfl,⟨x,rfl,hx⟩,y,rfl,hy⟩

/-- A user information up to its first colon is also a name. -/
theorem regName_of_userinfo (h : (userinfo : Numbered).Accepts (u ++ colon :: r))
    (hu : colon ∉ u) : (regName : Numbered).Accepts u := by
  induction hn : u.length using Nat.strong_induction_on generalizing u with
  | _ n ih =>
    cases u with
    | nil => exact accepts_star_nil
    | cons c u =>
      subst hn
      rw [List.cons_append] at h
      obtain ⟨a,b,heq,ha,hb⟩ := accepts_star_cons.mp h
      refine accepts_star_cons.mpr ?_
      rcases accepts_orPct.mp ha with ⟨hc,rfl⟩ | ⟨rfl,x,y,rfl,hx,hy⟩
      · have hc' : (ByteSet.union unreserved subDelims).has c = true := by
          refine (userinfoSet_has.mp hc).resolve_right ?_
          rintro rfl
          simp at hu
        rw [List.nil_append] at heq
        refine ⟨[],u,rfl,accepts_orPct.mpr (.inl ⟨hc',rfl⟩),ih u.length (by simp) ?_ ?_ rfl⟩
        · rw [heq]
          exact hb
        · simp only [List.mem_cons, not_or] at hu
          exact hu.2
      · match u with
        | [] =>
          obtain ⟨rfl,_⟩ := List.cons.inj heq
          cases hx
        | [z] =>
          obtain ⟨_,heq⟩ := List.cons.inj heq
          obtain ⟨rfl,_⟩ := List.cons.inj heq
          cases hy
        | z :: z' :: u =>
          simp only [List.cons_append, List.nil_append, List.cons.injEq] at heq
          obtain ⟨rfl,rfl,rfl⟩ := heq
          refine ⟨[z, z'],u,rfl,accepts_orPct.mpr (.inr ⟨rfl,z,z',rfl,hx,hy⟩),
            ih u.length (by simp only [List.length_cons]; omega) hb ?_ rfl⟩
          simp only [List.mem_cons, not_or] at hu
          exact hu.2.2.2

/-- What starts a user information, except a colon, also starts a name. -/
theorem host_opens_of_userinfo (h : (userinfo : Numbered).Accepts (c :: u)) (hc : c ≠ colon) :
    (host : Numbered).opens (some c) := by
  suffices h : (regName : Numbered).Live [c] from
    opens_some.mpr (live_alt.mpr (.inr (live_alt.mpr (.inr h))))
  obtain ⟨a,b,_,ha,_⟩ := accepts_star_cons.mp h
  have hword : ∃ v, (regName : Numbered).Accepts (c :: v) := by
    rcases accepts_orPct.mp ha with ⟨hset,rfl⟩ | ⟨rfl,hpct⟩
    · have hset' := (userinfoSet_has.mp hset).resolve_right hc
      exact ⟨[],accepts_star_cons.mpr
        ⟨[],[],rfl,accepts_orPct.mpr (.inl ⟨hset',rfl⟩),accepts_star_nil⟩⟩
    · exact ⟨a,accepts_star_cons.mpr
        ⟨a,[],by simp,accepts_orPct.mpr (.inr ⟨rfl,hpct⟩),accepts_star_nil⟩⟩
  obtain ⟨v,hv⟩ := hword
  exact hv.live.left (u := [c])

end Userinfo

section Authority
variable {p n : ℕ} {h : List UInt8} {o : Option (List UInt8)}

/-- The actions of a host with its port. -/
def hostAndPortTrace (p n : ℕ) (h : List UInt8) (o : Option (List UInt8)) :
    List (ℕ × ℕ × Action) :=
  frame p n .markh .saveHost h ++ delimitedFrame (p + h.length) (n + 2) .markh .savePort o

theorem port_startsIn : (portAt n).StartsIn (· = colon) := by
  apply startsIn_of_firsts
  have hfirsts : (portAt n).firsts = [.range 58 58] := rfl
  simp [hfirsts, has_single]

theorem frame_numbers {A : Type} {k l : A} {w : List UInt8} {x : ℕ × ℕ × A}
    (hx : x ∈ frame p n k l w) : n ≤ x.2.1 ∧ x.2.1 < n + 2 := by
  simp only [frame, List.mem_cons, List.not_mem_nil, or_false] at hx
  rcases hx with rfl | rfl
  · exact ⟨le_rfl,by simp⟩
  · exact ⟨by simp,by simp⟩

theorem delimitedFrame_numbers {A : Type} {k l : A} {x : ℕ × ℕ × A}
    (hx : x ∈ delimitedFrame p n k l o) : n ≤ x.2.1 ∧ x.2.1 < n + 2 := by
  cases o with
  | none => cases hx
  | some w => exact frame_numbers hx

theorem hostAndPort_accepts (hh : (host : Numbered).Accepts h)
    (ho : ∀ v ∈ o, (port : Numbered).Accepts v) :
    (hostAndPortAt n).Accepts (h ++ delimited colon o) :=
  accepts_seq.mpr ⟨h,_,rfl,accepts_framed.mpr hh,
    accepts_delimited.mpr ⟨o,rfl,fun v hv => accepts_framed.mpr (ho v hv)⟩⟩

theorem hostAndPortTrace_numbers {x : ℕ × ℕ × Action} (hx : x ∈ hostAndPortTrace p n h o) :
    n ≤ x.2.1 ∧ x.2.1 < n + 4 := by
  rcases List.mem_append.mp hx with hx | hx
  · have hnum := frame_numbers hx
    omega
  · have hnum := delimitedFrame_numbers hx
    omega

theorem hostAndPort_trace (hh : (host : Numbered).Accepts h)
    (ho : ∀ v ∈ o, (port : Numbered).Accepts v) :
    (hostAndPortAt n).HasTrace p (h ++ delimited colon o) (hostAndPortTrace p n h o) := by
  have hrest : (portAt (n + 2)).Accepts (delimited colon o) :=
    accepts_delimited.mpr ⟨o,rfl,fun v hv => accepts_framed.mpr (ho v hv)⟩
  refine (hasTrace_framed rfl hh).seq (hasTrace_delimited rfl ho) (accepts_framed.mpr hh) hrest
    ?_ ?_
  · exact SplitsAt.of_delimiter host_stops.framed port_startsIn (accepts_framed.mpr hh)
      hrest.opens
  · intro x hx y hy
    have hx := frame_numbers hx
    have hy := delimitedFrame_numbers hy
    omega

theorem opens_port {c : UInt8} : (portAt n).opens (some c) ↔ c = colon := by
  rw [opens_some]
  constructor
  · intro h
    exact port_startsIn c h
  · rintro rfl
    have hacc : (portAt n).Accepts [colon] := accepts_delimited.mpr
      ⟨some [],rfl,by simp [accepts_framed, port, accepts_star_nil]⟩
    exact hacc.live

/-- The actions of a host and a port on a byte. -/
theorem at_hostAndPort {u : List UInt8} {c : UInt8} {l : ℕ × Action} :
    (hostAndPortAt n).At u (some c) l ↔
      (u = [] ∧ l = (n, .markh) ∧ ((host : Numbered).opens (some c) ∨ c = colon)) ∨
      (c = colon ∧ l = (n + 1, .saveHost) ∧ (host : Numbered).Accepts u) ∨
      (∃ x, u = x ++ [colon] ∧ (host : Numbered).Accepts x ∧ l = (n + 2, .markh) ∧
        digit.has c = true) := by
  have hport : ∀ v, (portAt (n + 2)).At v (some c) l ↔
      v = [colon] ∧ l = (n + 2, .markh) ∧ digit.has c = true := by
    intro v
    rw [portAt, lit, show bytes ":" = [colon] from rfl, at_delimited]
    simp only [at_framed (show (port : Numbered).plain = true from rfl)]
    have hopens : (port : Numbered).opens (some c) ↔ digit.has c = true := by
      by_cases hc : digit.has c = true <;> simp [opens, port, hc]
    simp [hopens]
  rw [hostAndPortAt, at_seq, opens_port]
  simp only [at_framed (show (host : Numbered).plain = true from rfl), hport]
  constructor
  · rintro (⟨_,⟨rfl,rfl,hopens⟩ | ⟨ho,_⟩⟩ | ⟨rfl,⟨rfl,rfl,_⟩ | ⟨_,rfl,hacc⟩⟩ |
      ⟨x,_,rfl,hacc,rfl,rfl,hdigit⟩)
    · exact .inl ⟨rfl,rfl,.inl hopens⟩
    · cases ho
    · exact .inl ⟨rfl,rfl,.inr rfl⟩
    · exact .inr (.inl ⟨rfl,rfl,hacc⟩)
    · exact .inr (.inr ⟨x,rfl,accepts_framed.mp hacc,rfl,hdigit⟩)
  · rintro (⟨rfl,rfl,hopens | rfl⟩ | ⟨rfl,rfl,hacc⟩ | ⟨x,rfl,hacc,rfl,hdigit⟩)
    · exact .inl ⟨by simp,.inl ⟨rfl,rfl,hopens⟩⟩
    · have hempty : (host : Numbered).Accepts [] :=
        accepts_alt.mpr (.inr (accepts_alt.mpr (.inr accepts_star_nil)))
      exact .inr (.inl ⟨rfl,.inl ⟨rfl,rfl,hempty.opens⟩⟩)
    · exact .inr (.inl ⟨rfl,.inr ⟨trivial,rfl,hacc⟩⟩)
    · exact .inr (.inr ⟨x,[colon],rfl,accepts_framed.mpr hacc,rfl,rfl,hdigit⟩)

theorem hostAndPort_avoids : (hostAndPortAt n).Avoids (· = atSign) := by
  apply avoids_of_uses
  rintro c rfl
  rfl

theorem at_userinfo {u : List UInt8} {b : Option UInt8} {l : ℕ × Action} :
    (userinfoAt n).At u b l ↔
      b = some atSign ∧ l = (n, .saveUserinfo) ∧ (userinfo : Numbered).Accepts u := by
  have hopens : (lit "@" : Numbered).opens b ↔ b = some atSign := by
    cases b with
    | none => simp [opens, lit, bytes, word, outs]
    | some c =>
      rw [opens_some, lit, live_word, show bytes "@" = [atSign] from rfl]
      simp
  have hplain : ∀ u b, ¬(userinfo : Numbered).At u b l := fun u b => not_at_of_plain rfl
  have hlit : ∀ u b, ¬(lit "@" : Numbered).At u b l := fun u b => not_at_of_plain rfl
  have hnull : ¬(null : Numbered).At u b l := not_at_of_plain rfl
  rw [userinfoAt, opt, at_alt, at_seq, hopens]
  simp only [at_leave, hplain, hlit, hnull, false_or, or_false, and_false, exists_false, true_and]
  constructor
  · rintro (⟨hne,rfl,_⟩ | h)
    · exact absurd rfl hne
    · exact h
  · intro h
    exact .inr h

theorem accepts_userinfo {u : List UInt8} : (userinfoAt n).Accepts u ↔
    u = [] ∨ ∃ x, u = x ++ [atSign] ∧ (userinfo : Numbered).Accepts x := by
  have hbytes : bytes "@" = [atSign] := rfl
  rw [userinfoAt, accepts_opt, accepts_seq, lit, hbytes, or_comm]
  simp only [accepts_leave, accepts_word]
  constructor
  · rintro (rfl | ⟨x,_,rfl,hx,rfl⟩)
    · exact .inl rfl
    · exact .inr ⟨x,rfl,hx⟩
  · rintro (rfl | ⟨x,rfl,hx⟩)
    · exact .inl rfl
    · exact .inr ⟨x,_,rfl,hx,rfl⟩

/-- As long as no `@` came, host and port are read beside the user information. -/
theorem at_authority {u : List UInt8} {b : Option UInt8} {l : ℕ × Action} :
    (seq (userinfoAt (n + 1)) (hostAndPortAt (n + 2))).At u b l ↔
      (b = some atSign ∧ l = (n + 1, .saveUserinfo) ∧ (userinfo : Numbered).Accepts u) ∨
      (hostAndPortAt (n + 2)).At u b l ∨
      ∃ x y, u = x ++ atSign :: y ∧ (userinfo : Numbered).Accepts x ∧
        (hostAndPortAt (n + 2)).At y b l := by
  rw [at_seq]
  simp only [at_userinfo, accepts_userinfo]
  constructor
  · rintro (⟨_,h⟩ | ⟨_,hb,_⟩ | ⟨_,y,rfl,rfl | ⟨x,rfl,hx⟩,hat⟩)
    · exact .inl h
    · cases hb
    · exact .inr (.inl hat)
    · exact .inr (.inr ⟨x,y,by simp,hx,hat⟩)
  · rintro (⟨rfl,h⟩ | hat | ⟨x,y,rfl,hx,hat⟩)
    · exact .inl ⟨by simp,rfl,h⟩
    · exact .inr (.inr ⟨[],u,rfl,.inl rfl,hat⟩)
    · exact .inr (.inr ⟨x ++ [atSign],y,by simp,.inr ⟨x,rfl,hx⟩,hat⟩)

/-- An authority without user information. -/
theorem authority_trace (hh : (host : Numbered).Accepts h)
    (ho : ∀ v ∈ o, (port : Numbered).Accepts v) :
    (authorityAt n).HasTrace p (h ++ delimited colon o)
      ((p, n, .markh) :: hostAndPortTrace p (n + 2) h o) := by
  have hacc := hostAndPort_accepts (n := n + 2) hh ho
  have hinner : (seq (userinfoAt (n + 1)) (hostAndPortAt (n + 2))).HasTrace p
      (h ++ delimited colon o) (hostAndPortTrace p (n + 2) h o) := by
    have hhost := hostAndPort_trace (p := p) (n := n + 2) hh ho
    have hfree : atSign ∉ h ++ delimited colon o :=
      fun hmem => hostAndPort_avoids _ hacc.live _ hmem rfl
    refine ⟨hhost.sorted,?_⟩
    intro x
    rw [hhost.mem]
    simp only [at_authority]
    constructor
    · rintro ⟨u,v,heq,hp,hat⟩
      exact ⟨u,v,heq,hp,.inr (.inl hat)⟩
    · rintro ⟨u,v,heq,hp,⟨hv,_⟩ | hat | ⟨y,z,rfl,_⟩⟩
      · rw [heq] at hfree
        exact absurd (List.mem_append_right _ (List.mem_of_mem_head? hv)) hfree
      · exact ⟨u,v,heq,hp,hat⟩
      · rw [heq] at hfree
        simp at hfree
  refine hinner.enter ?_ ?_
  · exact accepts_seq.mpr ⟨[],_,rfl,accepts_userinfo.mpr (.inl rfl),hacc⟩
  · intro x hx
    have hnum := hostAndPortTrace_numbers hx
    omega

/-- The mark of a port, when digits follow. -/
def portStart (p n : ℕ) : List UInt8 → List (ℕ × ℕ × Action)
  | [] => []
  | c :: _ => if digit.has c then [(p, n, .markh)] else []

/-- The actions of host and port on a user information. -/
def strayTrace (p n : ℕ) (ui : List UInt8) : List (ℕ × ℕ × Action) :=
  if ui = [] then [] else (p, n, .markh) ::
    match ui.dropWhile (· ≠ colon) with
    | [] => []
    | _ :: r =>
      let q := p + (ui.takeWhile (· ≠ colon)).length
      (q, n + 1, .saveHost) :: portStart (q + 1) (n + 2) r

theorem strayTrace_free {ui : List UInt8} (hne : ui ≠ []) (hcolon : colon ∉ ui) :
    strayTrace p n ui = [(p, n, .markh)] := by
  rw [strayTrace, if_neg hne, DelimitedList.dropWhile_nil hcolon]

theorem strayTrace_colon {u r : List UInt8} (hu : colon ∉ u) :
    strayTrace p n (u ++ colon :: r) = (p, n, .markh) :: (p + u.length, n + 1, .saveHost) ::
      portStart (p + u.length + 1) (n + 2) r := by
  rw [strayTrace, if_neg (by simp), DelimitedList.dropWhile_append hu,
    DelimitedList.takeWhile_append hu]

theorem append_cons_inj {c : UInt8} {u v u' v' : List UInt8} (hu : c ∉ u) (hu' : c ∉ u')
    (h : u ++ c :: v = u' ++ c :: v') : u = u' ∧ v = v' := by
  rcases List.append_eq_append_iff.mp h with ⟨x,rfl,hx⟩ | ⟨x,rfl,hx⟩
  · cases x with
    | nil => exact ⟨by simp,by simpa using hx⟩
    | cons d x =>
      obtain ⟨rfl,_⟩ := List.cons.inj hx
      simp at hu'
  · cases x with
    | nil => exact ⟨by simp,by simpa using hx.symm⟩
    | cons d x =>
      obtain ⟨rfl,_⟩ := List.cons.inj hx
      simp at hu

/-- A host without brackets has no colon. -/
theorem host_free {y : List UInt8} (hy : (host : Numbered).Accepts y) (hbracket : 91 ∉ y) :
    colon ∉ y := by
  intro hcolon
  rcases accepts_alt.mp hy with hy | hy
  · obtain ⟨x,rfl,_⟩ := accepts_word_seq.mp hy
    simp [bytes] at hbracket
  · exact nameOrIpv4_avoids _ hy.live colon hcolon (.inr rfl)

theorem mem_strayTrace {ui : List UInt8} (hui : (userinfo : Numbered).Accepts ui)
    {x : ℕ × ℕ × Action} : x ∈ strayTrace p n ui ↔ ∃ u c v, ui = u ++ c :: v ∧
      x.1 = p + u.length ∧ (hostAndPortAt n).At u (some c) x.2 := by
  have hbracket : 91 ∉ ui := fun h => userinfo_avoids _ hui.live _ h (.inl rfl)
  simp only [at_hostAndPort]
  by_cases hcolon : colon ∈ ui
  · obtain ⟨u,r,rfl,hu⟩ := List.eq_append_cons_of_mem hcolon
    rw [strayTrace_colon hu]
    have hname : (host : Numbered).Accepts u :=
      accepts_alt.mpr (.inr (accepts_alt.mpr (.inr (regName_of_userinfo hui hu))))
    have hunique : ∀ y v, u ++ colon :: r = y ++ colon :: v → (host : Numbered).Accepts y →
        u = y ∧ r = v := by
      intro y v heq hy
      refine append_cons_inj hu (host_free hy ?_) heq
      intro hmem
      rw [heq] at hbracket
      simp [hmem] at hbracket
    constructor
    · intro hx
      rcases List.mem_cons.mp hx with rfl | hx
      · cases u with
        | nil => exact ⟨[],colon,r,rfl,rfl,.inl ⟨rfl,rfl,.inr rfl⟩⟩
        | cons c u =>
          have hc : c ≠ colon := by
            rintro rfl
            simp at hu
          exact ⟨[],c,u ++ colon :: r,rfl,rfl,.inl ⟨rfl,rfl,.inl (host_opens_of_userinfo hui hc)⟩⟩
      rcases List.mem_cons.mp hx with rfl | hx
      · exact ⟨u,colon,r,rfl,rfl,.inr (.inl ⟨rfl,rfl,hname⟩)⟩
      · cases r with
        | nil => cases hx
        | cons d r =>
          simp only [portStart, List.mem_ite_nil_right, List.mem_singleton] at hx
          obtain ⟨hdigit,rfl⟩ := hx
          exact ⟨u ++ [colon],d,r,by simp,by simp [Nat.add_assoc],
            .inr (.inr ⟨u,rfl,hname,rfl,hdigit⟩)⟩
    · rintro ⟨y,c,v,heq,hp,⟨rfl,hl,_⟩ | ⟨rfl,hl,hy⟩ | ⟨z,rfl,hz,hl,hdigit⟩⟩
      · obtain rfl : x = (p, n, .markh) := Prod.ext (by simpa using hp) hl
        exact List.mem_cons_self
      · obtain ⟨rfl,rfl⟩ := hunique y v heq hy
        obtain rfl : x = (p + u.length, n + 1, .saveHost) := Prod.ext hp hl
        exact List.mem_cons_of_mem _ List.mem_cons_self
      · rw [List.append_assoc, List.singleton_append] at heq
        obtain ⟨rfl,rfl⟩ := hunique z (c :: v) heq hz
        obtain rfl : x = (p + u.length + 1, n + 2, .markh) := by
          refine Prod.ext ?_ hl
          simpa [Nat.add_assoc] using hp
        simp [portStart, hdigit]
  · have hfree : ∀ y v, ui ≠ y ++ colon :: v := by
      rintro y v rfl
      simp at hcolon
    constructor
    · intro hx
      cases ui with
      | nil => cases hx
      | cons c u =>
        rw [strayTrace_free (by simp) hcolon, List.mem_singleton] at hx
        have hc : c ≠ colon := by
          rintro rfl
          simp at hcolon
        rw [hx]
        exact ⟨[],c,u,rfl,rfl,.inl ⟨rfl,rfl,.inl (host_opens_of_userinfo hui hc)⟩⟩
    · rintro ⟨y,c,v,heq,hp,⟨rfl,hl,_⟩ | ⟨rfl,_⟩ | ⟨z,rfl,_⟩⟩
      · have hne : ui ≠ [] := by
          rw [heq]
          simp
        rw [strayTrace_free hne hcolon, List.mem_singleton]
        exact Prod.ext (by simpa using hp) hl
      · exact absurd heq (hfree y v)
      · exact absurd (by rw [heq, List.append_assoc]; rfl) (hfree z (c :: v))

theorem strayTrace_sorted (ui : List UInt8) : (strayTrace p n ui).Pairwise Before := by
  by_cases hne : ui = []
  · rw [strayTrace, if_pos hne]
    exact List.Pairwise.nil
  by_cases hcolon : colon ∈ ui
  · obtain ⟨u,r,rfl,hu⟩ := List.eq_append_cons_of_mem hcolon
    rw [strayTrace_colon hu]
    have hport : ∀ x ∈ portStart (p + u.length + 1) (n + 2) r,
        x = (p + u.length + 1, n + 2, .markh) := by
      intro x hx
      cases r with
      | nil => cases hx
      | cons d r =>
        simp only [portStart, List.mem_ite_nil_right, List.mem_singleton] at hx
        exact hx.2
    have hsorted : (portStart (p + u.length + 1) (n + 2) r).Pairwise Before := by
      cases r with
      | nil => exact List.Pairwise.nil
      | cons d r =>
        rw [portStart]
        split
        · exact List.pairwise_singleton _ _
        · exact List.Pairwise.nil
    refine List.pairwise_cons.mpr ⟨?_,List.pairwise_cons.mpr ⟨?_,hsorted⟩⟩
    · intro x hx
      rcases List.mem_cons.mp hx with rfl | hx
      · simp only [Before]
        omega
      · rw [hport x hx]
        exact .inl (by simp only; omega)
    · intro x hx
      rw [hport x hx]
      exact .inl (by simp only; omega)
  · rw [strayTrace_free hne hcolon]
    exact List.pairwise_singleton _ _

theorem strayTrace_numbers {ui : List UInt8} (hui : (userinfo : Numbered).Accepts ui)
    {x : ℕ × ℕ × Action} (hx : x ∈ strayTrace p n ui) : n ≤ x.2.1 ∧ x.2.1 < n + 3 := by
  obtain ⟨u,c,v,_,_,hat⟩ := (mem_strayTrace hui).mp hx
  rcases at_hostAndPort.mp hat with ⟨_,hl,_⟩ | ⟨_,hl,_⟩ | ⟨_,_,_,hl,_⟩ <;>
  · rw [hl]
    simp

/-- What host and port read beside a user information lies before its `@`. -/
theorem hostAndPort_beside {ui r u v : List UInt8} {l : ℕ × Action}
    (heq : ui ++ atSign :: r = u ++ v) (hat : (hostAndPortAt n).At u v.head? l) :
    ∃ c w, ui = u ++ c :: w ∧ v.head? = some c := by
  cases v with
  | nil =>
    refine absurd rfl (hostAndPort_avoids u hat.goes.live atSign ?_)
    rw [List.append_nil] at heq
    simp [← heq]
  | cons c v =>
    have hnot : atSign ∉ u ++ [c] := fun h =>
      hostAndPort_avoids _ (goes_some.mp hat.goes) atSign h rfl
    rcases List.append_eq_append_iff.mp heq with ⟨x,rfl,hx⟩ | ⟨x,rfl,hx⟩
    · cases x with
      | nil =>
        obtain ⟨rfl,_⟩ := List.cons.inj hx
        simp at hnot
      | cons d x =>
        obtain ⟨rfl,_⟩ := List.cons.inj hx
        simp at hnot
    · cases x with
      | nil =>
        obtain ⟨rfl,_⟩ := List.cons.inj hx
        simp at hnot
      | cons d x =>
        obtain ⟨rfl,_⟩ := List.cons.inj hx
        exact ⟨c,x,rfl,rfl⟩

/-- An authority with user information. -/
theorem authority_trace_userinfo {ui : List UInt8} (hui : (userinfo : Numbered).Accepts ui)
    (hh : (host : Numbered).Accepts h) (ho : ∀ v ∈ o, (port : Numbered).Accepts v) :
    (authorityAt n).HasTrace p (ui ++ atSign :: (h ++ delimited colon o))
      ((p, n, .markh) :: (strayTrace p (n + 2) ui ++ (p + ui.length, n + 1, .saveUserinfo) ::
        hostAndPortTrace (p + ui.length + 1) (n + 2) h o)) := by
  have hacc := hostAndPort_accepts (n := n + 2) hh ho
  have hhost := hostAndPort_trace (p := p + ui.length + 1) (n := n + 2) hh ho
  have hfree : ∀ {x}, (userinfo : Numbered).Accepts x → atSign ∉ x :=
    fun hx h => userinfo_avoids _ hx.live _ h (.inr rfl)
  have hinner : (seq (userinfoAt (n + 1)) (hostAndPortAt (n + 2))).HasTrace p
      (ui ++ atSign :: (h ++ delimited colon o))
      (strayTrace p (n + 2) ui ++ (p + ui.length, n + 1, .saveUserinfo) ::
        hostAndPortTrace (p + ui.length + 1) (n + 2) h o) := by
    refine ⟨List.pairwise_append.mpr ⟨strayTrace_sorted ui,
      List.pairwise_cons.mpr ⟨?_,hhost.sorted⟩,?_⟩,?_⟩
    · intro x hx
      have hinside := hhost.inside hx
      exact .inl (by simp only; omega)
    · intro x hx y hy
      obtain ⟨u,c,v,rfl,hp,_⟩ := (mem_strayTrace hui).mp hx
      rw [List.length_append, List.length_cons] at hy hhost
      refine .inl ?_
      rcases List.mem_cons.mp hy with rfl | hy
      · simp only
        omega
      · have hinside := hhost.inside hy
        omega
    · intro x
      simp only [at_authority, List.mem_append, List.mem_cons, mem_strayTrace hui, hhost.mem]
      constructor
      · rintro (⟨u,c,v,rfl,hp,hat⟩ | rfl | ⟨u,v,heq,hp,hat⟩)
        · exact ⟨u,c :: v ++ atSign :: (h ++ delimited colon o),by simp,hp,.inr (.inl hat)⟩
        · exact ⟨ui,atSign :: (h ++ delimited colon o),rfl,rfl,.inl ⟨rfl,rfl,hui⟩⟩
        · refine ⟨ui ++ atSign :: u,v,by simp [heq],?_,.inr (.inr ⟨ui,u,rfl,hui,hat⟩)⟩
          simpa [Nat.add_assoc, Nat.add_comm, Nat.add_left_comm] using hp
      · rintro ⟨u,v,heq,hp,⟨hv,hl,hu⟩ | hat | ⟨y,z,rfl,hy,hat⟩⟩
        · obtain ⟨v',rfl⟩ := List.head?_eq_some_iff.mp hv
          obtain ⟨rfl,_⟩ := append_cons_inj (hfree hui) (hfree hu) heq
          exact .inr (.inl (Prod.ext hp hl))
        · obtain ⟨c,w,rfl,hc⟩ := hostAndPort_beside heq hat
          rw [hc] at hat
          exact .inl ⟨u,c,w,rfl,hp,hat⟩
        · rw [List.append_assoc, List.cons_append] at heq
          obtain ⟨rfl,hrest⟩ := append_cons_inj (hfree hui) (hfree hy) heq
          refine .inr (.inr ⟨z,v,hrest,?_,hat⟩)
          simpa [Nat.add_assoc, Nat.add_comm, Nat.add_left_comm] using hp
  refine hinner.enter ?_ ?_
  · exact accepts_seq.mpr ⟨ui ++ [atSign],_,by simp,accepts_userinfo.mpr (.inr ⟨ui,rfl,hui⟩),hacc⟩
  · intro x hx
    rcases List.mem_append.mp hx with hx | hx
    · have hnum := strayTrace_numbers hui hx
      omega
    · rcases List.mem_cons.mp hx with rfl | hx
      · simp
      · have hnum := hostAndPortTrace_numbers hx
        omega

end Authority

section QueryAndFragment
variable {p n : ℕ} {q f : Option (List UInt8)}

def queryAndFragmentTrace (p n : ℕ) (q f : Option (List UInt8)) : List (ℕ × ℕ × Action) :=
  delimitedFrame p n .marku .saveQuery q ++
    delimitedFrame (p + (delimited question q).length) (n + 2) .marku .saveFragment f

theorem query_avoids : (queryAt n).Avoids (· = hash) := by
  apply avoids_of_uses
  rintro c rfl
  rfl

theorem fragment_startsIn : (fragmentAt n).StartsIn (· = hash) := by
  apply startsIn_of_firsts
  have hfirsts : (fragmentAt n).firsts = [.range 35 35] := rfl
  simp [hfirsts, has_single]

theorem queryAndFragment_startsIn :
    (queryAndFragmentAt n).StartsIn (fun c => c = question ∨ c = hash) := by
  apply startsIn_of_firsts
  have hfirsts : (queryAndFragmentAt n).firsts = [.range 63 63, .range 35 35] := rfl
  simp [hfirsts, has_single]

theorem accepts_queryAndFragment {w : List UInt8} : (queryAndFragmentAt n).Accepts w ↔
    ∃ q f, w = delimited question q ++ delimited hash f ∧
      (∀ v ∈ q, (star pcharSlash : Numbered).Accepts v) ∧
      ∀ v ∈ f, (star pcharSlash : Numbered).Accepts v := by
  have hquery : bytes "?" = [question] := rfl
  have hhash : bytes "#" = [hash] := rfl
  rw [queryAndFragmentAt, accepts_seq, queryAt, fragmentAt, lit, lit, hquery, hhash]
  simp only [accepts_delimited, accepts_framed]
  constructor
  · rintro ⟨_,_,rfl,⟨q,rfl,hq⟩,f,rfl,hf⟩
    exact ⟨q,f,rfl,hq,hf⟩
  · rintro ⟨q,f,rfl,hq,hf⟩
    exact ⟨_,_,rfl,⟨q,rfl,hq⟩,f,rfl,hf⟩

theorem queryAndFragment_trace (hq : ∀ v ∈ q, (star pcharSlash : Numbered).Accepts v)
    (hf : ∀ v ∈ f, (star pcharSlash : Numbered).Accepts v) :
    (queryAndFragmentAt n).HasTrace p (delimited question q ++ delimited hash f)
      (queryAndFragmentTrace p n q f) := by
  have hquery : (queryAt n).Accepts (delimited question q) :=
    accepts_delimited.mpr ⟨q,rfl,fun v hv => accepts_framed.mpr (hq v hv)⟩
  have hfragment : (fragmentAt (n + 2)).Accepts (delimited hash f) :=
    accepts_delimited.mpr ⟨f,rfl,fun v hv => accepts_framed.mpr (hf v hv)⟩
  refine (hasTrace_delimited rfl hq).seq (hasTrace_delimited rfl hf) hquery hfragment ?_ ?_
  · exact SplitsAt.of_delimiter query_avoids.stops fragment_startsIn hquery hfragment.opens
  · intro x hx y hy
    have hx := delimitedFrame_numbers hx
    have hy := delimitedFrame_numbers hy
    omega

theorem queryAndFragmentTrace_numbers {x : ℕ × ℕ × Action}
    (hx : x ∈ queryAndFragmentTrace p n q f) : n ≤ x.2.1 := by
  rcases List.mem_append.mp hx with hx | hx
  · exact (delimitedFrame_numbers hx).1
  · have hnum := delimitedFrame_numbers hx
    omega

end QueryAndFragment

end Gudov.UriParser
