import Mathlib.Data.List.Pairwise
import Gudov.DelimitedList
import Gudov.HttpRoundTrip
import Gudov.MachineTrace

/-!
# Which tokens are methods

`StringToHttpMethod` compares a string with the names of the table, and `CharsToHttpMethod`
the first bytes of a string, as many as the name has. The callback of the parser calls the
second one with a pointer to the token inside the request line and uses the length of the
token for its log only. So a token that goes on behind a name is taken for the name.

No name of the table begins another one, and only one has blanks in it. The token in front of
these, `M`, is told from it by the rest of the request line.
-/
namespace Gudov
open ActionMachine Machine Http11 HttpRequestParser

namespace HttpMethod
open Reading

/-- `StringToHttpMethod`, with `strcmp` on the C strings. -/
def stringToHttpMethod (s : List UInt8) : HttpMethod :=
  match table.find? fun e => e.2 == cString s with
  | some e => e.1
  | none => invalidMethod

/-- No name of the table is a proper prefix. -/
def EndsWithName (c : List UInt8) : Prop := ∀ e ∈ table, e.2 <+: c → e.2 = c

section Table
variable {c : List UInt8} {x : HttpMethod}

theorem table_prefix {e d : HttpMethod × List UInt8} (he : e ∈ table) (hd : d ∈ table)
    (h : e.2 <+: d.2) : e.2 = d.2 := by
  by_contra hne
  have hother : e ≠ d := fun heq => hne (by rw [heq])
  have hsymm : Std.Symm fun a b : HttpMethod × List UInt8 => ¬ a.2 <+: b.2 ∧ ¬ b.2 <+: a.2 :=
    ⟨fun _ _ h => h.symm⟩
  exact (table_free.forall he hd hother).1 h

theorem table_zero : ∀ e ∈ table, 0 ∉ e.2 := by decide +kernel

theorem table_blank : ∀ e ∈ table, 32 ∉ e.2 ∨ e.2 = bytes "M - SEARCH" := by decide +kernel

theorem methodOf_some (h : methodOf c = some x) : ∃ e ∈ table, e.1 = x ∧ e.2 <+: c := by
  obtain ⟨e,hfind,rfl⟩ := Option.map_eq_some_iff.mp h
  have hpre : e.2.isPrefixOf c = true := by simpa using List.find?_some hfind
  exact ⟨e,List.mem_of_find?_eq_some hfind,rfl,List.isPrefixOf_iff_prefix.mp hpre⟩

theorem methodOf_valid (h : methodOf c = some x) : x ≠ invalidMethod := by
  obtain ⟨e,he,rfl,_⟩ := methodOf_some h
  exact table_valid e he

theorem methodOf_ne_none {e : HttpMethod × List UInt8} (he : e ∈ table) (hpre : e.2 <+: c) :
    methodOf c ≠ none := by
  intro h
  have hmiss := List.find?_eq_none.mp (Option.map_eq_none_iff.mp h) e he
  exact hmiss (List.isPrefixOf_iff_prefix.mpr hpre)

/-- The first name that begins the text is the text itself unless it goes on behind a name. -/
theorem methodOf_exact_iff : (∀ x, methodOf c = some x ↔ (x, c) ∈ table) ↔ EndsWithName c := by
  constructor
  · intro h e he hpre
    obtain ⟨x,hx⟩ := Option.ne_none_iff_exists'.mp (methodOf_ne_none he hpre)
    exact table_prefix he ((h x).mp hx) hpre
  · intro h x
    constructor
    · intro hx
      obtain ⟨e,he,rfl,hpre⟩ := methodOf_some hx
      rw [← h e he hpre]
      exact he
    · intro hmem
      exact (table_names _ hmem).1

theorem stringToHttpMethod_eq_iff {s : List UInt8} (hx : x ≠ invalidMethod) :
    stringToHttpMethod s = x ↔ (x, cString s) ∈ table := by
  unfold stringToHttpMethod
  constructor
  · intro h
    split at h
    next e hfind =>
      have hname : e.2 = cString s := by simpa using List.find?_some hfind
      rw [← h, ← hname]
      exact List.mem_of_find?_eq_some hfind
    next => exact absurd h.symm hx
  · intro hmem
    split
    next e hfind =>
      have hname : e.2 = cString s := by simpa using List.find?_some hfind
      have hfirst := (table_names e (List.mem_of_find?_eq_some hfind)).1
      rw [hname, (table_names _ hmem).1] at hfirst
      exact (Option.some.inj hfirst).symm
    next hnone => exact absurd (List.find?_eq_none.mp hnone _ hmem) (by simp)

end Table

section Comparing
variable {name c w : List UInt8} {d : UInt8}

/-- A byte that is not in the name ends the comparison. -/
theorem startsWith_delimited (hd : d ∉ name) :
    startsWith name (c ++ d :: w) = .ok (name.isPrefixOf c) := by
  induction name generalizing c with
  | nil => simp [startsWith]
  | cons x name ih =>
    rw [List.mem_cons, not_or] at hd
    obtain ⟨hx,hname⟩ := hd
    cases c with
    | nil => simp [startsWith, Ne.symm hx]
    | cons y c =>
      rw [List.cons_append, startsWith, ih hname]
      by_cases hxy : x = y
      · simp [hxy]
      · simp [hxy, List.isPrefixOf]

theorem firstMatch_methodOf {m : List UInt8}
    (h : ∀ e ∈ table, startsWith e.2 m = .ok (e.2.isPrefixOf c)) :
    charsToHttpMethod m = .ok ((methodOf c).getD invalidMethod) := by
  have hlist : ∀ l : List (HttpMethod × List UInt8),
      (∀ e ∈ l, startsWith e.2 m = .ok (e.2.isPrefixOf c)) →
      firstMatch l m =
        .ok (((l.find? fun e => e.2.isPrefixOf c).map Prod.fst).getD invalidMethod) := by
    intro l hl
    induction l with
    | nil => rfl
    | cons e l ih =>
      rw [firstMatch, bind_ok (hl e (by simp)), ih fun d hd => hl d (by simp [hd]),
        List.find?_cons]
      cases e.2.isPrefixOf c <;> rfl
  exact hlist table h

theorem charsToHttpMethod_cString (s : List UInt8) :
    charsToHttpMethod (s ++ [0]) = .ok ((methodOf (cString s)).getD invalidMethod) := by
  have hcut : ∃ w, s ++ [0] = cString s ++ 0 :: w := by
    induction s with
    | nil => exact ⟨[],rfl⟩
    | cons b s ih =>
      by_cases hb : b = 0
      · exact ⟨s ++ [0],by simp [cString, hb]⟩
      · obtain ⟨w,hw⟩ := ih
        refine ⟨w,?_⟩
        have hcons : cString (b :: s) = b :: cString s := by simp [cString, hb]
        rw [hcons, List.cons_append, hw]
        rfl
  obtain ⟨w,hw⟩ := hcut
  rw [hw]
  exact firstMatch_methodOf fun e he => startsWith_delimited (table_zero e he)

/-- The two functions agree on a string unless it goes on behind a name. -/
theorem charsToHttpMethod_eq_iff (s : List UInt8) :
    charsToHttpMethod (s ++ [0]) = .ok (stringToHttpMethod s) ↔ EndsWithName (cString s) := by
  have hgetD : ∀ x ≠ invalidMethod,
      (methodOf (cString s)).getD invalidMethod = x ↔ methodOf (cString s) = some x := by
    intro x hx
    cases methodOf (cString s) with
    | none => simp [hx.symm]
    | some y => simp
  rw [charsToHttpMethod_cString, ← methodOf_exact_iff, Except.ok.injEq]
  constructor
  · intro h x
    by_cases hx : x = invalidMethod
    · subst hx
      exact ⟨fun hsome => absurd rfl (methodOf_valid hsome),
        fun hmem => absurd rfl (table_valid _ hmem)⟩
    · rw [← hgetD x hx, h, stringToHttpMethod_eq_iff hx]
  · intro h
    cases hm : methodOf (cString s) with
    | some x => exact ((stringToHttpMethod_eq_iff (methodOf_valid hm)).mpr ((h x).mp hm)).symm
    | none =>
      by_contra hne
      have hmem := (stringToHttpMethod_eq_iff (Ne.symm hne)).mp rfl
      rw [← h, hm] at hmem
      cases hmem

end Comparing

end HttpMethod

namespace HttpMethodTokens
open HttpMethod Reading

/-- A token of upper-case letters and digits, with a space and the rest of a request line
behind it. -/
structure IsRequestLine (relaxed : Bool) (t v : List UInt8) : Prop where
  token : ∀ c ∈ t, methodByte.has c = true
  accepted : (requestLine relaxed).Accepts (t ++ 32 :: v)

section Line
variable {relaxed : Bool} {t v : List UInt8}

theorem atMost_accepts {s : ByteSet} {n : ℕ} {w : List UInt8} (hlen : w.length ≤ n)
    (hw : ∀ c ∈ w, s.has c = true) : (atMost n (one s) : Machine Action).Accepts w := by
  induction n generalizing w with
  | zero => exact accepts_null.mpr (List.eq_nil_of_length_eq_zero (Nat.le_zero.mp hlen))
  | succ n ih =>
    cases w with
    | nil => exact accepts_opt.mpr (.inr rfl)
    | cons c w =>
      have htail := ih (Nat.le_of_succ_le_succ hlen) fun d hd => hw d (by simp [hd])
      have hfirst : (one s : Machine Action).Accepts [c] := accepts_one.mpr ⟨c,rfl,hw c (by simp)⟩
      exact accepts_opt.mpr (.inl (accepts_seq.mpr ⟨[c],w,rfl,hfirst,htail⟩))

theorem accepts_atMost {s : ByteSet} {n : ℕ} {w : List UInt8}
    (h : (atMost n (one s) : Machine Action).Accepts w) :
    w.length ≤ n ∧ ∀ c ∈ w, s.has c = true := by
  induction n generalizing w with
  | zero => simp [accepts_null.mp h]
  | succ n ih =>
    rcases accepts_opt.mp h with h | rfl
    · obtain ⟨u,v,rfl,hu,hv⟩ := accepts_seq.mp h
      obtain ⟨c,rfl,hc⟩ := accepts_one.mp hu
      obtain ⟨hlen,hall⟩ := ih hv
      simpa [hc] using ⟨hlen,hall⟩
    · simp

theorem accepts_method {w : List UInt8} (h : method.Accepts w) :
    w ≠ [] ∧ w.length ≤ 20 ∧ ∀ c ∈ w, methodByte.has c = true := by
  rw [method, accepts_leave, accepts_enter] at h
  obtain ⟨u,v,rfl,hu,hv⟩ := accepts_seq.mp h
  obtain ⟨c,rfl,hc⟩ := accepts_one.mp hu
  obtain ⟨hlen,hall⟩ := accepts_atMost hv
  refine ⟨List.cons_ne_nil c v,Nat.succ_le_succ hlen,?_⟩
  intro d hd
  rcases List.mem_cons.mp hd with rfl | hd
  · exact hc
  · exact hall d hd

theorem method_accepts {w : List UInt8} (hne : w ≠ []) (hlen : w.length ≤ 20)
    (hw : ∀ c ∈ w, methodByte.has c = true) : method.Accepts w := by
  rw [method, accepts_leave, accepts_enter, accepts_seq]
  cases w with
  | nil => exact absurd rfl hne
  | cons c w =>
    have hrest := atMost_accepts (Nat.le_of_succ_le_succ hlen) fun d hd => hw d (by simp [hd])
    exact ⟨[c],w,rfl,accepts_one.mpr ⟨c,rfl,hw c (by simp)⟩,hrest⟩

theorem uriReference_noBlank {w : List UInt8} (h : (uriReference relaxed).Accepts w) :
    32 ∉ w := by
  intro hmem
  have huses := (Reaches.live h).uses hmem
  cases relaxed <;> revert huses <;> decide

theorem uriReference_slash : (uriReference relaxed).Accepts (bytes "/") := by
  have hnone : ∀ m : Machine Action, m.opt.Accepts [] := fun m => accepts_opt.mpr (.inr rfl)
  have hpath : (relativePart relaxed).Accepts (bytes "/") :=
    accepts_alt.mpr (.inr (accepts_alt.mpr (.inl (accepts_word_seq.mpr ⟨[],rfl,hnone _⟩))))
  rw [uriReference, accepts_alt, relativeRef, pathAndQuery, accepts_seq]
  refine .inr ⟨bytes "/",[],rfl,?_,hnone _⟩
  exact accepts_leave.mpr (accepts_enter.mpr
    (accepts_seq.mpr ⟨bytes "/",[],rfl,accepts_leave.mpr hpath,hnone _⟩))

/-- Every token makes a request line. -/
theorem slash_line (ht : ∀ c ∈ t, methodByte.has c = true) (hne : t ≠ []) (hlen : t.length ≤ 20) :
    IsRequestLine relaxed t (bytes "/ HTTP/1.1\r\n") := by
  have hnumber : httpNumber.Accepts (bytes "1.1") :=
    accepts_word_seq.mpr ⟨bytes "1",rfl,accepts_alt.mpr (.inr (accepts_word.mpr rfl))⟩
  have hversion : httpVersion.Accepts (bytes "HTTP/1.1") :=
    accepts_leave.mpr (accepts_enter.mpr (accepts_word_seq.mpr ⟨bytes "1.1",rfl,hnumber⟩))
  have hcrlf : crlf.Accepts (bytes "\r\n") := accepts_alt.mpr (.inl (accepts_word.mpr rfl))
  have hend : (seq httpVersion crlf).Accepts (bytes "HTTP/1.1\r\n") :=
    accepts_seq.mpr ⟨bytes "HTTP/1.1",bytes "\r\n",rfl,hversion,hcrlf⟩
  refine ⟨ht,accepts_seq.mpr ⟨t,bytes " / HTTP/1.1\r\n",rfl,method_accepts hne hlen ht,?_⟩⟩
  refine accepts_word_seq.mpr ⟨bytes "/ HTTP/1.1\r\n",rfl,?_⟩
  refine accepts_seq.mpr ⟨bytes "/",bytes " HTTP/1.1\r\n",rfl,uriReference_slash,?_⟩
  exact accepts_word_seq.mpr ⟨bytes "HTTP/1.1\r\n",rfl,hend⟩

/-- The grammar bounds the token, and behind it stand a text without blanks, a blank and the
version. -/
theorem IsRequestLine.parts (h : IsRequestLine relaxed t v) : t ≠ [] ∧ t.length ≤ 20 ∧
    ∃ target rest, v = target ++ 32 :: (bytes "HTTP/" ++ rest) ∧ 32 ∉ target := by
  obtain ⟨u,w,heq,hmethod,hw⟩ := accepts_seq.mp h.accepted
  obtain ⟨v',rfl,hv⟩ := accepts_word_seq.mp hw
  obtain ⟨hne,hlen,hu⟩ := accepts_method hmethod
  have hblank : ∀ {m : List UInt8}, (∀ c ∈ m, methodByte.has c = true) → 32 ∉ m := fun hm hmem =>
    methodByte_ne (hm 32 hmem) rfl
  obtain ⟨rfl,rfl⟩ := DelimitedList.append_inj (hblank h.token) (hblank hu) heq
  obtain ⟨target,w,rfl,htarget,hw⟩ := accepts_seq.mp hv
  obtain ⟨last,rfl,hlast⟩ := accepts_word_seq.mp hw
  obtain ⟨w₁,w₂,rfl,hversion,_⟩ := accepts_seq.mp hlast
  rw [httpVersion, accepts_leave, accepts_enter] at hversion
  obtain ⟨w,rfl,_⟩ := accepts_word_seq.mp hversion
  refine ⟨hne,hlen,target,w ++ w₂,?_,uriReference_noBlank htarget⟩
  rw [List.append_assoc]
  rfl

/-- Behind the blank, the target and the blank before the version are compared with the rest of
`M - SEARCH`. -/
theorem startsWith_search {target rest : List UInt8} (htarget : 32 ∉ target) :
    startsWith [45, 32, 83, 69, 65, 82, 67, 72] (target ++ 32 :: (bytes "HTTP/" ++ rest)) =
      .ok false := by
  have hversion : bytes "HTTP/" = [72, 84, 84, 80, 47] := rfl
  rw [hversion]
  cases target with
  | nil => rfl
  | cons c target =>
    cases target with
    | nil => simp [startsWith]
    | cons d target =>
      have hd : 32 ≠ d := by
        rintro rfl
        simp at htarget
      simp [startsWith, hd]

/-- What is compared with `M - SEARCH` differs from it in the token or in the version. -/
theorem startsWith_msearch {target rest : List UInt8} (ht : ∀ c ∈ t, methodByte.has c = true)
    (htarget : 32 ∉ target) :
    startsWith (bytes "M - SEARCH") (t ++ 32 :: (target ++ 32 :: (bytes "HTTP/" ++ rest))) =
      .ok false := by
  have hname : bytes "M - SEARCH" = [77, 32, 45, 32, 83, 69, 65, 82, 67, 72] := rfl
  rw [hname]
  cases t with
  | nil => rfl
  | cons c t =>
    cases t with
    | nil => simp [startsWith, startsWith_search htarget]
    | cons d t =>
      have hd : 32 ≠ d := (methodByte_ne (ht d (by simp))).symm
      simp [startsWith, hd]

theorem IsRequestLine.charsToHttpMethod (h : IsRequestLine relaxed t v) (u : List UInt8) :
    HttpMethod.charsToHttpMethod (t ++ 32 :: (v ++ u)) =
      .ok ((methodOf t).getD invalidMethod) := by
  obtain ⟨_,_,target,rest,rfl,htarget⟩ := h.parts
  apply firstMatch_methodOf
  intro e he
  rcases table_blank e he with hblank | hsearch
  · exact startsWith_delimited hblank
  · have hmiss : (bytes "M - SEARCH").isPrefixOf t = false := by
      by_contra hpre
      rw [Bool.not_eq_false, List.isPrefixOf_iff_prefix] at hpre
      exact methodByte_ne (h.token 32 (hpre.subset (by decide))) rfl
    rw [hsearch, hmiss, List.append_assoc, List.cons_append, List.append_assoc]
    exact startsWith_msearch h.token htarget

end Line

section Parser
variable {relaxed : Bool} {t v : List UInt8}

variable (relaxed) in
/-- The token and the space behind it: a mark at the first byte, and the callback. -/
theorem token_exec {σ ε : Type} {act : Action → ℕ → σ → Except ε σ}
    (ht : ∀ c ∈ t, methodByte.has c = true) (hne : t ≠ []) (hlen : t.length ≤ 20) (x : σ) :
    exec act breaks (start (main relaxed)) (t ++ [32]) 0 x =
      act .mark 0 x >>= act .requestMethod t.length >>= fun y =>
        .ok (Phase.uri.state relaxed, t.length + 1, y) := by
  obtain ⟨k,line,rest,hrest,hfirst,huri⟩ := uri_state relaxed
  cases t with
  | nil => exact absurd rfl hne
  | cons c t =>
    have hc := ht c (by simp)
    have hstep := hfirst c hc (by rintro rfl; revert hc; decide) (by rintro rfl; revert hc; decide)
    have hlater : ∀ y, exec act breaks (inMethod k line rest 19) (t ++ 32 :: []) 1 y =
        act .requestMethod (1 + t.length) y >>=
          exec act breaks (afterMethod k line rest) [] (1 + t.length + 1) := fun y =>
      exec_method hrest (fun d hd => ht d (by simp [hd])) (Nat.le_of_succ_le_succ hlen)
    rw [List.cons_append, exec, hstep, huri, List.length_cons, Nat.add_comm t.length 1]
    cases hmark : act .mark 0 x with
    | error e => simp [inMethod, perform, hmark, Bind.bind, Except.bind]
    | ok y =>
      have hgo : exec act breaks (inMethod k line rest 19) (t ++ [32]) 1 y =
          act .requestMethod (1 + t.length) y >>= fun z =>
            .ok (afterMethod k line rest, 1 + t.length + 1, z) := hlater y
      simpa [inMethod, perform, hmark, Bind.bind, Except.bind, breaks] using hgo

/-- The method of the token and no other is set, and without one the error 1000. -/
structure Recognised (t : List UInt8) (h : HttpRequestParser) : Prop where
  exact : ∀ x, (h.data.method = x ∧ h.error ≠ 1000) ↔ (x, t) ∈ table
  refused : (∀ x, (x, t) ∉ table) → h.error = 1000

/-- The callback on the token, in a buffer with the request line and whatever follows it. -/
theorem token_called (h : IsRequestLine relaxed t v) (u : List UInt8) :
    ∃ h', exec (HttpRequestParser.act (t ++ 32 :: (v ++ u))) breaks (new relaxed).parser.cs
        (t ++ [32]) 0 (new relaxed) = .ok (Phase.uri.state relaxed, t.length + 1, h') ∧
      h' = match methodOf t with
        | some x => (new relaxed).setData { (new relaxed).data with method := x }
        | none => (new relaxed).setError 1000 := by
  obtain ⟨hne,hlen,_⟩ := h.parts
  refine ⟨_,?_,rfl⟩
  have hcall : HttpRequestParser.act (t ++ 32 :: (v ++ u)) .mark 0 (new relaxed) >>=
      HttpRequestParser.act (t ++ 32 :: (v ++ u)) .requestMethod t.length =
        onRequestMethod (t ++ 32 :: (v ++ u)) 0 (new relaxed) := rfl
  refine (token_exec relaxed h.token hne hlen (new relaxed)).trans ?_
  rw [hcall, onRequestMethod, List.drop_zero, h.charsToHttpMethod]
  cases hm : methodOf t with
  | none => rfl
  | some x => simp [methodOf_valid hm, Bind.bind, Except.bind]

theorem recognised_iff (t : List UInt8) : Recognised t (match methodOf t with
      | some x => (new relaxed).setData { (new relaxed).data with method := x }
      | none => (new relaxed).setError 1000) ↔ EndsWithName t := by
  rw [← methodOf_exact_iff]
  cases hm : methodOf t with
  | some y =>
    constructor
    · intro h x
      rw [← h.exact x]
      simp [setData, new]
    · intro h
      refine ⟨fun x => ?_,fun hnone => absurd ((h y).mp rfl) (hnone y)⟩
      rw [← h x]
      simp [setData, new]
  | none =>
    constructor
    · intro h x
      rw [← h.exact x]
      simp [setError]
    · intro h
      refine ⟨fun x => ?_,fun _ => rfl⟩
      rw [← h x]
      simp [setError]

end Parser

/-- For every request line the parser has set the method of the token behind the token, and the
error 1000 if it has none, exactly when the token does not go on behind a name of the table;
and for every string the two functions agree exactly when its C string does not. -/
theorem method_exact_iff (relaxed : Bool) (t v u s : List UInt8) :
    (IsRequestLine relaxed t v →
      ∃ h, exec (HttpRequestParser.act (t ++ 32 :: (v ++ u))) breaks (new relaxed).parser.cs
          (t ++ [32]) 0 (new relaxed) = .ok (Phase.uri.state relaxed, t.length + 1, h) ∧
        (Recognised t h ↔ EndsWithName t)) ∧
    (charsToHttpMethod (s ++ [0]) = .ok (stringToHttpMethod s) ↔ EndsWithName (cString s)) := by
  refine ⟨?_,charsToHttpMethod_eq_iff s⟩
  intro hline
  obtain ⟨h,hexec,rfl⟩ := token_called hline u
  exact ⟨_,hexec,recognised_iff t⟩

theorem method_exact_iff_get : ∃ h,
    exec (HttpRequestParser.act (bytes "GET / HTTP/1.1\r\n\r\n")) breaks (new false).parser.cs
      (bytes "GET ") 0 (new false) = .ok (Phase.uri.state false, 4, h) ∧
    Recognised (bytes "GET") h := by
  have hline : IsRequestLine false (bytes "GET") (bytes "/ HTTP/1.1\r\n") :=
    slash_line (List.all_eq_true.mp rfl) (by decide) (by decide)
  obtain ⟨h,hexec,hiff⟩ := (method_exact_iff false _ _ (bytes "\r\n") []).1 hline
  exact ⟨h,hexec,hiff.mpr (by unfold EndsWithName; decide)⟩

/-- `GETX` is taken for `GET`, by the parser and in a string. -/
theorem method_inexact :
    (¬ ∀ (relaxed : Bool) (t v u : List UInt8), IsRequestLine relaxed t v →
      ∃ h, exec (HttpRequestParser.act (t ++ 32 :: (v ++ u))) breaks (new relaxed).parser.cs
          (t ++ [32]) 0 (new relaxed) = .ok (Phase.uri.state relaxed, t.length + 1, h) ∧
        Recognised t h) ∧
    ¬ ∀ s, charsToHttpMethod (s ++ [0]) = .ok (stringToHttpMethod s) := by
  have hbad : ¬ EndsWithName (bytes "GETX") := by
    intro h
    exact absurd (h (.get, bytes "GET") (by decide) (by decide)) (by decide)
  constructor
  · intro hall
    have hline : IsRequestLine false (bytes "GETX") (bytes "/ HTTP/1.1\r\n") :=
      slash_line (List.all_eq_true.mp rfl) (by decide) (by decide)
    obtain ⟨h,hexec,hrec⟩ := hall false _ _ [] hline
    obtain ⟨h',hexec',rfl⟩ := token_called hline []
    rw [hexec] at hexec'
    cases hexec'
    exact hbad ((recognised_iff _).mp hrec)
  · intro hall
    exact hbad ((charsToHttpMethod_eq_iff (bytes "GETX")).mp (hall _))

end HttpMethodTokens

end Gudov
