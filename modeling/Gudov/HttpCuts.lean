import Gudov.HttpSegments

/-!
# A cut inside the method

The machine is inside the method from the first byte of a request to the first space.
A piece that begins there makes the parser look up what is left of the method, and a
name without its first letter is not in the table. So the condition on the cuts cannot
be dropped for any request: with its first byte in a piece of its own, it is refused.
-/
namespace Gudov
open ActionMachine Machine Http11 HttpRequestParser Reading

namespace Http11

def methodByte : ByteSet := .union upper digit

/-- Inside the method, with at most `n` more bytes of it. -/
def inMethod (k : ℕ) (line rest : Machine (ℕ × Action)) (n : ℕ) : State Action :=
  [.finish (k, .done) (.seq (.seq (.leave (1, .requestMethod)
    (.seq .null (atMost n (.one methodByte)))) (.seq (.one (.range 32 32)) line)) rest)]

def afterMethod (k : ℕ) (line rest : Machine (ℕ × Action)) : State Action :=
  [.finish (k, .done) (.seq (.seq .null line) rest)]

theorem methodByte_ne {c : UInt8} (h : methodByte.has c = true) : c ≠ 32 := by
  rintro rfl
  revert h
  decide

/-- The numbered machine down to the first byte of its three forms. -/
theorem start_shape (relaxed : Bool) : ∃ (k k₁ k₂ k₃ k₄ k₅ : ℕ)
    (line rest a b c d e : Machine (ℕ × Action)), rest.outs = none ∧
    start (main relaxed) = [.finish (k, .done) (.alt
      (.seq (.seq (.leave (1, .requestMethod) (.enter (0, .mark)
        (.seq (.one methodByte) (atMost 19 (.one methodByte)))))
        (.seq (.one (.range 32 32)) line)) rest)
      (.alt (.finish (k₁, .xml) (.seq (.priorAll 2 0 (.seq (.leave (k₂, .requestPath)
          (.enter (k₃, .mark) (.seq (.one (.range 60 60)) a))) b)) c))
        (.seq (.leave (k₄, .requestPath) (.enter (k₅, .mark)
          (.seq (.one (.range 64 64)) d))) e)))] := by
  refine ⟨_,_,_,_,_,_,_,_,_,_,_,_,_,?_,rfl⟩
  rfl

/-- The socket forms begin with `<` and `@`. -/
theorem start_step (relaxed : Bool) : ∃ k line rest, rest.outs = none ∧
    ∀ c, c ≠ 60 → c ≠ 64 → (start (main relaxed)).step c =
      if methodByte.has c then (inMethod k line rest 19, [.mark]) else ([], []) := by
  obtain ⟨k,k₁,k₂,k₃,k₄,k₅,line,rest,a,b,s,d,e,hrest,hshape⟩ := start_shape relaxed
  refine ⟨k,line,rest,hrest,?_⟩
  intro c hxml hjson
  rw [hshape]
  cases hc : methodByte.has c <;>
    simp [State.step, State.moves, Machine.moves, Machine.outs, hc, hxml, hjson, ByteSet.single_has,
      Move.below, ordered, inMethod, List.eraseDups_cons]

section Method
variable {k n p : ℕ} {line rest : Machine (ℕ × Action)} {c : UInt8}

theorem inMethod_step (hc : methodByte.has c = true) :
    (inMethod k line rest (n + 1)).step c = (inMethod k line rest n, []) := by
  simp [State.step, State.moves, Machine.moves, Machine.outs, hc, methodByte_ne hc,
    ByteSet.single_has, Move.below, ordered, inMethod, atMost, opt, List.eraseDups_cons]

theorem inMethod_dead (hc : c ≠ 32) (hn : methodByte.has c = true → n = 0) :
    (inMethod k line rest n).step c = ([], []) := by
  cases n with
  | zero =>
    simp [State.step, State.moves, Machine.moves, Machine.outs, hc, ByteSet.single_has, ordered,
      inMethod, atMost]
  | succ n =>
    have hm : methodByte.has c = false := by simpa using hn
    simp [State.step, State.moves, Machine.moves, Machine.outs, hc, hm, ByteSet.single_has, ordered,
      inMethod, atMost, opt]

theorem inMethod_space (hrest : rest.outs = none) :
    (inMethod k line rest n).step 32 = (afterMethod k line rest, [.requestMethod]) := by
  have hm : methodByte.has 32 = false := by decide
  cases n <;>
    simp [State.step, State.moves, Machine.moves, Machine.outs, hm, ByteSet.single_has, Move.below,
      ordered, inMethod, afterMethod, atMost, opt, List.eraseDups_cons, hrest]

variable {σ ε : Type} {act : Action → ℕ → σ → Except ε σ} {x y : σ} {v : List UInt8}

/-- Up to the space nothing is done, and then the method is handed over. -/
theorem exec_method (hrest : rest.outs = none) {m : List UInt8}
    (hm : ∀ c ∈ m, methodByte.has c = true) (hlen : m.length ≤ n) :
    exec act breaks (inMethod k line rest n) (m ++ 32 :: v) p x =
      act .requestMethod (p + m.length) x >>=
        exec act breaks (afterMethod k line rest) v (p + m.length + 1) := by
  induction m generalizing n p with
  | nil =>
    rw [List.nil_append, exec, inMethod_space hrest]
    cases hact : act .requestMethod p x <;>
      simp [afterMethod, perform, hact, bind, Except.bind, breaks]
  | cons c m ih =>
    obtain ⟨n,rfl⟩ : ∃ n', n = n' + 1 := ⟨n - 1,by simp only [List.length_cons] at hlen; omega⟩
    rw [List.cons_append, exec, inMethod_step (hm c (by simp))]
    have hnext := ih (p := p + 1) (fun d hd => hm d (by simp [hd]))
      (by simpa using hlen)
    have hpos : p + (c :: m).length = p + 1 + m.length := by
      simp only [List.length_cons]
      omega
    rw [hpos, ← hnext]
    simp [inMethod, perform, bind, Except.bind]

/-- A run from inside the method to a final state meets the space. -/
theorem exec_method_split {q : ℕ} {t : State Action} (hrest : rest.outs = none)
    (h : exec act breaks (inMethod k line rest n) v p x = .ok (t, q, y))
    (ht : t.isFinal = true) :
    ∃ m v', v = m ++ 32 :: v' ∧ (∀ c ∈ m, methodByte.has c = true) ∧ m.length ≤ n := by
  induction v generalizing n p with
  | nil =>
    cases h
    simp [State.isFinal, inMethod, Machine.outs, hrest] at ht
  | cons c v ih =>
    by_cases hspace : c = 32
    · subst hspace
      exact ⟨[],v,rfl,by simp,by simp⟩
    · by_cases hnext : methodByte.has c = true ∧ n ≠ 0
      · obtain ⟨n,rfl⟩ : ∃ n', n = n' + 1 := ⟨n - 1,by omega⟩
        rw [exec, inMethod_step hnext.1] at h
        simp only [inMethod, perform, bind, Except.bind] at h
        obtain ⟨m,v',rfl,hm,hlen⟩ := ih h
        refine ⟨c :: m,v',rfl,?_,by simpa using hlen⟩
        intro d hd
        rcases List.mem_cons.mp hd with rfl | hd
        · exact hnext.1
        · exact hm d hd
      · have hdead : (inMethod k line rest n).step c = ([], []) :=
          inMethod_dead hspace (fun hc => by_contra fun hn => hnext ⟨hc,hn⟩)
        rw [exec, hdead] at h
        cases h
        cases ht

end Method

end Http11

namespace HttpMethod

theorem firstMatch_none {l : List (HttpMethod × List UInt8)} {m : List UInt8}
    (hmiss : ∀ e ∈ l, startsWith e.2 m = .ok false) : firstMatch l m = .ok .invalidMethod := by
  induction l with
  | nil => rfl
  | cons e l ih =>
    rw [firstMatch, bind_ok (hmiss e (by simp))]
    exact ih fun d hd => hmiss d (by simp [hd])

/-- A name without its first letter differs from every name within the shorter of both. -/
theorem table_tails : ∀ e ∈ table, ∀ d ∈ table, ¬ d.2 <+: e.2.tail ∧ ¬ e.2.tail <+: d.2 := by
  decide +kernel

theorem charsToHttpMethod_tail {e : HttpMethod × List UInt8} {m : List UInt8} (he : e ∈ table)
    (hm : e.2.tail <+: m) : charsToHttpMethod m = .ok .invalidMethod := by
  apply firstMatch_none
  intro d hd
  obtain ⟨h₁,h₂⟩ := table_tails e he d hd
  exact startsWith_of_other hm h₁ h₂

end HttpMethod

namespace HttpRequestParser
variable {w : List UInt8} {a : Action} {p : ℕ} {h h' : HttpRequestParser}

/-- No action takes an error back. -/
theorem act_error (hact : HttpRequestParser.act w a p h = .ok h') (herror : h'.error = 0) :
    h.error = 0 := by
  have htext : ∀ (start n : ℕ) (f : List UInt8 → HttpRequest),
      (text w start n >>= fun s => .ok (h.setData (f s))) = .ok h' → h'.error = h.error := by
    intro start n f hset
    cases hs : text w start n with
    | error e =>
      rw [hs] at hset
      cases hset
    | ok s =>
      rw [hs] at hset
      cases hset
      rfl
  cases a with
  | mark | startField | writeField | startValue | requestUri | startQuery | xml | json =>
    cases hact
    exact herror
  | writeValue =>
    simp only [HttpRequestParser.act, onRequestHttpField] at hact
    split at hact
    · cases hact
      exact herror
    · cases hkey : text w h.parser.fieldStart h.parser.fieldLen with
      | error e =>
        rw [hkey] at hact
        cases hact
      | ok key =>
        rw [hkey] at hact
        exact (htext _ _ _ hact).symm.trans herror
  | requestMethod =>
    simp only [HttpRequestParser.act, onRequestMethod] at hact
    split at hact
    · cases hact
    · split at hact
      · cases hact
        cases herror
      · cases hact
        exact herror
  | httpVersion =>
    simp only [HttpRequestParser.act, onRequestVersion] at hact
    split at hact
    · cases hact
      exact herror
    · cases hact
      cases herror
  | fragment => exact (htext _ _ _ hact).symm.trans herror
  | requestPath => exact (htext _ _ _ hact).symm.trans herror
  | queryString =>
    simp only [HttpRequestParser.act] at hact
    split at hact
    · cases hact
    · exact (htext _ _ _ hact).symm.trans herror
  | done =>
    simp only [HttpRequestParser.act] at hact
    split at hact <;>
    · cases hact
      exact herror

/-- A call that returns has run the machine, and the error is that of the run. -/
theorem execute_run {data : List UInt8} (hne : w ≠ []) (hcall : h.execute w = .ok (data, h')) :
    ∃ t q z, exec (HttpRequestParser.act w) breaks h.parser.cs w 0
      (h.setParser (reset h.parser)) = .ok (t, q, z) ∧ h'.error = z.error := by
  have hcs : (h.setParser (reset h.parser)).parser.cs = h.parser.cs := rfl
  have hint : isInt w.length = true := by
    by_contra hnot
    rw [isInt, decide_eq_true_eq] at hnot
    rw [execute_too_long h (by omega)] at hcall
    cases hcall
  simp only [execute, httpParserExecute, List.isEmpty_iff, hne, if_false, hint, Bool.not_true,
    Bool.false_eq_true, hcs] at hcall
  cases hrun : exec (HttpRequestParser.act w) breaks h.parser.cs w 0
      (h.setParser (reset h.parser)) with
  | error e =>
    rw [hrun] at hcall
    cases hcall
  | ok out =>
    obtain ⟨t,q,z⟩ := out
    refine ⟨t,q,z,rfl,?_⟩
    simp only [hrun, bind, Except.bind] at hcall
    generalize hy : z.setParser
      { z.parser with
        cs := if z.parser.cs = [] then [] else t
        nread := z.parser.nread + q } = y at hcall
    split at hcall
    · cases hcall
    next hinside =>
      split at hinside
      · cases hinside
        cases hcall
        rw [← hy]
        rfl
      · cases hinside

/-- A piece that begins inside the method, with no method in what is left of it. -/
theorem execute_error {k n : ℕ} {line rest : Machine (ℕ × Action)} {m v data : List UInt8}
    (hrest : rest.outs = none) (hm : ∀ c ∈ m, methodByte.has c = true) (hlen : m.length ≤ n)
    (hcs : h.parser.cs = inMethod k line rest n)
    (hmethod : HttpMethod.charsToHttpMethod (m ++ 32 :: v) = .ok .invalidMethod)
    (hcall : h.execute (m ++ 32 :: v) = .ok (data, h')) : h'.hasError = true := by
  obtain ⟨t,q,z,hrun,herror⟩ := execute_run (by simp) hcall
  rw [hcs, exec_method hrest hm hlen] at hrun
  have hact : HttpRequestParser.act (m ++ 32 :: v) .requestMethod (0 + m.length)
      (h.setParser (reset h.parser)) = .ok ((h.setParser (reset h.parser)).setError 1000) := by
    simp [HttpRequestParser.act, onRequestMethod, setParser, reset, hmethod]
  rw [hact] at hrun
  have hz : z.error ≠ 0 := by
    intro hzero
    cases exec_back (fun _ _ _ _ hact herror => act_error hact herror) hrun hzero
  simp [hasError, herror, hz]

/-- The first byte of the method. -/
theorem execute_first {k : ℕ} {line rest : Machine (ℕ × Action)} {c : UInt8} {relaxed : Bool}
    (hstep : (start (main relaxed)).step c = (inMethod k line rest 19, [.mark])) :
    ∃ h', (HttpRequestParser.new relaxed).execute [c] = .ok ([], h') ∧ h'.error = 0 ∧
      h'.parser.cs = inMethod k line rest 19 := by
  have hexec : exec (HttpRequestParser.act [c]) breaks (start (main relaxed)) [c] 0
      (HttpRequestParser.new relaxed) =
        .ok (inMethod k line rest 19, 1, HttpRequestParser.new relaxed) := by
    rw [exec, hstep]
    rfl
  refine ⟨(HttpRequestParser.new relaxed).setParser
    { (HttpRequestParser.new relaxed).parser with
      cs := inMethod k line rest 19
      nread := 1 },?_,rfl,rfl⟩
  have hreset : (HttpRequestParser.new relaxed).setParser
      (reset (HttpRequestParser.new relaxed).parser) = HttpRequestParser.new relaxed := rfl
  have hcs : (HttpRequestParser.new relaxed).parser.cs = start (main relaxed) := rfl
  have hstart : start (main relaxed) ≠ [] := List.cons_ne_nil _ _
  simp only [execute, httpParserExecute, hreset, hcs, hexec, bind, Except.bind, hstart, if_false]
  rfl

end HttpRequestParser

namespace Reading

/-- The method of a request that the reading accepts, apart from its first byte. -/
theorem readingOf_method {relaxed : Bool} {c : UInt8} {v : List UInt8} {r : Reading}
    (hxml : c ≠ 60) (hjson : c ≠ 64) (hr : readingOf relaxed (c :: v) = some r) :
    ∃ k line rest m v', rest.outs = none ∧
      (start (main relaxed)).step c = (inMethod k line rest 19, [.mark]) ∧
      v = m ++ 32 :: v' ∧ (∀ d ∈ m, methodByte.has d = true) ∧ m.length ≤ 19 ∧
      ∃ e ∈ HttpMethod.table, e.2.tail <+: m := by
  obtain ⟨t,ht,hexec⟩ := readingOf_spec hr
  obtain ⟨k,line,rest,hrest,hall⟩ := start_step relaxed
  have hstep := hall c hxml hjson
  split at hstep
  next hc =>
    have hnext : exec (Reading.act (c :: v)) breaks (inMethod k line rest 19) v 1 {} =
        .ok (t, (c :: v).length, r) := by
      rw [exec, hstep] at hexec
      exact hexec
    obtain ⟨m,v',rfl,hm,hlen⟩ := exec_method_split hrest hnext ht
    refine ⟨k,line,rest,m,v',hrest,hstep,rfl,hm,hlen,?_⟩
    rw [exec_method hrest hm hlen] at hnext
    have htoken : slice (c :: (m ++ 32 :: v')) 0 (1 + m.length) = c :: m := by
      simp [slice, Nat.add_comm 1]
    cases hfind : HttpMethod.table.find? fun e => e.2.isPrefixOf (c :: m) with
    | none =>
      simp only [Reading.act, Nat.sub_zero, htoken, methodOf, hfind] at hnext
      cases hnext
    | some e =>
      refine ⟨e,List.mem_of_find?_eq_some hfind,?_⟩
      have hname := List.find?_some hfind
      obtain ⟨u,hu⟩ := List.isPrefixOf_iff_prefix.mp hname
      cases he : e.2 with
      | nil => exact List.nil_prefix
      | cons d name =>
        rw [he] at hu
        cases hu
        exact List.prefix_append name u
  next hc =>
    rw [exec, hstep] at hexec
    cases hexec

end Reading

namespace HttpSession
variable {cfg : HttpConfig} {relaxed : Bool} {lexicalCast : List UInt8 → Option UInt64}
  {head body : List UInt8} {r : Reading} {s : HttpSession}

theorem append_space {m v w u : List UInt8} (hm : ∀ d ∈ m, methodByte.has d = true)
    (h : w ++ u = m ++ 32 :: v) (hspace : 32 ∈ w) : ∃ w', w = m ++ 32 :: w' := by
  rcases List.append_eq_append_iff.mp h with ⟨a,ha,_⟩ | ⟨a,ha,hv⟩
  · exact absurd rfl (methodByte_ne (hm 32 (by simp [ha, hspace])))
  · cases a with
    | nil =>
      rw [List.append_nil] at ha
      exact absurd rfl (methodByte_ne (hm 32 (ha ▸ hspace)))
    | cons d a =>
      cases hv
      exact ⟨a,ha⟩

theorem recvHead_error {h : HttpRequestParser} {w : List UInt8} {ws : List (List UInt8)} (fuel : ℕ)
    (hs : s.isConnected = true) (hin : s.incoming = w :: ws) (hwne : w ≠ [])
    (hw : w.length ≤ cfg.bufferSize)
    (herror : ∀ data h', h.execute w = .ok (data, h') → h'.hasError = true)
    (z : List UInt8 × HttpRequestParser) (t : HttpSession) :
    recvHead cfg (fuel + 1) [] h s ≠ .ok (some z, t) := by
  have hread : s.read (cfg.bufferSize - ([] : List UInt8).length) =
      (w, { s with incoming := ws }) := read_piece hs hin (by simpa using hw)
  have hempty : w.isEmpty = false := by simpa using hwne
  rw [recvHead]
  simp only [hread, hempty, List.nil_append, Bool.false_eq_true, if_false]
  cases hcall : h.execute w with
  | error e => simp [bind, Except.bind]
  | ok out => simp [bind, Except.bind, herror _ _ hcall]

/-- A first piece of one byte, and the rest of the method in the second one. -/
theorem recvRequest_firstByte {c : UInt8} {w : List UInt8} {ws : List (List UInt8)}
    (hreq : IsRequest relaxed lexicalCast head body r) (hs : Delivers cfg head body s)
    (hin : s.incoming = [c] :: w :: ws) (hxml : c ≠ 60) (hjson : c ≠ 64) (hspace : 32 ∈ w)
    (q : HttpRequest) (t : HttpSession) :
    recvRequest cfg relaxed lexicalCast s ≠ .ok (some q, t) := by
  obtain ⟨v,rfl⟩ : ∃ v, head = c :: v := by
    have hflat := hs.flatten_eq
    rw [hin] at hflat
    cases head with
    | nil => exact absurd (readingOf_pos hreq.reads) (by simp)
    | cons d v => exact ⟨v,by rw [(List.cons.inj hflat).1]⟩
  obtain ⟨k,line,rest,m,v',hrest,hstep,rfl,hm,hlen,e,he,htail⟩ :=
    readingOf_method hxml hjson hreq.reads
  obtain ⟨w',rfl⟩ : ∃ w', w = m ++ 32 :: w' := by
    have hflat := hs.flatten_eq
    rw [hin] at hflat
    simp only [List.flatten_cons, List.cons_append, List.cons.injEq, true_and,
      List.append_assoc] at hflat
    exact append_space hm hflat hspace
  have hmethod : HttpMethod.charsToHttpMethod (m ++ 32 :: w') = .ok .invalidMethod :=
    HttpMethod.charsToHttpMethod_tail he (htail.trans (List.prefix_append m _))
  obtain ⟨h',hcall,herror,hcs⟩ := execute_first hstep
  obtain ⟨-,hfits,-⟩ : Fits cfg.bufferSize _ ([c] :: (m ++ 32 :: w') :: ws) := hin ▸ hs.fits
  obtain ⟨fuel,hfuel⟩ : ∃ n, s.fuel = n + 2 := ⟨s.fuel - 2,by simp [fuel, hin]⟩
  have hne : h'.parser.cs ≠ [] := by simp [hcs, inMethod]
  have hnot : h'.isFinished = false := by
    simp [isFinished, hcs, State.isFinal, inMethod, Machine.outs, hrest]
  have hturn := recvHead_turn (fuel + 1) hs.connected hin (by simp)
    cfg.bufferSize_pos hcall herror hne cfg.bufferSize_pos
  have hhead : ∀ z u, recvHead cfg s.fuel [] (HttpRequestParser.new relaxed) s ≠
      .ok (some z, u) := by
    rw [hfuel, hturn, hnot]
    exact recvHead_error fuel hs.connected rfl (by simp) (hfits (by simp))
      fun _ _ => execute_error hrest hm hlen hcs hmethod
  rw [recvRequest]
  cases hrun : recvHead cfg s.fuel [] (HttpRequestParser.new relaxed) s with
  | error a => simp [bind, Except.bind]
  | ok out =>
    obtain ⟨z,u⟩ := out
    cases z with
    | none => simp [bind, Except.bind]
    | some z => exact absurd hrun (hhead z u)

theorem bodyRead_of_some {p : Prop} [Decidable p] {x q : HttpRequest} {t u : HttpSession}
    (h : (Except.ok (if p then some x else none, t) : Except Abort _) = .ok (some q, u)) : p := by
  by_contra hp
  rw [if_neg hp] at h
  cases h

/-- A request does not depend on how it is cut, as long as no cut falls inside a span: exactly then
both runs return it when its body is read to its end in both. With the first byte of the method
cut off, no request is returned. The bytes 60 and 64 begin the socket forms, and 32 ends the
method. -/
theorem segmentation_independent (hreq : IsRequest relaxed lexicalCast head body r) :
    (∀ sa sb, Delivers cfg head body sa → Delivers cfg head body sb →
      Uncut (cuts 0 sa.incoming) r → Uncut (cuts 0 sb.incoming) r →
        ((∃ q ta tb, recvRequest cfg relaxed lexicalCast sa = .ok (some q, ta) ∧
            recvRequest cfg relaxed lexicalCast sb = .ok (some q, tb)) ↔
          BodyRead head body sa ∧ BodyRead head body sb)) ∧
    ∀ s c w ws, Delivers cfg head body s → s.incoming = [c] :: w :: ws → c ≠ 60 → c ≠ 64 →
      32 ∈ w → ∀ q t, recvRequest cfg relaxed lexicalCast s ≠ .ok (some q, t) := by
  constructor
  · intro sa sb ha hb hcuta hcutb
    obtain ⟨ta,hta⟩ := recvRequest_spec hreq ha hcuta
    obtain ⟨tb,htb⟩ := recvRequest_spec hreq hb hcutb
    constructor
    · rintro ⟨q,ua,ub,hqa,hqb⟩
      exact ⟨bodyRead_of_some (hta.symm.trans hqa),bodyRead_of_some (htb.symm.trans hqb)⟩
    · rintro ⟨hreada,hreadb⟩
      rw [if_pos hreada] at hta
      rw [if_pos hreadb] at htb
      exact ⟨_,ta,tb,hta,htb⟩
  · intro s c w ws hs hin hxml hjson hspace
    exact recvRequest_firstByte hreq hs hin hxml hjson hspace

/-- A request in one piece, the same request cut between its tokens, and cut after its
first byte. -/
theorem segmentation_independent_seven :
    (∃ q ta tb, recvRequest .default false (fun v => if v = bytes "2" then some 2 else none)
        { incoming := [bytes "POST /a HTTP/1.1\r\nContent-Length: 2\r\n\r\nhi"] } =
          .ok (some q, ta) ∧
      recvRequest .default false (fun v => if v = bytes "2" then some 2 else none)
        { incoming := [bytes "POST ", bytes "/a ", bytes "HTTP/1.1\r\n",
            bytes "Content-Length: 2\r\n", bytes "\r", bytes "\nh", bytes "i"] } =
          .ok (some q, tb)) ∧
    ∀ q t, recvRequest .default false (fun v => if v = bytes "2" then some 2 else none)
        { incoming := [bytes "P", bytes "OST /a HTTP/1.1\r\nContent-Length: 2\r\n\r\nhi"] } ≠
          .ok (some q, t) := by
  have hreq : IsRequest false (fun v => if v = bytes "2" then some 2 else none)
      (bytes "POST /a HTTP/1.1\r\nContent-Length: 2\r\n\r\n") (bytes "hi")
      { mark := 34
        field := 37
        nameLen := 14
        nameAt := 32
        request :=
          { method := .post
            path := bytes "/a"
            headers := [(bytes "Content-Length", bytes "2")] }
        spans := [(0, 4), (5, 7), (8, 16), (18, 32), (18, 35), (32, 35), (34, 35)] } :=
    ⟨by decide,by decide⟩
  obtain ⟨hwhole,hfirst⟩ := segmentation_independent hreq
  constructor
  · exact (hwhole _ _ ⟨rfl,by decide,by decide,by decide⟩
      ⟨rfl,by decide,by decide,by decide⟩ (by decide) (by decide)).mpr ⟨by decide,by decide⟩
  · exact hfirst _ 80 (bytes "OST /a HTTP/1.1\r\nContent-Length: 2\r\n\r\nhi") []
      ⟨rfl,by decide,by decide,by decide⟩ rfl (by decide) (by decide)
      (by decide)

/-- With a cut inside the path, the path returned is what comes after the cut. -/
theorem segmentation_matters :
    ¬ ∀ (head body : List UInt8) (r : Reading) (sa sb : HttpSession),
      IsRequest false (fun _ => none) head body r → Delivers .default head body sa →
        Delivers .default head body sb →
          ∃ q ta tb, recvRequest .default false (fun _ => none) sa = .ok (some q, ta) ∧
            recvRequest .default false (fun _ => none) sb = .ok (some q, tb) := by
  intro hall
  have hreq : IsRequest false (fun _ => none) (bytes "GET /ab HTTP/1.1\r\n\r\n") []
      { mark := 8
        field := 18
        request := { path := bytes "/ab" }
        spans := [(0, 3), (4, 7), (8, 16)] } :=
    ⟨by decide,by decide⟩
  obtain ⟨q,ta,tb,ha,hb⟩ := hall _ [] _ { incoming := [bytes "GET /ab HTTP/1.1\r\n\r\n"] }
    { incoming := [bytes "GET /a", bytes "b HTTP/1.1\r\n\r\n"] } hreq
    ⟨rfl,by decide,by decide,by decide⟩
    ⟨rfl,by decide,by decide,by decide⟩
  have hwhole : (recvRequest .default false (fun _ => none)
      { incoming := [bytes "GET /ab HTTP/1.1\r\n\r\n"] }).map
        (fun x => x.1.map HttpRequest.path) = .ok (some (bytes "/ab")) := by
    decide
  have hpieces : (recvRequest .default false (fun _ => none)
      { incoming := [bytes "GET /a", bytes "b HTTP/1.1\r\n\r\n"] }).map
        (fun x => x.1.map HttpRequest.path) = .ok (some (bytes "b")) := by
    decide
  rw [ha] at hwhole
  rw [hb] at hpieces
  have heq := hwhole.symm.trans hpieces
  revert heq
  decide

end HttpSession

end Gudov
