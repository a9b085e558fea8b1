import Gudov.ChunkLoops
import Gudov.HttpClientHeads

/-!
# Bodies of a declared length

`RecvResponse` stops reading the head when `httpclient_parser_is_finished` says so, which knows one
final state of several. A head that ends in a `Connection`, `Content-Length` or
`Transfer-Encoding` line without a value is complete by the grammar but leads to another one: the
bytes of the body are then parsed as if they belonged to the head. With every other head the body
is what follows the head, whatever the reads return.
-/
namespace Gudov.HttpClient
open ActionMachine HttpResponseParser

namespace HttpConnection
variable {results : StreamResults} {stream : ℕ → UInt8} {cfg : HttpConfig} {fuel : ℕ}
  {head data left : List UInt8} {parser h h' : HttpResponseParser} {c c' : HttpConnection}

/-- The head of a response that is not chunked, complete by the grammar, with the length that it
declares. -/
structure Declares (lexicalCast : List UInt8 → Option UInt64) (head : List UInt8) (length : ℕ)
    (h : HttpResponseParser) : Prop where
  whole : execute head false {} = .ok ([], h)
  complete : h.parser.cs.isFinal = true
  noError : h.hasError = false
  notChunked : h.parser.chunked = false
  declared : (h.getContentLength lexicalCast).toNat = length

/-- The code stops behind a complete head unless this one ends in a line of a rule without a
value. -/
theorem isFinished_iff (hwhole : execute head false {} = .ok ([], h))
    (hfinal : h.parser.cs.isFinal = true) : h.isFinished = true ↔ endsValueless head = false := by
  have hrun := execute_run hwhole hfinal
  rw [isFinished, hrun]
  rw [hrun] at hfinal
  exact isFirstFinal_run hfinal

/-- The loop for the head is not left at the end of a head that comes with the first read and ends
in a line of a rule without a value, but goes on with the bytes behind it. -/
theorem recvHead_valueless {r : ℕ} (hwhole : execute head false {} = .ok ([], h))
    (hfinal : h.parser.cs.isFinal = true) (hvalueless : endsValueless head = true)
    (hr : (results.result c.calls cfg.bufferSize).toNat = r) (hfirst : head.length ≤ r)
    (hstream : Carries stream c.received head)
    (hrun : recvHead results stream cfg false fuel [] {} c = .ok (some (left, h'), c')) :
    ∃ n, Passed stream (c.received + head.length) n h h' left c' := by
  obtain ⟨f,r',d₁,h₁,_,hr',_,hexecute,_,hend⟩ := recvHead_some hrun
  obtain rfl : r' = r := hr'.trans hr
  have hle := results.result_le c.calls cfg.bufferSize
  have hsize := cfg.bufferSize_lt
  have hpiece : streamFrom stream c.received r' =
      head ++ streamFrom stream (c.received + head.length) (r' - head.length) := by
    obtain ⟨k,rfl⟩ : ∃ k, r' = head.length + k := ⟨r' - head.length,by omega⟩
    rw [streamFrom_add, hstream, Nat.add_sub_cancel_left]
  have hlen : (head ++ streamFrom stream (c.received + head.length) (r' - head.length)).length <
      2 ^ 31 := by
    rw [← hpiece, length_streamFrom]
    omega
  obtain ⟨h₂,hexecute',halike⟩ := execute_append _ hwhole hfinal hlen
  rw [List.nil_append, hpiece, hexecute'] at hexecute
  cases hexecute
  have hopen : h₁.isFinished = false := by
    rw [halike.isFinished, ← Bool.not_eq_true, isFinished_iff hwhole hfinal, hvalueless]
    decide
  rcases hend with ⟨hfinished,_⟩ | ⟨_,hmore⟩
  · rw [hopen] at hfinished
    cases hfinished
  · obtain ⟨n,hn⟩ := recvHead_passed (q := c.received + head.length)
      (by rw [Carries, length_streamFrom]) (by rw [length_streamFrom]; dsimp only; omega) hmore
    exact ⟨n,hn.pos,by rw [hn.run, halike.cs],hn.rest,hn.received,hn.finished,
      fun hc => hn.chunked (halike.chunked.trans hc)⟩

/-- With 0 bytes behind such a head it is not left at all. -/
theorem not_recvHead_valueless {r : ℕ} (hwhole : execute head false {} = .ok ([], h))
    (hfinal : h.parser.cs.isFinal = true) (hvalueless : endsValueless head = true)
    (hr : (results.result c.calls cfg.bufferSize).toNat = r) (hfirst : head.length ≤ r)
    (hstream : Carries stream c.received head)
    (hzeros : ∀ i, stream (c.received + head.length + i) = 0) :
    recvHead results stream cfg false fuel [] {} c ≠ .ok (some (left, h'), c') := by
  intro hrun
  obtain ⟨n,hn⟩ := recvHead_valueless hwhole hfinal hvalueless hr hfirst hstream hrun
  have hhead := execute_run hwhole hfinal
  have hcs : h'.parser.cs = [] := by
    obtain ⟨m,rfl⟩ : ∃ m, n = 1 + m := ⟨n - 1,by have := hn.pos; omega⟩
    have hzero : streamFrom stream (c.received + head.length) 1 = [0] := by
      simp [streamFrom, hzeros]
    rw [hn.run, hhead, ← State.run_append, streamFrom_add, hzero]
    rw [hhead] at hfinal
    exact State.run_dead (final_step_zero hfinal)
  have hfinished := hn.finished
  rw [HttpResponseParser.isFinished, hcs] at hfinished
  cases hfinished

theorem recvResponse_head {lexicalCast : List UInt8 → Option UInt64} {rsp : HttpResponse}
    (hrun : recvResponse results stream cfg lexicalCast fuel c = .ok (some rsp, c')) :
    ∃ left h c₁, recvHead results stream cfg false fuel [] {} c = .ok (some (left, h), c₁) := by
  obtain ⟨⟨taken,c₁⟩,hhead,hrest⟩ := exists_of_bind_eq_ok hrun
  cases taken with
  | none => cases hrest
  | some taken => exact ⟨taken.1,taken.2,c₁,hhead⟩

/-- The body of a response whose head comes with one read is what follows the head in the
stream, whatever the reads return as long as bytes of it are missing. -/
theorem recvResponse_body (results : StreamResults) (stream : ℕ → UInt8) (cfg : HttpConfig)
    (lexicalCast : List UInt8 → Option UInt64) (c : HttpConnection) (head : List UInt8)
    (length r : ℕ) (h : HttpResponseParser) (hhead : Declares lexicalCast head length h)
    (hfinished : h.isFinished = true)
    (hpos : 0 < length) (hlen : length < 2 ^ 31) (hopen : c.isConnected = true)
    (hstream : streamFrom stream c.received head.length = head)
    (hr : (results.result c.calls cfg.bufferSize).toNat = r) (hfirst : head.length ≤ r)
    (hreads : Arrives (results.after (c.calls + 1)) cfg.maxLen (length - (r - head.length))) :
    ∃ fuel rsp t, recvResponse results stream cfg lexicalCast fuel c = .ok (some rsp, t) ∧
      rsp.body = streamFrom stream (c.received + head.length) length := by
  have hleft := length_streamFrom stream (c.received + head.length) (r - head.length)
  rw [← hleft] at hreads
  obtain ⟨fuel,t,hfuel,hbody⟩ :=
    recvBody_spec stream (c := ⟨c.calls + 1,c.received + r,true⟩) hlen hreads
  obtain ⟨h',hrecv,halike⟩ := recvHead_spec hhead.whole hfinished hhead.noError hopen hstream hr
    hfirst hfuel
  have hreceived : c.received + r = c.received + head.length + (r - head.length) := by omega
  simp only [hreceived] at hbody hrecv
  rw [following_streamFrom] at hbody
  have hdeclared : (h'.getContentLength lexicalCast).toNat = length := by
    rw [halike.getContentLength]
    exact hhead.declared
  refine ⟨fuel,{ h'.data with body := streamFrom stream (c.received + head.length) length },t,?_,
    rfl⟩
  unfold recvResponse
  rw [hrecv, ok_bind]
  simp only [halike.chunked, hhead.notChunked, hdeclared, Bool.false_eq_true, if_false]
  rw [if_pos ⟨hpos,by omega⟩, hbody]
  rfl

theorem carries_getD (q : ℕ) (w : List UInt8) : Carries (fun i => w.getD (i - q) 0) q w := by
  refine List.ext_getElem (length_streamFrom _ q w.length) ?_
  intro i _ hi
  simp [streamFrom, hi]

/-- The head with 0 bytes behind it. -/
theorem headed_zeros (q : ℕ) (head : List UInt8) :
    Carries (fun i => head.getD (i - q) 0) q head ∧
      ∀ i, (fun i => head.getD (i - q) 0) (q + head.length + i) = 0 := by
  refine ⟨carries_getD q head,fun i => ?_⟩
  have hbeyond : head.length ≤ q + head.length + i - q := by omega
  simp [List.getD_eq_getElem?_getD, List.getElem?_eq_none hbeyond]

/-- The body of a response whose head comes with one read is what follows the head in the stream,
whatever the reads return as long as bytes of it are missing: so it is for all streams exactly if
the head does not end in a line of a rule without a value. -/
theorem response_body_iff (results : StreamResults) (cfg : HttpConfig)
    (lexicalCast : List UInt8 → Option UInt64) (c : HttpConnection) (head : List UInt8)
    (length r : ℕ) (h : HttpResponseParser) (hhead : Declares lexicalCast head length h)
    (hpos : 0 < length) (hlen : length < 2 ^ 31) (hopen : c.isConnected = true)
    (hr : (results.result c.calls cfg.bufferSize).toNat = r) (hfirst : head.length ≤ r)
    (hreads : Arrives (results.after (c.calls + 1)) cfg.maxLen (length - (r - head.length))) :
    (∀ stream, streamFrom stream c.received head.length = head →
      ∃ fuel rsp t, recvResponse results stream cfg lexicalCast fuel c = .ok (some rsp, t) ∧
        rsp.body = streamFrom stream (c.received + head.length) length) ↔
      endsValueless head = false := by
  constructor
  · intro hall
    by_contra hvalueless
    rw [Bool.not_eq_false] at hvalueless
    obtain ⟨hstream,hzeros⟩ := headed_zeros c.received head
    obtain ⟨fuel,rsp,t,hrun,_⟩ := hall _ hstream
    obtain ⟨left,h',c',hrecv⟩ := recvResponse_head hrun
    exact not_recvHead_valueless hhead.whole hhead.complete hvalueless hr hfirst hstream hzeros
      hrecv
  · intro hvalue stream hstream
    exact recvResponse_body results stream cfg lexicalCast c head length r h hhead
      ((isFinished_iff hhead.whole hhead.complete).mpr hvalue) hpos hlen hopen hstream hr hfirst
      hreads

/-- A first read of 39 bytes, then one byte at a time. -/
def headFirst : StreamResults where
  result := fun k n => if k = 0 then min n 39 else min n 1
  result_le := fun k n => by split <;> omega
  result_int := fun k n => by split <;> omega

theorem headFirst_pos {k n : ℕ} (hn : 0 < n) : 0 < headFirst.result k n := by
  simp only [headFirst]
  split <;> omega

/-- What `boost::lexical_cast` makes of the length 3. -/
def castThree (v : List UInt8) : Option UInt64 := if v = bytes "3" then some 3 else none

/-- The parser's answers on a head, evaluated. -/
theorem declares_of_run (head : List UInt8) (lexicalCast : List UInt8 → Option UInt64)
    (length : ℕ) (hrun : (execute head false {}).map (fun x => (x.1, x.2.parser.cs.isFinal,
      x.2.hasError, x.2.parser.chunked, (x.2.getContentLength lexicalCast).toNat)) =
        .ok ([], true, false, false, length)) :
    ∃ h, Declares lexicalCast head length h := by
  obtain ⟨⟨left,h⟩,hexec,hvalues⟩ := exists_of_map_eq_ok hrun
  simp only [Prod.mk.injEq] at hvalues
  obtain ⟨rfl,hcomplete,hnoError,hnotChunked,hdeclared⟩ := hvalues
  exact ⟨h,hexec,hcomplete,hnoError,hnotChunked,hdeclared⟩

/-- The head of 38 bytes with one of the three bytes of the body, and then the others. -/
theorem response_body_iff_three :
    ∃ fuel rsp t, recvResponse headFirst
        (fun i => (bytes "HTTP/1.1 200 OK\r\nContent-Length: 3\r\n\r\nabcd").getD i 0)
        .default castThree fuel {} = .ok (some rsp, t) ∧ rsp.body = bytes "abc" := by
  obtain ⟨h,hhead⟩ := declares_of_run (bytes "HTTP/1.1 200 OK\r\nContent-Length: 3\r\n\r\n")
    castThree 3 (by decide +kernel)
  have hreads : Arrives (headFirst.after 1) HttpConfig.default.maxLen (3 - (39 - 38)) := by
    intro k hk
    exact headFirst_pos (Nat.lt_min.mpr ⟨Nat.sub_pos_of_lt hk,HttpConfig.default.maxLen_pos⟩)
  exact (response_body_iff headFirst .default castThree {} _ 3 39 h hhead (by decide) (by decide)
    rfl (by decide) (by decide) hreads).mpr (by decide) _ (by decide)

def valuelessResponse : List UInt8 :=
  bytes "HTTP/1.1 200 OK\r\nContent-Length: 3\r\nConnection:\r\n\r\nabc"

/-- The response comes with one read. Its head ends in an empty `Connection` line, and the loop
for the head waits for more. -/
theorem valueless_connection_lost :
    ¬ ∃ fuel rsp t, recvResponse (readsOf [54]) (fun i => valuelessResponse.getD i 0) .default
      castThree fuel {} = .ok (some rsp, t) ∧ rsp.body = bytes "abc" := by
  rintro ⟨fuel,rsp,t,hrun,_⟩
  obtain ⟨left,h',c',hhead⟩ := recvResponse_head hrun
  obtain ⟨f,r,d,h,_,rfl,_,hexecute,_,hend⟩ := recvHead_some hhead
  have hpiece : [] ++ streamFrom (fun i => valuelessResponse.getD i 0) 0
      ((readsOf [54]).result 0 HttpConfig.default.bufferSize).toNat = valuelessResponse := by
    decide +kernel
  have hopen : (execute valuelessResponse false {}).map (fun x => x.2.isFinished) = .ok false := by
    decide +kernel
  have hexecute' : execute valuelessResponse false {} = .ok (d, h) := by
    rw [← hexecute, ← hpiece]
    rfl
  rw [hexecute'] at hopen
  rcases hend with ⟨hfinished,_⟩ | ⟨_,hmore⟩
  · rw [Except.map, Except.ok.injEq, hfinished] at hopen
    cases hopen
  · -- The second read returns nothing.
    obtain ⟨_,r,_,_,_,hnone,hr,_⟩ := recvHead_some hmore
    simp [readsOf] at hnone
    omega

end HttpConnection

end Gudov.HttpClient
