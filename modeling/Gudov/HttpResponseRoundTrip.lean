import Gudov.HttpConnection
import Gudov.HttpFraming
import Gudov.HttpResponseStages

/-!
# Printed responses are read back

`RecvResponse` undoes `SendResponse`: what is printed for a response is received as that
response with the headers that were added, whatever the reads of the body return. A reason that
is not given is printed, and then read, as the text of the status; the flag `close` of a
received response is always set, for only the header tells it.
-/
namespace Gudov
open ActionMachine HttpClient

/-- The responses that are read as they are printed; the headers are in the order of the map. -/
structure HttpResponse.Printable (r : HttpResponse) : Prop where
  version : r.version = 0x10 ∨ r.version = 0x11
  status : -2 ^ 31 ≤ r.status ∧ r.status < 2 ^ 31
  reason : ∀ c ∈ r.reason, valueByte.has c = true
  name : ∀ e ∈ r.headers, e.1 ≠ [] ∧ (∀ c ∈ e.1, token.has c = true) ∧ e.1.map toLower ∉ ruled
  value : ∀ e ∈ r.headers, (∀ c ∈ e.2, valueByte.has c = true) ∧
    ∃ c, e.2.head? = some c ∧ valueFirst.has c = true
  ordered : r.headers.Ordered

namespace HttpResponse
variable {r : HttpResponse}

/-- The reason that is printed. -/
def printedReason (r : HttpResponse) : List UInt8 :=
  if r.reason.isEmpty then httpStatusToString r.statusNumber else r.reason

/-- The headers that are printed. -/
def sent (r : HttpResponse) : HeaderMap :=
  let headers := r.headers.set (bytes "connection") r.connectionValue
  if r.body.isEmpty then headers
  else headers.set (bytes "content-length") (decimal r.body.length)

/-- The response as it is read back. -/
def received (r : HttpResponse) : HttpResponse where
  status := r.status
  version := r.version
  close := true
  body := r.body
  reason := r.printedReason
  headers := r.sent

/-- The header line about the body. -/
def bodyLine (r : HttpResponse) : List UInt8 :=
  if r.body.isEmpty then []
  else HttpRequest.fieldLine [32] (bytes "content-length", decimal r.body.length)

/-- What is printed in front of the body, in the parts that the parser reads. -/
def head (r : HttpResponse) : List UInt8 :=
  versionPart r.version ++ (decimal r.statusNumber ++ [32]) ++ (r.printedReason ++ [13, 10]) ++
    r.headers.flatMap (HttpRequest.fieldLine [32]) ++
    HttpRequest.fieldLine [32] (bytes "connection", r.connectionValue) ++ r.bodyLine ++ [13, 10]

namespace Printable

/-- No header is called like one that has a rule. -/
theorem lacks (hr : r.Printable) {w : List UInt8} (hw : w ∈ ruled) : r.headers.Lacks w := by
  intro e he heq
  obtain ⟨_,htoken,hruled⟩ := hr.name e he
  have hzero : ∀ c ∈ e.1, (c != 0) = true := by
    intro c hc
    have hc := htoken c hc
    rw [bne_iff_ne]
    rintro rfl
    exact absurd hc (by decide)
  have hwfold : ∀ w ∈ ruled, folded w = w := by decide +kernel
  have hfold : folded e.1 = e.1.map toLower := by
    rw [folded, List.takeWhile_eq_self_iff.mpr hzero]
  rw [strcasecmp_eq, hwfold w hw, hfold, Std.LawfulEqCmp.compare_eq_iff_eq] at heq
  rw [← heq] at hruled
  exact hruled hw

theorem valueByte_has {c : UInt8} (hfeed : c ≠ 10) (hreturn : c ≠ 13) : valueByte.has c = true := by
  have hany : Http11.any.has c = true := decide_eq_true ⟨UInt8.zero_le,Nat.le_of_lt_succ c.toNat_lt⟩
  rw [valueByte, ByteSet.has, ByteSet.has, hany, Http11.byte, Http11.byte, ByteSet.single_has,
    ByteSet.single_has, decide_eq_false hfeed, decide_eq_false hreturn]
  rfl

theorem printedReason_spec (hr : r.Printable) :
    r.printedReason ≠ [] ∧ ∀ c ∈ r.printedReason, valueByte.has c = true := by
  unfold printedReason
  split
  next =>
    obtain ⟨hne,hline⟩ := HttpFraming.httpStatusToString_line r.statusNumber
    exact ⟨hne,fun c hc => valueByte_has (hline c hc).1 (hline c hc).2⟩
  next hreason =>
    refine ⟨?_,hr.reason⟩
    rintro hnil
    exact hreason (by rw [hnil]; rfl)

theorem dump_eq (hr : r.Printable) : r.dump = r.head ++ r.body := by
  have hversion : bytes "HTTP/" ++ decimal (r.version >>> 4).toNat ++ bytes "." ++
      decimal (r.version &&& 0x0F).toNat ++ bytes " " = versionPart r.version := by
    rcases hr.version with hv | hv <;>
    · rw [hv]
      decide
  have hheaders : (r.headers.flatMap fun e =>
      if strcasecmp e.1 (bytes "connection") = .eq then []
      else e.1 ++ bytes ": " ++ e.2 ++ bytes "\r\n") =
        r.headers.flatMap (HttpRequest.fieldLine [32]) := by
    apply List.flatMap_congr
    intro e he
    have hne : strcasecmp e.1 (bytes "connection") ≠ .eq := fun heq =>
      hr.lacks (by decide +kernel) e he (Std.OrientedCmp.eq_symm heq)
    rw [if_neg hne, List.append_assoc, List.append_assoc]
    rfl
  have hconnection : bytes "connection: " ++ r.connectionValue ++ bytes "\r\n" =
      HttpRequest.fieldLine [32] (bytes "connection", r.connectionValue) := by
    rw [List.append_assoc]
    rfl
  have hname : bytes "content-length: " = bytes "content-length" ++ [58, 32] := by decide
  have hblank : bytes "\r\n\r\n" = [13, 10, 13, 10] := by decide
  have hend : (if r.body.isEmpty then bytes "\r\n"
      else bytes "content-length: " ++ decimal r.body.length ++ bytes "\r\n\r\n" ++ r.body) =
        r.bodyLine ++ [13, 10] ++ r.body := by
    cases hbody : r.body with
    | nil => simp [bodyLine, hbody]; rfl
    | cons c w => simp [bodyLine, hbody, HttpRequest.fieldLine, hname, hblank]
  calc r.dump
      = (bytes "HTTP/" ++ decimal (r.version >>> 4).toNat ++ bytes "." ++
          decimal (r.version &&& 0x0F).toNat ++ bytes " ") ++
        (decimal r.statusNumber ++ bytes " ") ++ (r.printedReason ++ bytes "\r\n") ++
        (r.headers.flatMap fun e =>
          if strcasecmp e.1 (bytes "connection") = .eq then []
          else e.1 ++ bytes ": " ++ e.2 ++ bytes "\r\n") ++
        (bytes "connection: " ++ r.connectionValue ++ bytes "\r\n") ++
        if r.body.isEmpty then bytes "\r\n"
        else bytes "content-length: " ++ decimal r.body.length ++ bytes "\r\n\r\n" ++ r.body := by
          unfold dump printedReason
          simp only [List.append_assoc]
    _ = versionPart r.version ++ (decimal r.statusNumber ++ [32]) ++
        (r.printedReason ++ [13, 10]) ++ r.headers.flatMap (HttpRequest.fieldLine [32]) ++
        HttpRequest.fieldLine [32] (bytes "connection", r.connectionValue) ++
        (r.bodyLine ++ [13, 10] ++ r.body) := by
          rw [hversion, hheaders, hconnection, hend]
          rfl
    _ = r.head ++ r.body := by simp [head]

end Printable

section Head
variable {m l : HeaderMap}

theorem set_first {k v : List UInt8} (h : ∀ e ∈ m, strcasecmp k e.1 = .lt) :
    HeaderMap.set k v m = (k, v) :: m := by
  cases m with
  | nil => rfl
  | cons e m => rw [HeaderMap.set, h e (by simp)]

/-- Entries set in their order, with nothing before them. -/
theorem foldl_set_nil (hl : l.Ordered) :
    l.foldl (fun m e => HeaderMap.set e.1 e.2 m) [] = l := by
  cases l with
  | nil => rfl
  | cons e l =>
    obtain ⟨hfirst,hl⟩ := List.pairwise_cons.mp hl
    have hlacks : HeaderMap.Lacks e.1 l := fun d hd => by simp [hfirst d hd]
    exact (HeaderMap.foldl_set hl hlacks).trans (set_first hfirst)

theorem statusNumber_read (hr : r.Printable) : longToInt r.statusNumber = r.status := by
  have hs := hr.status
  unfold longToInt statusNumber
  rw [Int.toNat_of_nonneg (Int.emod_nonneg _ (by decide)), Int.bmod_def]
  omega

theorem headers_read {q : HttpClient.Phase} (hq : HttpClient.LineStart q) (l : HeaderMap)
    (hname : ∀ e ∈ l, e.1 ≠ [] ∧ (∀ c ∈ e.1, token.has c = true) ∧ e.1.map toLower ∉ ruled)
    (hvalue : ∀ e ∈ l, (∀ c ∈ e.2, valueByte.has c = true) ∧
      ∃ c, e.2.head? = some c ∧ valueFirst.has c = true) :
    ∃ q', HttpClient.LineStart q' ∧ HttpClient.Reads q (l.flatMap (HttpRequest.fieldLine [32])) q'
      fun x => { x with headers := l.foldl (fun m e => HeaderMap.set e.1 e.2 m) x.headers } := by
  induction l generalizing q with
  | nil => exact ⟨q,hq,HttpClient.Reads.nil q⟩
  | cons e l ih =>
    obtain ⟨hk,htoken,hruled⟩ := hname e (by simp)
    obtain ⟨hv,hfirst⟩ := hvalue e (by simp)
    obtain ⟨q',hq',hrest⟩ := ih (.inr rfl) (fun d hd => hname d (by simp [hd]))
      fun d hd => hvalue d (by simp [hd])
    exact ⟨q',hq',(HttpClient.field_reads hq hk htoken hruled hv hfirst).trans hrest⟩

/-- The bytes in front of the empty line are read as the response without its body. -/
theorem head_reads (hr : r.Printable) : ∃ w q f, r.head = w ++ [13, 10] ∧
    (q = connectionEnd r.close ∨ q = .line) ∧ HttpClient.Reads (.version 0) w q f ∧
    f {} = { r.received with body := [] } := by
  have hn : r.statusNumber < 2 ^ 63 := by
    unfold statusNumber
    omega
  obtain ⟨hne,hreason⟩ := hr.printedReason_spec
  obtain ⟨q,hq,hheaders⟩ := headers_read (.inl rfl) r.headers hr.name hr.value
  have hline := ((((HttpClient.version_reads hr.version).trans (status_reads hn)).trans
    (reason_reads hne hreason)).trans hheaders).trans (HttpClient.connection_reads hq r.close)
  have hsent := foldl_set_nil hr.ordered
  have hstatus := statusNumber_read hr
  by_cases hbody : r.body.isEmpty = true
  · refine ⟨_,_,_,?_,.inl rfl,hline,?_⟩
    · simp only [head, bodyLine, hbody, if_true, List.append_nil]
      rfl
    · simp only [Function.comp_apply, HttpResponse.setHeader, hsent, hstatus, received, sent, hbody,
        if_true]
      rfl
  · refine ⟨_,_,_,?_,.inr rfl,hline.trans (length_reads r.close r.body.length),?_⟩
    · simp only [head, bodyLine, hbody]
      rfl
    · simp only [Function.comp_apply, HttpResponse.setHeader, hsent, hstatus, received, sent, hbody]
      rfl

theorem execute_head (hr : r.Printable) {rest : List UInt8}
    (hlen : (r.head ++ rest).length < 2 ^ 31) :
    ∃ h, HttpResponseParser.execute (r.head ++ rest) false {} = .ok (rest, h) ∧
      h.isFinished = true ∧ h.hasError = false ∧ h.parser.chunked = false ∧
      h.data = { r.received with body := [] } := by
  obtain ⟨w,q,f,hhead,hq,hreads,hf⟩ := head_reads hr
  have hsize : r.head.length = w.length + 2 := by rw [hhead, List.length_append]; rfl
  have hstart : Behind 0 {} := ⟨Nat.le_refl _,Nat.le_refl _,Nat.le_refl _,Nat.le_refl _,rfl,rfl,rfl⟩
  obtain ⟨x,hlead,hx,hdata⟩ := hreads (r.head ++ rest) 0 {} hlen
    ⟨[13, 10] ++ rest,by rw [hhead]; simp⟩ hstart
  rw [Nat.zero_add] at hx
  obtain ⟨t,y,ht,hy,hmark,hfield,hyx,hlast⟩ :=
    HttpClient.last_exec (r.head ++ rest) rest r.close hx q hq
  have hexec : exec (HttpResponseParser.act (r.head ++ rest)) HttpResponseParser.breaks
      (start HttpClient.main) (r.head ++ rest) 0 (({} : HttpResponseParser).setParser {}) =
        .ok (t, w.length + 2, y) := by
    have hrun := hlead ([13, 10] ++ rest)
    rw [Nat.zero_add, hlast, ← List.append_assoc, ← hhead] at hrun
    exact hrun
  have hmore : w.length + 2 ≤ (r.head ++ rest).length := by
    rw [List.length_append]
    omega
  have hnread : (HttpResponseParser.ended t (w.length + 2) y).parser.nread = r.head.length := by
    change y.parser.nread + (w.length + 2) = _
    rw [hy.nread, Nat.zero_add, hsize]
  have htne : t ≠ [] := by
    rintro rfl
    cases ht
  have hcall := HttpResponseParser.execute_eq {} hlen hexec
    (decide_eq_true ⟨by rw [hnread, List.length_append]; omega,hy.bodyStart_le.trans hmore⟩)
    (decide_eq_true ⟨by
      change y.parser.mark < _
      omega,hy.fieldLen_le.trans hmore,by
      change y.parser.fieldStart < _
      omega⟩)
  rw [hnread, List.drop_left] at hcall
  refine ⟨_,hcall,ht,?_,hy.chunked,?_⟩
  · simp [HttpResponseParser.hasError, HttpResponseParser.ended, HttpResponseParser.setParser,
      hy.error, htne]
  · exact hyx.trans (hdata.trans hf)

end Head

section Receive
open HttpClient.HttpConnection
variable {results : StreamResults} {stream : ℕ → UInt8} {cfg : HttpConfig}
  {lexicalCast : List UInt8 → Option UInt64} {c : HttpClient.HttpConnection} {k fuel : ℕ}

/-- The length of the body among the headers. -/
theorem received_contentLength (hcast : ∀ n < 2 ^ 64, lexicalCast (decimal n) = some n.toUInt64)
    (hr : r.Printable) (hbody : r.body.length < 2 ^ 31) :
    (r.received.getHeaderAs lexicalCast (bytes "content-length") 0).toNat = r.body.length := by
  cases hb : r.body with
  | nil =>
    have hlacks : HeaderMap.Lacks (bytes "content-length")
        (r.headers.set (bytes "connection") r.connectionValue) :=
      HeaderMap.lacks_set (hr.lacks (by decide +kernel)) (by decide +kernel)
    have hsent : r.received.headers = r.headers.set (bytes "connection") r.connectionValue := by
      simp [received, sent, hb]
    rw [getHeaderAs, hsent, HeaderMap.find_lacks hlacks]
    rfl
  | cons d w =>
    have hfind : r.received.headers.find (bytes "content-length") =
        some (decimal r.body.length) := by
      simp only [received, sent, hb, List.isEmpty_cons, Bool.false_eq_true, if_false]
      exact HeaderMap.find_set
    have hsize : r.body.length < 2 ^ 64 := by omega
    rw [getHeaderAs, hfind, ← hb]
    simp only [hcast _ hsize, Option.getD_some]
    exact UInt64.toNat_ofNat_of_lt' hsize

/-- The first read returns the head and some of what is behind it. -/
theorem recvHead_head (hr : r.Printable) (hopen : c.isConnected = true)
    (hstream : streamFrom stream c.received r.head.length = r.head)
    (hk : (results.result c.calls cfg.bufferSize).toNat = k) (hfirst : r.head.length ≤ k)
    (hfuel : 0 < fuel) : ∃ h, h.parser.chunked = false ∧ h.data = { r.received with body := [] } ∧
      recvHead results stream cfg false fuel [] {} c =
        .ok (some (streamFrom stream (c.received + r.head.length) (k - r.head.length), h),
          ⟨c.calls + 1,c.received + k,true⟩) := by
  obtain ⟨fuel,rfl⟩ : ∃ f, fuel = f + 1 := ⟨fuel - 1,by omega⟩
  have hle := results.result_le c.calls cfg.bufferSize
  have hsize := cfg.bufferSize_lt
  have hpos : 0 < r.head.length := by simp [head]
  have hpiece : streamFrom stream c.received k =
      r.head ++ streamFrom stream (c.received + r.head.length) (k - r.head.length) := by
    obtain ⟨n,rfl⟩ : ∃ n, k = r.head.length + n := ⟨k - r.head.length,by omega⟩
    rw [streamFrom_add, hstream, Nat.add_sub_cancel_left]
  have hlen : (r.head ++
      streamFrom stream (c.received + r.head.length) (k - r.head.length)).length < 2 ^ 31 := by
    rw [← hpiece, length_streamFrom]
    omega
  obtain ⟨h,hexecute,hfinished,herror,hchunked,hdata⟩ := execute_head hr hlen
  have hread : read results stream (cfg.bufferSize - ([] : List UInt8).length) c =
      (streamFrom stream c.received k, ⟨c.calls + 1,c.received + k,true⟩) := by
    simp [HttpClient.HttpConnection.read, hopen, hk, streamFrom]
  have hsome : (streamFrom stream c.received k).isEmpty = false := by
    rw [List.isEmpty_eq_false_iff, ← List.length_pos_iff, length_streamFrom]
    omega
  have hleft : ¬ (streamFrom stream (c.received + r.head.length) (k - r.head.length)).length =
      cfg.bufferSize := by
    rw [length_streamFrom]
    omega
  refine ⟨h,hchunked,hdata,?_⟩
  rw [recvHead, hread]
  simp only [hsome, Bool.false_eq_true, if_false]
  rw [List.nil_append, hpiece, hexecute, ok_bind]
  simp only [herror, hfinished, hleft, Bool.false_eq_true, if_false, if_true]

/-- A response that is printed on a stream is received from it, whatever follows, as long as
its head comes with one read and the reads of its body return something. -/
theorem response_reads_back (hcast : ∀ n < 2 ^ 64, lexicalCast (decimal n) = some n.toUInt64)
    (hr : r.Printable) (hbody : r.body.length < 2 ^ 31) (hopen : c.isConnected = true)
    (hstream : streamFrom stream c.received r.dump.length = r.dump)
    (hk : (results.result c.calls cfg.bufferSize).toNat = k) (hfirst : r.head.length ≤ k)
    (hreads : Arrives (results.after (c.calls + 1)) cfg.maxLen
      (r.body.length - (k - r.head.length))) :
    ∃ fuel t, recvResponse results stream cfg lexicalCast fuel c = .ok (some r.received, t) := by
  rw [hr.dump_eq, List.length_append, streamFrom_add] at hstream
  obtain ⟨hhead,htail⟩ := List.append_inj hstream (length_streamFrom _ _ _)
  have hlength := received_contentLength hcast hr hbody
  have hleft := length_streamFrom stream (c.received + r.head.length) (k - r.head.length)
  rw [← hleft] at hreads
  obtain ⟨fuel,t,hfuel,hrecv⟩ :=
    recvBody_spec stream (c := ⟨c.calls + 1,c.received + k,true⟩) hbody hreads
  obtain ⟨h,hchunked,hdata,hcall⟩ := recvHead_head hr hopen hhead hk hfirst hfuel
  have hreceived : c.received + k = c.received + r.head.length + (k - r.head.length) := by omega
  rw [hreceived] at hcall hrecv
  rw [following_streamFrom, htail] at hrecv
  have hdeclared : (h.getContentLength lexicalCast).toNat = r.body.length := by
    rw [HttpResponseParser.getContentLength, hdata]
    exact hlength
  refine ⟨fuel,?_⟩
  unfold recvResponse
  rw [hcall, ok_bind]
  simp only [hchunked, hdeclared, Bool.false_eq_true, if_false]
  by_cases hempty : r.body = []
  · have hsame : ({ r.received with body := [] } : HttpResponse) = r.received := by
      simp only [received, hempty]
    rw [if_neg (by simp [hempty]), hdata, hsame]
    exact ⟨_,rfl⟩
  · rw [if_pos ⟨List.length_pos_iff.mpr hempty,by omega⟩, hrecv, ok_bind, hdata]
    exact ⟨_,rfl⟩

/-- A response with all of its parts but the reason. -/
def notFound : HttpResponse where
  status := 404
  close := false
  body := bytes "hi"
  headers := [(bytes "Server", bytes "gudov 1.0")]

/-- A first read of 89 bytes, then at most two. -/
def atMost (k n : ℕ) : ℤ := if k = 0 then min n 89 else min n 2

theorem atMost_le (k n : ℕ) : atMost k n ≤ n := by
  unfold atMost
  split <;> omega

theorem atMost_int (k n : ℕ) : -2 ^ 31 ≤ atMost k n ∧ atMost k n < 2 ^ 31 := by
  unfold atMost
  split <;> omega

theorem atMost_pos {k n : ℕ} (hn : 0 < n) : 0 < atMost k n := by
  unfold atMost
  split <;> omega

def mostFirst : StreamResults where
  result := atMost
  result_le := atMost_le
  result_int := atMost_int

/-- The head of 88 bytes with the first byte of the body, and then the other one. -/
theorem response_reads_back_notFound :
    ∃ fuel t, recvResponse mostFirst (fun i => notFound.dump.getD i 0) .default
      (fun w => some (fromDecimal w).toUInt64) fuel {} = .ok (some notFound.received, t) := by
  refine response_reads_back (k := 89) (fun n _ => by rw [fromDecimal_decimal]) ?_ (by decide) rfl
    (by decide +kernel) (by decide +kernel) (by decide +kernel) ?_
  · exact {
      version := .inr rfl
      status := by decide
      reason := List.all_eq_true.mp (by decide +kernel)
      name := by
        intro e he
        cases List.mem_singleton.mp he
        exact ⟨List.cons_ne_nil _ _,List.all_eq_true.mp (by decide +kernel),by decide +kernel⟩
      value := by
        intro e he
        cases List.mem_singleton.mp he
        exact ⟨List.all_eq_true.mp (by decide +kernel),103,by decide +kernel,by decide +kernel⟩
      ordered := by decide +kernel }
  · intro n hn
    exact atMost_pos (Nat.lt_min.mpr ⟨Nat.sub_pos_of_lt hn,HttpConfig.default.maxLen_pos⟩)

end Receive

end HttpResponse

end Gudov
