import Gudov.HttpStages

/-!
# Printed requests are read back

The parser undoes `Dump`: the head that is printed for a request is read as that request
with the headers that were added, and the body is left in the buffer. Both sides meet at
`HttpRequest.head`, the parts in the order in which they are printed and read. A text of
2^31 bytes or more does not pass the assertion on the length of the buffer.
-/
namespace Gudov
open ActionMachine Machine Http11 Reading

namespace HttpRequest

/-- The headers that are printed. -/
def sent (r : HttpRequest) : HeaderMap :=
  let headers := r.headers.set (bytes "connection") r.connectionValue
  if r.body.isEmpty then headers
  else headers.set (bytes "content-length") (decimal r.body.length)

/-- The request as it is read back. The parser leaves the body and `close` alone. -/
def received (r : HttpRequest) : HttpRequest :=
  { method := r.method
    version := r.version
    path := r.path
    query := r.query
    fragment := r.fragment
    headers := r.sent }

end HttpRequest

section Method
variable {relaxed : Bool} {m head : List UInt8}

theorem upper_methodByte {c : UInt8} (h : upper.has c = true) : methodByte.has c = true := by
  rw [methodByte, ByteSet.has, h, Bool.true_or]

/-- The phase after a method is the same for all of them. -/
theorem uri_state (relaxed : Bool) : ∃ k line rest, rest.outs = none ∧
    (∀ c, methodByte.has c = true → c ≠ 60 → c ≠ 64 →
      (start (main relaxed)).step c = (inMethod k line rest 19, [.mark])) ∧
    Phase.uri.state relaxed = afterMethod k line rest := by
  obtain ⟨k,line,rest,hrest,hstart⟩ := start_step relaxed
  have hfirst : ∀ c, methodByte.has c = true → c ≠ 60 → c ≠ 64 →
      (start (main relaxed)).step c = (inMethod k line rest 19, [.mark]) := by
    intro c hc hxml hjson
    rw [hstart c hxml hjson, if_pos hc]
  refine ⟨k,line,rest,hrest,hfirst,?_⟩
  have hG := hfirst 71 (by decide) (by decide) (by decide)
  simp only [Phase.state, Phase.head, State.run, List.foldl_cons, List.foldl_nil, hG]
  rw [inMethod_step (by decide), inMethod_step (by decide), inMethod_space hrest]

theorem table_names : ∀ e ∈ HttpMethod.table,
    methodOf e.2 = some e.1 ∧ e.2 ≠ [] ∧ e.2.length ≤ 20 := by
  decide +kernel

/-- The name of a method that is printed in capital letters. -/
theorem httpMethodToString_spec {x : HttpMethod}
    (h : ∀ c ∈ httpMethodToString x, upper.has c = true) :
    methodOf (httpMethodToString x) = some x ∧ httpMethodToString x ≠ [] ∧
      (httpMethodToString x).length ≤ 20 := by
  unfold httpMethodToString at h ⊢
  cases hfind : HttpMethod.table.find? fun e => e.1 = x with
  | none =>
    rw [hfind] at h
    have hbad : upper.has 60 = true := h 60 (by decide +kernel)
    exact absurd hbad (by decide)
  | some e =>
    have hx : e.1 = x := by simpa using List.find?_some hfind
    rw [← hx]
    exact table_names e (List.mem_of_find?_eq_some hfind)

variable (relaxed) in
/-- The method of a head, and the space after it. -/
theorem method_exec {x : HttpMethod} (hm : ∀ c ∈ m, upper.has c = true) (hne : m ≠ [])
    (hlen : m.length ≤ 20) (hp : m <+: head) (hx : methodOf m = some x) (v : List UInt8) :
    ∃ r', r'.request = { method := x } ∧
      exec (Reading.act head) HttpRequestParser.breaks (start (main relaxed)) (m ++ [32] ++ v) 0 {} =
        exec (Reading.act head) HttpRequestParser.breaks (Phase.uri.state relaxed) v
          (m ++ [32]).length r' := by
  obtain ⟨k,line,rest,hrest,hfirst,huri⟩ := uri_state relaxed
  have htoken := slice_token (p := 0) (by simpa using hp)
  cases m with
  | nil => exact absurd rfl hne
  | cons c m =>
    have hc := hm c (by simp)
    have hstep := hfirst c (upper_methodByte hc) (by rintro rfl; revert hc; decide)
      (by rintro rfl; revert hc; decide)
    have hbyte : exec (Reading.act head) HttpRequestParser.breaks (start (main relaxed))
        (c :: (m ++ 32 :: v)) 0 {} = exec (Reading.act head) HttpRequestParser.breaks
          (inMethod k line rest 19) (m ++ 32 :: v) 1 {} := by
      rw [exec, hstep]
      rfl
    have hlen' : (m ++ [32]).length + 1 = 1 + m.length + 1 := by
      rw [List.length_append, Nat.add_comm 1]
      rfl
    rw [List.length_cons, Nat.zero_add, Nat.add_comm] at htoken
    have hmethod : Reading.act head .requestMethod (1 + m.length) {} =
        .ok (({ request := { method := x } } : Reading).use [0] (1 + m.length)) := by
      simp only [Reading.act, htoken, hx]
    refine ⟨({ request := { method := x } } : Reading).use [0] (1 + m.length),rfl,?_⟩
    rw [huri, List.append_assoc, List.cons_append, List.singleton_append, hbyte,
      exec_method hrest (fun d hd => upper_methodByte (hm d (by simp [hd])))
        (Nat.le_of_succ_le_succ hlen), hmethod, List.cons_append, List.length_cons, hlen']
    rfl

end Method

section Lines
variable {relaxed : Bool} {r : HttpRequest}

theorem decimal_ne_nil (n : ℕ) : decimal n ≠ [] := by
  intro h
  exact Nat.toDigits_ne_nil (List.map_eq_nil_iff.mp h)

theorem digit_bounds {n : ℕ} {d : Char} (h : d ∈ Nat.toDigits 10 n) :
    48 ≤ d.toNat ∧ d.toNat ≤ 57 := by
  have hdigit := Nat.isDigit_of_mem_toDigits (by decide) (by decide) h
  simp only [Char.isDigit, Bool.and_eq_true, decide_eq_true_eq, UInt32.le_iff_toNat_le] at hdigit
  exact hdigit

theorem decimal_bounds {n : ℕ} {c : UInt8} (h : c ∈ decimal n) : 48 ≤ c.toNat ∧ c.toNat ≤ 57 := by
  obtain ⟨d,hd,rfl⟩ := List.mem_map.mp h
  have hdigit := digit_bounds hd
  have hmod : d.toNat.toUInt8.toNat = d.toNat % 256 := UInt8.toNat_ofNat'
  omega

theorem decimal_visible {n : ℕ} {c : UInt8} (h : c ∈ decimal n) : visible.has c = true := by
  have hbounds := decimal_bounds h
  simp only [visible, ByteSet.has, decide_eq_true_eq, UInt8.le_iff_toNat_le, UInt8.reduceToNat]
  omega

/-- Values without a blank. -/
theorem visible_value {v : List UInt8} (h : ∀ c ∈ v, visible.has c = true) :
    (∀ c ∈ v, printable.has c = true) ∧ v.head? ≠ some 32 := by
  constructor
  · intro c hc
    have hv := h c hc
    simp only [printable, visible, ByteSet.has, decide_eq_true_eq, UInt8.le_iff_toNat_le] at hv ⊢
    simp only [UInt8.reduceToNat] at hv ⊢
    omega
  · intro hhead
    have hv := h 32 (List.mem_of_mem_head? hhead)
    exact absurd hv (by decide)

theorem headers_read {l : HeaderMap} (hname : ∀ e ∈ l, e.1 ≠ [] ∧ ∀ c ∈ e.1, nameChar.has c = true)
    (hvalue : ∀ e ∈ l, (∀ c ∈ e.2, printable.has c = true) ∧ e.2.head? ≠ some 32) :
    Reads relaxed .line (l.flatMap (HttpRequest.fieldLine [])) .line
      fun r => { r with headers := l.foldl (fun m e => HeaderMap.set e.1 e.2 m) r.headers } := by
  induction l with
  | nil => exact Reads.nil _
  | cons e l ih =>
    obtain ⟨hne,hchars⟩ := hname e (by simp)
    obtain ⟨hprintable,hblank⟩ := hvalue e (by simp)
    have hfirst : Reads relaxed .line (HttpRequest.fieldLine [] e) .line
        (HttpRequest.setHeader e.1 e.2) :=
      field_reads (.inr rfl) hne hchars hprintable hblank (.inl rfl)
    have hrest := ih (fun d hd => hname d (by simp [hd])) fun d hd => hvalue d (by simp [hd])
    exact (hfirst.trans hrest).congr rfl fun r => rfl

/-- A line that is printed with a blank in front of its value. -/
theorem added_reads {q : Phase} {k v : List UInt8} (hq : LineStart q) (hk : k ≠ [])
    (hname : ∀ c ∈ k, nameChar.has c = true) (hne : v ≠ []) (hv : ∀ c ∈ v, visible.has c = true) :
    Reads relaxed q (HttpRequest.fieldLine [32] (k, v)) .line (HttpRequest.setHeader k v) := by
  obtain ⟨hvalue,hblank⟩ := visible_value hv
  exact field_reads hq hk hname hvalue hblank (.inr ⟨rfl,hne⟩)

theorem connection_reads (r : HttpRequest) :
    Reads relaxed .firstLine (HttpRequest.fieldLine [32] (bytes "connection", r.connectionValue))
      .line (HttpRequest.setHeader (bytes "connection") r.connectionValue) := by
  have hvalue : r.connectionValue ≠ [] ∧ ∀ c ∈ r.connectionValue, visible.has c = true := by
    unfold HttpRequest.connectionValue
    cases r.close <;> decide +kernel
  exact added_reads (.inl rfl) (by decide +kernel) (by decide +kernel) hvalue.1 hvalue.2

theorem bodyLine_reads (r : HttpRequest) :
    Reads relaxed .line r.bodyLine .line fun x =>
      if r.body.isEmpty then x
      else x.setHeader (bytes "content-length") (decimal r.body.length) := by
  unfold HttpRequest.bodyLine
  split
  next => exact Reads.nil _
  next =>
    exact added_reads (.inr rfl) (by decide +kernel) (by decide +kernel) (decimal_ne_nil _)
      fun c hc => decimal_visible hc

theorem lines_read (hr : Printable relaxed r) :
    ∃ f, f { method := r.method } = r.received ∧
      Reads relaxed .uri (r.target ++ [32] ++ HttpRequest.versionText r.version ++
        HttpRequest.fieldLine [32] (bytes "connection", r.connectionValue) ++
        r.headers.flatMap (HttpRequest.fieldLine []) ++ r.bodyLine) .line f := by
  refine ⟨_,?_,((((target_reads hr).trans (version_reads hr.version)).trans
    (connection_reads r)).trans (headers_read hr.name hr.value)).trans (bodyLine_reads r)⟩
  have hsent : r.headers.foldl (fun m e => HeaderMap.set e.1 e.2 m)
      [(bytes "connection", r.connectionValue)] =
        r.headers.set (bytes "connection") r.connectionValue :=
    HeaderMap.foldl_set hr.ordered hr.noConnection
  have hpart : ∀ w : List UInt8, (if w.isEmpty then [] else w) = w := by
    intro w
    cases w <;> rfl
  simp only [Function.comp_apply, setTarget, hpart, HttpRequest.setHeader, HeaderMap.set, hsent,
    HttpRequest.received, HttpRequest.sent]
  split <;> rfl

variable (relaxed) in
/-- The empty line ends the head. -/
theorem last_exec {head : List UInt8} {p : ℕ} (r : Reading) (hp : p + 2 = head.length) :
    ∃ t, t.isFinal = true ∧ exec (Reading.act head) HttpRequestParser.breaks
      (Phase.line.state relaxed) [13, 10] p r = .ok (t, p + 2, { r with field := p }) := by
  have hreturn : RowOn relaxed .line 13 .last [.startField] :=
    RowOn.of_mem ⟨.line,char '\r',13,.last,[.startField]⟩
      (headerRows_subset (by simp [headerRows])) rfl
  have hlead : Leads (Phase.state relaxed) (Reading.act head) HttpRequestParser.breaks .line p r
      [13] .last { r with field := p } := hreturn.leads rfl
  obtain ⟨hacts,hfinal⟩ := last_step relaxed
  refine ⟨_,hfinal,?_⟩
  have hrun : exec (Reading.act head) HttpRequestParser.breaks (Phase.line.state relaxed) [13, 10] p
      r = exec (Reading.act head) HttpRequestParser.breaks (Phase.last.state relaxed) [10] (p + 1)
        { r with field := p } := hlead [10]
  have hperform : perform (Reading.act head) HttpRequestParser.breaks (p + 1)
      ((Phase.last.state relaxed).step 10).2 { r with field := p } =
        .ok (true, { r with field := p }) := by
    rw [hacts]
    simp only [perform, Reading.act]
    rw [if_pos hp]
    rfl
  have hne : ((Phase.last.state relaxed).step 10).1 ≠ [] := by
    intro hnil
    rw [hnil] at hfinal
    cases hfinal
  rw [hrun, exec_cons_next hne hperform]
  rfl

end Lines

section RoundTrip
variable {relaxed : Bool} {r : HttpRequest}

/-- The head is read as the request. -/
theorem head_exec (hr : Printable relaxed r) : ∃ t r', t.isFinal = true ∧ r'.request = r.received ∧
    exec (Reading.act r.head) HttpRequestParser.breaks (start (main relaxed)) r.head 0 {} =
      .ok (t, r.head.length, r') := by
  obtain ⟨hmethod,hne,hlen⟩ := httpMethodToString_spec hr.method
  obtain ⟨f,hf,hlines⟩ := lines_read hr
  generalize hm : httpMethodToString r.method = m at *
  generalize hw : r.target ++ [32] ++ HttpRequest.versionText r.version ++
    HttpRequest.fieldLine [32] (bytes "connection", r.connectionValue) ++
    r.headers.flatMap (HttpRequest.fieldLine []) ++ r.bodyLine = w at *
  have hhead : r.head = m ++ [32] ++ (w ++ [13, 10]) := by
    rw [HttpRequest.head, hm, hw, List.append_assoc]
  have hdrop : r.head.drop (m ++ [32]).length = w ++ [13, 10] := by rw [hhead, List.drop_left]
  have hprefix : m <+: r.head := by
    rw [hhead, List.append_assoc]
    exact List.prefix_append m _
  obtain ⟨r₁,hreq₁,hexec₁⟩ := method_exec relaxed (hm ▸ hr.method) hne hlen hprefix
    hmethod (w ++ [13, 10])
  obtain ⟨r₂,hlead,hreq₂⟩ := hlines r.head (m ++ [32]).length r₁
    (by rw [hdrop]; exact List.prefix_append w _)
  have hend : (m ++ [32]).length + w.length + 2 = r.head.length := by
    simp only [hhead, List.length_append, List.length_cons, List.length_nil]
    omega
  obtain ⟨t,ht,hlast⟩ := last_exec relaxed r₂ hend
  refine ⟨t,{ r₂ with field := (m ++ [32]).length + w.length },ht,?_,?_⟩
  · dsimp only
    rw [hreq₂, hreq₁, hf]
  · rw [← hend, ← hlast, ← hlead [13, 10], ← hexec₁, ← hhead]

/-- The text of the request is read back, and the body is left. -/
def ReadsBack (relaxed : Bool) (lexicalCast : List UInt8 → Option UInt64) (r : HttpRequest) : Prop :=
  ∃ h, (HttpRequestParser.new relaxed).execute r.dump = .ok (r.body, h) ∧
    h.isFinished = true ∧ h.hasError = false ∧
    h.data.method = r.method ∧ h.data.path = r.path ∧ h.data.query = r.query ∧
    h.data.fragment = r.fragment ∧ h.data.version = r.version ∧ h.data.headers = r.sent ∧
    h.getContentLength lexicalCast = r.body.length.toUInt64

variable {lexicalCast : List UInt8 → Option UInt64}

/-- The length of the body among the headers. -/
theorem sent_contentLength (hcast : ∀ n < 2 ^ 64, lexicalCast (decimal n) = some n.toUInt64)
    (hr : Printable relaxed r) (hbody : r.body.length < 2 ^ 64) :
    r.received.getHeaderAs lexicalCast (bytes "content-length") 0 = r.body.length.toUInt64 := by
  cases hb : r.body with
  | nil =>
    have hlacks : HeaderMap.Lacks (bytes "content-length")
        (r.headers.set (bytes "connection") r.connectionValue) :=
      HeaderMap.lacks_set hr.noContentLength (by decide +kernel)
    have hsent : r.received.headers = r.headers.set (bytes "connection") r.connectionValue := by
      simp [HttpRequest.received, HttpRequest.sent, hb]
    rw [HttpRequest.getHeaderAs, hsent, HeaderMap.find_lacks hlacks]
    rfl
  | cons c w =>
    have hfind : r.received.headers.find (bytes "content-length") =
        some (decimal r.body.length) := by
      simp only [HttpRequest.received, HttpRequest.sent, hb, List.isEmpty_cons, Bool.false_eq_true,
        if_false]
      exact HeaderMap.find_set
    rw [HttpRequest.getHeaderAs, hfind, ← hb]
    simp only [hcast _ hbody, Option.getD_some]

/-- A printed request is read back as long as its text is shorter than 2^31 bytes. -/
theorem dump_reads_back (hcast : ∀ n < 2 ^ 64, lexicalCast (decimal n) = some n.toUInt64)
    (hr : Printable relaxed r) : ReadsBack relaxed lexicalCast r ↔ r.size < 2 ^ 31 := by
  rw [← hr.dump_length]
  constructor
  · rintro ⟨h,hcall,-⟩
    by_contra hlong
    rw [HttpRequestParser.execute_too_long _ (Nat.not_lt.mp hlong)] at hcall
    cases hcall
  · intro hsize
    obtain ⟨t,r',ht,hreq,hexec⟩ := head_exec hr
    have hne : r.head ≠ [] := by simp [HttpRequest.head]
    rw [hr.dump_eq] at hsize
    obtain ⟨h,hcall,hcs,hdata,herror⟩ := HttpSession.execute_whole hne hsize hexec ht
    rw [hreq] at hdata
    have hbody : r.body.length < 2 ^ 64 := by
      rw [List.length_append] at hsize
      omega
    have htne : t ≠ [] := by
      rintro rfl
      cases ht
    refine ⟨h,?_,?_,?_,?_⟩
    · rw [hr.dump_eq]
      exact hcall
    · rw [HttpRequestParser.isFinished, hcs]
      exact ht
    · simp [HttpRequestParser.hasError, herror, hcs, htne]
    · rw [HttpRequestParser.getContentLength, hdata, sent_contentLength hcast hr hbody]
      exact ⟨rfl,rfl,rfl,rfl,rfl,rfl,rfl⟩

/-- A number from its digits. -/
def fromDecimal (w : List UInt8) : ℕ :=
  Nat.ofDigitChars 10 (w.map fun c => Char.ofNat c.toNat) 0

theorem fromDecimal_decimal (n : ℕ) : fromDecimal (decimal n) = n := by
  have hchars : (decimal n).map (fun c => Char.ofNat c.toNat) = Nat.toDigits 10 n := by
    rw [decimal, List.map_map]
    conv_rhs => rw [← List.map_id (Nat.toDigits 10 n)]
    apply List.map_congr_left
    intro d hd
    have hdigit := digit_bounds hd
    have hmod : d.toNat.toUInt8.toNat = d.toNat := by
      rw [show d.toNat.toUInt8.toNat = d.toNat % 256 from UInt8.toNat_ofNat']
      omega
    rw [Function.comp_apply, hmod, Char.ofNat_toNat]
    rfl
  rw [fromDecimal, hchars]
  exact Nat.ofDigitChars_ten_toDigits

/-- A request with all of its parts. -/
theorem dump_reads_back_parts :
    ReadsBack false (fun w => some (fromDecimal w).toUInt64)
      { method := .post
        version := 0x10
        close := false
        path := [47, 97, 47, 37, 50, 48]
        query := [120, 61, 47, 63]
        fragment := [116]
        body := [104, 105]
        headers := [([65, 45, 49], [42, 32]), ([104], [])] } := by
  apply (dump_reads_back (fun n _ => by rw [fromDecimal_decimal]) ?_).mpr (by decide +kernel)
  exact {
    version := .inl rfl
    method := by decide +kernel
    path := ⟨_,rfl,.char (by decide) (.char (by decide) (.percent (by decide) (by decide) .nil)),
      by decide⟩
    query := .char (by decide) (.char (by decide) (.char (by decide) (.char (by decide) .nil)))
    fragment := .char (by decide) .nil
    name := by decide +kernel
    value := by decide +kernel
    ordered := by decide +kernel
    noConnection := by decide +kernel
    noContentLength := by decide +kernel }

/-- The default request with any body. -/
theorem plain_printable (relaxed : Bool) (body : List UInt8) :
    Printable relaxed { body := body } where
  version := .inr rfl
  method := by
    change ∀ c ∈ httpMethodToString .get, upper.has c = true
    decide +kernel
  path := ⟨[],rfl,.nil,by simp⟩
  query := .nil
  fragment := .nil
  name := by simp
  value := by simp
  ordered := List.Pairwise.nil
  noConnection := by simp [HeaderMap.Lacks]
  noContentLength := by simp [HeaderMap.Lacks]

/-- The text of a request with a body of 2^31 bytes is not read back. -/
theorem long_dump_not_read_back :
    ¬ ∀ (relaxed : Bool) (lexicalCast : List UInt8 → Option UInt64) (r : HttpRequest),
      (∀ n < 2 ^ 64, lexicalCast (decimal n) = some n.toUInt64) → Printable relaxed r →
        ReadsBack relaxed lexicalCast r := by
  intro hall
  obtain ⟨body,hbody⟩ : ∃ body : List UInt8, body.length = 2 ^ 31 :=
    ⟨List.replicate (2 ^ 31) 0,List.length_replicate⟩
  have hr := plain_printable false body
  obtain ⟨h,hcall,-⟩ := hall false (fun w => some (fromDecimal w).toUInt64) _
    (fun n _ => by rw [fromDecimal_decimal]) hr
  have hlong : 2 ^ 31 ≤ (HttpRequest.dump { body := body }).length := by
    rw [hr.dump_eq, List.length_append, ← hbody]
    exact Nat.le_add_left _ _
  rw [HttpRequestParser.execute_too_long _ hlong] at hcall
  cases hcall

end RoundTrip

end Gudov
