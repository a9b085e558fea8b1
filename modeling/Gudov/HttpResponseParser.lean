import Gudov.HttpClientMachine
import Gudov.HttpParser
import Gudov.MachinePaths

/-!
# `HttpResponseParser`

The C structure `httpclient_parser` with the actions of its machine, the callbacks of
`http_parser.cpp` and `httpclient_parser_execute`. The numbers in a response are read with
`strtol`, which goes on until it meets something else than a digit: the buffer ends with a
0 byte. The field `status` of the C structure, which nothing reads, is left out.

A head that the parser finishes with its last byte is finished there whatever bytes are
behind it in the buffer. Only the numbers may come out differently, for these are read from
the buffer and not from a token.
-/
namespace Gudov
open ActionMachine HttpClient

/-- `HttpResponse` with its defaults. A status is kept as its number. -/
structure HttpResponse where
  status : ℤ := 200
  version : UInt8 := 0x11
  close : Bool := true
  body : List UInt8 := []
  reason : List UInt8 := []
  headers : HeaderMap := []
deriving Repr, DecidableEq

namespace HttpResponse

def setHeader (key val : List UInt8) (r : HttpResponse) : HttpResponse :=
  { r with headers := r.headers.set key val }

/-- `GetHeaderAs<uint64_t>`, given what `boost::lexical_cast` makes of a string. -/
def getHeaderAs (lexicalCast : List UInt8 → Option UInt64) (key : List UInt8) (default : UInt64)
    (r : HttpResponse) : UInt64 :=
  match r.headers.find key with
  | none => default
  | some v => (lexicalCast v).getD default

end HttpResponse

section Numbers

/-- The value of a digit or a letter. -/
def digitValue (c : UInt8) : ℕ :=
  if 48 ≤ c ∧ c ≤ 57 then c.toNat - 48
  else if 97 ≤ toLower c ∧ toLower c ≤ 122 then (toLower c).toNat - 87
  else 36

/-- The text behind `0x`, which is skipped for base 16. -/
def skipPrefix (base : ℕ) : List UInt8 → List UInt8
  | 48 :: x :: s => if base = 16 ∧ toLower x = 120 then s else 48 :: x :: s
  | s => s

/-- The digits at the front of a text. -/
def strtoul (base : ℕ) (s : List UInt8) : ℕ :=
  ((skipPrefix base s).takeWhile fun c => digitValue c < base).foldl
    (fun n c => n * base + digitValue c) 0

/-- `strtol` with the base 10 or 16. -/
def strtol (base : ℕ) (s : List UInt8) : ℤ :=
  match s.dropWhile Http11.space.has with
  | 45 :: s => max (-2 ^ 63) (-(strtoul base s : ℤ))
  | 43 :: s => min (2 ^ 63 - 1) (strtoul base s : ℤ)
  | s => min (2 ^ 63 - 1) (strtoul base s : ℤ)

/-- A `long` as an `int`. -/
def longToInt (n : ℤ) : ℤ := n.bmod (2 ^ 32)

end Numbers

/-- `httpclient_parser`. -/
structure HttpClientParser where
  cs : State Action := start HttpClient.main
  bodyStart : ℕ := 0
  contentLen : ℤ := -1
  chunked : Bool := false
  chunksDone : Bool := false
  close : Bool := false
  nread : ℕ := 0
  mark : ℕ := 0
  fieldStart : ℕ := 0
  fieldLen : ℕ := 0
deriving Repr, DecidableEq

structure HttpResponseParser where
  parser : HttpClientParser := {}
  data : HttpResponse := {}
  error : ℕ := 0
deriving Repr, DecidableEq

namespace HttpResponseParser
open HttpRequestParser (len text versionOf isInt)

def setParser (h : HttpResponseParser) (p : HttpClientParser) : HttpResponseParser :=
  { h with parser := p }

def setData (h : HttpResponseParser) (data : HttpResponse) : HttpResponseParser :=
  { h with data := data }

def setError (h : HttpResponseParser) (v : ℕ) : HttpResponseParser := { h with error := v }

section Callbacks
variable (buffer : List UInt8)

def onResponseReason (start n : ℕ) (h : HttpResponseParser) : Except Abort HttpResponseParser := do
  let s ← text buffer start n
  .ok (h.setData { h.data with reason := s })

/-- `atoi` does not look at the length of the token. -/
def onResponseStatus (start : ℕ) (h : HttpResponseParser) : Except Abort HttpResponseParser :=
  .ok (h.setData { h.data with status := longToInt (strtol 10 (buffer.drop start)) })

def onResponseVersion (start n : ℕ) (h : HttpResponseParser) : Except Abort HttpResponseParser :=
  match versionOf ((buffer.drop start).take n) with
  | some v => .ok (h.setData { h.data with version := v })
  | none => .ok (h.setError 1001)

def onResponseHttpField (field flen value vlen : ℕ) (h : HttpResponseParser) :
    Except Abort HttpResponseParser :=
  if flen = 0 then .ok h
  else do
    let key ← text buffer field flen
    let val ← text buffer value vlen
    .ok (h.setData (h.data.setHeader key val))

/-- The actions of the machine on the byte at `fpc`. The callbacks for chunks and for the
end of the head are empty. -/
def act (a : Action) (fpc : ℕ) (h : HttpResponseParser) : Except Abort HttpResponseParser :=
  let p := h.parser
  match a with
  | .mark => .ok (h.setParser { p with mark := fpc })
  | .startField => .ok (h.setParser { p with fieldStart := fpc })
  | .writeField => .ok (h.setParser { p with fieldLen := len p.fieldStart fpc })
  | .startValue => .ok (h.setParser { p with mark := fpc })
  | .writeContentLen =>
    .ok (h.setParser { p with contentLen := longToInt (strtol 10 (buffer.drop p.mark)) })
  | .writeConnectionClose => .ok (h.setParser { p with close := true })
  | .writeValue =>
    h.onResponseHttpField buffer p.fieldStart p.fieldLen p.mark (len p.mark fpc)
  | .reasonPhrase => h.onResponseReason buffer p.mark (len p.mark fpc)
  | .statusCode => h.onResponseStatus buffer p.mark
  | .httpVersion => h.onResponseVersion buffer p.mark (len p.mark fpc)
  | .chunkSize =>
    let n := longToInt (strtol 16 (buffer.drop p.mark))
    .ok (h.setParser { p with chunked := true, contentLen := n, chunksDone := decide (n ≤ 0) })
  | .transChunked => .ok (h.setParser { p with chunked := true })
  | .done => .ok (h.setParser { p with bodyStart := fpc + 1 })

end Callbacks

/-- `fbreak` in the action `done`. -/
def breaks (a : Action) : Bool := a == .done

/-- The fields set at the start of `httpclient_parser_execute`. -/
def reset (p : HttpClientParser) : HttpClientParser :=
  { p with nread := 0, mark := 0, fieldLen := 0, fieldStart := 0 }

/-- The fields set after the machine has stopped at position `p`. -/
def ended (cs : State Action) (p : ℕ) (h : HttpResponseParser) : HttpResponseParser :=
  h.setParser { h.parser with cs := cs, nread := h.parser.nread + p }

/-- The assertions at the end, and the checks after them. -/
def asserted (len : ℕ) (p : HttpClientParser) : Bool := decide (p.nread ≤ len ∧ p.bodyStart ≤ len)

def checked (len : ℕ) (p : HttpClientParser) : Bool :=
  decide (p.mark < len ∧ p.fieldLen ≤ len ∧ p.fieldStart < len)

/-- `httpclient_parser_execute` with `off` 0, over the `len` bytes in the buffer. The result
is missing where it is -1. -/
def httpclientParserExecute (buffer : List UInt8) (h : HttpResponseParser) :
    Except Abort (Option ℕ × HttpResponseParser) :=
  if !isInt buffer.length then .error (.fault .assertion)
  else do
    let (cs, p, h) ← exec (act buffer) breaks h.parser.cs buffer 0 (h.setParser (reset h.parser))
    let h := ended cs p h
    if !asserted buffer.length h.parser then .error (.fault .assertion)
    else if checked buffer.length h.parser then .ok (some h.parser.nread, h)
    else .ok (none, h)

/-- `execute` with the `memmove`: the bytes that stay in the buffer. With the offset -1 the
`memmove` reads in front of the buffer. -/
def execute (data : List UInt8) (chunk : Bool) (h : HttpResponseParser) :
    Except Abort (List UInt8 × HttpResponseParser) := do
  let (offset, h) ← (if chunk then h.setParser {} else h).httpclientParserExecute data
  match offset with
  | none => .error (.fault .outOfBounds)
  | some offset => .ok (data.drop offset, h)

/-- `httpclient_parser_is_finished`; an error is reported before. -/
def isFinished (h : HttpResponseParser) : Bool := isFirstFinal h.parser.cs

def hasError (h : HttpResponseParser) : Bool := h.error != 0 || h.parser.cs.isEmpty

def getContentLength (lexicalCast : List UInt8 → Option UInt64) (h : HttpResponseParser) : UInt64 :=
  h.data.getHeaderAs lexicalCast (bytes "content-length") 0

section Whole
variable {head : List UInt8} (rest : List UInt8) {x y y' h : HttpResponseParser} {a : Action}
  {fpc p pos n : ℕ} {w : List UInt8}

/-- The same but for the numbers. -/
def Alike (x y : HttpResponseParser) : Prop :=
  ∃ contentLen chunksDone status, x =
    { y with
      parser := { y.parser with contentLen := contentLen, chunksDone := chunksDone }
      data := { y.data with status := status } }

/-- Behind the bytes before position `p` of the head. -/
def Reached (p : ℕ) (x y : HttpResponseParser) : Prop :=
  Alike x y ∧ (y.parser.mark < p ∨ y.parser.mark = 0) ∧ y.parser.nread = 0

theorem Alike.refl (x : HttpResponseParser) : Alike x x := ⟨_,_,_,rfl⟩

section Alike
variable (hxy : Alike x y)
include hxy

theorem Alike.cs : x.parser.cs = y.parser.cs := by
  obtain ⟨cl,cd,st,rfl⟩ := hxy
  rfl

theorem Alike.isFinished : x.isFinished = y.isFinished := by
  obtain ⟨cl,cd,st,rfl⟩ := hxy
  rfl

theorem Alike.hasError : x.hasError = y.hasError := by
  obtain ⟨cl,cd,st,rfl⟩ := hxy
  rfl

theorem Alike.chunked : x.parser.chunked = y.parser.chunked := by
  obtain ⟨cl,cd,st,rfl⟩ := hxy
  rfl

theorem Alike.getContentLength (lexicalCast : List UInt8 → Option UInt64) :
    x.getContentLength lexicalCast = y.getContentLength lexicalCast := by
  obtain ⟨cl,cd,st,rfl⟩ := hxy
  rfl

end Alike

theorem text_append (h : text head pos n = .ok w) : text (head ++ rest) pos n = .ok w := by
  unfold text at h ⊢
  split at h
  next => cases h
  next hsize =>
    split at h
    next => cases h
    next hfits =>
      have hdrop : pos ≤ head.length := by omega
      have htake : n ≤ (head.drop pos).length := by
        rw [List.length_drop]
        omega
      rw [if_neg hsize, if_neg (by rw [List.length_append]; omega),
        List.drop_append_of_le_length hdrop, List.take_append_of_le_length htake]
      exact h

theorem len_eq (h : pos ≤ fpc) : len pos fpc = fpc - pos := if_pos h

/-- The token of the version lies in the head. -/
theorem token_append (hpos : pos ≤ fpc) (hfpc : fpc < head.length) :
    ((head ++ rest).drop pos).take (len pos fpc) = (head.drop pos).take (len pos fpc) := by
  rw [len_eq hpos, List.drop_append_of_le_length (by omega), List.take_append_of_le_length]
  rw [List.length_drop]
  omega

theorem onResponseHttpField_append {field flen value vlen : ℕ} (hxy : Alike x y)
    (hy : y.onResponseHttpField head field flen value vlen = .ok y') :
    ∃ x', x.onResponseHttpField (head ++ rest) field flen value vlen = .ok x' ∧ Alike x' y' ∧
      y'.parser = y.parser := by
  unfold onResponseHttpField at hy ⊢
  obtain ⟨cl,cd,st,rfl⟩ := hxy
  split at hy
  next hzero =>
    cases hy
    rw [if_pos hzero]
    exact ⟨_,rfl,⟨cl,cd,st,rfl⟩,rfl⟩
  next hpos =>
    obtain ⟨key,hkey,hy⟩ := exists_of_bind_eq_ok hy
    obtain ⟨val,hval,hy⟩ := exists_of_bind_eq_ok hy
    cases hy
    rw [if_neg hpos, text_append rest hkey, ok_bind, text_append rest hval, ok_bind]
    exact ⟨_,rfl,⟨cl,cd,st,rfl⟩,rfl⟩

theorem onResponseReason_append (hxy : Alike x y)
    (hy : y.onResponseReason head pos n = .ok y') :
    ∃ x', x.onResponseReason (head ++ rest) pos n = .ok x' ∧ Alike x' y' ∧
      y'.parser = y.parser := by
  unfold onResponseReason at hy ⊢
  obtain ⟨cl,cd,st,rfl⟩ := hxy
  obtain ⟨s,hs,hy⟩ := exists_of_bind_eq_ok hy
  cases hy
  rw [text_append rest hs, ok_bind]
  exact ⟨_,rfl,⟨cl,cd,st,rfl⟩,rfl⟩

theorem onResponseVersion_append (hxy : Alike x y)
    (htoken : ((head ++ rest).drop pos).take n = (head.drop pos).take n)
    (hy : y.onResponseVersion head pos n = .ok y') :
    ∃ x', x.onResponseVersion (head ++ rest) pos n = .ok x' ∧ Alike x' y' ∧
      y'.parser = y.parser := by
  unfold onResponseVersion at hy ⊢
  obtain ⟨cl,cd,st,rfl⟩ := hxy
  rw [htoken]
  cases hv : versionOf ((head.drop pos).take n) <;> rw [hv] at hy <;> cases hy
  · exact ⟨_,rfl,⟨cl,cd,st,rfl⟩,rfl⟩
  · exact ⟨_,rfl,⟨cl,cd,st,rfl⟩,rfl⟩

/-- An action does the same with more bytes in the buffer. -/
theorem act_append (hfpc : fpc < head.length) (hxy : Reached (fpc + 1) x y)
    (hy : act head a fpc y = .ok y') :
    ∃ x', act (head ++ rest) a fpc x = .ok x' ∧ Reached (fpc + 1) x' y' := by
  obtain ⟨halike,hmark,hnread⟩ := hxy
  have hle : y.parser.mark ≤ fpc := by omega
  have hparser : x.parser.fieldStart = y.parser.fieldStart ∧
      x.parser.fieldLen = y.parser.fieldLen ∧ x.parser.mark = y.parser.mark := by
    obtain ⟨cl,cd,st,rfl⟩ := halike
    exact ⟨rfl,rfl,rfl⟩
  -- The callbacks leave the positions as they are.
  have hkept : ∀ {z : Except Abort HttpResponseParser},
      (∃ x', z = .ok x' ∧ Alike x' y' ∧ y'.parser = y.parser) →
        ∃ x', z = .ok x' ∧ Reached (fpc + 1) x' y' := by
    rintro z ⟨x',hz,halike',hsame⟩
    rw [← hsame] at hmark hnread
    exact ⟨x',hz,halike',hmark,hnread⟩
  simp only [act, hparser.1, hparser.2.1, hparser.2.2] at hy ⊢
  cases a with
  | writeValue => exact hkept (onResponseHttpField_append rest halike hy)
  | reasonPhrase => exact hkept (onResponseReason_append rest halike hy)
  | httpVersion =>
    exact hkept (onResponseVersion_append rest halike (token_append rest hle hfpc) hy)
  | statusCode =>
    cases hy
    obtain ⟨cl,cd,st,rfl⟩ := halike
    exact ⟨_,rfl,⟨cl,cd,_,rfl⟩,hmark,hnread⟩
  | mark =>
    cases hy
    obtain ⟨cl,cd,st,rfl⟩ := halike
    exact ⟨_,rfl,⟨cl,cd,st,rfl⟩,.inl (Nat.lt_succ_self fpc),hnread⟩
  | startValue =>
    cases hy
    obtain ⟨cl,cd,st,rfl⟩ := halike
    exact ⟨_,rfl,⟨cl,cd,st,rfl⟩,.inl (Nat.lt_succ_self fpc),hnread⟩
  | _ =>
    cases hy
    obtain ⟨cl,cd,st,rfl⟩ := halike
    exact ⟨_,rfl,⟨_,_,st,rfl⟩,hmark,hnread⟩

theorem start_finishedBy : (start HttpClient.main).FinishedBy .done := by
  intro m hm
  exact ⟨_,_,List.mem_singleton.mp hm⟩

/-- A call with a parser at its start. -/
theorem execute_eq (y : HttpResponseParser) {data : List UInt8} {cs : State Action}
    (hlen : data.length < 2 ^ 31)
    (hexec : exec (act data) breaks (start HttpClient.main) data 0 (y.setParser {}) =
      .ok (cs, p, x))
    (hasserted : asserted data.length (ended cs p x).parser = true)
    (hchecked : checked data.length (ended cs p x).parser = true) :
    execute data false (y.setParser {}) =
      .ok (data.drop (ended cs p x).parser.nread, ended cs p x) := by
  have hint : isInt data.length = true := decide_eq_true hlen
  have hstart : exec (act data) breaks (y.setParser {}).parser.cs data 0
      ((y.setParser {}).setParser (reset (y.setParser {}).parser)) = .ok (cs, p, x) := hexec
  simp only [execute, httpclientParserExecute, hint, Bool.not_true, Bool.false_eq_true, if_false]
  rw [hstart, ok_bind]
  simp only [hasserted, hchecked, Bool.not_true, Bool.false_eq_true, if_false, if_true, ok_bind]

theorem execute_call {y : HttpResponseParser} {data left : List UInt8}
    (hrun : execute data false y = .ok (left, h)) :
    ∃ cs p z, exec (act data) breaks y.parser.cs data 0 (y.setParser (reset y.parser)) =
        .ok (cs, p, z) ∧
      h = ended cs p z ∧ asserted data.length h.parser = true ∧
      checked data.length h.parser = true ∧ left = data.drop h.parser.nread := by
  unfold execute at hrun
  obtain ⟨⟨offset,h'⟩,hexecute,hrun⟩ := exists_of_bind_eq_ok hrun
  unfold httpclientParserExecute at hexecute
  simp only [Bool.false_eq_true, if_false] at hexecute
  split at hexecute
  next => cases hexecute
  next =>
    obtain ⟨⟨cs,p,z⟩,hexec,hexecute⟩ := exists_of_bind_eq_ok hexecute
    simp only [Bool.not_eq_true'] at hexecute
    split at hexecute
    next => cases hexecute
    next hasserted =>
      split at hexecute
      next hchecked =>
        cases hexecute
        cases hrun
        exact ⟨cs,p,z,hexec,rfl,by simpa using hasserted,hchecked,rfl⟩
      next =>
        cases hexecute
        cases hrun

theorem execute_spec (y : HttpResponseParser) {data left : List UInt8}
    (hrun : execute data false (y.setParser {}) = .ok (left, h)) :
    ∃ cs p z, exec (act data) breaks (start HttpClient.main) data 0 (y.setParser {}) =
        .ok (cs, p, z) ∧
      h = ended cs p z ∧ asserted data.length h.parser = true ∧
      checked data.length h.parser = true ∧ left = data.drop h.parser.nread :=
  execute_call hrun

theorem execute_pos {data left : List UInt8} (hrun : execute data false {} = .ok (left, h)) :
    0 < data.length := by
  obtain ⟨_,_,_,_,_,_,hchecked,_⟩ := execute_spec {} hrun
  exact Nat.zero_lt_of_lt (of_decide_eq_true hchecked).1

/-- No action counts the bytes. -/
theorem act_nread (hy : act head a fpc y = .ok y') : y'.parser.nread = y.parser.nread := by
  cases a with
  | writeValue =>
    simp only [act, onResponseHttpField] at hy
    split at hy
    next =>
      cases hy
      rfl
    next =>
      obtain ⟨key,_,hy⟩ := exists_of_bind_eq_ok hy
      obtain ⟨val,_,hy⟩ := exists_of_bind_eq_ok hy
      cases hy
      rfl
  | reasonPhrase =>
    obtain ⟨s,_,hy⟩ := exists_of_bind_eq_ok hy
    cases hy
    rfl
  | httpVersion =>
    simp only [act, onResponseVersion] at hy
    split at hy <;> cases hy <;> rfl
  | _ =>
    cases hy
    rfl

/-- No action takes back that the response is chunked. -/
theorem act_chunked (hy : act head a fpc y = .ok y') (hc : y.parser.chunked = true) :
    y'.parser.chunked = true := by
  cases a with
  | writeValue =>
    simp only [act, onResponseHttpField] at hy
    split at hy
    next =>
      cases hy
      exact hc
    next =>
      obtain ⟨key,_,hy⟩ := exists_of_bind_eq_ok hy
      obtain ⟨val,_,hy⟩ := exists_of_bind_eq_ok hy
      cases hy
      exact hc
  | reasonPhrase =>
    obtain ⟨s,_,hy⟩ := exists_of_bind_eq_ok hy
    cases hy
    exact hc
  | httpVersion =>
    simp only [act, onResponseVersion] at hy
    split at hy <;> cases hy <;> exact hc
  | chunkSize =>
    cases hy
    rfl
  | transChunked =>
    cases hy
    rfl
  | _ =>
    cases hy
    exact hc

section Driver
variable {data : List UInt8} {cs t : State Action} {p q : ℕ}

theorem exec_nread (hexec : exec (act data) breaks cs data p y = .ok (t, q, y'))
    (hy : y.parser.nread = 0) : y'.parser.nread = 0 := by
  have hback : ∀ a q y y', act data a q y = .ok y' → y'.parser.nread ≠ 0 → y.parser.nread ≠ 0 := by
    intro a q y y' hact hne
    rwa [act_nread hact] at hne
  by_contra hne
  exact exec_back hback hexec hne hy

theorem exec_chunked (hexec : exec (act data) breaks cs data p y = .ok (t, q, y'))
    (hy : y.parser.chunked = true) : y'.parser.chunked = true := by
  have hback : ∀ a q y y', act data a q y = .ok y' → ¬ y'.parser.chunked = true →
      ¬ y.parser.chunked = true := fun a q y y' hact hnot hc => hnot (act_chunked hact hc)
  by_contra hnot
  exact exec_back hback hexec hnot hy

end Driver

/-- A call without an error has passed some bytes, and its state is the one that they lead to. -/
theorem execute_passed {data left : List UInt8} (hrun : execute data false y = .ok (left, h))
    (hopen : h.hasError = false) :
    ∃ u, data = u ++ left ∧ u ≠ [] ∧ h.parser.cs = y.parser.cs.run u ∧
      (y.parser.chunked = true → h.parser.chunked = true) := by
  obtain ⟨cs,p,z,hexec,rfl,_,hchecked,rfl⟩ := execute_call hrun
  have hne : data ≠ [] :=
    List.length_pos_iff.mp (Nat.zero_lt_of_lt (of_decide_eq_true hchecked).1)
  have halive : cs ≠ [] := by
    rintro rfl
    rw [hasError] at hopen
    cases (Bool.or_eq_false_iff.mp hopen).2
  have hnread : z.parser.nread = 0 := exec_nread hexec rfl
  obtain ⟨u,v,hdata,hp,hcs,hu⟩ := (exec_passed hexec).resolve_left halive
  have hchunked : y.parser.chunked = true → z.parser.chunked = true :=
    fun hc => exec_chunked hexec hc
  refine ⟨u,?_,hu hne,hcs,hchunked⟩
  rw [ended, setParser, hnread, hp, Nat.zero_add, Nat.zero_add, hdata, List.drop_left]

/-- A call that leaves no byte in the buffer has passed all of them. -/
theorem execute_whole (hrun : execute head false {} = .ok ([], h)) :
    ∃ z, exec (act head) breaks (start HttpClient.main) head 0 {} =
        .ok (h.parser.cs, head.length, z) ∧
      h = ended h.parser.cs head.length z ∧ z.parser.nread = 0 ∧
      asserted head.length h.parser = true ∧ checked head.length h.parser = true := by
  obtain ⟨cs,p,z,hexec,rfl,hasserted,hchecked,hleft⟩ := execute_spec {} hrun
  have hnread : z.parser.nread = 0 := exec_nread hexec rfl
  have hp : p = head.length := by
    have hle := List.drop_eq_nil_iff.mp hleft.symm
    have hall := (of_decide_eq_true hasserted).1
    simp only [ended, setParser, hnread, Nat.zero_add] at hle hall
    omega
  subst hp
  exact ⟨z,hexec,rfl,hnread,hasserted,hchecked⟩

/-- The state behind a head is the one that its bytes lead to. -/
theorem execute_run (hrun : execute head false {} = .ok ([], h))
    (hfinal : h.parser.cs.isFinal = true) : h.parser.cs = (start HttpClient.main).run head := by
  obtain ⟨z,hexec,_⟩ := execute_whole hrun
  refine exec_run ?_ (hexec.trans (by rw [Nat.zero_add]))
  intro hnil
  rw [hnil] at hfinal
  cases hfinal

/-- A head that leads to a final state with its last byte, with other bytes behind it. -/
theorem execute_append (hrun : execute head false {} = .ok ([], h))
    (hfinal : h.parser.cs.isFinal = true) (hlen : (head ++ rest).length < 2 ^ 31) :
    ∃ h', execute (head ++ rest) false {} = .ok (rest, h') ∧ Alike h' h := by
  obtain ⟨z,hexec,hended,hnread,hasserted,hchecked⟩ := execute_whole hrun
  generalize h.parser.cs = cs at hexec hended hfinal
  subst hended
  simp only [asserted, checked, decide_eq_true_eq] at hasserted hchecked
  have hact : ∀ a q x y y', q < head.length → Reached (q + 1) x y → act head a (0 + q) y = .ok y' →
      True → ∃ x', act (head ++ rest) a q x = .ok x' ∧ Reached (q + 1) x' y' := by
    intro a q x y y' hq hR hy _
    rw [Nat.zero_add] at hy
    exact act_append rest hq hR hy
  have hmono : ∀ q x y, Reached q x y → Reached (q + 1) x y :=
    fun q x y hR => ⟨hR.1,hR.2.1.imp_left Nat.lt_succ_of_lt,hR.2.2⟩
  obtain ⟨x,hx,halike,_,_⟩ := exec_simulates hact (fun _ _ _ _ _ _ => trivial) hmono
    (Nat.zero_add head.length).le ⟨Alike.refl {},.inr rfl,rfl⟩
    (hexec.trans (by rw [Nat.zero_add])) trivial
  have hne : head ≠ [] := List.length_pos_iff.mp (execute_pos hrun)
  have hwhole := exec_append_final rest start_finishedBy rfl hne
    (hx.trans (by rw [Nat.zero_add])) hfinal
  rw [Nat.zero_add] at hwhole
  have hmore : head.length ≤ (head ++ rest).length := by simp
  obtain ⟨cl,cd,st,rfl⟩ := halike
  refine ⟨_,?_,cl,cd,st,rfl⟩
  refine (execute_eq {} hlen hwhole ?_ ?_).trans ?_
  · exact decide_eq_true ⟨hasserted.1.trans hmore,hasserted.2.trans hmore⟩
  · exact decide_eq_true
      ⟨hchecked.1.trans_le hmore,hchecked.2.1.trans hmore,hchecked.2.2.trans_le hmore⟩
  · have hdrop : (head ++ rest).drop (z.parser.nread + head.length) = rest := by
      rw [hnread, Nat.zero_add]
      exact List.drop_left
    exact congrArg (fun w => Except.ok (w, _)) hdrop

end Whole

end HttpResponseParser

end Gudov
