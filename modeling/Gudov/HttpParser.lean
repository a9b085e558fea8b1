import Gudov.Http11Machine

/-!
# `HttpRequestParser`

The C structure `http_parser` with the actions of the machine, the callbacks of
`http_parser.cpp` and `http_parser_execute`. Token starts are offsets into the
buffer of the current call; `mark`, `field_start` and `field_len` are set to 0 at
the start of every call, the state `cs` and `query_start` are kept.
-/
namespace Gudov
open ActionMachine Http11

/-- Ways out of the parser other than returning: a fault, or the `std::length_error`
of a string constructor. -/
inductive Abort
  | fault (f : Fault)
  | lengthError
deriving Repr, DecidableEq

/-- `http_parser`. `query_start` is not initialised. -/
structure HttpParser where
  cs : State Action
  bodyStart : ℕ := 0
  contentLen : ℕ := 0
  nread : ℕ := 0
  mark : ℕ := 0
  fieldStart : ℕ := 0
  fieldLen : ℕ := 0
  queryStart : Option ℕ := none
  xmlSent : Bool := false
  jsonSent : Bool := false
deriving Repr, DecidableEq

structure HttpRequestParser where
  parser : HttpParser
  data : HttpRequest := {}
  error : ℕ := 0
deriving Repr, DecidableEq

namespace HttpRequestParser

def new (relaxed : Bool) : HttpRequestParser := { parser := { cs := start (Http11.main relaxed) } }

/-- `LEN`: the difference is a `size_t`. -/
def len (start fpc : ℕ) : ℕ := if start ≤ fpc then fpc - start else fpc + 2 ^ 64 - start

/-- `std::string(buffer + start, n)`. -/
def text (buffer : List UInt8) (start n : ℕ) : Except Abort (List UInt8) :=
  if 2 ^ 62 ≤ n then .error .lengthError
  else if buffer.length < start + n then .error (.fault .outOfBounds)
  else .ok ((buffer.drop start).take n)

def setData (h : HttpRequestParser) (data : HttpRequest) : HttpRequestParser :=
  { h with data := data }

def setError (h : HttpRequestParser) (v : ℕ) : HttpRequestParser := { h with error := v }

/-- The length is used for the log only. -/
def onRequestMethod (buffer : List UInt8) (start : ℕ) (h : HttpRequestParser) :
    Except Abort HttpRequestParser :=
  match HttpMethod.charsToHttpMethod (buffer.drop start) with
  | .error f => .error (.fault f)
  | .ok m =>
    if m = .invalidMethod then .ok (h.setError 1000)
    else .ok (h.setData { h.data with method := m })

def onRequestFragment (buffer : List UInt8) (start n : ℕ) (h : HttpRequestParser) :
    Except Abort HttpRequestParser := do
  let s ← text buffer start n
  .ok (h.setData { h.data with fragment := s })

def onRequestPath (buffer : List UInt8) (start n : ℕ) (h : HttpRequestParser) :
    Except Abort HttpRequestParser := do
  let s ← text buffer start n
  .ok (h.setData { h.data with path := s })

def onRequestQuery (buffer : List UInt8) (start n : ℕ) (h : HttpRequestParser) :
    Except Abort HttpRequestParser := do
  let s ← text buffer start n
  .ok (h.setData { h.data with query := s })

/-- The version of a token, if it has one. -/
def versionOf (s : List UInt8) : Option UInt8 :=
  if strncmpEq s (bytes "HTTP/1.1" ++ [0]) then some 0x11
  else if strncmpEq s (bytes "HTTP/1.0" ++ [0]) then some 0x10
  else none

def onRequestVersion (buffer : List UInt8) (start n : ℕ) (h : HttpRequestParser) :
    Except Abort HttpRequestParser :=
  match versionOf ((buffer.drop start).take n) with
  | some v => .ok (h.setData { h.data with version := v })
  | none => .ok (h.setError 1001)

def onRequestHttpField (buffer : List UInt8) (field flen value vlen : ℕ) (h : HttpRequestParser) :
    Except Abort HttpRequestParser :=
  if flen = 0 then .ok h
  else do
    let key ← text buffer field flen
    let val ← text buffer value vlen
    .ok (h.setData (h.data.setHeader key val))

/-- The fields of `http_parser` changed. -/
def setParser (h : HttpRequestParser) (p : HttpParser) : HttpRequestParser := { h with parser := p }

/-- The actions of the machine on the byte at `fpc`. `on_request_uri` and
`on_request_header_done` are empty. -/
def act (buffer : List UInt8) (a : Action) (fpc : ℕ) (h : HttpRequestParser) :
    Except Abort HttpRequestParser :=
  let p := h.parser
  match a with
  | .mark => .ok (h.setParser { p with mark := fpc })
  | .startField => .ok (h.setParser { p with fieldStart := fpc })
  | .writeField => .ok (h.setParser { p with fieldLen := len p.fieldStart fpc })
  | .startValue => .ok (h.setParser { p with mark := fpc })
  | .writeValue =>
    h.onRequestHttpField buffer p.fieldStart p.fieldLen p.mark (len p.mark fpc)
  | .requestMethod => h.onRequestMethod buffer p.mark
  | .requestUri => .ok h
  | .fragment => h.onRequestFragment buffer p.mark (len p.mark fpc)
  | .startQuery => .ok (h.setParser { p with queryStart := some fpc })
  | .queryString =>
    match p.queryStart with
    | none => .error (.fault .indeterminate)
    | some q => h.onRequestQuery buffer q (len q fpc)
  | .httpVersion => h.onRequestVersion buffer p.mark (len p.mark fpc)
  | .requestPath => h.onRequestPath buffer p.mark (len p.mark fpc)
  | .done =>
    if p.xmlSent || p.jsonSent then
      .ok (h.setParser { p with bodyStart := p.mark, contentLen := fpc - p.mark + 1 })
    else .ok (h.setParser { p with bodyStart := fpc + 1 })
  | .xml => .ok (h.setParser { p with xmlSent := true })
  | .json => .ok (h.setParser { p with jsonSent := true })

/-- `fbreak` in the action `done`. -/
def breaks (a : Action) : Bool := a == .done

/-- The fields set at the start of `http_parser_execute`. -/
def reset (p : HttpParser) : HttpParser :=
  { p with nread := 0, mark := 0, fieldLen := 0, fieldStart := 0 }

/-- The assertions at its end. -/
def inside (len : ℕ) (p : HttpParser) : Bool :=
  decide (p.nread ≤ len ∧ p.bodyStart ≤ len ∧ p.mark < len ∧ p.fieldLen ≤ len ∧
    p.fieldStart < len)

/-- `pe - p == (int)len - (int)off` with `off` 0, for the lengths that an `int` holds. -/
def isInt (len : ℕ) : Bool := decide (len < 2 ^ 31)

/-- `http_parser_execute` with `off` 0, over the `len` bytes in the buffer. -/
def httpParserExecute (buffer : List UInt8) (h : HttpRequestParser) :
    Except Abort (ℕ × HttpRequestParser) :=
  if buffer.isEmpty then .ok (0, h)
  else if !isInt buffer.length then .error (.fault .assertion)
  else do
    let h := h.setParser (reset h.parser)
    let (cs, p, h) ← exec (act buffer) breaks h.parser.cs buffer 0 h
    let h := h.setParser
      { h.parser with cs := if h.parser.cs = [] then [] else cs, nread := h.parser.nread + p }
    if inside buffer.length h.parser then .ok (h.parser.nread, h)
    else .error (.fault .assertion)

/-- `execute` with the `memmove`: the bytes that stay in the buffer. -/
def execute (data : List UInt8) (h : HttpRequestParser) :
    Except Abort (List UInt8 × HttpRequestParser) := do
  let (offset, h) ← h.httpParserExecute data
  .ok (data.drop offset, h)

theorem execute_too_long {data : List UInt8} (h : HttpRequestParser) (hlen : 2 ^ 31 ≤ data.length) :
    h.execute data = .error (.fault .assertion) := by
  have hint : isInt data.length = false := decide_eq_false (by omega)
  cases data with
  | nil => cases hint
  | cons c data =>
    simp only [execute, httpParserExecute, List.isEmpty_cons, hint, Bool.not_false, if_true,
      Bool.false_eq_true, if_false]
    rfl

/-- `http_parser_is_finished`; an error is reported before. -/
def isFinished (h : HttpRequestParser) : Bool := h.parser.cs.isFinal

def hasError (h : HttpRequestParser) : Bool := h.error != 0 || h.parser.cs.isEmpty

def getContentLength (lexicalCast : List UInt8 → Option UInt64) (h : HttpRequestParser) : UInt64 :=
  h.data.getHeaderAs lexicalCast (bytes "content-length") 0

end HttpRequestParser

end Gudov
