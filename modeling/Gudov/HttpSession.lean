import Gudov.HttpParser

/-!
# `HttpSession::RecvRequest`

The socket delivers a list of pieces. A read takes the next of them, or as much of
it as was asked for; when no piece is left the peer has closed. The buffer of
`RecvRequest` holds the bytes that the parser has not consumed.
-/
namespace Gudov
open HttpRequestParser

/-- `http.request.buffer_size`, which is compared with an `int`, and `socket.buff_size`. -/
structure HttpConfig where
  bufferSize : ℕ
  bufferSize_pos : 0 < bufferSize
  bufferSize_lt : bufferSize < 2 ^ 31
  maxLen : ℕ
  maxLen_pos : 0 < maxLen

/-- The registered defaults. -/
def HttpConfig.default : HttpConfig where
  bufferSize := 4 * 1024
  bufferSize_pos := by decide
  bufferSize_lt := by decide
  maxLen := 1024 * 16
  maxLen_pos := by decide

structure HttpSession where
  incoming : List (List UInt8)
  outgoing : List UInt8 := []
  isConnected : Bool := true
deriving Repr, DecidableEq

namespace HttpSession

def close (s : HttpSession) : HttpSession := { s with isConnected := false }

/-- The bytes returned; none at the end of the stream. -/
def read (n : ℕ) (s : HttpSession) : List UInt8 × HttpSession :=
  match s.isConnected, s.incoming with
  | true, piece :: rest =>
    (piece.take n,
      { s with incoming := if piece.length ≤ n then rest else piece.drop n :: rest })
  | _, _ => ([], s)

def writeFixSize (data : List UInt8) (s : HttpSession) : HttpSession :=
  if s.isConnected then { s with outgoing := s.outgoing ++ data } else s

/-- `Stream::ReadFixSize`: the bytes stored, if the stream does not end before. The
fuel bounds the number of reads. -/
def readFixSize (maxLen : ℕ) : ℕ → ℕ → HttpSession →
    Except Abort (Option (List UInt8) × HttpSession)
  | _, 0, s => .ok (some [], s)
  | 0, _ + 1, _ => .error (.fault .outOfFuel)
  | fuel + 1, left + 1, s =>
    let (piece, s) := s.read (min (left + 1) maxLen)
    if piece.isEmpty then .ok (none, s)
    else do
      let (rest, s) ← readFixSize maxLen fuel (left + 1 - piece.length) s
      .ok (rest.map (piece ++ ·), s)

/-- `ReadFixSize(…) > 0` for its result, the length as an `int`. -/
def positiveInt (length : ℕ) : Bool :=
  decide (0 < length % 2 ^ 32 ∧ length % 2 ^ 32 < 2 ^ 31)

/-- The loop over the head: the parser when it has finished, and the bytes left in the
buffer. -/
def recvHead (cfg : HttpConfig) : ℕ → List UInt8 → HttpRequestParser → HttpSession →
    Except Abort (Option (List UInt8 × HttpRequestParser) × HttpSession)
  | 0, _, _, _ => .error (.fault .outOfFuel)
  | fuel + 1, data, parser, s =>
    let (piece, s) := s.read (cfg.bufferSize - data.length)
    if piece.isEmpty then .ok (none, s.close)
    else do
      let (data, parser) ← parser.execute (data ++ piece)
      if parser.hasError then .ok (none, s.close)
      else if data.length = cfg.bufferSize then .ok (none, s.close)
      else if parser.isFinished then .ok (some (data, parser), s)
      else recvHead cfg fuel data parser s

/-- The answer to `Expect: 100-continue`. -/
def expectContinue (r : HttpRequest) (s : HttpSession) : HttpRequest × HttpSession :=
  if strcasecmp (r.getHeader (bytes "Expect")) (bytes "100-continue") = .eq then
    (r.delHeader (bytes "Expect"), s.writeFixSize (bytes "HTTP/1.1 100 Continue\r\n\r\n"))
  else (r, s)

/-- The body: the bytes left in the buffer and what is read after them. `length` is the
declared length as an `int64_t`, here positive. -/
def recvBody (cfg : HttpConfig) (length : ℕ) (data : List UInt8) (s : HttpSession) :
    Except Abort (Option (List UInt8) × HttpSession) :=
  if length < data.length then .error (.fault .outOfBounds)
  else if length = data.length then .ok (some data, s)
  else do
    let left := length - data.length
    let (rest, s) ← readFixSize cfg.maxLen left left s
    if positiveInt left then .ok (rest.map (data ++ ·), s) else .ok (none, s)

/-- Enough fuel for reads that each take a byte. -/
def fuel (s : HttpSession) : ℕ := s.incoming.flatten.length + 1

def recvRequest (cfg : HttpConfig) (relaxed : Bool) (lexicalCast : List UInt8 → Option UInt64)
    (s : HttpSession) : Except Abort (Option HttpRequest × HttpSession) := do
  let (head, s) ← recvHead cfg s.fuel [] (HttpRequestParser.new relaxed) s
  match head with
  | none => .ok (none, s)
  | some (data, parser) =>
    let length := (parser.getContentLength lexicalCast).toNat
    let (r, s) := expectContinue parser.data s
    if 0 < length ∧ length < 2 ^ 63 then do
      let (body, s) ← recvBody cfg length data s
      match body with
      | none => .ok (none, s)
      | some body => .ok (some { r with body := body }.init, s)
    else .ok (some r.init, s)

end HttpSession

end Gudov
