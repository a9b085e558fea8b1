import Gudov.HttpBody
import Gudov.HttpResponseParser
import Gudov.HttpSession

/-!
# `HttpConnection::RecvResponse`

The bytes come from a stream whose reads return arbitrary numbers of them. The head is read
into a buffer until the parser has finished. The body of a chunked response is collected
chunk by chunk; that of any other response has the declared length, the bytes left in the
buffer are copied to its front, as many of them as belong to it, and the rest is read with
`ReadFixSize`.
-/
namespace Gudov

/-- The results of the calls from the given one on. -/
def StreamResults.after (results : StreamResults) (k : ℕ) : StreamResults where
  result := fun j n => results.result (k + j) n
  result_le := fun j n => results.result_le (k + j) n
  result_int := fun j n => results.result_int (k + j) n

namespace HttpClient
open HttpResponseParser

/-- The reads made, the bytes received by them, and whether the socket is open. -/
structure HttpConnection where
  calls : ℕ := 0
  received : ℕ := 0
  isConnected : Bool := true
deriving Repr, DecidableEq

namespace HttpConnection

def close (c : HttpConnection) : HttpConnection := { c with isConnected := false }

/-- A fault ends the function. -/
def liftFault {α : Type} : Except Fault α → Except Abort α := Except.mapError .fault

section Code
variable (results : StreamResults) (stream : ℕ → UInt8) (cfg : HttpConfig)

/-- The bytes stored; none when the result is not positive. -/
def read (n : ℕ) (c : HttpConnection) : List UInt8 × HttpConnection :=
  if c.isConnected then
    let r := (results.result c.calls n).toNat
    ((List.range r).map fun i => stream (c.received + i),
      { c with calls := c.calls + 1, received := c.received + r })
  else ([], c)

/-- The loop that reads until the parser has finished: the bytes left in the buffer, and the
parser. The head of every chunk is read by the same loop. -/
def recvHead (chunk : Bool) : ℕ → List UInt8 → HttpResponseParser → HttpConnection →
    Except Abort (Option (List UInt8 × HttpResponseParser) × HttpConnection)
  | 0, _, _, _ => .error (.fault .outOfFuel)
  | fuel + 1, data, parser, c =>
    let (piece, c) := c.read results stream (cfg.bufferSize - data.length)
    if piece.isEmpty then .ok (none, c.close)
    else do
      let (data, parser) ← parser.execute (data ++ piece) chunk
      if parser.hasError then .ok (none, c.close)
      else if data.length = cfg.bufferSize then .ok (none, c.close)
      else if parser.isFinished then .ok (some (data, parser), c)
      else recvHead chunk fuel data parser c

/-- The loop that reads the rest of a chunk. -/
def recvRest : ℕ → ℕ → List UInt8 → HttpConnection →
    Except Abort (Option (List UInt8) × HttpConnection)
  | _, 0, body, c => .ok (some body, c)
  | 0, _ + 1, _, _ => .error (.fault .outOfFuel)
  | fuel + 1, left + 1, body, c =>
    let (piece, c) := c.read results stream (min (left + 1) cfg.bufferSize)
    if piece.isEmpty then .ok (none, c.close)
    else recvRest fuel (left + 1 - piece.length) (body ++ piece) c

/-- `body.append(data, n)`; a negative length becomes a `size_t` beyond every string. -/
def append (body data : List UInt8) (n : ℤ) : Except Abort (List UInt8) :=
  if n < 0 then .error .lengthError else .ok (body ++ data.take n.toNat)

/-- One chunk: the body with it, and the bytes left in the buffer. The line end behind a
chunk is taken off at the end of the buffer. -/
def recvChunk (fuel : ℕ) (contentLen : ℤ) (data body : List UInt8) (c : HttpConnection) :
    Except Abort (Option (List UInt8 × List UInt8) × HttpConnection) := do
  let len : ℤ := data.length - 2
  if contentLen ≤ len then do
    let body ← append body data contentLen
    .ok (some (body, (data.drop contentLen.toNat).take (len - contentLen).toNat), c)
  else do
    let body ← append body data len
    let (body, c) ← recvRest results stream cfg fuel (contentLen - len).toNat body c
    .ok (body.map fun body => (body, []), c)

/-- The loop over the chunks. -/
def recvChunks : ℕ → List UInt8 → List UInt8 → HttpResponseParser → HttpConnection →
    Except Abort (Option (List UInt8 × HttpResponseParser) × HttpConnection)
  | 0, _, _, _, _ => .error (.fault .outOfFuel)
  | fuel + 1, data, body, parser, c => do
    let (head, c) ← recvHead results stream cfg true fuel data parser c
    match head with
    | none => .ok (none, c)
    | some (data, parser) =>
      let (chunk, c) ← recvChunk results stream cfg fuel parser.parser.contentLen data body c
      match chunk with
      | none => .ok (none, c)
      | some (body, data) =>
        if parser.parser.chunksDone then .ok (some (body, parser), c)
        else recvChunks fuel data body parser c

/-- The bytes of the buffer that go to the front of the body. -/
def front (length : ℕ) (data : List UInt8) : List UInt8 :=
  if data.length ≤ length then data else data.take length

/-- The body of a declared length, here positive. -/
def recvBody (fuel length : ℕ) (data : List UInt8) (c : HttpConnection) :
    Except Abort (Option (List UInt8) × HttpConnection) :=
  if 2 ^ 62 ≤ length then .error .lengthError
  else do
    let body ← liftFault (HttpBody.memcpy (List.replicate length 0) (front length data))
    let len := (front length data).length
    if data.length < length then do
      let t ← liftFault (Stream.readFixSize (results.after c.calls)
        (fun i => stream (c.received + i)) cfg.maxLen body len (length - data.length) fuel)
      let c := { c with calls := c.calls + t.calls, received := c.received + t.state.received }
      if t.value ≤ 0 then .ok (none, c.close) else .ok (some t.state.memory, c)
    else .ok (some body, c)

def recvResponse (lexicalCast : List UInt8 → Option UInt64) (fuel : ℕ) (c : HttpConnection) :
    Except Abort (Option HttpResponse × HttpConnection) := do
  let (head, c) ← recvHead results stream cfg false fuel [] {} c
  match head with
  | none => .ok (none, c)
  | some (data, parser) =>
    if parser.parser.chunked then do
      let (out, c) ← recvChunks results stream cfg fuel data [] parser c
      .ok (out.map fun x => { x.2.data with body := x.1 }, c)
    else
      let length := (parser.getContentLength lexicalCast).toNat
      if 0 < length ∧ length < 2 ^ 63 then do
        let (body, c) ← recvBody results stream cfg fuel length data c
        .ok (body.map fun body => { parser.data with body := body }, c)
      else .ok (some parser.data, c)

end Code

section FixedLength
variable {results : StreamResults} {stream : ℕ → UInt8} {cfg : HttpConfig}
  {lexicalCast : List UInt8 → Option UInt64} {head data : List UInt8} {length : ℕ}
  {h : HttpResponseParser} {c : HttpConnection}

/-- The bytes of the stream from a position on. -/
def streamFrom (stream : ℕ → UInt8) (d n : ℕ) : List UInt8 :=
  (List.range n).map fun i => stream (d + i)

/-- A read returns something as long as bytes of the `left` ones are missing. -/
def Arrives (results : StreamResults) (maxLen left : ℕ) : Prop :=
  ∀ k, Stream.moved results maxLen left k < left → 0 < Stream.answer results maxLen left k

theorem streamFrom_add (d m n : ℕ) :
    streamFrom stream d (m + n) = streamFrom stream d m ++ streamFrom stream (d + m) n := by
  simp only [streamFrom, Stream.map_range_add, Nat.add_assoc]

theorem length_streamFrom (stream : ℕ → UInt8) (d n : ℕ) : (streamFrom stream d n).length = n := by
  simp [streamFrom]

/-- The bytes in the buffer and those that follow them are consecutive. -/
theorem following_streamFrom (d k n : ℕ) :
    HttpBody.following (streamFrom stream d k) (fun i => stream (d + k + i)) n =
      streamFrom stream d n := by
  have hmore : (List.range n).map (fun i => stream (d + k + i)) = streamFrom stream (d + k) n := rfl
  rw [HttpBody.following, hmore, ← streamFrom_add, Nat.add_comm k n, streamFrom_add,
    List.take_left' (length_streamFrom stream d n)]

theorem Arrives.noFailure {maxLen left : ℕ} (h : Arrives results maxLen left) :
    Stream.NoFailure results maxLen left := fun k _ hlt => (h k hlt).le

/-- All of the body is in the buffer. -/
theorem recvBody_buffered (fuel : ℕ) (hlen : length < 2 ^ 31) (hall : length ≤ data.length) :
    recvBody results stream cfg fuel length data c = .ok (some (data.take length), c) := by
  have hfront : front length data = data.take length := by
    unfold front
    split
    next hle => rw [List.take_of_length_le hle]
    next => rfl
  have hcopy : HttpBody.memcpy (List.replicate length 0) (data.take length) =
      .ok (data.take length) := by
    simp [HttpBody.memcpy, Nat.min_eq_left hall]
  unfold recvBody
  rw [if_neg (by omega), hfront, hcopy]
  simp only [liftFault, Except.mapError, ok_bind]
  rw [if_neg (by omega)]

/-- The rest of the body is read behind the bytes of the buffer. -/
theorem recvBody_read (hlen : length < 2 ^ 31) (hmore : data.length < length)
    (hreads : Arrives (results.after c.calls) cfg.maxLen (length - data.length)) :
    ∃ fuel t, 0 < fuel ∧ recvBody results stream cfg fuel length data c =
      .ok (some (HttpBody.following data (fun i => stream (c.received + i)) length), t) := by
  have hfront : front length data = data := if_pos hmore.le
  have hcopy := HttpBody.memcpy_zeros hmore.le
  have hmemory : (data ++ List.replicate (length - data.length) (0 : UInt8)).length = length := by
    simp only [List.length_append, List.length_replicate]
    omega
  have hfit : data.length + (length - data.length) ≤
      (data ++ List.replicate (length - data.length) (0 : UInt8)).length := by
    omega
  obtain ⟨fuel,t,ht,k,_,hstate,hend⟩ := (Stream.readFixSize_stops_iff
    (fun i => stream (c.received + i)) (results.after c.calls) cfg.maxLen hfit
    (by omega)).mpr hreads.noFailure
  have hfuel : 0 < fuel := by
    cases fuel with
    | zero => cases ht
    | succ fuel => exact Nat.succ_pos fuel
  -- The loop cannot have ended with a read that returned nothing.
  rcases hend with ⟨hmoved,_,hvalue⟩ | ⟨hlt,hanswer,_⟩
  · have hvalue' : ¬ t.value ≤ 0 := by
      rw [hvalue (by omega)]
      omega
    rw [hmoved] at hstate
    have hbody := HttpBody.stored_eq_following (fun i => stream (c.received + i)) hmore.le
    rw [← hstate] at hbody
    refine ⟨fuel,⟨c.calls + t.calls,c.received + t.state.received,c.isConnected⟩,hfuel,?_⟩
    unfold recvBody
    rw [if_neg (by omega), hfront, hcopy]
    simp only [liftFault, Except.mapError, ok_bind, ht]
    rw [if_pos hmore, if_neg hvalue', hbody]
  · exact absurd hanswer (not_le.mpr (hreads k hlt))

variable (stream) in
/-- Whether or not all of it is in the buffer, the body holds the bytes that follow the head. -/
theorem recvBody_spec (hlen : length < 2 ^ 31)
    (hreads : Arrives (results.after c.calls) cfg.maxLen (length - data.length)) :
    ∃ fuel t, 0 < fuel ∧ recvBody results stream cfg fuel length data c =
      .ok (some (HttpBody.following data (fun i => stream (c.received + i)) length), t) := by
  by_cases hmore : data.length < length
  · exact recvBody_read hlen hmore hreads
  · refine ⟨1,c,Nat.one_pos,?_⟩
    rw [recvBody_buffered 1 hlen (not_lt.mp hmore), HttpBody.following,
      List.take_append_of_le_length (not_lt.mp hmore)]

/-- The head comes with the first read, and some bytes behind it. -/
theorem recvHead_spec {fuel r : ℕ} (hwhole : execute head false {} = .ok ([], h))
    (hfinished : h.isFinished = true) (hnoError : h.hasError = false)
    (hopen : c.isConnected = true) (hstream : streamFrom stream c.received head.length = head)
    (hr : (results.result c.calls cfg.bufferSize).toNat = r) (hfirst : head.length ≤ r)
    (hfuel : 0 < fuel) :
    ∃ h', recvHead results stream cfg false fuel [] {} c =
      .ok (some (streamFrom stream (c.received + head.length) (r - head.length), h'),
        ⟨c.calls + 1,c.received + r,true⟩) ∧ Alike h' h := by
  obtain ⟨fuel,rfl⟩ : ∃ f, fuel = f + 1 := ⟨fuel - 1,by omega⟩
  have hle := results.result_le c.calls cfg.bufferSize
  have hsize := cfg.bufferSize_lt
  have hpos := execute_pos hwhole
  have hpiece : streamFrom stream c.received r =
      head ++ streamFrom stream (c.received + head.length) (r - head.length) := by
    obtain ⟨k,rfl⟩ : ∃ k, r = head.length + k := ⟨r - head.length,by omega⟩
    rw [streamFrom_add, hstream, Nat.add_sub_cancel_left]
  have hlen : (head ++ streamFrom stream (c.received + head.length) (r - head.length)).length <
      2 ^ 31 := by
    rw [← hpiece, length_streamFrom]
    omega
  have hread : read results stream (cfg.bufferSize - ([] : List UInt8).length) c =
      (streamFrom stream c.received r, ⟨c.calls + 1,c.received + r,true⟩) := by
    simp [read, hopen, hr, streamFrom]
  have hsome : (streamFrom stream c.received r).isEmpty = false := by
    rw [hpiece, List.isEmpty_eq_false_iff]
    exact List.append_ne_nil_of_left_ne_nil (List.length_pos_iff.mp hpos) _
  have hleft : ¬ (streamFrom stream (c.received + head.length) (r - head.length)).length =
      cfg.bufferSize := by
    rw [length_streamFrom]
    omega
  obtain ⟨h',hexec,halike⟩ := execute_append _ hwhole (isFinal_of_isFirstFinal hfinished) hlen
  refine ⟨h',?_,halike⟩
  rw [recvHead, hread]
  simp only [hsome, Bool.false_eq_true, if_false]
  rw [List.nil_append, hpiece, hexec, ok_bind]
  simp only [halike.hasError, hnoError, halike.isFinished, hfinished, hleft,
    Bool.false_eq_true, if_false, if_true]

end FixedLength

end HttpConnection

end HttpClient

end Gudov
