import Gudov.ChunkSize

/-!
# The loops over a chunked body

What is known of the stream and of the reads when the loops of `RecvResponse` come to an end: from
the result back to the reads. The loop that waits for a size has read the line whole or has
forgotten its first digits; a byte that begins no size ends it.
-/
namespace Gudov.HttpClient
open ActionMachine HttpResponseParser
open Http11 (xdigit)

namespace HttpConnection
variable {results : StreamResults} {stream : ℕ → UInt8} {cfg : HttpConfig} {chunk : Bool}
  {fuel q k calls : ℕ} {data left body body' : List UInt8} {parser h : HttpResponseParser}
  {c c' : HttpConnection}

section Stream
variable {u v w : List UInt8} {b : UInt8}

/-- The stream has these bytes from the position on. -/
def Carries (stream : ℕ → UInt8) (q : ℕ) (w : List UInt8) : Prop :=
  streamFrom stream q w.length = w

theorem carries_append : Carries stream q (u ++ v) ↔
    Carries stream q u ∧ Carries stream (q + u.length) v := by
  unfold Carries
  rw [List.length_append, streamFrom_add]
  constructor
  · intro h
    exact List.append_inj h (length_streamFrom stream q u.length)
  · rintro ⟨hu,hv⟩
    rw [hu, hv]

theorem carries_cons : Carries stream q (b :: w) ↔ stream q = b ∧ Carries stream (q + 1) w := by
  rw [← List.singleton_append, carries_append]
  refine and_congr_left' ?_
  simp [Carries, streamFrom]

/-- What is read of a text, and what of it is left. -/
theorem Carries.split (h : Carries stream q w) {n : ℕ} (hn : n ≤ w.length) :
    streamFrom stream q n = w.take n ∧ Carries stream (q + n) (w.drop n) := by
  have hsplit := h
  rw [← List.take_append_drop n w, carries_append] at hsplit
  have hlen : (w.take n).length = n := by simp [hn]
  rw [hlen] at hsplit
  refine ⟨?_,hsplit.2⟩
  have htake := hsplit.1
  unfold Carries at htake
  rwa [hlen] at htake

end Stream

/-! ## The loops, backwards -/

section Inversion

theorem read_some (n calls received : ℕ) :
    read results stream n ⟨calls, received, true⟩ =
      (streamFrom stream received (results.result calls n).toNat,
        ⟨calls + 1, received + (results.result calls n).toNat, true⟩) := rfl

theorem isEmpty_streamFrom (d n : ℕ) : (streamFrom stream d n).isEmpty = decide (n = 0) := by
  cases n with
  | zero => rfl
  | succ n => simp [streamFrom, List.range_succ]

/-- A loop that succeeds has read something, and the parser has taken it. -/
theorem recvHead_some (hrun : recvHead results stream cfg chunk fuel data parser c =
      .ok (some (left, h), c')) :
    ∃ f r d₁ h₁, fuel = f + 1 ∧ r = (results.result c.calls (cfg.bufferSize - data.length)).toNat ∧
      0 < r ∧ execute (data ++ streamFrom stream c.received r) chunk parser = .ok (d₁, h₁) ∧
      h₁.hasError = false ∧
      ((h₁.isFinished = true ∧ left = d₁ ∧ h = h₁ ∧ c' = ⟨c.calls + 1, c.received + r, true⟩) ∨
        (h₁.isFinished = false ∧ recvHead results stream cfg chunk f d₁ h₁
          ⟨c.calls + 1, c.received + r, true⟩ = .ok (some (left, h), c'))) := by
  obtain ⟨calls,received,connected⟩ := c
  cases fuel with
  | zero => cases hrun
  | succ f =>
    cases connected with
    | false => cases hrun
    | true =>
      rw [recvHead, read_some] at hrun
      simp only [isEmpty_streamFrom, decide_eq_true_eq] at hrun
      split at hrun
      next => cases hrun
      next hr =>
        obtain ⟨⟨d₁,h₁⟩,hexecute,hrun⟩ := exists_of_bind_eq_ok hrun
        refine ⟨f,_,d₁,h₁,rfl,rfl,Nat.pos_of_ne_zero hr,hexecute,?_⟩
        simp only at hrun
        split at hrun
        next => cases hrun
        next herror =>
          split at hrun
          next => cases hrun
          next =>
            refine ⟨by simpa using herror,?_⟩
            split at hrun
            next hfinished =>
              cases hrun
              exact .inl ⟨hfinished,rfl,rfl,rfl⟩
            next hfinished => exact .inr ⟨by simpa using hfinished,hrun⟩

/-- What the loop for the head has passed of the stream from the position `q` on. -/
structure Passed (stream : ℕ → UInt8) (q n : ℕ) (parser h : HttpResponseParser)
    (left : List UInt8) (c' : HttpConnection) : Prop where
  pos : 0 < n
  run : h.parser.cs = parser.parser.cs.run (streamFrom stream q n)
  rest : Carries stream (q + n) left
  received : c'.received = q + n + left.length
  finished : h.isFinished = true
  chunked : parser.parser.chunked = true → h.parser.chunked = true

/-- However the reads cut the stream, the state is the one that the bytes lead to. -/
theorem recvHead_passed (hdata : Carries stream q data) (hreceived : c.received = q + data.length)
    (hrun : recvHead results stream cfg false fuel data parser c = .ok (some (left, h), c')) :
    ∃ n, Passed stream q n parser h left c' := by
  induction fuel generalizing q data parser c with
  | zero => cases hrun
  | succ fuel ih =>
    obtain ⟨f,r,d₁,h₁,hf,_,_,hexecute,herror,hend⟩ := recvHead_some hrun
    cases hf
    obtain ⟨u,hu,hne,hcs,hchunked⟩ := execute_passed hexecute herror
    have hbuffer : Carries stream q (u ++ d₁) := by
      rw [← hu, carries_append]
      refine ⟨hdata,?_⟩
      rw [← hreceived, Carries, length_streamFrom]
    obtain ⟨hpassed,hleft⟩ := carries_append.mp hbuffer
    have hlen : data.length + r = u.length + d₁.length := by
      have hsum := congrArg List.length hu
      rwa [List.length_append, List.length_append, length_streamFrom] at hsum
    have hposition : c.received + r = q + u.length + d₁.length := by omega
    have hcs₁ : h₁.parser.cs = parser.parser.cs.run (streamFrom stream q u.length) := by
      rw [hcs, hpassed]
    rcases hend with ⟨hfinished,rfl,rfl,rfl⟩ | ⟨_,hrun⟩
    · exact ⟨u.length,List.length_pos_iff.mpr hne,hcs₁,hleft,hposition,hfinished,hchunked⟩
    · obtain ⟨n,hn⟩ := ih hleft hposition hrun
      refine ⟨u.length + n,Nat.add_pos_right _ hn.pos,?_,?_,?_,hn.finished,
        fun hc => hn.chunked (hchunked hc)⟩
      · rw [hn.run, hcs₁, streamFrom_add, State.run_append]
      · rw [← Nat.add_assoc]
        exact hn.rest
      · rw [hn.received, ← Nat.add_assoc]

theorem recvHead_noError (hrun : recvHead results stream cfg chunk fuel data parser c =
    .ok (some (left, h), c')) : h.hasError = false := by
  induction fuel generalizing data parser c with
  | zero => cases hrun
  | succ fuel ih =>
    obtain ⟨f,r,d₁,h₁,hf,_,_,_,herror,hend⟩ := recvHead_some hrun
    cases hf
    rcases hend with ⟨_,_,rfl,_⟩ | ⟨_,hrun⟩
    · exact herror
    · exact ih hrun

theorem recvRest_some {n : ℕ} (hrun : recvRest results stream cfg fuel n body c =
    .ok (some body', c')) :
    body' = body ++ streamFrom stream c.received n ∧ c'.received = c.received + n ∧
      (c.isConnected = true → c'.isConnected = true) := by
  induction fuel generalizing n body c with
  | zero =>
    cases n with
    | zero =>
      cases hrun
      exact ⟨(List.append_nil _).symm,rfl,id⟩
    | succ n => cases hrun
  | succ fuel ih =>
    cases n with
    | zero =>
      cases hrun
      exact ⟨(List.append_nil _).symm,rfl,id⟩
    | succ n =>
      obtain ⟨calls,received,connected⟩ := c
      cases connected with
      | false => cases hrun
      | true =>
        rw [recvRest, read_some] at hrun
        simp only [isEmpty_streamFrom, decide_eq_true_eq] at hrun
        split at hrun
        next => cases hrun
        next hr =>
          have hle := results.result_le calls (min (n + 1) cfg.bufferSize)
          rw [length_streamFrom] at hrun
          obtain ⟨rfl,hreceived,hopen⟩ := ih hrun
          refine ⟨?_,?_,hopen⟩
          · rw [List.append_assoc, ← streamFrom_add]
            congr 2
            omega
          · rw [hreceived]
            simp only
            omega

theorem append_some {n : ℤ} (h : append body data n = .ok body') :
    0 ≤ n ∧ body' = body ++ data.take n.toNat := by
  unfold append at h
  split at h
  next => cases h
  next hn =>
    cases h
    exact ⟨Int.not_lt.mp hn,rfl⟩

/-- Behind a size `n` the buffer holds `a` bytes and two more, which are dropped. -/
theorem recvChunk_some {n : ℤ} (hrun : recvChunk results stream cfg fuel n data body c =
      .ok (some (body', left), c')) :
    ∃ a, data.length = a + 2 ∧ 0 ≤ n ∧
      ((n ≤ a ∧ body' = body ++ data.take n.toNat ∧
          left = (data.drop n.toNat).take (a - n.toNat) ∧ c' = c) ∨
        (a < n ∧ body' = body ++ data.take a ++ streamFrom stream c.received (n.toNat - a) ∧
          left = [] ∧ c'.received = c.received + (n.toNat - a) ∧
          (c.isConnected = true → c'.isConnected = true))) := by
  unfold recvChunk at hrun
  dsimp only at hrun
  split at hrun
  next hle =>
    obtain ⟨body₁,happend,hrun⟩ := exists_of_bind_eq_ok hrun
    obtain ⟨hn,rfl⟩ := append_some happend
    cases hrun
    refine ⟨data.length - 2,by omega,hn,.inl ⟨by omega,rfl,?_,rfl⟩⟩
    congr 1
    omega
  next hlt =>
    obtain ⟨body₁,happend,hrun⟩ := exists_of_bind_eq_ok hrun
    obtain ⟨hn,rfl⟩ := append_some happend
    obtain ⟨⟨rest,c₁⟩,hrest,hrun⟩ := exists_of_bind_eq_ok hrun
    cases rest with
    | none => cases hrun
    | some rest =>
      cases hrun
      obtain ⟨rfl,hreceived,hopen⟩ := recvRest_some hrest
      have ha : ((data.length : ℤ) - 2).toNat = data.length - 2 := by omega
      have hleft : (n - ((data.length : ℤ) - 2)).toNat = n.toNat - (data.length - 2) := by omega
      rw [ha, hleft]
      rw [hleft] at hreceived
      exact ⟨data.length - 2,by omega,by omega,.inr ⟨by omega,rfl,rfl,hreceived,hopen⟩⟩

theorem recvChunks_some {x : List UInt8 × HttpResponseParser}
    (hrun : recvChunks results stream cfg fuel data body parser c = .ok (some x, c')) :
    ∃ f left₁ h₁ c₁ body₂ left₂ c₂, fuel = f + 1 ∧
      recvHead results stream cfg true f data parser c = .ok (some (left₁, h₁), c₁) ∧
      recvChunk results stream cfg f h₁.parser.contentLen left₁ body c₁ =
        .ok (some (body₂, left₂), c₂) ∧
      ((h₁.parser.chunksDone = true ∧ x.1 = body₂) ∨ (h₁.parser.chunksDone = false ∧
        recvChunks results stream cfg f left₂ body₂ h₁ c₂ = .ok (some x, c'))) := by
  cases fuel with
  | zero => cases hrun
  | succ f =>
    rw [recvChunks] at hrun
    obtain ⟨⟨head,c₁⟩,hhead,hrun⟩ := exists_of_bind_eq_ok hrun
    cases head with
    | none => cases hrun
    | some head =>
      obtain ⟨⟨chunk,c₂⟩,hchunk,hrun⟩ := exists_of_bind_eq_ok hrun
      cases chunk with
      | none => cases hrun
      | some chunk =>
        refine ⟨f,head.1,head.2,c₁,chunk.1,chunk.2,c₂,rfl,hhead,hchunk,?_⟩
        dsimp only at hrun
        split at hrun
        next hdone =>
          cases hrun
          exact .inl ⟨hdone,rfl⟩
        next hdone => exact .inr ⟨by simpa using hdone,hrun⟩

/-- The body only grows. -/
theorem recvChunks_grows {x : List UInt8 × HttpResponseParser}
    (hrun : recvChunks results stream cfg fuel data body parser c = .ok (some x, c')) :
    body <+: x.1 := by
  induction fuel generalizing data body parser c with
  | zero => cases hrun
  | succ fuel ih =>
    obtain ⟨f,left₁,h₁,c₁,body₂,left₂,c₂,hf,_,hchunk,hend⟩ := recvChunks_some hrun
    cases hf
    have hgrown : body <+: body₂ := by
      obtain ⟨a,_,_,⟨_,rfl,_⟩ | ⟨_,rfl,_⟩⟩ := recvChunk_some hchunk
      · exact List.prefix_append _ _
      · rw [List.append_assoc]
        exact List.prefix_append _ _
    rcases hend with ⟨_,rfl⟩ | ⟨_,hrun⟩
    · exact hgrown
    · exact hgrown.trans (ih hrun)

/-- A byte that begins no size ends the loop, wherever it is. -/
theorem recvHead_stray {b : UInt8} (hb : Stray b)
    (hfirst : (data ++ [stream c.received]).head? = some b) :
    recvHead results stream cfg true fuel data parser c ≠ .ok (some (left, h), c') := by
  intro hrun
  obtain ⟨f,r,d₁,h₁,_,_,hr,hexecute,herror,_⟩ := recvHead_some hrun
  have hcons : ∃ w, data ++ streamFrom stream c.received r = b :: w := by
    cases data with
    | nil =>
      obtain ⟨r,rfl⟩ : ∃ r', r = 1 + r' := ⟨r - 1,by omega⟩
      rw [List.nil_append, streamFrom_add]
      cases hfirst
      exact ⟨_,rfl⟩
    | cons d w =>
      cases hfirst
      exact ⟨_,rfl⟩
  obtain ⟨w,hw⟩ := hcons
  rw [hw] at hexecute
  rw [execute_stray hb hexecute] at herror
  cases herror

/-- What the loop makes of the line of a size: the number in a last part of its digits. With all
of them the line has come with one read. -/
structure TakesSize (results : StreamResults) (stream : ℕ → UInt8) (size q k calls : ℕ)
    (ds left : List UInt8) (h : HttpResponseParser) (c' : HttpConnection) (us vs : List UInt8)
    (a : ℕ) : Prop where
  digits : ds = us ++ vs
  ne_nil : vs ≠ []
  contentLen : h.parser.contentLen = sizeOf vs
  chunksDone : h.parser.chunksDone = decide (sizeOf vs ≤ 0)
  left_eq : left = streamFrom stream (q + ds.length + 2) a
  received : c'.received = q + ds.length + 2 + a
  isConnected : c'.isConnected = true
  whole : us = [] → c'.calls = calls + 1 ∧ 0 < (results.result calls (size - k)).toNat ∧
    k + (results.result calls (size - k)).toNat = ds.length + 2 + a

/-- The digits that are forgotten belong to the line as well. -/
theorem TakesSize.of_drop {size calls' n a : ℕ} {ds us vs : List UInt8}
    (htakes : TakesSize results stream size (q + n) 0 calls' (ds.drop n) left h c' us vs a)
    (hpos : 0 < n) (hn : n < ds.length) :
    TakesSize results stream size q k calls ds left h c' (ds.take n ++ us) vs a := by
  have hposition : q + n + (ds.drop n).length = q + ds.length := by
    rw [List.length_drop]
    omega
  constructor
  case digits => rw [List.append_assoc, ← htakes.digits, List.take_append_drop]
  case left_eq => rw [htakes.left_eq, hposition]
  case received => rw [htakes.received, hposition]
  case whole =>
    intro hnil
    have hlen := congrArg List.length (List.append_eq_nil_iff.mp hnil).1
    rw [List.length_take, List.length_nil] at hlen
    omega
  case ne_nil => exact htakes.ne_nil
  case contentLen => exact htakes.contentLen
  case chunksDone => exact htakes.chunksDone
  case isConnected => exact htakes.isConnected

/-- A line end, or its second byte, begins nothing. -/
theorem stray_of_cut {ds : List UInt8} {n : ℕ} (hdigits : ds.length ≤ n) (hcut : n < ds.length + 2)
    (h : Carries stream (q + n) ((ds ++ lineEnd).drop n)) : Stray (stream (q + n)) := by
  by_cases hreturn : n = ds.length
  · rw [hreturn, List.drop_left] at h
    rw [hreturn, (carries_cons.mp h).1]
    exact stray_lineEnd.1
  · obtain rfl : n = ds.length + 1 := by omega
    rw [List.drop_length_add_append] at h
    rw [(carries_cons.mp h).1]
    exact stray_lineEnd.2

/-- A line in the buffer, and what has come behind it. -/
theorem Carries.line {ds : List UInt8} (h : Carries stream q (ds ++ lineEnd)) (a : ℕ) :
    streamFrom stream q (ds.length + 2 + a) =
      ds ++ 13 :: 10 :: streamFrom stream (q + ds.length + 2) a := by
  have hline : streamFrom stream q (ds.length + 2) = ds ++ lineEnd := by
    simpa [Carries, lineEnd] using h
  rw [streamFrom_add, hline, List.append_assoc, Nat.add_assoc q]
  rfl

theorem recvHead_size {ds : List UInt8} (hds : ∀ d ∈ ds, xdigit.has d = true) (hne : ds ≠ [])
    (htext : Carries stream q (ds ++ lineEnd))
    (hrun : recvHead results stream cfg true fuel (streamFrom stream q k) parser
      ⟨calls, q + k, true⟩ = .ok (some (left, h), c')) :
    ∃ us vs a, TakesSize results stream cfg.bufferSize q k calls ds left h c' us vs a := by
  induction fuel generalizing ds q k calls parser with
  | zero => cases hrun
  | succ fuel ih =>
    obtain ⟨f,r,d₁,h₁,hf,hr,hpos,hexecute,_,hend⟩ := recvHead_some hrun
    cases hf
    rw [length_streamFrom] at hr
    dsimp only at hr hexecute hend
    rw [← streamFrom_add] at hexecute
    have hle := results.result_le calls (cfg.bufferSize - k)
    have hsize := cfg.bufferSize_lt
    by_cases hwhole : ds.length + 2 ≤ k + r
    · -- the line ends in the buffer
      obtain ⟨a,ha⟩ : ∃ a, k + r = ds.length + 2 + a := ⟨_,(Nat.add_sub_cancel' hwhole).symm⟩
      have hbuffer : streamFrom stream q (k + r) =
          ds ++ 13 :: 10 :: streamFrom stream (q + ds.length + 2) a := by
        rw [ha, htext.line]
      have hlen : (streamFrom stream q (k + r)).length < 2 ^ 31 := by
        rw [length_streamFrom]
        omega
      obtain ⟨d,ds,rfl⟩ := List.exists_cons_of_ne_nil hne
      rw [execute_line hbuffer hds hlen] at hexecute
      cases hexecute
      have hfinal : (sized (d :: ds) parser).isFinished = true := states_open.2.2.2.2.2
      rcases hend with ⟨_,rfl,rfl,rfl⟩ | ⟨hopen,_⟩
      · refine ⟨[],d :: ds,a,rfl,hne,rfl,rfl,rfl,?_,rfl,fun _ => ⟨rfl,by omega,by omega⟩⟩
        dsimp only
        omega
      · rw [hfinal] at hopen
        cases hopen
    · -- the line is cut, and what has been read of it is forgotten
      have hlength : (ds ++ lineEnd).length = ds.length + 2 := by simp [lineEnd]
      obtain ⟨htake,hrest⟩ := htext.split (n := k + r) (by omega)
      rw [htake] at hexecute
      obtain ⟨rfl,hopen⟩ := execute_cut hds hne (by omega) (by omega) hexecute
      rcases hend with ⟨hfinal,_⟩ | ⟨_,hnext⟩
      · rw [hopen] at hfinal
        cases hfinal
      · by_cases hdigits : k + r < ds.length
        · rw [List.drop_append_of_le_length hdigits.le] at hrest
          have hpos' : q + k + r = q + (k + r) + 0 := by omega
          rw [hpos'] at hnext
          obtain ⟨us,vs,a,htakes⟩ := ih (k := 0) (fun d hd => hds d (List.mem_of_mem_drop hd))
            (by simpa using hdigits) hrest hnext
          exact ⟨_,vs,a,htakes.of_drop (by omega) hdigits⟩
        · have hstray := stray_of_cut (Nat.not_lt.mp hdigits) (by omega) hrest
          rw [Nat.add_assoc] at hnext
          exact absurd hnext (recvHead_stray hstray rfl)

theorem recvChunks_stray {b : UInt8} {x : List UInt8 × HttpResponseParser} (hb : Stray b)
    (hfirst : (data ++ [stream c.received]).head? = some b) :
    recvChunks results stream cfg fuel data body parser c ≠ .ok (some x, c') := by
  intro hrun
  obtain ⟨f,left₁,h₁,c₁,_,_,_,_,hhead,_⟩ := recvChunks_some hrun
  exact recvHead_stray hb hfirst hhead

end Inversion

end HttpConnection

end Gudov.HttpClient
