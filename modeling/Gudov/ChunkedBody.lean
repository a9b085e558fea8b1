import Gudov.ResponseBody

/-!
# Chunked bodies

`RecvResponse` reads before it looks at the bytes that are there already, and it takes the line end
behind a chunk off at the end of the buffer before it has looked how much of the chunk the buffer
holds. So a chunk comes out whole exactly if the read in front of it ends with its line end. With
any other reads there are bytes for which the body is lost or spoiled: those that cannot begin the
line of a size show every loss. Before that, the loop for the head goes on into the chunks if the
head ends in a line of a rule without a value.
-/
namespace Gudov.HttpClient
open ActionMachine HttpResponseParser
open Http11 (xdigit)

namespace HttpConnection
variable {results : StreamResults} {stream : ℕ → UInt8} {cfg : HttpConfig} {chunk : Bool}
  {fuel q k calls : ℕ} {data left body body' : List UInt8} {parser h h' : HttpResponseParser}
  {c c' : HttpConnection}

/-! ## The reads that keep the body -/

/-- With `k` bytes in the buffer and after so many calls, every read ends with a chunk, up to the
last one. -/
def Aligned (results : StreamResults) (size : ℕ) : List ChunkSize → ℕ → ℕ → Prop
  | [], k, calls =>
    0 < (results.result calls (size - k)).toNat ∧
      5 ≤ k + (results.result calls (size - k)).toNat
  | s :: ss, k, calls =>
    0 < (results.result calls (size - k)).toNat ∧
      k + (results.result calls (size - k)).toNat = s.total ∧
      Aligned results size ss 0 (calls + 1)

instance Aligned.decidable (results : StreamResults) (size : ℕ) :
    ∀ sizes k calls, Decidable (Aligned results size sizes k calls)
  | [], _, _ => inferInstanceAs (Decidable (_ ∧ _))
  | _ :: ss, _, calls =>
    have := Aligned.decidable results size ss 0 (calls + 1)
    inferInstanceAs (Decidable (_ ∧ _ ∧ _))

section Aligned
variable {cs : List Chunk} {ch : Chunk}

/-- No byte of the chunks can begin a size, or ends a line. -/
def Plain (cs : List Chunk) : Prop := ∀ c ∈ cs, ∀ b ∈ c.data, Stray b ∧ b ≠ 10

theorem Plain.not_mem (h : Plain cs) : 10 ∉ Chunk.content cs := by
  intro hmem
  obtain ⟨c,hc,hb⟩ := List.mem_flatMap.mp hmem
  exact (h c hc 10 hb).2 rfl

theorem Carries.mem {w : List UInt8} (h : Carries stream q w) {i : ℕ} (hi : i < w.length) :
    stream (q + i) ∈ w := by
  obtain ⟨_,hrest⟩ := h.split hi.le
  rw [List.drop_eq_getElem_cons hi, carries_cons] at hrest
  rw [hrest.1]
  exact List.getElem_mem hi

/-- Behind the line of a size: the bytes of the chunk, its line end, and the other chunks. -/
theorem carries_encodeAll_cons : Carries stream q (Chunk.encodeAll (ch :: cs)) ↔
    Carries stream q (ch.size.digits ++ lineEnd) ∧
      Carries stream (q + ch.size.digits.length + 2) ch.data ∧
      Carries stream (q + ch.size.digits.length + 2 + ch.size.value) lineEnd ∧
      Carries stream (q + ch.size.total) (Chunk.encodeAll cs) := by
  have hencode : Chunk.encodeAll (ch :: cs) =
      (ch.size.digits ++ lineEnd) ++ (ch.data ++ (lineEnd ++ Chunk.encodeAll cs)) := by
    simp [Chunk.encodeAll, Chunk.encode]
  have hline : (ch.size.digits ++ lineEnd).length = ch.size.digits.length + 2 := by simp [lineEnd]
  rw [hencode, carries_append (u := ch.size.digits ++ lineEnd), carries_append (u := ch.data),
    carries_append (u := lineEnd), hline, ch.length_eq]
  simp only [← Nat.add_assoc, ChunkSize.total]
  rfl

theorem Carries.data_eq (h : Carries stream q ch.data) :
    streamFrom stream q ch.size.value = ch.data := by
  rw [← ch.length_eq]
  exact h

/-- The byte behind what the loop for the head has passed, in the buffer or not. -/
theorem Passed.next {n : ℕ} (hn : Passed stream q n parser h left c') :
    (left ++ [stream c'.received]).head? = some (stream (q + n)) := by
  have hreceived := hn.received
  cases left with
  | nil => rw [hreceived, List.length_nil, Nat.add_zero, List.nil_append, List.head?_singleton]
  | cons b left =>
    rw [List.cons_append, List.head?_cons, (carries_cons.mp hn.rest).1]

theorem carries_lastLine (h : Carries stream q (Chunk.encodeAll [])) :
    Carries stream q ([48] ++ lineEnd) := by
  have hlast : Carries stream q ([48] ++ lineEnd ++ lineEnd) := h
  exact (carries_append.mp hlast).1

/-- The bytes of a plain chunk and its line end. -/
theorem stray_of_chunk (hplain : ∀ b ∈ ch.data, Stray b) (hdata : Carries stream q ch.data)
    (hend : Carries stream (q + ch.size.value) lineEnd) :
    ∀ i ≤ ch.size.value + 1, Stray (stream (q + i)) := by
  intro i hi
  rcases Nat.lt_trichotomy i ch.size.value with hlt | rfl | hgt
  · exact hplain _ (hdata.mem (by rwa [ch.length_eq]))
  · rw [(carries_cons.mp hend).1]
    exact stray_lineEnd.1
  · obtain rfl : i = ch.size.value + 1 := by omega
    rw [← Nat.add_assoc, (carries_cons.mp (carries_cons.mp hend).2).1]
    exact stray_lineEnd.2

/-- Up to the line end behind the `m` bytes of the chunk nothing begins a size. So another size is
found only if the chunk and its line end were all there was, and no more. -/
theorem recvChunk_whole {n : ℤ} {m a fuel' : ℕ} {body₂ left₂ : List UInt8} {c₂ : HttpConnection}
    {x : List UInt8 × HttpResponseParser} (hn : 0 < n) (hnumber : n = m ∨ n + 16 ≤ m)
    (hstray : ∀ i ≤ m + 1, Stray (stream (q + i))) (hend : stream (q + m + 1) = 10)
    (hreceived : c.received = q + (a + 2))
    (hchunk : recvChunk results stream cfg fuel n (streamFrom stream q (a + 2)) body c =
      .ok (some (body₂, left₂), c₂))
    (hrun : recvChunks results stream cfg fuel' left₂ body₂ parser c₂ = .ok (some x, c'))
    (hbreak : 10 ∉ x.1) :
    n = m ∧ a = m ∧ left₂ = [] ∧ c₂ = c ∧ body₂ = body ++ streamFrom stream q m := by
  obtain ⟨a',hlength,_,hchunk⟩ := recvChunk_some hchunk
  rw [length_streamFrom] at hlength
  obtain rfl : a = a' := by omega
  -- a size behind the first `i` bytes would begin with one of them
  have hnone : ∀ i ≤ m + 1, (left₂ ++ [stream c₂.received]).head? ≠ some (stream (q + i)) :=
    fun i hi hfirst => recvChunks_stray (hstray i hi) hfirst hrun
  rcases hchunk with ⟨hle,rfl,rfl,rfl⟩ | ⟨hlt,rfl,rfl,hreceived₂,_⟩
  · have hexact : n = a := by
      by_contra hne
      refine hnone n.toNat (by omega) ?_
      have hget : (streamFrom stream q (a + 2))[n.toNat]? = some (stream (q + n.toNat)) := by
        have hbound : n.toNat < a + 2 := by omega
        simp [streamFrom, hbound]
      have htaken : a - n.toNat ≠ 0 := by omega
      rw [List.head?_append, List.head?_take, if_neg htaken, List.head?_drop, hget]
      rfl
    have hm : n = m := by
      rcases hnumber with hm | hshort
      · exact hm
      · refine absurd ?_ (hnone (a + 2) (by omega))
        rw [hexact, hreceived]
        simp
    obtain rfl : a = m := by omega
    refine ⟨hm,rfl,?_,rfl,?_⟩
    · rw [hexact]
      simp
    · rw [hexact, Int.toNat_natCast, streamFrom_add, List.take_left' (length_streamFrom stream q a)]
  · exfalso
    rcases hnumber with hm | hshort
    · -- the line end is in the body
      refine hbreak ((recvChunks_grows hrun).subset (List.mem_append_right _ ?_))
      refine List.mem_map.mpr ⟨m - a - 1,List.mem_range.mpr (by omega),?_⟩
      rw [← hend, hreceived]
      congr 1
      omega
    · refine hnone (n.toNat + 2) (by omega) ?_
      rw [hreceived₂, hreceived]
      have hpos : q + (a + 2) + (n.toNat - a) = q + (n.toNat + 2) := by omega
      rw [hpos]
      rfl

/-- If plain chunks come out whole, the reads have ended with them. -/
theorem aligned_of_recvChunks (hplain : Plain cs) (htext : Carries stream q (Chunk.encodeAll cs))
    (hbody : 10 ∉ body)
    (hrun : recvChunks results stream cfg fuel (streamFrom stream q k) body parser
      ⟨calls, q + k, true⟩ = .ok (some (body ++ Chunk.content cs, h), c')) :
    Aligned results cfg.bufferSize (cs.map Chunk.size) k calls := by
  induction cs generalizing fuel q k calls body parser with
  | nil =>
    obtain ⟨f,left₁,h₁,c₁,body₂,left₂,c₂,_,hhead,hchunk,_⟩ := recvChunks_some hrun
    have hline := carries_lastLine htext
    obtain ⟨us,vs,a,htakes⟩ := recvHead_size zero_hex (List.cons_ne_nil 48 []) hline hhead
    obtain ⟨a',hlength,_⟩ := recvChunk_some hchunk
    rw [htakes.left_eq, length_streamFrom] at hlength
    have hus : us = [] := by
      have hlen := congrArg List.length htakes.digits
      have hvs := List.length_pos_iff.mpr htakes.ne_nil
      rw [List.length_append, List.length_singleton] at hlen
      exact List.eq_nil_of_length_eq_zero (by omega)
    obtain ⟨_,hpos,hsum⟩ := htakes.whole hus
    refine ⟨hpos,?_⟩
    rw [hsum, List.length_singleton]
    omega
  | cons ch cs ih =>
    obtain ⟨hline,hdata,hend,hrest⟩ := carries_encodeAll_cons.mp htext
    obtain ⟨f,left₁,h₁,c₁,body₂,left₂,c₂,_,hhead,hchunk,hnext⟩ := recvChunks_some hrun
    obtain ⟨us,vs,a,htakes⟩ := recvHead_size ch.size.digits_hex ch.size.digits_ne_nil hline hhead
    rw [htakes.contentLen] at hchunk
    rw [htakes.chunksDone, decide_eq_true_eq, decide_eq_false_iff_not] at hnext
    have hvalue := ch.size.sizeOf_part htakes.digits htakes.ne_nil
    have hbreak : 10 ∉ body ++ Chunk.content (ch :: cs) := by
      rw [List.mem_append, not_or]
      exact ⟨hbody,hplain.not_mem⟩
    have hpos := ch.size.value_pos
    rcases hnext with ⟨hnone,hbody₂⟩ | ⟨hsome,hnext⟩
    · -- the number is 0, and the rest of the body is missing
      obtain ⟨a',_,hn,⟨_,rfl,_⟩ | ⟨hlt,_⟩⟩ := recvChunk_some hchunk
      · have hzero : (sizeOf vs).toNat = 0 := by omega
        rw [hzero, List.take_zero, List.append_nil] at hbody₂
        have hlen := congrArg List.length hbody₂
        simp only [Chunk.content_cons, List.length_append, ch.length_eq] at hlen
        omega
      · omega
    · obtain ⟨a',hlength,_⟩ := recvChunk_some hchunk
      rw [htakes.left_eq, length_streamFrom] at hlength
      subst hlength
      have hstray := stray_of_chunk (fun b hb => (hplain ch (by simp) b hb).1) hdata hend
      rw [htakes.left_eq] at hchunk
      obtain ⟨hn,rfl,rfl,rfl,rfl⟩ := recvChunk_whole (by omega) (hvalue.imp_left And.right) hstray
        (carries_cons.mp (carries_cons.mp hend).2).1 htakes.received hchunk hnext hbreak
      have hus : us = [] := by
        rcases hvalue with ⟨hus,_⟩ | hshort
        · exact hus
        · omega
      obtain ⟨hcalls,hread,hsum⟩ := htakes.whole hus
      refine ⟨hread,by rw [hsum, ChunkSize.total]; omega,?_⟩
      obtain ⟨calls₁,received₁,connected₁⟩ := c₂
      obtain rfl : calls₁ = calls + 1 := hcalls
      obtain rfl : connected₁ = true := htakes.isConnected
      obtain rfl : received₁ = q + ch.size.total + 0 := by
        have hreceived : received₁ = q + ch.size.digits.length + 2 + (ch.size.value + 2) :=
          htakes.received
        rw [hreceived, ChunkSize.total]
        omega
      rw [hdata.data_eq] at hnext
      rw [Chunk.content_cons, ← List.append_assoc] at hnext hbreak
      have hten : 10 ∉ body ++ ch.data := fun hmem => hbreak (List.mem_append_left _ hmem)
      exact ih (k := 0) (fun c hc => hplain c (by simp [hc])) hrest hten hnext

theorem recvHead_line (fuel : ℕ) {ds : List UInt8} {a : ℕ} (hds : ∀ d ∈ ds, xdigit.has d = true)
    (hne : ds ≠ []) (htext : Carries stream q (ds ++ lineEnd)) (herror : parser.error = 0)
    (hread : 0 < (results.result calls (cfg.bufferSize - k)).toNat)
    (hsum : k + (results.result calls (cfg.bufferSize - k)).toNat = ds.length + 2 + a) :
    recvHead results stream cfg true (fuel + 1) (streamFrom stream q k) parser
        ⟨calls, q + k, true⟩ =
      .ok (some (streamFrom stream (q + ds.length + 2) a, sized ds parser),
        ⟨calls + 1, q + ds.length + 2 + a, true⟩) := by
  have hle := results.result_le calls (cfg.bufferSize - k)
  have hsize := cfg.bufferSize_lt
  obtain ⟨d,ds,rfl⟩ := List.exists_cons_of_ne_nil hne
  have hlen : (streamFrom stream q (k + (results.result calls (cfg.bufferSize - k)).toNat)).length <
      2 ^ 31 := by
    rw [length_streamFrom]
    omega
  have hbuffer := htext.line a
  rw [← hsum] at hbuffer
  have hexecute := execute_line (h := parser) hbuffer hds hlen
  have hfinal : (sized (d :: ds) parser).isFinished = true := states_open.2.2.2.2.2
  have hnoError : (sized (d :: ds) parser).hasError = false := by
    simp [hasError, sized, setParser, herror, states_open.2.2.1]
  have hroom : a ≠ cfg.bufferSize := by omega
  rw [recvHead, length_streamFrom, read_some]
  simp only [isEmpty_streamFrom, decide_eq_true_eq, hread.ne', if_false]
  rw [← streamFrom_add, hexecute, ok_bind]
  simp only [hnoError, hfinal, length_streamFrom, hroom, Bool.false_eq_true, if_false, if_true]
  have hreceived : q + k + (results.result calls (cfg.bufferSize - k)).toNat =
      q + (d :: ds).length + 2 + a := by omega
  rw [hreceived]

theorem recvChunk_buffered {m a : ℕ} (hle : m ≤ a) (hlength : data.length = a + 2) :
    recvChunk results stream cfg fuel m data body c =
      .ok (some (body ++ data.take m, (data.drop m).take (a - m)), c) := by
  have hnumber : (m : ℤ) ≤ data.length - 2 := by omega
  have hleft : (((data.length : ℤ) - 2) - m).toNat = a - m := by omega
  unfold recvChunk
  dsimp only
  rw [if_pos hnumber, append, if_neg (Int.not_lt.mpr (Int.natCast_nonneg m)), ok_bind, hleft,
    Int.toNat_natCast]

/-- Reads that end with the chunks bring the body. -/
theorem recvChunks_aligned (body : List UInt8)
    (haligned : Aligned results cfg.bufferSize (cs.map Chunk.size) k calls)
    (htext : Carries stream q (Chunk.encodeAll cs)) (herror : parser.error = 0)
    (hfuel : cs.length + 1 < fuel) :
    ∃ h c', recvChunks results stream cfg fuel (streamFrom stream q k) body parser
      ⟨calls, q + k, true⟩ = .ok (some (body ++ Chunk.content cs, h), c') := by
  induction cs generalizing fuel q k calls body parser with
  | nil =>
    obtain ⟨fuel,rfl⟩ : ∃ f, fuel = f + 2 := ⟨fuel - 2,by simp at hfuel; omega⟩
    obtain ⟨hread,hsum⟩ := haligned
    obtain ⟨a,ha⟩ : ∃ a, k + (results.result calls (cfg.bufferSize - k)).toNat =
        [(48 : UInt8)].length + 2 + (a + 2) := by
      refine ⟨k + (results.result calls (cfg.bufferSize - k)).toNat - 5,?_⟩
      rw [List.length_singleton]
      omega
    have hline := carries_lastLine htext
    have hhead := recvHead_line fuel zero_hex (List.cons_ne_nil 48 []) hline herror hread ha
    have hzero : (sized [48] parser).parser.contentLen = ((0 : ℕ) : ℤ) := by
      show sizeOf [48] = 0
      decide
    have hdone : (sized [48] parser).parser.chunksDone = true := by
      show decide (sizeOf [48] ≤ 0) = true
      decide
    rw [recvChunks, hhead, ok_bind]
    dsimp only
    rw [hzero, recvChunk_buffered (Nat.zero_le a) (length_streamFrom stream _ _), ok_bind]
    simp only [hdone, if_true]
    exact ⟨_,_,rfl⟩
  | cons ch cs ih =>
    obtain ⟨fuel,rfl⟩ : ∃ f, fuel = f + 2 := ⟨fuel - 2,by omega⟩
    obtain ⟨hread,hsum,hrest⟩ := haligned
    obtain ⟨hline,hdata,_,hothers⟩ := carries_encodeAll_cons.mp htext
    have hle := results.result_le calls (cfg.bufferSize - k)
    have hsize := cfg.bufferSize_lt
    have hvalue : sizeOf ch.size.digits = ch.size.value := by
      refine ch.size.sizeOf_eq ?_
      simp only [ChunkSize.total] at hsum
      omega
    have hpos := ch.size.value_pos
    have hall := hsum
    rw [ChunkSize.total, Nat.add_assoc] at hall
    have hhead := recvHead_line fuel ch.size.digits_hex ch.size.digits_ne_nil hline herror hread
      hall
    have hnumber : (sized ch.size.digits parser).parser.contentLen = (ch.size.value : ℤ) := hvalue
    have hmore : (sized ch.size.digits parser).parser.chunksDone = false := by
      refine decide_eq_false ?_
      rw [hvalue]
      omega
    have hbody : (streamFrom stream (q + ch.size.digits.length + 2) (ch.size.value + 2)).take
        ch.size.value = ch.data := by
      rw [streamFrom_add, List.take_left' (length_streamFrom stream _ _), hdata.data_eq]
    rw [recvChunks, hhead, ok_bind]
    dsimp only
    rw [hnumber, recvChunk_buffered le_rfl (length_streamFrom stream _ _), ok_bind, hbody]
    simp only [hmore, Bool.false_eq_true, if_false, Nat.sub_self, List.take_zero]
    have hposition : q + ch.size.digits.length + 2 + (ch.size.value + 2) =
        q + ch.size.total + 0 := by
      rw [ChunkSize.total]
      omega
    rw [hposition, Chunk.content_cons, ← List.append_assoc]
    have hnone : (sized ch.size.digits parser).error = 0 := herror
    refine ih (body ++ ch.data) hrest hothers hnone ?_
    rw [List.length_cons] at hfuel
    omega

end Aligned

/-! ## Heads that end in a line without a value -/

section Valueless
variable {head ds e : List UInt8} {n : ℕ}

theorem hex_byte {z : UInt8} (hz : xdigit.has z = true) :
    z ≠ 10 ∧ z ≠ 13 ∧ Http11.space.has z = false ∧ toLower z ≠ 58 :=
  byte_cases (P := fun z => xdigit.has z = true →
    z ≠ 10 ∧ z ≠ 13 ∧ Http11.space.has z = false ∧ toLower z ≠ 58) (by decide +kernel) z hz

theorem exists_last_hex (hne : ds ≠ []) (hds : ∀ z ∈ ds, xdigit.has z = true) :
    ∃ x z, ds = x ++ [z] ∧ xdigit.has z = true := by
  obtain ⟨x,z,rfl⟩ := (List.eq_nil_or_concat ds).resolve_left hne
  rw [List.concat_eq_append] at hds ⊢
  exact ⟨x,z,rfl,hds z (by simp)⟩

/-- No beginning of the line of a size ends in an empty line, up to the carriage return of the
next line. -/
theorem not_emptyLine_size (hne : ds ≠ []) (hds : ∀ z ∈ ds, xdigit.has z = true)
    (hn : 0 < n) : ¬ EmptyLine (head ++ (ds ++ [13, 10, 13]).take n) := by
  have hlast : ∀ {u v : List UInt8} {z : UInt8}, z ≠ 10 → ¬ [10] <:+ u ++ (v ++ [z]) := by
    intro u v z hz
    rw [← List.append_assoc, lineFeed_suffix (List.cons_ne_nil z [])]
    intro hs
    exact hz (List.mem_singleton.mp (hs.subset (List.mem_singleton_self 10))).symm
  obtain ⟨x,z,rfl,hz⟩ := exists_last_hex hne hds
  by_cases hdigits : n ≤ (x ++ [z]).length
  · rw [List.take_append_of_le_length hdigits]
    have hsome : (x ++ [z]).take n ≠ [] := by
      simp only [← List.length_pos_iff, List.length_take, List.length_append,
        List.length_singleton] at hdigits ⊢
      omega
    obtain ⟨y,d,hy,hd⟩ := exists_last_hex hsome fun b hb => hds b (List.mem_of_mem_take hb)
    rw [hy]
    exact fun hempty => hlast (hex_byte hd).1 hempty.suffix
  · obtain ⟨m,rfl⟩ : ∃ m, n = (x ++ [z]).length + (m + 1) := ⟨n - (x ++ [z]).length - 1,by omega⟩
    rw [List.take_length_add_append]
    rcases m with _ | _ | m
    · exact fun hempty => hlast (by decide) hempty.suffix
    · have hend : LineEnd [13, 10] := .inr rfl
      have hsplit : head ++ (x ++ [z] ++ [13, 10]) = (head ++ x) ++ z :: [13, 10] := by simp
      change ¬ EmptyLine (head ++ (x ++ [z] ++ [13, 10]))
      rw [hsplit]
      exact hend.not_emptyLine (hex_byte hz).1 (hex_byte hz).2.1
    · have hsplit : x ++ [z] ++ List.take (m + 1 + 1 + 1) [13, 10, 13] =
          (x ++ [z] ++ [13, 10]) ++ [13] := by simp
      rw [hsplit]
      exact fun hempty => hlast (by decide) hempty.suffix

/-- Behind the line of a size, and an empty line or none, no 0 byte follows. -/
theorem size_step_zero (hresponse : head.head? = some 72) (hne : ds ≠ [])
    (hds : ∀ z ∈ ds, xdigit.has z = true) (he : e = [] ∨ e = lineEnd) :
    (((start main).run (head ++ (ds ++ lineEnd ++ e))).step 0).1 = [] := by
  obtain ⟨x,z,rfl,hz⟩ := exists_last_hex hne hds
  have hsplit : head ++ (x ++ [z] ++ lineEnd ++ e) = (head ++ x) ++ z :: (lineEnd ++ e) := by simp
  rw [hsplit]
  refine line_step_zero ?_ ?_ ?_
  · rw [List.append_assoc, List.head?_append, hresponse]
    rfl
  · rcases he with rfl | rfl
    · exact ⟨head ++ x ++ [z, 13],by simp [lineEnd]⟩
    · exact ⟨head ++ x ++ [z, 13, 10, 13],by simp [lineEnd]⟩
  · have hblank : ∀ d ∈ lineEnd ++ e, Http11.space.has d = true := by
      rcases he with rfl | rfl <;> decide +kernel
    rw [endsValueless, rdropWhile_append (hex_byte hz).2.2.1 hblank, List.any_eq_false]
    intro name _ hsuffix
    rw [List.isSuffixOf_iff_suffix, List.map_append] at hsuffix
    obtain ⟨y,hy⟩ := hsuffix
    have hlast := congrArg List.getLast? hy
    rw [← List.append_assoc, List.map_singleton, List.getLast?_concat,
      List.getLast?_concat] at hlast
    exact (hex_byte hz).2.2.2 (Option.some.inj hlast).symm

/-- Where the line of a size follows, with a 0 byte behind it or behind an empty line, the parser
is in a final state only behind the empty line. -/
theorem size_final (hresponse : head.head? = some 72) (hne : ds ≠ [])
    (hds : ∀ z ∈ ds, xdigit.has z = true) (he : e = [] ∨ e = lineEnd)
    (hline : Carries stream q (ds ++ lineEnd ++ e ++ [0])) (hn : 0 < n)
    (hfinal : ((start main).run (head ++ streamFrom stream q n)).isFinal = true) :
    e = lineEnd ∧ n = ds.length + 4 := by
  have hshort : n ≤ (ds ++ lineEnd ++ e).length := by
    by_contra hlong
    obtain ⟨m,rfl⟩ : ∃ m, n = (ds ++ lineEnd ++ e).length + (1 + m) :=
      ⟨n - (ds ++ lineEnd ++ e).length - 1,by omega⟩
    obtain ⟨hfront,hzero⟩ := carries_append.mp hline
    rw [streamFrom_add, streamFrom_add, hfront, show streamFrom stream _ 1 = [0] from hzero,
      ← List.append_assoc, List.singleton_append, State.run_dead
        (size_step_zero hresponse hne hds he)] at hfinal
    cases hfinal
  have hpiece : streamFrom stream q n = (ds ++ lineEnd ++ e).take n :=
    ((carries_append.mp hline).1.split hshort).1
  by_contra hnot
  -- short of the empty line, the piece is one of the line of the size and a carriage return
  have hopen : (ds ++ lineEnd ++ e).take n = (ds ++ [13, 10, 13]).take n := by
    rcases he with rfl | rfl
    · rw [List.append_nil] at hshort ⊢
      rw [← List.take_append_of_le_length hshort, List.append_assoc]
      rfl
    · have hle : n ≤ (ds ++ lineEnd ++ [13]).length := by
        have hmost : n ≠ ds.length + 4 := fun hfour => hnot ⟨rfl,hfour⟩
        simp only [lineEnd, List.length_append, List.length_cons, List.length_nil] at hshort ⊢
        omega
      have hlast : ds ++ lineEnd ++ lineEnd = ds ++ lineEnd ++ [13] ++ [10] := by simp [lineEnd]
      rw [hlast, List.take_append_of_le_length hle, List.append_assoc]
      rfl
  rw [hpiece, hopen, not_final_of_not_emptyLine ?_ (not_emptyLine_size hne hds hn)] at hfinal
  · cases hfinal
  · rw [List.head?_append, hresponse]
    rfl

end Valueless

/-! ## Responses -/

section Response
variable {lexicalCast : List UInt8 → Option UInt64} {head : List UInt8} {c₁ : HttpConnection}
  {cs : List Chunk}

def ReturnsBody (results : StreamResults) (stream : ℕ → UInt8) (cfg : HttpConfig)
    (lexicalCast : List UInt8 → Option UInt64) (c : HttpConnection) (body : List UInt8) : Prop :=
  ∃ fuel rsp t, recvResponse results stream cfg lexicalCast fuel c = .ok (some rsp, t) ∧
    rsp.body = body

/-- With these reads the parser takes the head of a chunked response, and `k` bytes that follow it
are in the buffer then. -/
structure HeadTaken (results : StreamResults) (cfg : HttpConfig) (head : List UInt8) (k : ℕ)
    (c c₁ : HttpConnection) : Prop where
  received : c₁.received = c.received + head.length + k
  isConnected : c₁.isConnected = true
  taken : ∀ stream, Carries stream c.received head → ∃ fuel h, h.parser.chunked = true ∧
    recvHead results stream cfg false fuel [] {} c =
      .ok (some (streamFrom stream (c.received + head.length) k, h), c₁)

/-- The head of a chunked response, complete by the grammar. -/
structure Announces (head : List UInt8) (h : HttpResponseParser) : Prop where
  whole : execute head false {} = .ok ([], h)
  complete : h.parser.cs.isFinal = true
  noError : h.hasError = false
  chunked : h.parser.chunked = true

/-- If the first read brings the head, it is taken then, unless it ends in a line of a rule without
a value. -/
theorem headTaken_of_not_valueless {r : ℕ} (hhead : Announces head h)
    (hvalue : endsValueless head = false) (hopen : c.isConnected = true)
    (hr : (results.result c.calls cfg.bufferSize).toNat = r) (hfirst : head.length ≤ r) :
    HeadTaken results cfg head (r - head.length) c ⟨c.calls + 1, c.received + r, true⟩ := by
  refine ⟨?_,rfl,fun stream hstream => ?_⟩
  · dsimp only
    omega
  · obtain ⟨h',hrecv,halike⟩ := recvHead_spec hhead.whole
      ((isFinished_iff hhead.whole hhead.complete).mpr hvalue) hhead.noError hopen hstream hr
      hfirst Nat.one_pos
    exact ⟨1,h',halike.chunked.trans hhead.chunked,hrecv⟩

/-- More fuel changes nothing. -/
theorem recvHead_fuel {x : Option (List UInt8 × HttpResponseParser) × HttpConnection}
    (hrun : recvHead results stream cfg chunk fuel data parser c = .ok x) {m : ℕ} (hm : fuel ≤ m) :
    recvHead results stream cfg chunk m data parser c = .ok x := by
  induction fuel generalizing data parser c m with
  | zero => cases hrun
  | succ fuel ih =>
    obtain ⟨m,rfl⟩ : ∃ m', m = m' + 1 := ⟨m - 1,by omega⟩
    rw [recvHead] at hrun ⊢
    dsimp only at hrun ⊢
    split at hrun
    next hempty =>
      rw [if_pos hempty]
      exact hrun
    next hsome =>
      rw [if_neg hsome]
      obtain ⟨⟨d₁,h₁⟩,hexecute,hrun⟩ := exists_of_bind_eq_ok hrun
      rw [hexecute, ok_bind]
      dsimp only at hrun ⊢
      split at hrun
      next herror =>
        rw [if_pos herror]
        exact hrun
      next hnoError =>
        rw [if_neg hnoError]
        split at hrun
        next hfull =>
          rw [if_pos hfull]
          exact hrun
        next hroom =>
          rw [if_neg hroom]
          split at hrun
          next hfinished =>
            rw [if_pos hfinished]
            exact hrun
          next hopen =>
            rw [if_neg hopen]
            exact ih hrun (Nat.le_of_succ_le_succ hm)

/-- The response with the body that the loop over the chunks has collected. -/
def withBody (x : Option (List UInt8 × HttpResponseParser) × HttpConnection) :
    Option HttpResponse × HttpConnection :=
  (x.1.map fun y => { y.2.data with body := y.1 }, x.2)

theorem recvResponse_chunked (hhead : recvHead results stream cfg false fuel [] {} c =
      .ok (some (data, h), c₁)) (hchunked : h.parser.chunked = true) :
    recvResponse results stream cfg lexicalCast fuel c =
      (recvChunks results stream cfg fuel data [] h c₁).map withBody := by
  rw [recvResponse, hhead, ok_bind]
  dsimp only
  rw [if_pos hchunked]
  cases recvChunks results stream cfg fuel data [] h c₁ <;> rfl

theorem recvChunks_of_withBody {rsp : HttpResponse} {t : HttpConnection}
    (hrun : (recvChunks results stream cfg fuel data [] h c).map withBody = .ok (some rsp, t)) :
    ∃ h', recvChunks results stream cfg fuel data [] h c = .ok (some (rsp.body, h'), t) := by
  obtain ⟨⟨collected,c₁⟩,hchunks,hrsp⟩ := exists_of_map_eq_ok hrun
  cases collected with
  | none => cases hrsp
  | some y =>
    cases hrsp
    exact ⟨y.2,hchunks⟩

variable (lexicalCast) in
/-- The loop over the chunks follows the head, whenever the fuel suffices for the head. -/
theorem HeadTaken.spec (hhead : HeadTaken results cfg head k c c₁)
    (hstream : Carries stream c.received head) :
    ∃ fuel h, h.error = 0 ∧ ∀ m,
      fuel ≤ m ∨ (∃ y, recvResponse results stream cfg lexicalCast m c = .ok y) →
        recvResponse results stream cfg lexicalCast m c = (recvChunks results stream cfg m
          (streamFrom stream (c.received + head.length) k) [] h
            ⟨c₁.calls, c.received + head.length + k, true⟩).map withBody := by
  obtain ⟨fuel,h,hchunked,hrecv⟩ := hhead.taken stream hstream
  have hnone := recvHead_noError hrecv
  simp only [hasError, Bool.or_eq_false_iff, bne_eq_false_iff_eq] at hnone
  have hposition : c₁ = ⟨c₁.calls, c.received + head.length + k, true⟩ := by
    rw [← hhead.received, ← hhead.isConnected]
  rw [hposition] at hrecv
  refine ⟨fuel,h,hnone.1,?_⟩
  rintro m (hm | ⟨y,hy⟩)
  · exact recvResponse_chunked (recvHead_fuel hrecv hm) hchunked
  · obtain ⟨x,hx,_⟩ := exists_of_bind_eq_ok hy
    have hmore := recvHead_fuel hx (Nat.le_max_left m fuel)
    rw [recvHead_fuel hrecv (Nat.le_max_right m fuel)] at hmore
    rw [← Except.ok.inj hmore] at hx
    exact recvResponse_chunked hx hchunked

section Taken
variable (hhead : HeadTaken results cfg head k c c₁)
  (htext : Carries stream c.received (head ++ Chunk.encodeAll cs))
include hhead htext

theorem returnsBody_of_aligned
    (haligned : Aligned results cfg.bufferSize (cs.map Chunk.size) k c₁.calls) :
    ReturnsBody results stream cfg lexicalCast c (Chunk.content cs) := by
  obtain ⟨hstream,hencoded⟩ := carries_append.mp htext
  obtain ⟨fuel,h,herror,hspec⟩ := hhead.spec lexicalCast hstream
  have hfuel : cs.length + 1 < fuel + cs.length + 2 := by omega
  obtain ⟨h',c',hrun⟩ := recvChunks_aligned [] haligned hencoded herror hfuel
  refine ⟨fuel + cs.length + 2,{ h'.data with body := Chunk.content cs },c',?_,rfl⟩
  rw [hspec _ (.inl (by omega)), hrun]
  rfl

/-- The other way round for chunks of plain bytes. -/
theorem aligned_of_returnsBody (hplain : Plain cs)
    (hreturns : ReturnsBody results stream cfg lexicalCast c (Chunk.content cs)) :
    Aligned results cfg.bufferSize (cs.map Chunk.size) k c₁.calls := by
  obtain ⟨hstream,hencoded⟩ := carries_append.mp htext
  obtain ⟨fuel,h,_,hspec⟩ := hhead.spec lexicalCast hstream
  obtain ⟨m,rsp,t,hrun,hbody⟩ := hreturns
  rw [hspec m (.inr ⟨_,hrun⟩)] at hrun
  obtain ⟨h',hchunks⟩ := recvChunks_of_withBody hrun
  rw [hbody, ← List.nil_append (Chunk.content cs)] at hchunks
  exact aligned_of_recvChunks hplain hencoded List.not_mem_nil hchunks

end Taken

/-- A chunk of 0 bytes, which begin no size. -/
def plainChunk (s : ChunkSize) : Chunk where
  size := s
  data := List.replicate s.value 0
  length_eq := List.length_replicate

theorem stray_zero : Stray 0 := by
  unfold Stray
  decide +kernel

theorem plain_plainChunk (sizes : List ChunkSize) : Plain (sizes.map plainChunk) := by
  intro c hc b hb
  obtain ⟨s,_,rfl⟩ := List.mem_map.mp hc
  rw [List.eq_of_mem_replicate hb]
  exact ⟨stray_zero,by decide⟩

/-- Behind a head that ends in a line without a value the loop takes the line of the first size for
another line of the head. With a 0 byte behind it, or behind an empty line that follows it, the
loop stops only behind the empty line. -/
theorem recvHead_valueless_size {r : ℕ} {ds e : List UInt8} (hhead : Announces head h)
    (hvalueless : endsValueless head = true)
    (hr : (results.result c.calls cfg.bufferSize).toNat = r) (hfirst : head.length ≤ r)
    (hstream : Carries stream c.received head) (hne : ds ≠ [])
    (hds : ∀ z ∈ ds, xdigit.has z = true) (he : e = [] ∨ e = lineEnd)
    (hline : Carries stream (c.received + head.length) (ds ++ lineEnd ++ e ++ [0]))
    (hrecv : recvHead results stream cfg false fuel [] {} c = .ok (some (left, h'), c')) :
    e = lineEnd ∧ Passed stream (c.received + head.length) (ds.length + 4) h h' left c' := by
  obtain ⟨n,hn⟩ := recvHead_valueless hhead.whole hhead.complete hvalueless hr hfirst hstream hrecv
  have hstate := execute_run hhead.whole hhead.complete
  have hcomplete := hhead.complete
  rw [hstate] at hcomplete
  have hfinal : ((start main).run
      (head ++ streamFrom stream (c.received + head.length) n)).isFinal = true := by
    rw [State.run_append, ← hstate, ← hn.run]
    exact isFinal_of_isFirstFinal hn.finished
  obtain ⟨hlast,rfl⟩ := size_final (response_of_valueless hcomplete hvalueless) hne hds he hline
    hn.pos hfinal
  exact ⟨hlast,hn⟩

theorem not_returnsBody_valueless {r : ℕ} {sizes : List ChunkSize} (hhead : Announces head h)
    (hvalueless : endsValueless head = true)
    (hr : (results.result c.calls cfg.bufferSize).toNat = r) (hfirst : head.length ≤ r)
    (htext : Carries stream c.received (head ++ Chunk.encodeAll (sizes.map plainChunk) ++ [0])) :
    ¬ ReturnsBody results stream cfg lexicalCast c body := by
  rintro ⟨fuel,rsp,t,hrun,_⟩
  obtain ⟨left,h₁,c₁,hrecv⟩ := recvResponse_head hrun
  rw [List.append_assoc] at htext
  obtain ⟨hstream,hencoded⟩ := carries_append.mp htext
  cases sizes with
  | nil =>
    -- the loop over the chunks begins behind the last size, with a 0 byte
    have hline : Carries stream (c.received + head.length)
        ([48] ++ lineEnd ++ lineEnd ++ [0]) := hencoded
    obtain ⟨_,hn⟩ := recvHead_valueless_size hhead hvalueless hr hfirst hstream
      (List.cons_ne_nil 48 []) zero_hex (.inr rfl) hline hrecv
    have hzero : stream (c.received + head.length + ([(48 : UInt8)].length + 4)) = 0 :=
      (carries_cons.mp (carries_append.mp hline).2).1
    rw [recvResponse_chunked hrecv (hn.chunked hhead.chunked)] at hrun
    obtain ⟨h₂,hchunks⟩ := recvChunks_of_withBody hrun
    exact recvChunks_stray stray_zero (by rw [hn.next, hzero]) hchunks
  | cons s ss =>
    have hline : Carries stream (c.received + head.length)
        (s.digits ++ lineEnd ++ [] ++ [0]) := by
      obtain ⟨hsize,hdata,_⟩ := carries_encodeAll_cons.mp (carries_append.mp hencoded).1
      have hlength : (s.digits ++ lineEnd).length = s.digits.length + 2 := by simp [lineEnd]
      have hsome : 0 < (plainChunk s).data.length := by
        rw [(plainChunk s).length_eq]
        exact s.value_pos
      have hzero := List.eq_of_mem_replicate (hdata.mem hsome)
      rw [List.append_nil, carries_append, hlength, carries_cons]
      exact ⟨hsize,hzero,rfl⟩
    obtain ⟨hempty,_⟩ := recvHead_valueless_size hhead hvalueless hr hfirst hstream
      s.digits_ne_nil s.digits_hex (.inl rfl) hline hrecv
    cases hempty

/-- The response is returned with all bytes of its chunks, whatever the bytes of chunks of these
sizes are. -/
def ReturnsChunks (results : StreamResults) (cfg : HttpConfig)
    (lexicalCast : List UInt8 → Option UInt64) (c : HttpConnection) (head : List UInt8)
    (sizes : List ChunkSize) : Prop :=
  ∀ cs : List Chunk, cs.map Chunk.size = sizes → ∀ stream,
    Carries stream c.received (head ++ Chunk.encodeAll cs) →
      ReturnsBody results stream cfg lexicalCast c (Chunk.content cs)

theorem returnsChunks_iff {sizes : List ChunkSize} (hhead : HeadTaken results cfg head k c c₁) :
    ReturnsChunks results cfg lexicalCast c head sizes ↔
      Aligned results cfg.bufferSize sizes k c₁.calls := by
  constructor
  · intro hall
    have hsizes : (sizes.map plainChunk).map Chunk.size = sizes := by
      rw [List.map_map]
      exact List.map_id sizes
    have htext := carries_getD c.received (head ++ Chunk.encodeAll (sizes.map plainChunk))
    have haligned := aligned_of_returnsBody hhead htext (plain_plainChunk sizes)
      (hall _ hsizes _ htext)
    rwa [hsizes] at haligned
  · rintro haligned cs rfl stream htext
    exact returnsBody_of_aligned hhead htext haligned

theorem not_valueless_of_returnsChunks {r : ℕ} {sizes : List ChunkSize}
    (hhead : Announces head h) (hr : (results.result c.calls cfg.bufferSize).toNat = r)
    (hfirst : head.length ≤ r) (hall : ReturnsChunks results cfg lexicalCast c head sizes) :
    endsValueless head = false := by
  by_contra hvalueless
  rw [Bool.not_eq_false] at hvalueless
  have hsizes : (sizes.map plainChunk).map Chunk.size = sizes := by
    rw [List.map_map]
    exact List.map_id sizes
  have htext := carries_getD c.received (head ++ Chunk.encodeAll (sizes.map plainChunk) ++ [0])
  exact not_returnsBody_valueless hhead hvalueless hr hfirst htext
    (hall _ hsizes _ (carries_append.mp htext).1)

end Response

/-- Once the head is taken, the response is returned with all bytes of its chunks, whatever these
are, exactly for the reads that end with the chunks. A head that comes with the first read is taken
then exactly if it does not end in a line of a rule without a value, and otherwise the bytes of
some chunks are lost. -/
theorem chunked_body_iff (results : StreamResults) (cfg : HttpConfig)
    (lexicalCast : List UInt8 → Option UInt64) (c : HttpConnection) (head : List UInt8)
    (sizes : List ChunkSize) :
    (∀ k c₁, HeadTaken results cfg head k c c₁ →
      (ReturnsChunks results cfg lexicalCast c head sizes ↔
        Aligned results cfg.bufferSize sizes k c₁.calls)) ∧
    ∀ h r, Announces head h → c.isConnected = true →
      (results.result c.calls cfg.bufferSize).toNat = r → head.length ≤ r →
        (ReturnsChunks results cfg lexicalCast c head sizes ↔ endsValueless head = false ∧
          Aligned results cfg.bufferSize sizes (r - head.length) (c.calls + 1)) := by
  refine ⟨fun k c₁ hhead => returnsChunks_iff hhead,fun h r hhead hopen hr hfirst => ?_⟩
  constructor
  · intro hall
    have hvalue := not_valueless_of_returnsChunks hhead hr hfirst hall
    have htaken := headTaken_of_not_valueless hhead hvalue hopen hr hfirst
    exact ⟨hvalue,(returnsChunks_iff htaken).mp hall⟩
  · rintro ⟨hvalue,haligned⟩
    have htaken := headTaken_of_not_valueless hhead hvalue hopen hr hfirst
    exact (returnsChunks_iff htaken).mpr haligned

def chunkedHead : List UInt8 := bytes "HTTP/1.1 200 OK\r\nTransfer-Encoding: chunked\r\n\r\n"

theorem length_chunkedHead : chunkedHead.length = 47 := by decide +kernel

/-- The parser's answers on a head, evaluated. -/
theorem announces_of_run (head : List UInt8) (hrun : (execute head false {}).map
    (fun x => (x.1, x.2.parser.cs.isFinal, x.2.hasError, x.2.parser.chunked)) =
      .ok ([], true, false, true)) :
    ∃ h, Announces head h := by
  obtain ⟨⟨left,h⟩,hexec,hvalues⟩ := exists_of_map_eq_ok hrun
  simp only [Prod.mk.injEq] at hvalues
  obtain ⟨rfl,hcomplete,hnoError,hchunked⟩ := hvalues
  exact ⟨h,hexec,hcomplete,hnoError,hchunked⟩

theorem announces_chunkedHead : ∃ h, Announces chunkedHead h :=
  announces_of_run chunkedHead (by decide +kernel)

theorem result_readsOf {reads : List ℕ} {r : ℕ} (hreads : reads.getD 0 0 = r) (hr : r ≤ 4096) :
    ((readsOf reads).result 0 HttpConfig.default.bufferSize).toNat = r := by
  simp only [readsOf, hreads, HttpConfig.default]
  omega

theorem chunkedHead_taken {reads : List ℕ} {k : ℕ} (hreads : reads.getD 0 0 = 47 + k)
    (hk : 47 + k ≤ 4096) :
    HeadTaken (readsOf reads) .default chunkedHead k {} ⟨1, 47 + k, true⟩ := by
  obtain ⟨h,hhead⟩ := announces_chunkedHead
  have htaken := headTaken_of_not_valueless (c := {}) hhead (by decide +kernel) rfl
    (result_readsOf hreads hk) (by rw [length_chunkedHead]; omega)
  rw [length_chunkedHead] at htaken
  simpa using htaken

def three : Chunk where
  size := ⟨51,[],by decide +kernel,by decide⟩
  data := bytes "xyz"
  length_eq := by decide

def threeText (i : ℕ) : UInt8 := (chunkedHead ++ Chunk.encodeAll [three]).getD i 0

theorem threeText_carries : Carries threeText 0 (chunkedHead ++ Chunk.encodeAll [three]) :=
  carries_getD 0 (chunkedHead ++ Chunk.encodeAll [three])

/-- A read for the head, and one for each chunk: here for one chunk and its bytes, and there for
all chunks of its size. -/
theorem chunked_body_iff_three :
    ReturnsBody (readsOf [47, 8, 5]) threeText .default (fun _ => none) {} (bytes "xyz") ∧
      ReturnsChunks (readsOf [47, 8, 5]) .default (fun _ => none) {} chunkedHead [three.size] := by
  have hiff := chunked_body_iff (readsOf [47, 8, 5]) .default (fun _ => none) {} chunkedHead
    [three.size]
  have hhead : HeadTaken (readsOf [47, 8, 5]) .default chunkedHead 0 {} ⟨1, 47, true⟩ :=
    chunkedHead_taken rfl (by decide)
  obtain ⟨h,hannounces⟩ := announces_chunkedHead
  have haligned : Aligned (readsOf [47, 8, 5]) 4096 [three.size] 0 1 := by decide
  refine ⟨(hiff.1 0 _ hhead).mpr haligned [three] rfl threeText threeText_carries,?_⟩
  exact (hiff.2 h 47 hannounces rfl (result_readsOf rfl (by decide)) length_chunkedHead.le).mpr
    ⟨by decide +kernel,haligned⟩

/-- The whole response comes with one read, and the loop waits for more. -/
theorem buffered_body_lost :
    ¬ ∀ (reads : List ℕ) (cs : List Chunk) (stream : ℕ → UInt8), (∀ r ∈ reads, 0 < r) →
      Carries stream 0 (chunkedHead ++ Chunk.encodeAll cs) →
        reads.sum = (chunkedHead ++ Chunk.encodeAll cs).length →
          ReturnsBody (readsOf reads) stream .default (fun _ => none) {} (Chunk.content cs) := by
  intro hall
  have hlength : [60].sum = (chunkedHead ++ Chunk.encodeAll [three]).length := by
    rw [List.length_append, length_chunkedHead]
    decide
  have hreturns := hall [60] [three] threeText (by decide) threeText_carries hlength
  have hhead : HeadTaken (readsOf [60]) .default chunkedHead 13 {} ⟨1, 60, true⟩ :=
    chunkedHead_taken rfl (by decide)
  have hplain : Plain [three] := by
    intro c hc b hb
    rw [List.mem_singleton.mp hc] at hb
    revert b
    unfold Stray
    decide +kernel
  have haligned : Aligned (readsOf [60]) 4096 [three.size] 13 1 :=
    aligned_of_returnsBody hhead threeText_carries hplain hreturns
  revert haligned
  decide

end HttpConnection

end Gudov.HttpClient
