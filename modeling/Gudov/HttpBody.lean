import Gudov.Stream

/-!
# The body of a request

The second half of `HttpSession::RecvRequest`, over a stream whose reads may fail. The body
gets the declared length, the bytes that are left in the buffer of the head are copied to its
front and the rest is read behind them.

Both branches of the comparison of the two lengths copy all the bytes that are left. When
these are more than was declared, the copy goes beyond the body.
-/
namespace Gudov.HttpBody

/-- `memcpy` to the front of a string. -/
def memcpy (body data : List UInt8) : Except Fault (List UInt8) :=
  if data.length ≤ body.length then .ok (data ++ body.drop data.length) else .error .outOfBounds

/-- The body, or nothing when it was not read to its end. `length` is the declared length and
`data` what is left in the buffer. -/
def recvBody (results : StreamResults) (stream : ℕ → UInt8) (maxLen length : ℕ)
    (data : List UInt8) (fuel : ℕ) : Except Fault (Option (List UInt8)) := do
  let body ← memcpy (List.replicate length 0) data
  if length ≤ data.length then .ok (some body)
  else
    let t ← Stream.readFixSize results stream maxLen body data.length (length - data.length) fuel
    if t.value ≤ 0 then .ok none else .ok (some t.state.memory)

/-- The bytes that follow the head: those that are left in the buffer and then the stream. -/
def following (data : List UInt8) (stream : ℕ → UInt8) (n : ℕ) : List UInt8 :=
  (data ++ (List.range n).map stream).take n

/-- Nothing is written outside the body, and a body that is returned holds the bytes that
follow the head. -/
def Extracts (results : StreamResults) (stream : ℕ → UInt8) (maxLen length : ℕ)
    (data : List UInt8) : Prop :=
  ∃ fuel out, recvBody results stream maxLen length data fuel = .ok out ∧
    ∀ body ∈ out, body = following data stream length

section
variable {results : StreamResults} (stream : ℕ → UInt8) {maxLen length : ℕ} {data : List UInt8}

theorem memcpy_zeros (h : data.length ≤ length) :
    memcpy (List.replicate length 0) data = .ok (data ++ List.replicate (length - data.length) 0) := by
  simp [memcpy, h]

/-- The memory after the body was read to its end. -/
theorem stored_eq_following (h : data.length ≤ length) :
    (Stream.stored stream (data ++ List.replicate (length - data.length) 0) data.length
      (length - data.length)).memory = following data stream length := by
  have htake : (List.range length).take (length - data.length) =
      List.range (length - data.length) := by
    rw [List.take_range, Nat.min_eq_left (Nat.sub_le _ _)]
  simp [Stream.stored, following, List.take_append, List.take_of_length_le h, ← List.map_take,
    htake]

theorem extracts_of_fits (hn : length < 2 ^ 31) (h : data.length ≤ length)
    (hno : Stream.NoFailure results maxLen (length - data.length)) :
    Extracts results stream maxLen length data := by
  have hcopy := memcpy_zeros h
  by_cases hall : length ≤ data.length
  · refine ⟨0,some (data ++ List.replicate (length - data.length) 0),?_,?_⟩
    · rw [recvBody, hcopy, ok_bind, if_pos hall]
    · intro body hbody
      cases hbody
      have hfollowing := stored_eq_following stream h
      rw [Nat.sub_eq_zero_of_le hall, Stream.stored_zero] at hfollowing
      rw [Nat.sub_eq_zero_of_le hall]
      exact hfollowing
  · have hmemory : (data ++ List.replicate (length - data.length) (0 : UInt8)).length = length := by
      simp only [List.length_append, List.length_replicate]
      omega
    have hfit : data.length + (length - data.length) ≤
        (data ++ List.replicate (length - data.length) (0 : UInt8)).length := by
      omega
    obtain ⟨fuel,t,ht,k,_,hstate,hend⟩ :=
      (Stream.readFixSize_stops_iff stream results maxLen hfit (by omega)).mpr hno
    have hrun : recvBody results stream maxLen length data fuel =
        if t.value ≤ 0 then .ok none else .ok (some t.state.memory) := by
      rw [recvBody, hcopy, ok_bind, if_neg hall, ht, ok_bind]
    by_cases hpos : t.value ≤ 0
    · exact ⟨fuel,none,by rw [hrun, if_pos hpos],by simp⟩
    · refine ⟨fuel,some t.state.memory,by rw [hrun, if_neg hpos],?_⟩
      intro body hbody
      cases hbody
      rcases hend with ⟨hmoved,_⟩ | ⟨_,hanswer,_,hvalue⟩
      · rw [hstate, hmoved]
        exact stored_eq_following stream h
      · exact absurd (hvalue.trans_le hanswer) hpos

variable {stream} in
/-- The copy of more bytes than were declared is not defined. -/
theorem length_le_of_extracts (h : Extracts results stream maxLen length data) :
    data.length ≤ length := by
  obtain ⟨fuel,out,hout,_⟩ := h
  by_contra hlt
  rw [recvBody, memcpy, List.length_replicate, if_neg hlt] at hout
  cases hout

end

/-- The bytes left in the buffer have to be at most those of the body. Then the body is
extracted unless a read of the rest of it fails. -/
theorem body_extracted (results : StreamResults) (stream : ℕ → UInt8) (maxLen length : ℕ)
    (data : List UInt8) (hn : length < 2 ^ 31) :
    (data.length ≤ length ∧ Stream.NoFailure results maxLen (length - data.length) →
      Extracts results stream maxLen length data) ∧
    (Extracts results stream maxLen length data → data.length ≤ length) := by
  constructor
  · intro h
    exact extracts_of_fits stream hn h.1 h.2
  · exact length_le_of_extracts

/-- One byte of three is in the buffer. -/
theorem body_extracted_three :
    3 < 2 ^ 31 ∧ Extracts Stream.twoAtATime UInt8.ofNat 16384 3 [7] := by
  refine ⟨by decide,(body_extracted Stream.twoAtATime UInt8.ofNat 16384 3 [7] (by decide)).1 ?_⟩
  refine ⟨by decide,?_⟩
  intro k _ _
  simp only [Stream.answer, Stream.twoAtATime]
  omega

/-- Two bytes are in the buffer where one was declared. -/
theorem body_overrun :
    ¬ ∀ (results : StreamResults) (stream : ℕ → UInt8) (maxLen length : ℕ) (data : List UInt8),
      0 < length → length < 2 ^ 31 → Extracts results stream maxLen length data := by
  intro hall
  have hle := length_le_of_extracts
    (hall Stream.twoAtATime UInt8.ofNat 16384 1 [1, 2] (by decide) (by decide))
  revert hle
  decide

end Gudov.HttpBody
