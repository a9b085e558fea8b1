import Gudov.HttpSegments

/-!
# Several requests on one connection

`HttpServer::HandleClient` calls `RecvRequest` again and again on one session. The buffer
and the count of unread bytes are local to a call, so what a read returns beyond the
request at hand is gone with the call. The requests all come back exactly when no read
returns more than one of them.
-/
namespace Gudov.HttpSession
open ActionMachine Http11 HttpRequestParser Reading

/-- The results of `k` calls of `RecvRequest`, one after the other. -/
def recvRequests (cfg : HttpConfig) (relaxed : Bool) (lexicalCast : List UInt8 → Option UInt64) :
    ℕ → HttpSession → Except Abort (List (Option HttpRequest) × HttpSession)
  | 0, s => .ok ([], s)
  | k + 1, s => do
    let (r, s) ← recvRequest cfg relaxed lexicalCast s
    let (rs, s) ← recvRequests cfg relaxed lexicalCast k s
    .ok (r :: rs, s)

/-- A complete valid request as the peer sends it. -/
structure SentRequest (relaxed : Bool) (lexicalCast : List UInt8 → Option UInt64) where
  head : List UInt8
  body : List UInt8
  reading : Reading
  isRequest : IsRequest relaxed lexicalCast head body reading

section
variable {relaxed : Bool} {lexicalCast : List UInt8 → Option UInt64} {cfg : HttpConfig}
  {s t : HttpSession} {w : List UInt8} {ws : List (List UInt8)}

def SentRequest.text (q : SentRequest relaxed lexicalCast) : List UInt8 := q.head ++ q.body

/-- The request as `RecvRequest` returns it. -/
def SentRequest.result (q : SentRequest relaxed lexicalCast) : HttpRequest :=
  received q.reading.request q.body

/-- Each read returns the requests of one group, which fit into the buffer. -/
structure Grouped (cfg : HttpConfig) (groups : List (List (SentRequest relaxed lexicalCast)))
    (s : HttpSession) : Prop where
  connected : s.isConnected = true
  incoming_eq : s.incoming = groups.map fun g => (g.map SentRequest.text).flatten
  nonempty : ∀ g ∈ groups, g ≠ []
  fits : ∀ w ∈ s.incoming, w.length ≤ cfg.bufferSize

/-! ## One request in one read -/

/-- What is written before the body of the request is read. -/
def interim (r : HttpRequest) : List UInt8 :=
  if strcasecmp (r.getHeader (bytes "Expect")) (bytes "100-continue") = .eq then
    bytes "HTTP/1.1 100 Continue\r\n\r\n"
  else []

theorem expectContinue_frame (r : HttpRequest) (s : HttpSession) :
    ∃ u, expectContinue r s = (expected r, u) ∧ u.incoming = s.incoming ∧
      u.isConnected = s.isConnected ∧
      (s.isConnected = true → u.outgoing = s.outgoing ++ interim r) := by
  unfold expectContinue expected interim
  split
  · refine ⟨_,rfl,?_,?_,?_⟩
    · simp only [writeFixSize]
      split <;> rfl
    · simp only [writeFixSize]
      split <;> rfl
    · intro hs
      simp only [writeFixSize, hs, if_true]
  · exact ⟨s,rfl,rfl,rfl,fun _ => (List.append_nil _).symm⟩

/-- A read that returns one whole request gives this request, and leaves the other reads. -/
theorem recvRequest_whole (q : SentRequest relaxed lexicalCast) (hs : s.isConnected = true)
    (hin : s.incoming = q.text :: ws) (hfits : q.text.length ≤ cfg.bufferSize) :
    ∃ t, recvRequest cfg relaxed lexicalCast s = .ok (some q.result, t) ∧ t.incoming = ws ∧
      t.isConnected = true ∧ t.outgoing = s.outgoing ++ interim q.reading.request := by
  obtain ⟨c,hc,hexec⟩ := readingOf_spec q.isRequest.reads
  have hpos := readingOf_pos q.isRequest.reads
  have hne : q.head ≠ [] := List.length_pos_iff.mp hpos
  have hlong : (q.head ++ q.body).length < 2 ^ 31 := by
    have hsize := cfg.bufferSize_lt
    have hfits : (q.head ++ q.body).length ≤ cfg.bufferSize := hfits
    omega
  obtain ⟨h,hcall,hcs,hdata,herror⟩ := execute_whole hne hlong hexec hc
  have hcne : h.parser.cs ≠ [] := by
    rintro hnil
    rw [← hcs, hnil] at hc
    cases hc
  have hroom : q.body.length < cfg.bufferSize := by
    have hfits : (q.head ++ q.body).length ≤ cfg.bufferSize := hfits
    rw [List.length_append] at hfits
    omega
  have hturn := recvHead_turn s.incoming.flatten.length hs hin (by simp [SentRequest.text, hne])
    hfits
    hcall herror hcne hroom
  have hdone : h.isFinished = true := by
    rw [isFinished, hcs]
    exact hc
  rw [hdone] at hturn
  have hlength : (h.getContentLength lexicalCast).toNat = q.body.length := by
    rw [getContentLength, hdata]
    exact q.isRequest.declared
  obtain ⟨u,hcontinue,hu,huc,hout⟩ := expectContinue_frame h.data { s with incoming := ws }
  rw [hdata] at hcontinue hout
  unfold recvRequest
  rw [fuel, hturn]
  simp only [bind, Except.bind, if_true, hlength, hdata, hcontinue]
  refine ⟨u,?_,hu,huc.trans hs,hout hs⟩
  split
  next hbody =>
    have hfull : q.body.isEmpty = false := by
      rw [List.isEmpty_eq_false_iff]
      exact List.length_pos_iff.mp hbody.1
    simp only [recvBody, Nat.lt_irrefl, if_false, if_true, SentRequest.result, received, hfull,
      Bool.false_eq_true]
  next hbody =>
    have hnil : q.body = [] := by
      have hsize := cfg.bufferSize_lt
      exact List.length_eq_zero_iff.mp (by omega)
    simp only [SentRequest.result, received, hnil, List.isEmpty_nil, if_true]

theorem recvRequests_whole (qs : List (SentRequest relaxed lexicalCast)) (hs : s.isConnected = true)
    (hin : s.incoming = qs.map SentRequest.text)
    (hfits : ∀ w ∈ s.incoming, w.length ≤ cfg.bufferSize) :
    ∃ t, recvRequests cfg relaxed lexicalCast qs.length s =
      .ok (qs.map fun q => some q.result, t) := by
  induction qs generalizing s with
  | nil => exact ⟨s,rfl⟩
  | cons q qs ih =>
    rw [List.map_cons] at hin
    obtain ⟨t,hcall,htin,ht,-⟩ := recvRequest_whole q hs hin (hfits _ (by simp [hin]))
    obtain ⟨u,hu⟩ := ih ht htin fun w hw => hfits w (by rw [hin, ← htin]; simp [hw])
    refine ⟨u,?_⟩
    simp only [List.length_cons, recvRequests, hcall, hu, bind, Except.bind, List.map_cons]

/-! ## A call that returns a request takes a read -/

/-- The session after some reads. -/
structure ReadsOn (s t : HttpSession) : Prop where
  count_le : t.incoming.length ≤ s.incoming.length
  bound : ∀ n, (∀ w ∈ s.incoming, w.length ≤ n) → ∀ w ∈ t.incoming, w.length ≤ n

theorem ReadsOn.refl (s : HttpSession) : ReadsOn s s := ⟨Nat.le_refl _,fun _ h => h⟩

theorem ReadsOn.trans {u : HttpSession} (h : ReadsOn s t) (h' : ReadsOn t u) : ReadsOn s u :=
  ⟨h'.count_le.trans h.count_le,fun n hn => h'.bound n (h.bound n hn)⟩

theorem ReadsOn.of_incoming (h : t.incoming = s.incoming) : ReadsOn s t := by
  constructor
  · rw [h]
  · intro n hn
    rw [h]
    exact hn

theorem read_readsOn (n : ℕ) (s : HttpSession) : ReadsOn s (s.read n).2 := by
  unfold read
  split
  next piece rest hc hin =>
    constructor
    · rw [hin]
      dsimp only
      split <;> simp
    · intro k hk w hw
      rw [hin] at hk
      dsimp only at hw
      split at hw
      · exact hk w (List.mem_cons_of_mem piece hw)
      · rcases List.mem_cons.mp hw with rfl | hw
        · have hpiece := hk piece List.mem_cons_self
          rw [List.length_drop]
          omega
        · exact hk w (List.mem_cons_of_mem piece hw)
  · exact ReadsOn.refl s

theorem readFixSize_readsOn {maxLen fuel left : ℕ} {data : Option (List UInt8)}
    (h : readFixSize maxLen fuel left s = .ok (data, t)) : ReadsOn s t := by
  induction fuel generalizing left s data with
  | zero =>
    cases left with
    | zero =>
      cases h
      exact ReadsOn.refl _
    | succ left => cases h
  | succ fuel ih =>
    cases left with
    | zero =>
      cases h
      exact ReadsOn.refl _
    | succ left =>
      rw [readFixSize] at h
      dsimp only at h
      have hread := read_readsOn (min (left + 1) maxLen) s
      split at h
      · cases h
        exact hread
      · obtain ⟨⟨rest,u⟩,hrest,h⟩ := exists_of_bind_eq_ok h
        cases h
        exact hread.trans (ih hrest)

theorem recvBody_readsOn {length : ℕ} {data : List UInt8} {body : Option (List UInt8)}
    (h : recvBody cfg length data s = .ok (body, t)) : ReadsOn s t := by
  unfold recvBody at h
  split at h
  · cases h
  · split at h
    · cases h
      exact ReadsOn.refl s
    · dsimp only at h
      obtain ⟨⟨rest,u⟩,hrest,h⟩ := exists_of_bind_eq_ok h
      dsimp only at h
      split at h
      · cases h
        exact readFixSize_readsOn hrest
      · cases h
        exact readFixSize_readsOn hrest

theorem recvHead_readsOn {fuel : ℕ} {data : List UInt8} {p : HttpRequestParser}
    {head : Option (List UInt8 × HttpRequestParser)}
    (h : recvHead cfg fuel data p s = .ok (head, t)) :
    ReadsOn s t := by
  induction fuel generalizing data p s with
  | zero => cases h
  | succ fuel ih =>
    rw [recvHead] at h
    dsimp only at h
    have hread := read_readsOn (cfg.bufferSize - data.length) s
    have hclose : ReadsOn s (s.read (cfg.bufferSize - data.length)).2.close :=
      hread.trans (ReadsOn.of_incoming rfl)
    split at h
    · cases h
      exact hclose
    · obtain ⟨⟨data',p'⟩,-,h⟩ := exists_of_bind_eq_ok h
      dsimp only at h
      split at h
      · cases h
        exact hclose
      · split at h
        · cases h
          exact hclose
        · split at h
          · cases h
            exact hread
          · exact hread.trans (ih h)

/-- The first read of a call empties the buffer of one piece. -/
theorem read_whole_lt (hfits : ∀ w ∈ s.incoming, w.length ≤ cfg.bufferSize)
    (hne : (s.read cfg.bufferSize).1 ≠ []) :
    (s.read cfg.bufferSize).2.incoming.length < s.incoming.length := by
  unfold read at hne ⊢
  split at hne
  next piece rest hc hin =>
    rw [hc, hin]
    dsimp only
    rw [if_pos (hfits piece (by rw [hin]; exact List.mem_cons_self))]
    simp
  · exact absurd rfl hne

theorem recvHead_some_lt {fuel : ℕ} {p : HttpRequestParser} {head : List UInt8 × HttpRequestParser}
    (hfits : ∀ w ∈ s.incoming, w.length ≤ cfg.bufferSize)
    (h : recvHead cfg fuel [] p s = .ok (some head, t)) :
    t.incoming.length < s.incoming.length := by
  cases fuel with
  | zero => cases h
  | succ fuel =>
    rw [recvHead] at h
    simp only [List.length_nil, Nat.sub_zero] at h
    split at h
    · cases h
    next hpiece =>
      have hlt := read_whole_lt hfits (by simpa using hpiece)
      obtain ⟨⟨data',p'⟩,-,h⟩ := exists_of_bind_eq_ok h
      dsimp only at h
      split at h
      · cases h
      · split at h
        · cases h
        · split at h
          · cases h
            exact hlt
          · exact (recvHead_readsOn h).count_le.trans_lt hlt

theorem recvRequest_readsOn {r : Option HttpRequest}
    (h : recvRequest cfg relaxed lexicalCast s = .ok (r, t)) :
    ReadsOn s t ∧ ((∀ w ∈ s.incoming, w.length ≤ cfg.bufferSize) → r.isSome = true →
      t.incoming.length < s.incoming.length) := by
  obtain ⟨⟨head,u⟩,hhead,h⟩ := exists_of_bind_eq_ok h
  have hon := recvHead_readsOn hhead
  cases head with
  | none =>
    cases h
    exact ⟨hon,nofun⟩
  | some head =>
    obtain ⟨data,parser⟩ := head
    have hlt := fun hfits => recvHead_some_lt hfits hhead
    obtain ⟨v,hcontinue,hv,-⟩ := expectContinue_frame parser.data u
    simp only [hcontinue] at h
    have hrest : ReadsOn v t := by
      split at h
      · obtain ⟨⟨body,x⟩,hbody,h⟩ := exists_of_bind_eq_ok h
        dsimp only at h
        split at h
        · cases h
          exact recvBody_readsOn hbody
        · cases h
          exact recvBody_readsOn hbody
      · cases h
        exact ReadsOn.refl _
    have huv : ReadsOn u t := (ReadsOn.of_incoming hv).trans hrest
    exact ⟨hon.trans huv,fun hfits _ => huv.count_le.trans_lt (hlt hfits)⟩

/-- Calls that all return a request are at most as many as the reads. -/
theorem recvRequests_count {k : ℕ} {rs : List (Option HttpRequest)}
    (hfits : ∀ w ∈ s.incoming, w.length ≤ cfg.bufferSize)
    (h : recvRequests cfg relaxed lexicalCast k s = .ok (rs, t))
    (hsome : ∀ r ∈ rs, r.isSome = true) : k ≤ s.incoming.length := by
  induction k generalizing s rs with
  | zero => exact Nat.zero_le _
  | succ k ih =>
    obtain ⟨⟨r,u⟩,hcall,h⟩ := exists_of_bind_eq_ok h
    obtain ⟨⟨rest,v⟩,hrest,h⟩ := exists_of_bind_eq_ok h
    cases h
    obtain ⟨hon,hlt⟩ := recvRequest_readsOn hcall
    have hu := ih (hon.bound _ hfits) hrest fun x hx => hsome x (List.mem_cons_of_mem r hx)
    have hless := hlt hfits (hsome r List.mem_cons_self)
    omega

/-! ## All requests come back -/

theorem length_one_of_sum_le {α : Type} {groups : List (List α)} (hne : ∀ g ∈ groups, g ≠ [])
    (hle : groups.flatten.length ≤ groups.length) : ∀ g ∈ groups, g.length = 1 := by
  induction groups with
  | nil => simp
  | cons g groups ih =>
    have hg : 0 < g.length := List.length_pos_iff.mpr (hne g List.mem_cons_self)
    have hrest := pieces_length_le fun x hx => hne x (List.mem_cons_of_mem g hx)
    rw [List.flatten_cons, List.length_append, List.length_cons] at hle
    intro x hx
    rcases List.mem_cons.mp hx with rfl | hx
    · omega
    · exact ih (fun y hy => hne y (List.mem_cons_of_mem g hy)) (by omega) x hx

theorem map_flatten_of_length_one {α : Type} (f : α → List UInt8) {groups : List (List α)}
    (hone : ∀ g ∈ groups, g.length = 1) :
    groups.map (fun g => (g.map f).flatten) = groups.flatten.map f := by
  induction groups with
  | nil => rfl
  | cons g groups ih =>
    obtain ⟨q,rfl⟩ := List.length_eq_one_iff.mp (hone g List.mem_cons_self)
    rw [List.map_cons, ih fun x hx => hone x (List.mem_cons_of_mem [q] hx)]
    simp

/-- For every sequence of requests and every way to group them into reads: as many calls as
requests return the requests in order exactly when every read carries one request. -/
theorem keep_alive_requests (groups : List (List (SentRequest relaxed lexicalCast)))
    (hs : Grouped cfg groups s) :
    (∃ t, recvRequests cfg relaxed lexicalCast groups.flatten.length s =
        .ok (groups.flatten.map fun q => some q.result, t)) ↔
      ∀ g ∈ groups, g.length = 1 := by
  constructor
  · rintro ⟨t,h⟩
    have hsome : ∀ r ∈ groups.flatten.map fun q => some q.result, r.isSome = true := by
      intro r hr
      obtain ⟨q,-,rfl⟩ := List.mem_map.mp hr
      rfl
    have hcount := recvRequests_count hs.fits h hsome
    rw [hs.incoming_eq, List.length_map] at hcount
    exact length_one_of_sum_le hs.nonempty hcount
  · intro hone
    have htexts : s.incoming = groups.flatten.map SentRequest.text := by
      rw [hs.incoming_eq]
      exact map_flatten_of_length_one SentRequest.text hone
    exact recvRequests_whole groups.flatten hs.connected htexts hs.fits

end

/-- A request for the path `/a`. -/
def getA : SentRequest false fun _ => none where
  head := bytes "GET /a HTTP/1.1\r\n\r\n"
  body := []
  reading :=
    { mark := 7
      field := 17
      request := { path := bytes "/a" }
      spans := [(0, 3), (4, 6), (7, 15)] }
  isRequest := ⟨by decide,by decide⟩

/-- A request that keeps the connection. -/
def keepA : SentRequest false fun _ => none where
  head := bytes "GET /a HTTP/1.1\r\nconnection:keep-alive\r\n\r\n"
  body := []
  reading :=
    { mark := 28
      field := 40
      nameLen := 10
      nameAt := 27
      request :=
        { path := bytes "/a"
          headers := [(bytes "connection", bytes "keep-alive")] }
      spans := [(0, 3), (4, 6), (7, 15), (17, 27), (17, 38), (27, 38), (28, 38)] }
  isRequest := ⟨by decide +kernel,by decide +kernel⟩

/-- Two requests in two reads. -/
theorem keep_alive_requests_two :
    ∃ t, recvRequests .default false (fun _ => none) 2 { incoming := [keepA.text, getA.text] } =
      .ok ([some keepA.result, some getA.result], t) :=
  (keep_alive_requests [[keepA], [getA]]
    ⟨rfl,rfl,by simp,by decide⟩).mpr (by simp)

/-- Two requests in one read: there is nothing left for the second call. -/
theorem pipelined_request_lost :
    ¬ ∃ t, recvRequests .default false (fun _ => none) 2
        { incoming := [keepA.text ++ keepA.text] } =
      .ok ([some keepA.result, some keepA.result], t) := by
  rintro ⟨t,h⟩
  have hcount := recvRequests_count (by decide) h (by simp)
  exact absurd hcount (by decide)

end Gudov.HttpSession
