import Gudov.HttpFraming
import Gudov.HttpKeepAlive
import Gudov.ServletDispatch

/-!
# `HttpServer::HandleClient`

A connection is served by one loop: a request is received, the servlet that the route table
has for its path fills in a response, and the response is sent. The flag `close` of the
response is set before the servlet is called, and whether the loop goes on is asked of the
request after it. Both say the same as long as the servlets leave these flags alone.
-/
namespace Gudov
open HttpSession

/-- What a servlet is given. -/
structure Exchange where
  request : HttpRequest
  response : HttpResponse
  session : HttpSession

/-- `Servlet::Handle`, where `W` is what the servlets keep from one call to the next. Nobody
looks at the number it returns. -/
abbrev Servlet (W : Type) := W → Exchange → W × Exchange

namespace NotFoundServlet

def body : List UInt8 :=
  bytes "<html><head><title>404 Not Found</title></head><body><center><h1>404 Not Found</h1>" ++
    bytes "</center><hr><center>gudov/1.0.0</center></body></html>"

def respond (r : HttpResponse) : HttpResponse :=
  let r := { r with status := 404 }
  let r := (r.setHeader (bytes "Server") (bytes "gudov/1.0.0")).setHeader (bytes "Content-Type")
    (bytes "text/html")
  { r with body := body }

def handle {W : Type} : Servlet W := fun w e => (w, { e with response := respond e.response })

end NotFoundServlet

/-- `ServletDispatch::Handle`: the servlet may be a null pointer. -/
def ServletDispatch.handle {W : Type} (fnmatch : List UInt8 → List UInt8 → Int32)
    (d : ServletDispatch (Option (Servlet W))) : Servlet W := fun w e =>
  match d.getMatchedServlet fnmatch e.request.path with
  | some slt => slt w e
  | none => (w, e)

def HttpSession.sendResponse (r : HttpResponse) (s : HttpSession) : HttpSession :=
  s.writeFixSize r.dump

structure HttpServer (W : Type) where
  name : List UInt8
  isKeepAlive : Bool
  dispatch : ServletDispatch (Option (Servlet W))

namespace HttpServer
variable {W : Type} (fnmatch : List UInt8 → List UInt8 → Int32) (srv : HttpServer W)

/-- The response as a servlet finds it. -/
def prepared (r : HttpRequest) : HttpResponse :=
  ({ version := r.version, close := r.close || !srv.isKeepAlive } : HttpResponse).setHeader
    (bytes "Server") srv.name

/-- The loop and the `Close` behind it. The fuel bounds the number of requests. -/
def handleClient (cfg : HttpConfig) (relaxed : Bool) (lexicalCast : List UInt8 → Option UInt64) :
    ℕ → W → HttpSession → Except Abort (W × HttpSession)
  | 0, _, _ => .error (.fault .outOfFuel)
  | fuel + 1, w, s => do
    let (r, s) ← recvRequest cfg relaxed lexicalCast s
    match r with
    | none => .ok (w, s.close)
    | some r =>
      let (w, e) := srv.dispatch.handle fnmatch w ⟨r,srv.prepared r,s⟩
      let s := e.session.sendResponse e.response
      if !srv.isKeepAlive || e.request.close then .ok (w, s.close)
      else handleClient cfg relaxed lexicalCast fuel w s

/-! ## What a connection is answered -/

/-- The servlet does not use the session, and leaves the flags `close` alone. -/
structure Plain (slt : Servlet W) (w : W) (e : Exchange) : Prop where
  session : (slt w e).2.session = e.session
  blind : ∀ s, (slt w { e with session := s }).1 = (slt w e).1 ∧
    (slt w { e with session := s }).2.response = (slt w e).2.response
  request_close : (slt w e).2.request.close = e.request.close
  response_close : (slt w e).2.response.close = e.response.close

/-- All servlets that a path may be routed to. -/
def AllPlain : Prop :=
  ∀ uri slt, srv.dispatch.getMatchedServlet fnmatch uri = some slt → ∀ w e, Plain slt w e

/-- After this request the connection is closed. -/
def ends (r : HttpRequest) : Bool := !srv.isKeepAlive || r.close

/-- The response to one request. -/
def answer (w : W) (r : HttpRequest) : W × HttpResponse :=
  let (w, e) := srv.dispatch.handle fnmatch w ⟨r,srv.prepared r,{ incoming := [] }⟩
  (w, e.response)

/-- The responses to some requests, one after the other. -/
def answers : W → List HttpRequest → W × List HttpResponse
  | w, [] => (w, [])
  | w, r :: rs =>
    let (w, a) := srv.answer fnmatch w r
    let (w, as) := answers w rs
    (w, a :: as)

section Served
variable {relaxed : Bool} {lexicalCast : List UInt8 → Option UInt64}

/-- The requests up to the first that ends the connection. -/
def served : List (SentRequest relaxed lexicalCast) → List (SentRequest relaxed lexicalCast)
  | [] => []
  | q :: qs => q :: if srv.ends q.result then [] else served qs

/-- What is written about a request: the answer to its `Expect`, and the response. -/
def written (q : SentRequest relaxed lexicalCast) (a : HttpResponse) : List UInt8 :=
  interim q.reading.request ++ a.dump

/-- What has become of a connection on which some requests came in and which is closed now. -/
structure Conversation (w : W) (s : HttpSession) (qs : List (SentRequest relaxed lexicalCast))
    (w' : W) (t : HttpSession) : Prop where
  closed : t.isConnected = false
  world : w' = (srv.answers fnmatch w ((srv.served qs).map SentRequest.result)).1
  /-- One response for each request that is served, in their order. -/
  outgoing_eq : t.outgoing = s.outgoing ++ ((srv.served qs).zipWith written
    (srv.answers fnmatch w ((srv.served qs).map SentRequest.result)).2).flatten
  /-- A response says that the connection is closed exactly when it is closed behind it. -/
  announced : (srv.answers fnmatch w ((srv.served qs).map SentRequest.result)).2.map
    HttpResponse.close = (srv.served qs).map fun q => srv.ends q.result
  /-- Only the last of them closes it, and the requests that are left have not been read. -/
  rest : ∃ rest, qs = srv.served qs ++ rest ∧ t.incoming = rest.map SentRequest.text ∧
    (∀ q ∈ (srv.served qs).dropLast, srv.ends q.result = false) ∧
    (rest ≠ [] → ∃ q, (srv.served qs).getLast? = some q ∧ srv.ends q.result = true)

variable {fnmatch srv} {cfg : HttpConfig} {w : W} {s : HttpSession}
  {q : SentRequest relaxed lexicalCast} {qs : List (SentRequest relaxed lexicalCast)}

theorem handle_plain (h : srv.AllPlain fnmatch) (w : W) (e : Exchange) :
    Plain (srv.dispatch.handle fnmatch) w e := by
  cases hslt : srv.dispatch.getMatchedServlet fnmatch e.request.path with
  | none => constructor <;> simp [ServletDispatch.handle, hslt]
  | some slt =>
    obtain ⟨hsession,hblind,hrequest,hresponse⟩ := h _ _ hslt w e
    constructor <;> simpa [ServletDispatch.handle, hslt]

/-- The servlet works on the session that is served as on an empty one. -/
theorem handle_answer (h : srv.AllPlain fnmatch) (w : W) (r : HttpRequest) (s : HttpSession) :
    ∃ e, srv.dispatch.handle fnmatch w ⟨r,srv.prepared r,s⟩ = ((srv.answer fnmatch w r).1, e) ∧
      e.session = s ∧ e.response = (srv.answer fnmatch w r).2 ∧ e.request.close = r.close := by
  have hp := handle_plain h w ⟨r,srv.prepared r,s⟩
  obtain ⟨hw,ha⟩ := hp.blind { incoming := [] }
  exact ⟨(srv.dispatch.handle fnmatch w ⟨r,srv.prepared r,s⟩).2,Prod.ext hw.symm rfl,hp.session,
    ha.symm,hp.request_close⟩

theorem answer_close (h : srv.AllPlain fnmatch) (w : W) (r : HttpRequest) :
    (srv.answer fnmatch w r).2.close = srv.ends r := by
  have hp := handle_plain h w ⟨r,srv.prepared r,{ incoming := [] }⟩
  rw [ends, Bool.or_comm]
  exact hp.response_close

/-- One turn of the loop. -/
theorem handleClient_turn (h : srv.AllPlain fnmatch) (hs : s.isConnected = true)
    {ws : List (List UInt8)} (hin : s.incoming = q.text :: ws)
    (hfits : q.text.length ≤ cfg.bufferSize) (fuel : ℕ) :
    ∃ t, t.incoming = ws ∧ t.isConnected = true ∧
      t.outgoing = s.outgoing ++ written q (srv.answer fnmatch w q.result).2 ∧
      srv.handleClient fnmatch cfg relaxed lexicalCast (fuel + 1) w s =
        if srv.ends q.result then .ok ((srv.answer fnmatch w q.result).1, t.close)
        else srv.handleClient fnmatch cfg relaxed lexicalCast fuel
          (srv.answer fnmatch w q.result).1 t := by
  obtain ⟨u,hcall,hin',hu,hout⟩ := recvRequest_whole q hs hin hfits
  obtain ⟨e,hhandle,hsession,hresponse,hclose⟩ := handle_answer h w q.result u
  refine ⟨u.sendResponse (srv.answer fnmatch w q.result).2,?_,?_,?_,?_⟩
  · simp only [sendResponse, writeFixSize, hu, if_true, hin']
  · simp only [sendResponse, writeFixSize, hu, if_true]
  · simp only [sendResponse, writeFixSize, hu, if_true, hout, written, List.append_assoc]
  · rw [handleClient]
    simp only [hcall, bind, Except.bind, hhandle, hsession, hresponse, hclose, ends]
    rfl

theorem answers_close (h : srv.AllPlain fnmatch) (w : W) (rs : List HttpRequest) :
    (srv.answers fnmatch w rs).2.map HttpResponse.close = rs.map srv.ends := by
  induction rs generalizing w with
  | nil => rfl
  | cons r rs ih => simp only [answers, List.map_cons, ih, answer_close h]

/-- What is served are the first requests; the last of them is the only one that may end the
connection, and if it does not then there are no others. -/
theorem served_prefix (srv : HttpServer W) (qs : List (SentRequest relaxed lexicalCast)) :
    ∃ rest, qs = srv.served qs ++ rest ∧
      (∀ q ∈ (srv.served qs).dropLast, srv.ends q.result = false) ∧
      (rest ≠ [] → ∃ q, (srv.served qs).getLast? = some q ∧ srv.ends q.result = true) := by
  induction qs with
  | nil => exact ⟨[],rfl,by simp [served],by simp⟩
  | cons q qs ih =>
    obtain ⟨rest,hqs,hmid,hlast⟩ := ih
    rw [served]
    by_cases hq : srv.ends q.result = true
    · rw [if_pos hq]
      exact ⟨qs,rfl,by simp,fun _ => ⟨q,rfl,hq⟩⟩
    · rw [if_neg hq]
      refine ⟨rest,by rw [List.cons_append, ← hqs],?_,?_⟩
      · intro x hx
        cases hserved : srv.served qs with
        | nil => simp [hserved] at hx
        | cons y ys =>
          rw [hserved, List.dropLast_cons_cons] at hx
          rcases List.mem_cons.mp hx with rfl | hx
          · simpa using hq
          · exact hmid x (by rw [hserved]; exact hx)
      · intro hrest
        obtain ⟨x,hx,hends⟩ := hlast hrest
        refine ⟨x,?_,hends⟩
        rw [List.getLast?_cons, hx]
        rfl

theorem handleClient_run (h : srv.AllPlain fnmatch) (hs : s.isConnected = true)
    (hin : s.incoming = qs.map SentRequest.text)
    (hfits : ∀ x ∈ s.incoming, x.length ≤ cfg.bufferSize) {fuel : ℕ} (hfuel : qs.length < fuel) :
    ∃ t, srv.handleClient fnmatch cfg relaxed lexicalCast fuel w s =
        .ok ((srv.answers fnmatch w ((srv.served qs).map SentRequest.result)).1, t) ∧
      t.isConnected = false ∧
      t.incoming = (qs.drop (srv.served qs).length).map SentRequest.text ∧
      t.outgoing = s.outgoing ++ ((srv.served qs).zipWith written
        (srv.answers fnmatch w ((srv.served qs).map SentRequest.result)).2).flatten := by
  induction qs generalizing s w fuel with
  | nil =>
    cases fuel with
    | zero => cases hfuel
    | succ fuel =>
      refine ⟨s.close.close,?_,rfl,hin,by simp [HttpSession.close, served]⟩
      have hcall : recvRequest cfg relaxed lexicalCast s = .ok (none, s.close) := by
        simp only [recvRequest, HttpSession.fuel, recvHead, HttpSession.read, hs, hin, List.map_nil]
        rfl
      rw [handleClient, hcall]
      rfl
  | cons q qs ih =>
    cases fuel with
    | zero => cases hfuel
    | succ fuel =>
      rw [List.map_cons] at hin
      obtain ⟨t,htin,ht,hout,hturn⟩ :=
        handleClient_turn h hs hin (hfits _ (by simp [hin])) fuel
      rw [hturn, served]
      by_cases hq : srv.ends q.result = true
      · rw [if_pos hq, if_pos hq]
        exact ⟨t.close,rfl,rfl,htin,by simpa [answers, HttpSession.close] using hout⟩
      · rw [if_neg hq, if_neg hq]
        obtain ⟨u,hrun,hu,huin,huout⟩ := ih ht htin
          (fun x hx => hfits x (by rw [hin, ← htin]; simp [hx])) (Nat.lt_of_succ_lt_succ hfuel)
        refine ⟨u,hrun,hu,huin,?_⟩
        rw [huout, hout, List.append_assoc]
        rfl

/-- Whatever requests come in, one with each read, and whatever the servlets answer: every
request up to the first that ends the connection gets one response, in order. -/
theorem handleClient_conversation (h : srv.AllPlain fnmatch) (hs : s.isConnected = true)
    (hin : s.incoming = qs.map SentRequest.text)
    (hfits : ∀ x ∈ s.incoming, x.length ≤ cfg.bufferSize) {fuel : ℕ} (hfuel : qs.length < fuel) :
    ∃ w' t, srv.handleClient fnmatch cfg relaxed lexicalCast fuel w s = .ok (w', t) ∧
      srv.Conversation fnmatch w s qs w' t := by
  obtain ⟨t,hrun,ht,htin,hout⟩ := handleClient_run h hs hin hfits hfuel
  obtain ⟨rest,hqs,hmid,hlast⟩ := served_prefix srv qs
  refine ⟨_,t,hrun,ht,rfl,hout,?_,rest,hqs,?_,hmid,hlast⟩
  · rw [answers_close h, List.map_map]
    rfl
  · have hdrop : qs.drop (srv.served qs).length = rest := by
      nth_rewrite 2 [hqs]
      exact List.drop_left
    rw [htin, hdrop]

end Served

/-- A server without a route. -/
def notFoundServer : HttpServer Unit where
  name := bytes "gudov/1.0.0"
  isKeepAlive := true
  dispatch := .new (some NotFoundServlet.handle)

theorem notFound_plain (fnmatch : List UInt8 → List UInt8 → Int32) :
    notFoundServer.AllPlain fnmatch := by
  intro uri slt hslt w e
  cases hslt
  constructor <;> simp [NotFoundServlet.handle, NotFoundServlet.respond, HttpResponse.setHeader]

/-- Of three requests the second ends the connection. -/
theorem handleClient_conversation_three :
    ∃ w' t, notFoundServer.handleClient (fun _ _ => 1) .default false (fun _ => none) 4 ()
        { incoming := [keepA.text, getA.text, getA.text] } = .ok (w', t) ∧
      notFoundServer.Conversation (fun _ _ => 1) ()
        { incoming := [keepA.text, getA.text, getA.text] } [keepA, getA, getA] w' t :=
  handleClient_conversation (notFound_plain _) rfl rfl (by decide) (by decide)

end HttpServer

end Gudov
