import Gudov.SocketAddresses

/-!
# `TcpServer::Bind`

The addresses are tried one by one; a socket that is bound and listens joins the sockets of the
server at once. If an address failed in the end, the sockets are dropped: those of this call, and
with them those of every call before it.
-/
namespace Gudov

/-- The sockets that accept fibers hold too are known by their descriptors. -/
structure TcpServer where
  socks : List Socket
  accepting : List ℕ

namespace TcpServer

/-- `~Socket()` -/
def release (sys : System) (s : Socket) : System := (s.close sys).2.2

/-- A socket is dropped with the last pointer to it. -/
def held (server : TcpServer) (s : Socket) : Bool :=
  s.sock.any fun fd => server.accepting.contains fd

/-- The body of the loop: the socket, if it could be bound and listens. -/
def bindOne (addr : Address) (ans : Answers) (sys : System) : Option Socket × System :=
  let (bound, sock, sys) := (Socket.createTCP addr).bind addr ans sys
  if !bound then (none, release sys sock)
  else
    let (listening, sys) := sock.listen somaxconn ans sys
    if !listening then (none, release sys sock)
    else (some sock, sys)

/-- The loop over the addresses, each with the answers of the system. -/
def bindEach : List (Address × Answers) → List Socket → List Address → System →
    List Socket × List Address × System
  | [], socks, fails, sys => (socks, fails, sys)
  | (addr, ans) :: calls, socks, fails, sys =>
    match bindOne addr ans sys with
    | (some sock, sys) => bindEach calls (socks ++ [sock]) fails sys
    | (none, sys) => bindEach calls socks (fails ++ [addr]) sys

structure Bound where
  ok : Bool
  server : TcpServer
  fails : List Address
  sys : System

def bind (calls : List (Address × Answers)) (fails : List Address) (server : TcpServer)
    (sys : System) : Bound :=
  let (socks, fails, sys) := bindEach calls server.socks fails sys
  if !fails.isEmpty then
    { ok := false
      server := { server with socks := [] }
      fails := fails
      sys := (socks.filter fun s => !server.held s).foldl release sys }
  else { ok := true, server := { server with socks := socks }, fails := fails, sys := sys }

/-! ## All or nothing -/

/-- What the system lets succeed. -/
def succeeds (call : Address × Answers) : Bool :=
  (call.2.socket call.1.getFamily sockStream 0).isSome && (call.2.bind call.1).isSome &&
    call.2.listen somaxconn

/-- The socket's descriptor is open, bound to the address, and listens. -/
def ListensOn (sys : System) (addr : Address) (s : Socket) : Prop :=
  ∃ fd d, s.sock = some fd ∧ sys.lookup fd = some d ∧ d.bound = some addr ∧ d.listening = true

/-- Either there is one more listening socket for each address, in order and with descriptors of
their own, or the failed addresses are told and the server has the sockets it had. -/
def AllOrNothing (server : TcpServer) (calls : List (Address × Answers)) (r : Bound) : Prop :=
  (r.ok = true ∧ r.fails = [] ∧ ∃ new, r.server.socks = server.socks ++ new ∧
    List.Forall₂ (ListensOn r.sys) (calls.map Prod.fst) new ∧ (new.map Socket.sock).Nodup) ∨
  (r.ok = false ∧ r.fails = (calls.filter fun call => !succeeds call).map Prod.fst ∧
    r.server.socks = server.socks)

/-! ## One address -/

section
variable {addr : Address} {ans : Answers} {sys : System}

theorem getLocalAddress_sock (s : Socket) (sys : System) :
    (s.getLocalAddress sys).2.sock = s.sock := (Socket.getAddress_fills .sock s sys).sock

theorem createTCP_ensureSock {fresh : Names}
    (hsocket : ans.socket addr.getFamily sockStream 0 = some fresh) :
    (Socket.createTCP addr).ensureSock ans sys =
      ({ Socket.createTCP addr with sock := some sys.unused },
        (sys.allocate { names := fresh, bound := none, listening := false }).2) := by
  rw [Socket.ensureSock, Socket.newSock]
  simp only [Socket.createTCP, Socket.new, Socket.isValid, hsocket]
  rfl

theorem bindOne_fails (sys : System) (h : succeeds (addr, ans) = false) :
    (bindOne addr ans sys).1 = none := by
  cases hsocket : ans.socket addr.getFamily sockStream 0 with
  | none =>
    simp [bindOne, Socket.bind, Socket.ensureSock, Socket.newSock, Socket.createTCP, Socket.new,
      Socket.isValid, hsocket]
  | some fresh =>
    cases hbind : ans.bind addr with
    | none =>
      simp only [bindOne, Socket.bind, createTCP_ensureSock hsocket, hbind]
      simp [Socket.createTCP, Socket.new]
    | some names =>
      have hlisten : ans.listen somaxconn = false := by simpa [succeeds, hsocket, hbind] using h
      simp only [bindOne, Socket.bind, createTCP_ensureSock hsocket, hbind]
      simp [Socket.createTCP, Socket.new, Socket.listen, getLocalAddress_sock, hlisten]

/-- The three calls of the system on the new descriptor. -/
theorem bindOne_eq (sys : System) {fresh names : Names}
    (hsocket : ans.socket addr.getFamily sockStream 0 = some fresh)
    (hbind : ans.bind addr = some names) (hlisten : ans.listen somaxconn = true) :
    ∃ s, s.sock = some sys.unused ∧ bindOne addr ans sys = (some s,
      ((sys.allocate { names := fresh, bound := none, listening := false }).2.update sys.unused
        fun d => some { d with names := names, bound := some addr }).update sys.unused
        fun d => some { d with listening := true }) := by
  simp only [bindOne, Socket.bind, createTCP_ensureSock hsocket, hbind]
  simp [Socket.createTCP, Socket.new, Socket.listen, getLocalAddress_sock, hlisten]

/-- The descriptor is a new one, and no other one changes. -/
theorem bindOne_succeeds (sys : System) (h : succeeds (addr, ans) = true) :
    ∃ s fd sys', bindOne addr ans sys = (some s, sys') ∧ s.sock = some fd ∧
      sys.lookup fd = none ∧ ListensOn sys' addr s ∧
      ∀ fd', fd' ≠ fd → sys'.lookup fd' = sys.lookup fd' := by
  simp only [succeeds, Bool.and_eq_true, Option.isSome_iff_exists] at h
  obtain ⟨⟨⟨fresh,hsocket⟩,names,hbind⟩,hlisten⟩ := h
  obtain ⟨s,hs,hone⟩ := bindOne_eq sys hsocket hbind hlisten
  refine ⟨s,sys.unused,_,hone,hs,sys.lookup_unused,?_,?_⟩
  · refine ⟨sys.unused,{ names := names, bound := some addr, listening := true },hs,?_,rfl,rfl⟩
    simp [System.lookup_update, System.lookup_allocate]
  · intro fd' hne
    simp [System.lookup_update, System.lookup_allocate, hne, Ne.symm hne]

end

/-! ## The loop -/

/-- The failed addresses are told in order. -/
theorem bindEach_fails (calls : List (Address × Answers)) (socks : List Socket)
    (fails : List Address) (sys : System) :
    (bindEach calls socks fails sys).2.1 =
      fails ++ (calls.filter fun call => !succeeds call).map Prod.fst := by
  induction calls generalizing socks fails sys with
  | nil => simp [bindEach]
  | cons call calls ih =>
    obtain ⟨addr,ans⟩ := call
    cases h : succeeds (addr, ans) with
    | true =>
      obtain ⟨s,_,sys',hone,_⟩ := bindOne_succeeds sys h
      rw [bindEach, hone]
      simp [ih, h]
    | false =>
      have hone := bindOne_fails sys h
      rw [bindEach]
      generalize bindOne addr ans sys = r at hone
      obtain ⟨s,sys'⟩ := r
      cases hone
      simp [ih, h]

theorem ListensOn.of_lookup {sys sys' : System} {addr : Address} {s : Socket}
    (h : ListensOn sys addr s)
    (hlookup : ∀ fd, s.sock = some fd → sys'.lookup fd = sys.lookup fd) :
    ListensOn sys' addr s := by
  obtain ⟨fd,d,hfd,hd,hbound⟩ := h
  exact ⟨fd,d,hfd,(hlookup fd hfd).trans hd,hbound⟩

/-- If no address fails, each has a new socket, and what was open stays as it was. -/
theorem bindEach_succeeds {calls : List (Address × Answers)}
    (h : ∀ call ∈ calls, succeeds call = true) (socks : List Socket) (fails : List Address)
    (sys : System) :
    ∃ new sys', bindEach calls socks fails sys = (socks ++ new, fails, sys') ∧
      List.Forall₂ (ListensOn sys') (calls.map Prod.fst) new ∧ (new.map Socket.sock).Nodup ∧
      (∀ s ∈ new, ∀ fd, s.sock = some fd → sys.lookup fd = none) ∧
      ∀ fd, (sys.lookup fd).isSome → sys'.lookup fd = sys.lookup fd := by
  induction calls generalizing socks sys with
  | nil =>
    refine ⟨[],sys,?_,.nil,List.nodup_nil,?_,fun _ _ => rfl⟩
    · rw [bindEach, List.append_nil]
    · intro s hs
      cases hs
  | cons call calls ih =>
    obtain ⟨addr,ans⟩ := call
    obtain ⟨s,fd,sys₁,hone,hs,hunused,hlistens,hframe⟩ :=
      bindOne_succeeds sys (h _ List.mem_cons_self)
    obtain ⟨new,sys',heach,hall,hnodup,hfresh,hkept⟩ :=
      ih (fun call hcall => h call (List.mem_cons_of_mem _ hcall)) (socks ++ [s]) sys₁
    have hopen : (sys₁.lookup fd).isSome := by
      obtain ⟨fd',d,hfd',hd,_⟩ := hlistens
      cases hs.symm.trans hfd'
      exact Option.isSome_iff_exists.mpr ⟨d,hd⟩
    refine ⟨s :: new,sys',?_,.cons ?_ hall,?_,?_,?_⟩
    · rw [bindEach, hone]
      simp [heach]
    · refine hlistens.of_lookup fun fd' hfd' => ?_
      cases hs.symm.trans hfd'
      exact hkept fd hopen
    · refine List.nodup_cons.mpr ⟨fun hmem => ?_,hnodup⟩
      obtain ⟨s',hs',hsame⟩ := List.mem_map.mp hmem
      have hnone := hfresh s' hs' fd (hsame.trans hs)
      rw [hnone] at hopen
      cases hopen
    · intro s' hs' fd' hfd'
      rcases List.mem_cons.mp hs' with rfl | hs'
      · cases hs.symm.trans hfd'
        exact hunused
      · have hnone := hfresh s' hs' fd' hfd'
        rwa [hframe] at hnone
        rintro rfl
        rw [hnone] at hopen
        cases hopen
    · intro fd' hfd'
      have hne : fd' ≠ fd := by
        rintro rfl
        rw [hunused] at hfd'
        cases hfd'
      rw [hkept fd' (by rwa [hframe fd' hne]), hframe fd' hne]

end TcpServer

open TcpServer

/-- For every server, every list of addresses and every answer of the system: the call is all or
nothing exactly if no address fails, or the server had no socket before. -/
theorem bind_all_or_nothing_iff (server : TcpServer) (calls : List (Address × Answers))
    (sys : System) :
    AllOrNothing server calls (server.bind calls [] sys) ↔
      (∀ call ∈ calls, succeeds call = true) ∨ server.socks = [] := by
  by_cases hall : ∀ call ∈ calls, succeeds call = true
  · obtain ⟨new,sys',heach,hnew,hnodup,_⟩ := bindEach_succeeds hall server.socks [] sys
    refine iff_of_true (.inl ?_) (.inl hall)
    simp only [TcpServer.bind, heach]
    exact ⟨rfl,rfl,new,rfl,hnew,hnodup⟩
  · have hfails := bindEach_fails calls server.socks [] sys
    rw [List.nil_append] at hfails
    have hsome : (calls.filter fun call => !succeeds call).map Prod.fst ≠ [] := by
      simpa using hall
    have hbind : (server.bind calls [] sys).ok = false ∧
        (server.bind calls [] sys).fails =
          (calls.filter fun call => !succeeds call).map Prod.fst ∧
        (server.bind calls [] sys).server.socks = [] := by
      simp only [TcpServer.bind, hfails, List.isEmpty_eq_false_iff.mpr hsome]
      exact ⟨rfl,rfl,rfl⟩
    rw [or_iff_right hall, AllOrNothing, hbind.1, hbind.2.1, hbind.2.2]
    constructor
    · rintro (⟨hok,_⟩ | ⟨_,_,hsocks⟩)
      · cases hok
      · exact hsocks.symm
    · intro hsocks
      exact .inr ⟨rfl,rfl,hsocks.symm⟩

/-! ## A second call -/

namespace TcpServer

def answering (bound : Bool) : Answers where
  socket _ _ _ := some fun _ _ => none
  bind _ := if bound then some fun _ _ => none else none
  connect _ := none
  connectWithTimeout _ _ := none
  listen _ := true

/-- The first call binds one address. -/
def listening : Bound := bind [(ipv4 1, answering true)] [] { socks := [], accepting := [] } ⟨[]⟩

end TcpServer

/-- The second call fails, and the listening socket of the first one is gone. -/
theorem failed_bind_drops_sockets :
    let r := listening.server.bind [(ipv4 2, answering false)] [] listening.sys
    listening.server.socks.length = 1 ∧ r.ok = false ∧ r.fails = [ipv4 2] ∧
      r.server.socks = [] ∧
      ¬ AllOrNothing listening.server [(ipv4 2, answering false)] r := by
  refine ⟨by decide,by decide,by decide,by decide,?_⟩
  rintro (⟨hok,_⟩ | ⟨_,_,hsocks⟩)
  · exact absurd hok (by decide)
  · exact absurd hsocks (by decide)

end Gudov
