import Gudov.AddressOrder

/-!
# `Socket`

A socket holds a descriptor of the system, or none, and keeps the addresses of its two ends once
the system has told them. `Bind` and `Connect` open a descriptor where there is none; a `Connect`
that fails closes it. The system answers as it likes, but gives out the lowest descriptor that is
not open. The options that `InitSock` sets are left to it: their failure changes nothing.
-/
namespace Gudov

/-! ## The system -/

/-- `getsockname` tells the one end of a descriptor, `getpeername` the other. -/
inductive Endpoint
  | sock
  | peer
deriving Repr, DecidableEq

/-- What the system leaves in the storage that it is handed, and the length that it reports. -/
structure Sockname where
  storage : Address
  addrlen : ℕ
  addrlen_le : addrlen ≤ 110

/-- Nothing where the call fails. -/
abbrev Names := Endpoint → Address → Option Sockname

/-- An open socket of the system, with the address that the last `bind` gave it. -/
structure Descriptor where
  names : Names
  bound : Option Address
  listening : Bool

/-- The open sockets by their descriptors. -/
structure System where
  table : List (Option Descriptor)

namespace System

def lookup (fd : ℕ) (sys : System) : Option Descriptor := (sys.table[fd]?).join

/-- The lowest descriptor that is not open. -/
def unused (sys : System) : ℕ := sys.table.findIdx Option.isNone

/-- `socket()` where it succeeds. -/
def allocate (d : Descriptor) (sys : System) : ℕ × System :=
  (sys.unused, ⟨sys.table.take sys.unused ++ some d :: sys.table.drop (sys.unused + 1)⟩)

def update (fd : ℕ) (f : Descriptor → Option Descriptor) (sys : System) : System :=
  ⟨sys.table.modify fd (·.bind f)⟩

/-- `getsockname()` or `getpeername()`. -/
def name (fd : ℕ) (e : Endpoint) (result : Address) (sys : System) : Option Sockname :=
  (sys.lookup fd).bind fun d => d.names e result

/-- `close()` -/
def close (fd : ℕ) : System → System := update fd fun _ => none

theorem unused_le (sys : System) : sys.unused ≤ sys.table.length := List.findIdx_le_length

@[simp] theorem lookup_unused (sys : System) : sys.lookup sys.unused = none := by
  unfold lookup
  by_cases h : sys.unused < sys.table.length
  · rw [List.getElem?_eq_getElem h]
    have hnone := List.findIdx_getElem (w := h)
    exact Option.isNone_iff_eq_none.mp hnone
  · rw [List.getElem?_eq_none (Nat.le_of_not_lt h)]
    rfl

theorem lookup_allocate (d : Descriptor) (sys : System) (fd : ℕ) :
    (sys.allocate d).2.lookup fd = if fd = sys.unused then some d else sys.lookup fd := by
  have htake : (sys.table.take sys.unused).length = sys.unused := by
    rw [List.length_take]
    exact Nat.min_eq_left sys.unused_le
  simp only [lookup, allocate]
  split
  next h =>
    subst h
    rw [List.getElem?_append_right (Nat.le_of_eq htake), htake, Nat.sub_self]
    rfl
  next h =>
    rcases Nat.lt_or_gt_of_ne h with hlt | hgt
    · rw [List.getElem?_append_left (by rwa [htake]), List.getElem?_take_of_lt hlt]
    · rw [List.getElem?_append_right (by omega), htake]
      obtain ⟨k,rfl⟩ := Nat.exists_eq_add_of_lt hgt
      rw [show sys.unused + k + 1 - sys.unused = k + 1 by omega, List.getElem?_cons_succ,
        List.getElem?_drop]
      congr 2
      omega

@[simp] theorem lookup_allocate_self (d : Descriptor) (sys : System) :
    (sys.allocate d).2.lookup (sys.allocate d).1 = some d :=
  (lookup_allocate d sys _).trans (if_pos rfl)

theorem lookup_update (fd : ℕ) (f : Descriptor → Option Descriptor) (sys : System) (fd' : ℕ) :
    (sys.update fd f).lookup fd' =
      if fd = fd' then (sys.lookup fd').bind f else sys.lookup fd' := by
  simp only [lookup, update, List.getElem?_modify]
  split
  next h => cases sys.table[fd']? <;> rfl
  next h => cases sys.table[fd']? <;> rfl

end System

/-- How the system answers in one call: the names of the descriptor where the call succeeds. -/
structure Answers where
  socket : ℤ → ℤ → ℤ → Option Names
  bind : Address → Option Names
  connect : Address → Option Names
  connectWithTimeout : Address → ℕ → Option Names
  listen : ℤ → Bool

/-! ## Addresses of a family -/

namespace Address

def getFamily : Address → ℤ
  | ipv4 a => a.addr.sinFamily.toNat
  | ipv6 a => a.addr.sin6Family.toNat
  | unix a => a.addr.sunFamily.toNat
  | unknown a => a.addr.saFamily.toNat

/-- The storage for a name. `INADDR_ANY` and the port are zero in any byte order. -/
def ofFamily (family : ℤ) : Address :=
  if family = afInet.toNat then
    .ipv4 ⟨{ sinFamily := afInet, sinPort := 0, sAddr := 0, sinZero := 0 }⟩
  else if family = afInet6.toNat then
    .ipv6 ⟨{ sin6Family := afInet6, sin6Port := 0, sin6Flowinfo := 0,
             s6Addr := Vector.replicate 16 0, sin6ScopeId := 0 }⟩
  else if family = afUnix.toNat then .unix .empty
  else .unknown (.ofFamily (UInt16.ofInt family))

/-- Only a `UnixAddress` has a length to set. -/
def setAddrLen (v : ℕ) (h : v ≤ 110) : Address → Address
  | unix a => .unix (a.setAddrLen v h)
  | a => a

end Address

/-- The address that is made of a name. -/
def Sockname.address (family : ℤ) (name : Sockname) : Address :=
  if family = afUnix.toNat then name.storage.setAddrLen name.addrlen name.addrlen_le
  else name.storage

/-! ## The socket -/

def sockStream : ℤ := 1
def sockDgram : ℤ := 2
def somaxconn : ℤ := 4096

/-- A descriptor of -1 is none. -/
structure Socket where
  sock : Option ℕ
  family : ℤ
  type : ℤ
  protocol : ℤ
  isConnected : Bool
  localAddress : Option Address
  remoteAddress : Option Address
deriving Repr, DecidableEq

namespace Socket

def new (family type protocol : ℤ) : Socket where
  sock := none
  family := family
  type := type
  protocol := protocol
  isConnected := false
  localAddress := none
  remoteAddress := none

def isValid (s : Socket) : Bool := s.sock.isSome

def newSock (ans : Answers) (s : Socket) (sys : System) : Socket × System :=
  match ans.socket s.family s.type s.protocol with
  | some names =>
    let (fd, sys) := sys.allocate { names := names, bound := none, listening := false }
    ({ s with sock := some fd }, sys)
  | none => ({ s with sock := none }, sys)

def createTCP (address : Address) : Socket := new address.getFamily sockStream 0

def createUDP (address : Address) (ans : Answers) (sys : System) : Socket × System :=
  let (s, sys) := (new address.getFamily sockDgram 0).newSock ans sys
  ({ s with isConnected := true }, sys)

/-! ### Names -/

def cached (e : Endpoint) (s : Socket) : Option Address :=
  match e with
  | .sock => s.localAddress
  | .peer => s.remoteAddress

def setCached (e : Endpoint) (a : Address) (s : Socket) : Socket :=
  match e with
  | .sock => { s with localAddress := some a }
  | .peer => { s with remoteAddress := some a }

/-- What the two functions below share: they differ in the cache and in the call. -/
def getAddress (e : Endpoint) (s : Socket) (sys : System) : Address × Socket :=
  match s.cached e with
  | some a => (a, s)
  | none =>
    let result := Address.ofFamily s.family
    match s.sock.bind fun fd => sys.name fd e result with
    | none => (.unknown (.ofFamily (UInt16.ofInt s.family)), s)
    | some name =>
      let result := name.address s.family
      (result, s.setCached e result)

def getRemoteAddress : Socket → System → Address × Socket := getAddress .peer

def getLocalAddress : Socket → System → Address × Socket := getAddress .sock

/-! ### Calls -/

def close (s : Socket) (sys : System) : Bool × Socket × System :=
  if !s.isConnected && s.sock.isNone then (true, s, sys)
  else
    match s.sock with
    | some fd => (false, { s with isConnected := false, sock := none }, sys.close fd)
    | none => (false, { s with isConnected := false }, sys)

/-- `Bind` and `Connect` begin so. -/
def ensureSock (ans : Answers) (s : Socket) (sys : System) : Socket × System :=
  if s.isValid then (s, sys) else s.newSock ans sys

def bind (addr : Address) (ans : Answers) (s : Socket) (sys : System) :
    Bool × Socket × System :=
  let (s, sys) := s.ensureSock ans sys
  match s.sock with
  | none => (false, s, sys)
  | some fd =>
    if addr.getFamily ≠ s.family then (false, s, sys)
    else
      match ans.bind addr with
      | none => (false, s, sys)
      | some names =>
        let sys := sys.update fd fun d => some { d with names := names, bound := some addr }
        (true, (s.getLocalAddress sys).2, sys)

/-- A timeout of `(uint64_t)-1` is none. -/
def connect (addr : Address) (timeoutMs : ℕ) (ans : Answers) (s : Socket) (sys : System) :
    Bool × Socket × System :=
  let (s, sys) := s.ensureSock ans sys
  match s.sock with
  | none => (false, s, sys)
  | some fd =>
    if addr.getFamily ≠ s.family then (false, s, sys)
    else
      match if timeoutMs = 2 ^ 64 - 1 then ans.connect addr
        else ans.connectWithTimeout addr timeoutMs with
      | none => (false, (s.close sys).2)
      | some names =>
        let sys := sys.update fd fun d => some { d with names := names }
        let s := { s with isConnected := true }
        let s := (s.getRemoteAddress sys).2
        (true, (s.getLocalAddress sys).2, sys)

def listen (backLog : ℤ) (ans : Answers) (s : Socket) (sys : System) : Bool × System :=
  match s.sock with
  | none => (false, sys)
  | some fd =>
    if ans.listen backLog then
      (true, sys.update fd fun d => some { d with listening := true })
    else (false, sys)

/-- The descriptor of an accepted connection is taken if the descriptor manager knows it as an
open socket. -/
def init (sock : ℕ) (known : Bool) (s : Socket) (sys : System) : Bool × Socket :=
  if known then
    let s := { s with sock := some sock, isConnected := true }
    let s := (s.getLocalAddress sys).2
    (true, (s.getRemoteAddress sys).2)
  else (false, s)

end Socket

end Gudov
