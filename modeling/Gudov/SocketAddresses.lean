import Gudov.Socket
import Gudov.StepSystem

/-!
# The addresses that a socket caches

`GetRemoteAddress` and `GetLocalAddress` ask the system once and keep the answer. No call ever
empties a cache: `Close` and `NewSock` leave both as they are, and so do a `Bind` and a `Connect`
of a descriptor whose names they change. The answers stay right exactly as long as the system gives
a descriptor no name other than the one that is cached.
-/
namespace Gudov
open StepSystem

namespace Socket

/-- The address that the system reports for the descriptor that is open now. -/
def reported (e : Endpoint) (s : Socket) (sys : System) : Option Address :=
  (s.sock.bind fun fd => sys.name fd e (.ofFamily s.family)).map (·.address s.family)

/-- `rename` is the system's own: it comes to report other names, as when the peer goes away. -/
inductive Op
  | bind (addr : Address) (ans : Answers)
  | connect (addr : Address) (timeoutMs : ℕ) (ans : Answers)
  | close
  | getRemoteAddress
  | getLocalAddress
  | rename (names : Names)

def next (st : Socket × System) : Op → Socket × System
  | .bind addr ans => (st.1.bind addr ans st.2).2
  | .connect addr timeoutMs ans => (st.1.connect addr timeoutMs ans st.2).2
  | .close => (st.1.close st.2).2
  | .getRemoteAddress => ((st.1.getRemoteAddress st.2).2, st.2)
  | .getLocalAddress => ((st.1.getLocalAddress st.2).2, st.2)
  | .rename names =>
    match st.1.sock with
    | none => st
    | some fd => (st.1, st.2.update fd fun d => some { d with names := names })

def step (st : Socket × System) (op : Op) : Except Fault (Unit × Socket × System) :=
  .ok ((), next st op)

/-- Where the system can tell the name, the address returned is what it reports. -/
def Current (st : Socket × System) : Prop :=
  ∀ e a, st.1.reported e st.2 = some a → (st.1.getAddress e st.2).1 = a

def Open (st : Socket × System) : Prop :=
  ∀ fd, st.1.sock = some fd → (st.2.lookup fd).isSome

/-- The descriptor is open in the system and the answers are right. -/
structure Sound (st : Socket × System) : Prop where
  isOpen : Open st
  current : Current st

/-! ## What a call names -/

/-- The names of a new descriptor, where the call has to open one. -/
def opening (ans : Answers) (s : Socket) : Option Names :=
  if s.isValid then none else ans.socket s.family s.type s.protocol

/-- The names that the system gives in a call to the descriptor that is open after it. A `Connect`
that fails leaves none open. -/
def Op.given (s : Socket) : Op → Option Names
  | .bind addr ans =>
    if s.isValid || (s.opening ans).isSome then
      if addr.getFamily = s.family then (ans.bind addr).or (s.opening ans) else s.opening ans
    else none
  | .connect addr timeoutMs ans =>
    if s.isValid || (s.opening ans).isSome then
      if addr.getFamily = s.family then
        if timeoutMs = 2 ^ 64 - 1 then ans.connect addr
        else ans.connectWithTimeout addr timeoutMs
      else s.opening ans
    else none
  | .rename names => if s.isValid then some names else none
  | _ => none

/-- The system gives no name that differs from a cached one. -/
def Keeps (st : Socket × System) (op : Op) : Prop :=
  ∀ names, op.given st.1 = some names → ∀ e a, st.1.cached e = some a →
    ∀ name, names e (.ofFamily st.1.family) = some name → name.address st.1.family = a

/-! ## Caches are filled, never emptied -/

@[simp] theorem setCached_sock (e : Endpoint) (a : Address) (s : Socket) :
    (s.setCached e a).sock = s.sock := by cases e <;> rfl

@[simp] theorem setCached_family (e : Endpoint) (a : Address) (s : Socket) :
    (s.setCached e a).family = s.family := by cases e <;> rfl

theorem cached_setCached (e : Endpoint) (a : Address) (s : Socket) (e' : Endpoint) :
    (s.setCached e a).cached e' = if e' = e then some a else s.cached e' := by
  cases e <;> cases e' <;> rfl

/-- From one socket to the other some caches are filled with what the system reports. -/
structure Fills (sys : System) (s s' : Socket) : Prop where
  sock : s'.sock = s.sock
  family : s'.family = s.family
  kept : ∀ e a, s.cached e = some a → s'.cached e = some a
  filled : ∀ e a, s.cached e = none → s'.cached e = some a → s.reported e sys = some a

theorem Fills.refl (sys : System) (s : Socket) : Fills sys s s where
  sock := rfl
  family := rfl
  kept _ _ h := h
  filled e a hnone hsome := by
    rw [hnone] at hsome
    cases hsome

theorem Fills.reported {sys : System} {s s' : Socket} (h : Fills sys s s') (e : Endpoint) :
    s'.reported e sys = s.reported e sys := by
  rw [Socket.reported, h.sock, h.family]
  rfl

theorem Fills.trans {sys : System} {s s' s'' : Socket} (h : Fills sys s s')
    (h' : Fills sys s' s'') : Fills sys s s'' where
  sock := h'.sock.trans h.sock
  family := h'.family.trans h.family
  kept e a ha := h'.kept e a (h.kept e a ha)
  filled e a hnone hsome := by
    cases hmid : s'.cached e with
    | none =>
      rw [← h.reported e]
      exact h'.filled e a hmid hsome
    | some b =>
      have hb := h'.kept e b hmid
      rw [hsome] at hb
      cases hb
      exact h.filled e a hnone hmid

theorem getAddress_fills (e : Endpoint) (s : Socket) (sys : System) :
    Fills sys s (s.getAddress e sys).2 := by
  cases hcached : s.cached e with
  | some a =>
    have hsame : (s.getAddress e sys).2 = s := by simp [getAddress, hcached]
    rw [hsame]
    exact .refl sys s
  | none =>
    cases hname : s.sock.bind fun fd => sys.name fd e (.ofFamily s.family) with
    | none =>
      have hsame : (s.getAddress e sys).2 = s := by simp [getAddress, hcached, hname]
      rw [hsame]
      exact .refl sys s
    | some name =>
      have hset : (s.getAddress e sys).2 = s.setCached e (name.address s.family) := by
        simp [getAddress, hcached, hname]
      rw [hset]
      refine ⟨setCached_sock _ _ s,setCached_family _ _ s,?_,?_⟩
      · intro e' a ha
        rw [cached_setCached, if_neg]
        · exact ha
        · rintro rfl
          rw [hcached] at ha
          cases ha
      · intro e' a hnone hsome
        rw [cached_setCached] at hsome
        split at hsome
        next h =>
          cases hsome
          rw [h, reported, hname]
          rfl
        next h =>
          rw [hnone] at hsome
          cases hsome

/-- A full cache is the answer; with an empty one the answer is the report. -/
theorem current_iff {st : Socket × System} : Current st ↔
    ∀ e a b, st.1.cached e = some a → st.1.reported e st.2 = some b → b = a := by
  constructor
  · intro h e a b hcached hreported
    have hanswer := h e b hreported
    rw [getAddress, hcached] at hanswer
    exact hanswer.symm
  · intro h e b hreported
    cases hcached : st.1.cached e with
    | some a =>
      rw [h e a b hcached hreported]
      simp [getAddress, hcached]
    | none =>
      obtain ⟨name,hname,rfl⟩ := Option.map_eq_some_iff.mp hreported
      simp [getAddress, hcached, hname]

/-- What is filled in now is right now. -/
theorem Sound.fills {sys : System} {s s' : Socket} (h : Sound (s, sys)) (hfills : Fills sys s s') :
    Sound (s', sys) := by
  constructor
  · intro fd hfd
    rw [hfills.sock] at hfd
    exact h.isOpen fd hfd
  · rw [current_iff]
    intro e a b hcached hreported
    rw [hfills.reported] at hreported
    cases hbefore : s.cached e with
    | none =>
      have hfilled := hfills.filled e a hbefore hcached
      rw [hreported] at hfilled
      cases hfilled
      rfl
    | some a' =>
      have hkept := hfills.kept e a' hbefore
      rw [hcached] at hkept
      cases hkept
      exact current_iff.mp h.current e a b hbefore hreported

/-! ## What a call does to the descriptor -/

/-- The caches stay; the descriptor has the names that are given, and reports nothing new if none
are. -/
structure Moves (st st' : Socket × System) (given : Option Names) : Prop where
  isOpen : Open st'
  family : st'.1.family = st.1.family
  cached : ∀ e, st'.1.cached e = st.1.cached e
  named : ∀ names, given = some names → ∀ e,
    st'.1.reported e st'.2 = (names e (.ofFamily st.1.family)).map (·.address st.1.family)
  unnamed : given = none → ∀ e a, st'.1.reported e st'.2 = some a → st.1.reported e st.2 = some a

section
variable {st st' st'' : Socket × System} {given : Option Names}

theorem Moves.stay (hopen : Open st) : Moves st st none where
  isOpen := hopen
  family := rfl
  cached _ := rfl
  named _ h := by cases h
  unnamed _ _ _ h := h

theorem Moves.rename {names : Names} (h : Moves st st' given) (h' : Moves st' st'' (some names)) :
    Moves st st'' (some names) where
  isOpen := h'.isOpen
  family := h'.family.trans h.family
  cached e := (h'.cached e).trans (h.cached e)
  named other hother e := by
    rw [← h.family]
    exact h'.named other hother e
  unnamed hnone := by cases hnone

/-- Without a descriptor nothing is reported. -/
theorem Moves.close (h : Moves st st' given) : Moves st (st'.1.close st'.2).2 none := by
  have hsock : (st'.1.close st'.2).2.1.sock = none := by
    unfold Socket.close
    split
    next hclosed => exact Option.isNone_iff_eq_none.mp (Bool.and_eq_true_iff.mp hclosed).2
    next => split <;> [rfl; assumption]
  have hsame : (st'.1.close st'.2).2.1.family = st'.1.family ∧
      ∀ e, (st'.1.close st'.2).2.1.cached e = st'.1.cached e := by
    unfold Socket.close
    split
    next => exact ⟨rfl,fun _ => rfl⟩
    next => split <;> exact ⟨rfl,fun e => by cases e <;> rfl⟩
  refine ⟨?_,hsame.1.trans h.family,fun e => (hsame.2 e).trans (h.cached e),nofun,?_⟩
  · intro fd hfd
    rw [hsock] at hfd
    cases hfd
  · intro _ e a ha
    rw [reported, hsock] at ha
    cases ha

/-- The names of an open descriptor change. -/
theorem update_moves (hopen : Open st) {fd : ℕ} (hfd : st.1.sock = some fd) {names : Names}
    {f : Descriptor → Descriptor} (hf : ∀ d, (f d).names = names) (s : Socket)
    (hsock : s.sock = st.1.sock)
    (hfamily : s.family = st.1.family) (hcached : ∀ e, s.cached e = st.1.cached e) :
    Moves st (s, st.2.update fd fun d => some (f d)) (some names) := by
  obtain ⟨d,hd⟩ := Option.isSome_iff_exists.mp (hopen fd hfd)
  have hlookup : (st.2.update fd fun d => some (f d)).lookup fd = some (f d) := by
    rw [System.lookup_update, if_pos rfl, hd]
    rfl
  refine ⟨?_,hfamily,hcached,?_,nofun⟩
  · intro fd' hfd'
    cases (hsock.trans hfd).symm.trans hfd'
    exact Option.isSome_iff_exists.mpr ⟨f d,hlookup⟩
  · intro other hother e
    cases hother
    simp [reported, hsock, hfd, hfamily, System.name, hlookup, hf]

theorem newSock_moves (ans : Answers) (st : Socket × System) :
    Moves st (st.1.newSock ans st.2) (ans.socket st.1.family st.1.type st.1.protocol) := by
  rw [newSock]
  cases ans.socket st.1.family st.1.type st.1.protocol with
  | none =>
    refine ⟨nofun,rfl,fun e => by cases e <;> rfl,nofun,?_⟩
    rintro _ e a ⟨⟩
  | some names =>
    refine ⟨?_,rfl,fun e => by cases e <;> rfl,?_,nofun⟩
    · rintro fd ⟨⟩
      exact Option.isSome_iff_exists.mpr ⟨_,System.lookup_allocate_self _ st.2⟩
    · rintro other ⟨⟩ e
      simp only [reported, System.name, Option.bind_some, System.lookup_allocate_self]

theorem ensureSock_moves (ans : Answers) (hopen : Open st) :
    Moves st (st.1.ensureSock ans st.2) (st.1.opening ans) := by
  unfold ensureSock opening isValid
  cases hsock : st.1.sock with
  | some fd => exact .stay hopen
  | none => exact newSock_moves ans st

theorem ensureSock_isValid (ans : Answers) (s : Socket) (sys : System) :
    (s.ensureSock ans sys).1.isValid = (s.isValid || (s.opening ans).isSome) := by
  unfold ensureSock opening
  cases h : s.isValid with
  | true => exact h
  | false =>
    simp only [newSock, Bool.false_eq_true, if_false, Bool.false_or]
    cases ans.socket s.family s.type s.protocol <;> rfl

/-- No descriptor was opened where none was needed. -/
theorem opening_eq_none {ans : Answers} {s : Socket}
    (h : false = (s.isValid || (s.opening ans).isSome)) : s.opening ans = none :=
  Option.not_isSome_iff_eq_none.mp (by simp [(Bool.or_eq_false_iff.mp h.symm).2])

theorem bind_moves (addr : Address) (ans : Answers) (hopen : Open st) :
    ∃ s, Moves st (s, (next st (.bind addr ans)).2) (Op.given st.1 (.bind addr ans)) ∧
      Fills (next st (.bind addr ans)).2 s (next st (.bind addr ans)).1 := by
  have hmoves := ensureSock_moves ans hopen
  have hvalid := ensureSock_isValid ans st.1 st.2
  simp only [next, Socket.bind, Op.given, ← hvalid]
  generalize st.1.ensureSock ans st.2 = st' at *
  rw [← hmoves.family]
  cases hsock : st'.1.sock with
  | none =>
    rw [isValid, hsock] at hvalid
    rw [opening_eq_none hvalid] at hmoves
    simp only [isValid, hsock]
    exact ⟨st'.1,hmoves,.refl _ _⟩
  | some fd =>
    simp only [isValid, hsock, Option.isSome_some, if_true, ne_eq, ite_not]
    by_cases hfamily : addr.getFamily = st'.1.family
    · simp only [if_pos hfamily]
      cases ans.bind addr with
      | none => exact ⟨st'.1,hmoves,.refl _ _⟩
      | some names =>
        refine ⟨st'.1,?_,getAddress_fills .sock st'.1 _⟩
        refine hmoves.rename (update_moves hmoves.isOpen hsock ?_ st'.1 rfl rfl fun _ => rfl)
        exact fun _ => rfl
    · simp only [if_neg hfamily]
      exact ⟨st'.1,hmoves,.refl _ _⟩

theorem connect_moves (addr : Address) (timeoutMs : ℕ) (ans : Answers) (hopen : Open st) :
    ∃ s, Moves st (s, (next st (.connect addr timeoutMs ans)).2)
        (Op.given st.1 (.connect addr timeoutMs ans)) ∧
      Fills (next st (.connect addr timeoutMs ans)).2 s
        (next st (.connect addr timeoutMs ans)).1 := by
  have hmoves := ensureSock_moves ans hopen
  have hvalid := ensureSock_isValid ans st.1 st.2
  simp only [next, connect, Op.given, ← hvalid]
  generalize st.1.ensureSock ans st.2 = st' at *
  generalize (if timeoutMs = 2 ^ 64 - 1 then ans.connect addr
    else ans.connectWithTimeout addr timeoutMs) = answer
  rw [← hmoves.family]
  obtain ⟨⟨sock,family,type,protocol,connected,localAddress,remoteAddress⟩,sys⟩ := st'
  cases sock with
  | none =>
    rw [opening_eq_none hvalid] at hmoves
    exact ⟨_,hmoves,.refl _ _⟩
  | some fd =>
    simp only [isValid, Option.isSome_some, if_true, ne_eq, ite_not]
    by_cases hfamily : addr.getFamily = family
    · simp only [if_pos hfamily]
      cases answer with
      | none => exact ⟨_,hmoves.close,.refl _ _⟩
      | some names =>
        refine ⟨_,?_,(getAddress_fills .peer _ _).trans (getAddress_fills .sock _ _)⟩
        refine hmoves.rename (update_moves hmoves.isOpen rfl ?_ _ rfl rfl fun e => ?_)
        · exact fun _ => rfl
        · cases e <;> rfl
    · simp only [if_neg hfamily]
      exact ⟨_,hmoves,.refl _ _⟩

theorem next_moves (op : Op) (hopen : Open st) :
    ∃ s, Moves st (s, (next st op).2) (op.given st.1) ∧ Fills (next st op).2 s (next st op).1 := by
  cases op with
  | bind addr ans => exact bind_moves addr ans hopen
  | connect addr timeoutMs ans => exact connect_moves addr timeoutMs ans hopen
  | close => exact ⟨_,(Moves.stay hopen).close,.refl _ _⟩
  | getRemoteAddress => exact ⟨st.1,.stay hopen,getAddress_fills .peer st.1 st.2⟩
  | getLocalAddress => exact ⟨st.1,.stay hopen,getAddress_fills .sock st.1 st.2⟩
  | rename names =>
    unfold next Op.given isValid
    cases hsock : st.1.sock with
    | none => exact ⟨st.1,.stay hopen,.refl _ _⟩
    | some fd =>
      refine ⟨st.1,update_moves hopen hsock ?_ st.1 rfl rfl fun _ => rfl,.refl _ _⟩
      exact fun _ => rfl

theorem next_sound (op : Op) (hst : Sound st) (hkeeps : Keeps st op) : Sound (next st op) := by
  obtain ⟨s,hmoves,hfills⟩ := next_moves op hst.isOpen
  have hcurrent : Current (s, (next st op).2) := by
    rw [current_iff]
    intro e a b hcached hreported
    rw [hmoves.cached e] at hcached
    cases hgiven : op.given st.1 with
    | none => exact current_iff.mp hst.current e a b hcached (hmoves.unnamed hgiven e b hreported)
    | some names =>
      rw [hmoves.named names hgiven] at hreported
      obtain ⟨name,hname,rfl⟩ := Option.map_eq_some_iff.mp hreported
      exact hkeeps names hgiven e a hcached name hname
  exact Sound.fills ⟨hmoves.isOpen,hcurrent⟩ hfills

/-- A call leaves the answers right exactly if it gives no name that differs from a cached one. -/
theorem next_current_iff (op : Op) (hst : Sound st) : Current (next st op) ↔ Keeps st op := by
  constructor
  · intro h names hgiven e a hcached name hname
    obtain ⟨s,hmoves,hfills⟩ := next_moves op hst.isOpen
    refine current_iff.mp h e a _ (hfills.kept e a ((hmoves.cached e).trans hcached)) ?_
    rw [hfills.reported, hmoves.named names hgiven, hname]
    rfl
  · intro h
    exact (next_sound op hst h).current

end

/-! ## Sockets to begin with -/

theorem current_of_uncached {st : Socket × System} (h : ∀ e, st.1.cached e = none) :
    Current st := by
  rw [current_iff]
  intro e a b hcached
  rw [h e] at hcached
  cases hcached

theorem new_sound (family type protocol : ℤ) (sys : System) :
    Sound (new family type protocol, sys) where
  isOpen := nofun
  current := current_of_uncached fun e => by cases e <;> rfl

theorem createTCP_sound (address : Address) (sys : System) : Sound (createTCP address, sys) :=
  new_sound _ _ _ sys

theorem createUDP_sound (address : Address) (ans : Answers) (sys : System) :
    Sound (createUDP address ans sys) where
  isOpen := (newSock_moves ans (new address.getFamily sockDgram 0, sys)).isOpen
  current := by
    have hmoves := newSock_moves ans (new address.getFamily sockDgram 0, sys)
    refine current_of_uncached fun e => Eq.trans ?_ ((hmoves.cached e).trans ?_)
    · cases e <;> rfl
    · cases e <;> rfl

/-- An accepted connection has its two names looked up at once. -/
theorem init_sound (family type protocol : ℤ) {fd : ℕ} {sys : System}
    (hopen : (sys.lookup fd).isSome) :
    Sound (((new family type protocol).init fd true sys).2, sys) := by
  have hsound : Sound
      ({ new family type protocol with sock := some fd, isConnected := true }, sys) := by
    refine ⟨?_,current_of_uncached fun e => by cases e <;> rfl⟩
    rintro fd' ⟨⟩
    exact hopen
  exact hsound.fills ((getAddress_fills .sock _ sys).trans (getAddress_fills .peer _ sys))

end Socket

open Socket

/-- In every run of a socket: after every call both functions return what the system reports for
the open descriptor exactly if no call of the run gives a descriptor a name other than the one
that is cached. -/
theorem cached_addresses_current_iff (st : Socket × System) (hst : Sound st)
    (ops : List Socket.Op) :
    Along step (fun st op => Current (next st op)) ops st ↔ Along step Socket.Keeps ops st := by
  refine along_iff ?_ ?_ ops st hst (Along.of_forall (fun _ _ => trivial) ops st)
  · rintro s op _ _ hs _ hkeeps ⟨⟩
    exact next_sound op hs hkeeps
  · intro s op hs _
    exact next_current_iff op hs

/-! ## A second connection -/

def ipv4 (address : BitVec (8 * 4)) : Address :=
  .ipv4 ⟨{ sinFamily := afInet, sinPort := 80, sAddr := address, sinZero := 0 }⟩

/-- The system connects to any address, and then reports it. -/
def connecting : Answers where
  socket _ _ _ := some fun _ _ => none
  bind _ := none
  connect addr := some fun e _ => some
    { storage := if e = .peer then addr else ipv4 0x7f000001
      addrlen := 16
      addrlen_le := by decide }
  connectWithTimeout _ _ := none
  listen _ := false

/-- The second connection is to the address of the first, which is cached. -/
theorem cached_addresses_current_twice :
    let ops := [Socket.Op.connect (ipv4 1) (2 ^ 64 - 1) connecting, .close,
      .connect (ipv4 1) (2 ^ 64 - 1) connecting, .getRemoteAddress]
    (ops.foldl next (Socket.new 2 sockStream 0, ⟨[]⟩)).1.cached .peer = some (ipv4 1) ∧
      Along step (fun st op => Current (next st op)) ops (Socket.new 2 sockStream 0, ⟨[]⟩) := by
  refine ⟨by decide,(cached_addresses_current_iff _ (new_sound 2 sockStream 0 _) _).mpr ?_⟩
  refine Along.cons ?_ rfl (Along.cons ?_ rfl (Along.cons ?_ rfl (Along.cons ?_ rfl trivial)))
  · intro names _ e a hcached
    cases e <;> cases hcached
  · intro names hnames
    cases hnames
  · intro names hnames e a hcached name hname
    cases hnames
    cases e <;> cases hcached <;> cases hname <;> rfl
  · intro names hnames
    cases hnames

/-- The descriptor is a new one, the remote address is that of the closed one. -/
theorem remote_address_of_closed :
    let st := [.connect (ipv4 1) (2 ^ 64 - 1) connecting, .close,
      .connect (ipv4 2) (2 ^ 64 - 1) connecting].foldl next (Socket.new 2 sockStream 0, ⟨[]⟩)
    st.1.sock = some 0 ∧ (st.1.getRemoteAddress st.2).1 = ipv4 1 ∧
      st.1.reported .peer st.2 = some (ipv4 2) ∧ ¬ Current st := by
  refine ⟨by decide,by decide,by decide,fun h => ?_⟩
  exact absurd (h .peer (ipv4 2) (by decide)) (by decide)

end Gudov
