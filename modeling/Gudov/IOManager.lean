import Mathlib.Tactic.NormNum
import Gudov.Scheduler

/-!
# Event registration in the IO manager

The table of file descriptor contexts and the four calls on it, and what
`IOManager::Idle` does with one entry reported by `epoll_wait`. Contexts are
objects in a heap, as the table and the kernel both keep pointers to them.

The kernel appears only through `epoll_ctl`: every call carries a function that
says which requests succeed. What a triggered event hands to its scheduler is
returned, labelled by the context and event it came from.
-/
namespace Gudov

/-- A single bit of `IOManager::Event`. -/
inductive Event
  | read
  | write
deriving Repr, DecidableEq

/-- A value of `IOManager::Event` used as a mask; `NONE` has no bit set. -/
structure Events where
  read : Bool := false
  write : Bool := false
deriving Repr, DecidableEq

namespace Events

def has (m : Events) : Event → Bool
  | .read => m.read
  | .write => m.write

def set (m : Events) : Event → Events
  | .read => { m with read := true }
  | .write => { m with write := true }

def clear (m : Events) : Event → Events
  | .read => { m with read := false }
  | .write => { m with write := false }

def isNone (m : Events) : Bool := !m.read && !m.write

def inter (a b : Events) : Events := { read := a.read && b.read, write := a.write && b.write }

def union (a b : Events) : Events := { read := a.read || b.read, write := a.write || b.write }

def diff (a b : Events) : Events := { read := a.read && !b.read, write := a.write && !b.write }

/-- Number of bits set. -/
def count (m : Events) : ℕ := m.read.toNat + m.write.toNat

end Events

/-- What an event resumes or calls. -/
inductive Work (Fib Cb : Type)
  | fiber (f : Fib)
  | callback (c : Cb)
deriving Repr, DecidableEq

structure EventContext (Sched Fib Cb : Type) where
  scheduler : Option Sched := none
  fiber : Option Fib := none
  callback : Option Cb := none
deriving Repr, DecidableEq

structure FdContext (Sched Fib Cb : Type) where
  read : EventContext Sched Fib Cb := {}
  write : EventContext Sched Fib Cb := {}
  fd : ℕ
  events : Events := {}
deriving Repr, DecidableEq

/-- One task given to a scheduler by `TriggerEvent`. -/
structure Handover (Sched Fib Cb : Type) where
  fd : ℕ
  event : Event
  scheduler : Sched
  work : Work Fib Cb
deriving Repr, DecidableEq

namespace FdContext
variable {Sched Fib Cb : Type}

def getContext (c : FdContext Sched Fib Cb) : Event → EventContext Sched Fib Cb
  | .read => c.read
  | .write => c.write

def setContext (c : FdContext Sched Fib Cb) (event : Event)
    (ctx : EventContext Sched Fib Cb) : FdContext Sched Fib Cb :=
  match event with
  | .read => { c with read := ctx }
  | .write => { c with write := ctx }

/-- Clear the bit of an event and `ReSetContext` its context. -/
def drop (c : FdContext Sched Fib Cb) (event : Event) : FdContext Sched Fib Cb :=
  { c with events := c.events.clear event }.setContext event {}

/-- `FdContext::TriggerEvent`. An empty fiber pointer makes an empty task, which
`Schedule` drops. -/
def triggerEvent (event : Event) (c : FdContext Sched Fib Cb) :
    Except Fault (List (Handover Sched Fib Cb) × FdContext Sched Fib Cb) :=
  if !c.events.has event then .error .assertion
  else
    let ctx := c.getContext event
    match ctx.scheduler with
    | none => .error .nullDereference
    | some scheduler =>
      let work : Option (Work Fib Cb) :=
        match ctx.callback with
        | some cb => some (.callback cb)
        | none => ctx.fiber.map .fiber
      .ok (work.toList.map fun work => ⟨c.fd,event,scheduler,work⟩,c.drop event)

end FdContext

/-- `EPOLL_CTL_ADD`, `EPOLL_CTL_MOD` and `EPOLL_CTL_DEL`. -/
inductive CtlOp
  | add
  | mod
  | del
deriving Repr, DecidableEq

/-- The arguments of one `epoll_ctl`; `data` is the pointer to the context. -/
structure EpollRequest where
  op : CtlOp
  fd : ℕ
  events : Events
  data : ℕ
deriving Repr, DecidableEq

/-- What `AddEvent` reads from the calling thread: its scheduler, its running
fiber and the state of that fiber. -/
structure Caller (Sched Fib : Type) where
  scheduler : Option Sched
  fiber : Fib
  fiberState : FiberState
deriving Repr, DecidableEq

/-- The event bits of an entry filled in by `epoll_wait`. -/
structure Reported where
  epollin : Bool := false
  epollout : Bool := false
  epollerr : Bool := false
  epollhup : Bool := false
deriving Repr, DecidableEq

/-- `heap` holds every `FdContext` ever made, `fdContexts` the pointers of the
table `fd_contexts_`, and `pending` is `pending_event_cnt_`. -/
structure IOManager (Sched Fib Cb : Type) where
  heap : List (FdContext Sched Fib Cb)
  fdContexts : List ℕ
  pending : UInt64
deriving Repr, DecidableEq

namespace IOManager
variable {Sched Fib Cb : Type}

def deref (p : ℕ) (m : IOManager Sched Fib Cb) : Except Fault (FdContext Sched Fib Cb) :=
  match m.heap[p]? with
  | none => .error .nullDereference
  | some c => .ok c

def write (p : ℕ) (c : FdContext Sched Fib Cb) (m : IOManager Sched Fib Cb) :
    IOManager Sched Fib Cb := { m with heap := m.heap.set p c }

/-- `IOManager::ContextResize`. No slot is null before, so the null slots are
those that `resize` appends. -/
def contextResize (size : ℕ) (m : IOManager Sched Fib Cb) : IOManager Sched Fib Cb :=
  let kept := m.fdContexts.take size
  let added := size - m.fdContexts.length
  { m with
    heap := m.heap ++ (List.range added).map fun i => { fd := m.fdContexts.length + i },
    fdContexts := kept ++ (List.range added).map fun i => m.heap.length + i }

/-- The manager as its constructor leaves it. -/
def new : IOManager Sched Fib Cb :=
  contextResize 32 { heap := [], fdContexts := [], pending := 0 }

/-- `(int)fd_contexts_.size()`. -/
@[irreducible] def intSize (m : IOManager Sched Fib Cb) : ℤ := Int.bmod m.fdContexts.length (2 ^ 32)

/-- `fd_contexts_[fd]`. -/
def slot (fd : ℕ) (m : IOManager Sched Fib Cb) : Except Fault ℕ :=
  match m.fdContexts[fd]? with
  | none => .error .outOfBounds
  | some p => .ok p

/-- The `else` branch of `AddEvent` under the write lock. -/
def growFor (fd : ℕ) (m : IOManager Sched Fib Cb) :
    Except Fault (ℕ × IOManager Sched Fib Cb) := do
  let m := m.contextResize (fd * 3 / 2)
  if (fd : ℤ) < m.intSize then
    let p ← m.slot fd
    .ok (p, m)
  else .error .assertion

/-- The part of `AddEvent` that finds the context. -/
def reserve (fd : ℕ) (m : IOManager Sched Fib Cb) :
    Except Fault (ℕ × IOManager Sched Fib Cb) := do
  if (fd : ℤ) < m.intSize then
    let p ← m.slot fd
    .ok (p, m)
  else m.growFor fd

/-- The part of `AddEvent` under the mutex of the context. The result says
whether the call returns 0. -/
def register (p fd : ℕ) (event : Event) (callback : Option Cb) (caller : Caller Sched Fib)
    (ctl : EpollRequest → Bool) (m : IOManager Sched Fib Cb) :
    Except Fault (Bool × IOManager Sched Fib Cb) := do
  let c ← m.deref p
  let op : CtlOp := if c.events.isNone then .add else .mod
  if c.events.has event then .error .assertion
  else if !ctl ⟨op,fd,c.events.set event,p⟩ then .ok (false, m)
  else
    let m := { m with pending := m.pending + 1 }
    let c := { c with events := c.events.set event }
    let ctx := c.getContext event
    if ctx.scheduler.isSome || ctx.fiber.isSome || ctx.callback.isSome then .error .assertion
    else
      match callback with
      | some cb =>
        .ok (true, m.write p (c.setContext event
          { scheduler := caller.scheduler, fiber := none, callback := some cb }))
      | none =>
        if caller.fiberState != .running then .error .assertion
        else .ok (true, m.write p (c.setContext event
          { scheduler := caller.scheduler, fiber := some caller.fiber, callback := none }))

/-- `IOManager::AddEvent`. -/
def addEvent (fd : ℕ) (event : Event) (callback : Option Cb) (caller : Caller Sched Fib)
    (ctl : EpollRequest → Bool) (m : IOManager Sched Fib Cb) :
    Except Fault (Bool × IOManager Sched Fib Cb) := do
  let (p, m) ← m.reserve fd
  m.register p fd event callback caller ctl

/-- How the other calls find the context; `none` when the table is too small. -/
def lookup (fd : ℕ) (m : IOManager Sched Fib Cb) : Except Fault (Option ℕ) := do
  if m.intSize ≤ (fd : ℤ) then .ok none
  else
    let p ← m.slot fd
    .ok (some p)

/-- The request that leaves `left` registered. -/
def leave (p fd : ℕ) (left : Events) : EpollRequest :=
  ⟨if left.isNone then .del else .mod,fd,left,p⟩

/-- `IOManager::DelEvent`. -/
def delEvent (fd : ℕ) (event : Event) (ctl : EpollRequest → Bool)
    (m : IOManager Sched Fib Cb) : Except Fault (Bool × IOManager Sched Fib Cb) := do
  match ← m.lookup fd with
  | none => .ok (false, m)
  | some p =>
    let c ← m.deref p
    if !c.events.has event then .ok (false, m)
    else if !ctl (leave p fd (c.events.clear event)) then .ok (false, m)
    else .ok (true, { m with pending := m.pending - 1 }.write p (c.drop event))

/-- `IOManager::CancelEvent`. -/
def cancelEvent (fd : ℕ) (event : Event) (ctl : EpollRequest → Bool)
    (m : IOManager Sched Fib Cb) :
    Except Fault (Bool × List (Handover Sched Fib Cb) × IOManager Sched Fib Cb) := do
  match ← m.lookup fd with
  | none => .ok (false, [], m)
  | some p =>
    let c ← m.deref p
    if !c.events.has event then .ok (false, [], m)
    else if !ctl (leave p fd (c.events.clear event)) then .ok (false, [], m)
    else
      let (handed, c) ← c.triggerEvent event
      .ok (true, handed, { m with pending := m.pending - 1 }.write p c)

/-- `if (mask & event) { TriggerEvent(event); --pending_event_cnt_; }`, where the
tasks handed over so far are collected. -/
def triggerIf (mask : Events) (event : Event)
    (s : List (Handover Sched Fib Cb) × FdContext Sched Fib Cb × UInt64) :
    Except Fault (List (Handover Sched Fib Cb) × FdContext Sched Fib Cb × UInt64) :=
  if mask.has event then do
    let (handed, c) ← s.2.1.triggerEvent event
    .ok (s.1 ++ handed, c, s.2.2 - 1)
  else .ok s

/-- `IOManager::CancelAll`. -/
def cancelAll (fd : ℕ) (ctl : EpollRequest → Bool) (m : IOManager Sched Fib Cb) :
    Except Fault (Bool × List (Handover Sched Fib Cb) × IOManager Sched Fib Cb) := do
  match ← m.lookup fd with
  | none => .ok (false, [], m)
  | some p =>
    let c ← m.deref p
    if c.events.isNone then .ok (false, [], m)
    else if !ctl ⟨.del,fd,{},p⟩ then .ok (false, [], m)
    else
      let s ← triggerIf c.events .read ([], c, m.pending)
      let (handed, c, pending) ← triggerIf s.2.1.events .write s
      if c.events.isNone then .ok (true, handed, { m with pending := pending }.write p c)
      else .error .assertion

/-- The events `Idle` takes as having happened. -/
def realEvents (r : Reported) (registered : Events) : Events :=
  let told : Events := { read := r.epollin, write := r.epollout }
  if r.epollerr || r.epollhup then told.union registered else told

/-- The body of the loop in `IOManager::Idle` for one entry of a context. -/
def handleEntry (p : ℕ) (r : Reported) (ctl : EpollRequest → Bool)
    (m : IOManager Sched Fib Cb) :
    Except Fault (List (Handover Sched Fib Cb) × IOManager Sched Fib Cb) := do
  let c ← m.deref p
  let real := realEvents r c.events
  if (c.events.inter real).isNone then .ok ([], m)
  else if !ctl (leave p c.fd (c.events.diff real)) then .ok ([], m)
  else
    let s ← triggerIf real .read ([], c, m.pending)
    let (handed, c, pending) ← triggerIf real .write s
    .ok (handed, { m with pending := pending }.write p c)

end IOManager

end Gudov
