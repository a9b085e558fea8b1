import Gudov.IdleEvents
import Gudov.TimerFront

/-!
# A timed wait in `doIO`

One call of `doIO` that has to wait, together with the manager whose timers and events it
uses. The call arms a timer, registers its fiber for the event and yields. Other workers
list the expired timers, run the expiry callbacks and trigger events; each operation under
a lock is one step, and so is every assignment to the `TimerInfo` of the call.

The call shares its managers with the rest of the program, so they start in any state that
keeps their invariants. The kernel appears through `epoll_ctl` and the results of the
original function.
-/
namespace Gudov

/-- The callbacks in `timers_`: what `AddConditionTimer` binds for this call, and all others. -/
inductive TimerCallback
  | expiry
  | other
deriving Repr, DecidableEq

/-- What a call of `doIO` has fixed when it first tries the original function: a
descriptor, which is a non-negative int, and the scheduler and fiber it runs on. -/
structure IOCall (Sched Fib : Type) where
  fd : ℕ
  event : Event
  timeout : UInt64
  scheduler : Sched
  fiber : Fib
  fd_lt : fd < 2 ^ 31
deriving Repr, DecidableEq

/-- `errno` as far as `doIO` tells its values apart. -/
inductive Errno
  | eintr
  | eagain
  | other
deriving Repr, DecidableEq

/-- The manager the call runs on, with the timers it inherits from `TimerManager`. -/
structure Managers (Sched Fib Cb : Type) where
  iom : IOManager Sched Fib Cb
  timers : TimerManager TimerCallback
  accounted : IOManager.Accounted iom
  size_ge : 32 ≤ iom.heap.length
  kept : TimerManager.Kept timers []

/-- Where the call is. The local `timer` is empty when there is no timeout. -/
inductive Stage
  | retry
  | waits
  | timed (timer : Option ℕ)
  | refused (timer : Option ℕ)
  | registered (timer : Option ℕ)
  | suspended (timer : Option ℕ)
  | resumed (timer : Option ℕ)
  | checks
  | returned (n : ℤ)
deriving Repr, DecidableEq

/-- `winfo.lock()` finds the `TimerInfo` until the call returns. -/
def Stage.alive : Stage → Bool
  | .returned _ => false
  | _ => true

/-- `queued` holds the timers whose expiry callback was handed out by
`ListExpiredCallbacks` and has not begun, `cancelling` those whose callback has set
`cancelled` and not yet called `CancelEvent`. `handed` says that a scheduler was given the
fiber and has not resumed it. -/
structure TimedWait (Sched Fib Cb : Type) where
  iom : IOManager Sched Fib Cb
  timers : TimerManager TimerCallback
  stage : Stage
  cancelled : Bool
  queued : List ℕ
  cancelling : List ℕ
  handed : Bool
deriving Repr, DecidableEq

namespace TimedWait
variable {Sched Fib Cb : Type}

def start (m : Managers Sched Fib Cb) : TimedWait Sched Fib Cb where
  iom := m.iom
  timers := m.timers
  stage := .retry
  cancelled := false
  queued := []
  cancelling := []
  handed := false

/-- What triggers events besides the callback of the call. -/
inductive Trigger
  | cancelEvent (fd : ℕ) (event : Event) (ctl : EpollRequest → Bool)
  | cancelAll (fd : ℕ) (ctl : EpollRequest → Bool)
  | entry (p : ℕ) (r : Reported) (ctl : EpollRequest → Bool)

inductive Act
  | attempt (n : ℤ) (errno : Errno)
  | addTimer (now : UInt64) (addr : ℕ)
  | addEvent (ctl : EpollRequest → Bool)
  | yield
  | resume
  | cancelTimer
  | check
  | expire (now : UInt64) (addr : ℕ)
  | callback (h : ℕ)
  | cancelEvent (h : ℕ) (ctl : EpollRequest → Bool)
  | trigger (t : Trigger)

/-- After a call of the original function. -/
def attempted (n : ℤ) (errno : Errno) : Stage :=
  if n = -1 ∧ errno = .eintr then .retry
  else if n = -1 ∧ errno = .eagain then .waits
  else .returned n

/-- The allocator gives no address of a timer in the set. -/
def isFresh (addr : ℕ) (m : TimerManager TimerCallback) : Bool :=
  m.timers.all fun k => m.heap[k]?.all fun t => t.addr != addr

/-- `if (timeout != (uint64_t)-1) timer = iom->AddConditionTimer(...)`. -/
def addTimer (call : IOCall Sched Fib) (now : UInt64) (addr : ℕ) (s : TimedWait Sched Fib Cb) :
    TimedWait Sched Fib Cb :=
  if call.timeout ≠ ~~~0 then
    let (h, _, timers) := s.timers.addTimer now call.timeout (some .expiry) false addr
    { s with timers := timers, stage := .timed (some h) }
  else { s with stage := .timed none }

def addEvent (call : IOCall Sched Fib) (timer : Option ℕ) (ctl : EpollRequest → Bool)
    (s : TimedWait Sched Fib Cb) : Except Fault (TimedWait Sched Fib Cb) := do
  let (ok, iom) ← s.iom.addEvent call.fd call.event none
    { scheduler := some call.scheduler, fiber := call.fiber, fiberState := .running } ctl
  .ok { s with iom := iom, stage := if ok then .registered timer else .refused timer }

/-- `if (timer) timer->Cancel();` -/
def cancelTimer (timer : Option ℕ) (stage : Stage) (s : TimedWait Sched Fib Cb) :
    Except Fault (TimedWait Sched Fib Cb) :=
  match timer with
  | none => .ok { s with stage := stage }
  | some h => do
    let (_, timers) ← s.timers.cancel h
    .ok { s with timers := timers, stage := stage }

/-- A worker lists the expired timers, to schedule their callbacks. -/
def expire (now : UInt64) (addr : ℕ) (s : TimedWait Sched Fib Cb) :
    Except Fault (TimedWait Sched Fib Cb) := do
  let (callbacks, timers) ← s.timers.listExpiredCallbacks now addr
  let mine := callbacks.filter fun x => x.2 == some .expiry
  .ok { s with timers := timers, queued := s.queued ++ mine.map Prod.fst }

/-- An expiry callback, up to its `CancelEvent`. -/
def callback (h : ℕ) (s : TimedWait Sched Fib Cb) : TimedWait Sched Fib Cb :=
  if h ∈ s.queued then
    let s := { s with queued := s.queued.erase h }
    if !s.stage.alive || s.cancelled then s
    else { s with cancelled := true, cancelling := s.cancelling ++ [h] }
  else s

section
variable [DecidableEq Fib]

/-- The fiber is among the tasks given to a scheduler. -/
def isHanded (f : Fib) (handed : List (Handover Sched Fib Cb)) : Bool :=
  handed.any fun x =>
    match x.work with
    | .fiber g => decide (g = f)
    | .callback _ => false

def hand (f : Fib) (handed : List (Handover Sched Fib Cb)) (s : TimedWait Sched Fib Cb) :
    TimedWait Sched Fib Cb := { s with handed := s.handed || isHanded f handed }

/-- The `CancelEvent` of an expiry callback. -/
def cancelEvent (call : IOCall Sched Fib) (h : ℕ) (ctl : EpollRequest → Bool)
    (s : TimedWait Sched Fib Cb) : Except Fault (TimedWait Sched Fib Cb) :=
  if h ∈ s.cancelling then do
    let (_, handed, iom) ← s.iom.cancelEvent call.fd call.event ctl
    .ok ({ s with iom := iom, cancelling := s.cancelling.erase h }.hand call.fiber handed)
  else .ok s

def trigger (call : IOCall Sched Fib) (s : TimedWait Sched Fib Cb) :
    Trigger → Except Fault (TimedWait Sched Fib Cb)
  | .cancelEvent fd event ctl => do
    let (_, handed, iom) ← s.iom.cancelEvent fd event ctl
    .ok ({ s with iom := iom }.hand call.fiber handed)
  | .cancelAll fd ctl => do
    let (_, handed, iom) ← s.iom.cancelAll fd ctl
    .ok ({ s with iom := iom }.hand call.fiber handed)
  | .entry p r ctl => do
    let (handed, iom) ← s.iom.handleEntry p r ctl
    .ok ({ s with iom := iom }.hand call.fiber handed)

/-- The steps of the call at its stage, and those of the other workers. A step that does not
belong to the stage does nothing. -/
def act (call : IOCall Sched Fib) (s : TimedWait Sched Fib Cb) (a : Act) :
    Except Fault (TimedWait Sched Fib Cb) :=
  match a, s.stage with
  | .attempt n errno, .retry => .ok { s with stage := attempted n errno }
  | .addTimer now addr, .waits =>
    .ok (if isFresh addr s.timers then s.addTimer call now addr else s)
  | .addEvent ctl, .timed timer => s.addEvent call timer ctl
  | .yield, .registered timer => .ok { s with stage := .suspended timer }
  | .resume, .suspended timer =>
    .ok (if s.handed then { s with handed := false, stage := .resumed timer } else s)
  | .cancelTimer, .refused timer => s.cancelTimer timer (.returned (-1))
  | .cancelTimer, .resumed timer => s.cancelTimer timer .checks
  | .check, .checks => .ok { s with stage := if s.cancelled then .returned (-1) else .retry }
  | .expire now addr, _ => s.expire now addr
  | .callback h, _ => .ok (s.callback h)
  | .cancelEvent h ctl, _ => s.cancelEvent call h ctl
  | .trigger t, _ => s.trigger call t
  | _, _ => .ok s

def step (call : IOCall Sched Fib) (s : TimedWait Sched Fib Cb) (a : Act) :
    Except Fault (Unit × TimedWait Sched Fib Cb) := do
  let s ← s.act call a
  .ok ((), s)

end

/-- The fiber is suspended with its timer armed, or with an expiry callback that has not
run, or it was given to a scheduler. A callback has not run as long as it has its
`CancelEvent` to do. -/
def HasWakeSource (s : TimedWait Sched Fib Cb) : Prop :=
  ∀ timer, s.stage = .suspended timer →
    (∃ h, timer = some h ∧ ((h ∈ s.timers.timers ∧ s.timers.Armed h) ∨ h ∈ s.queued)) ∨
      s.cancelling ≠ [] ∨ s.handed = true

/-- The fiber does not yield with `cancelled` set, unless somebody has given it to a
scheduler or is about to cancel its event, and `epoll_ctl` lets an expiry callback take the
event out. -/
def Meets (call : IOCall Sched Fib) (s : TimedWait Sched Fib Cb) : Act → Prop
  | .yield => (∃ timer, s.stage = .registered timer) → s.cancelled = true →
      s.cancelling ≠ [] ∨ s.handed = true
  | .cancelEvent h ctl => h ∈ s.cancelling → ∀ c, s.iom.heap[call.fd]? = some c →
      ctl (IOManager.leave call.fd call.fd (c.events.clear call.event)) = true
  | _ => True

end TimedWait

end Gudov
