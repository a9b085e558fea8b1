import Gudov.IOManagerRuns
import Gudov.SchedulerRuns
import Gudov.StagedChecks
import Gudov.TimedWaitWakeup

/-!
# Stopping an IO manager

An `IOManager` that uses its caller: the thread that made it works with it from outside
until it calls `Stop`, which resumes the root fiber and makes it one more thread in
`Scheduler::Run`. A thread leaves `Run` when its idle fiber has ended, and that ends when
`IOManager::Stopping` finds no timer, no pending event and no task. The three are looked
at one after the other, each under its own lock or none, while other threads move.

Each operation under a lock is one step, and a triggered event is one with the `Schedule`
in it. Only the threads of the manager use it.
-/
namespace Gudov.Shutdown

/-- Where a thread is. -/
inductive Position (Cb : Type)
  | outside
  | run
  | asksTimers
  | asksEvents
  | asksTasks
  | waits
  | expired (callbacks : List (Option Cb))
  | handles
deriving Repr, DecidableEq

/-- An `IOManager` with what it inherits from `Scheduler` and `TimerManager`. -/
structure Manager (Fib Cb : Type) where
  sched : Scheduler Fib Cb
  timers : TimerManager Cb
  iom : IOManager Unit Fib Cb
  positions : List (Position Cb)
deriving Repr, DecidableEq

/-- What a task does with the manager. -/
inductive Call (Fib Cb : Type)
  | schedule (fc : FiberOrCb Fib Cb) (thread : ℤ)
  | timer (op : TimerManager.Op Cb)
  | event (op : IOManager.Op Unit Fib Cb)

inductive Move (Fib Cb : Type)
  | call (c : Call Fib Cb)
  | stop
  | pick (state : Fib → FiberState)
  | finish
  | getNextTimeout (now : UInt64)
  | pendingEvents
  | stopping
  | expire (now : UInt64) (addr : ℕ)
  | schedule
  | entry (p : ℕ) (r : Reported) (ctl : EpollRequest → Bool)
  | yield

/-- The thread that moves, by its index. -/
structure Act (Fib Cb : Type) where
  thread : ℕ
  move : Move Fib Cb

namespace Manager
variable {Fib Cb : Type}

/-- The first thread is the one that made the manager. -/
def start (threads : Threads) (now : UInt64) : Manager Fib Cb where
  sched := Scheduler.new threads
  timers := TimerManager.new now
  iom := IOManager.new
  positions := (Position.outside :: threads.ids.tail.map fun _ => .run).take threads.ids.length

def setPosition (i : ℕ) (p : Position Cb) (s : Manager Fib Cb) : Manager Fib Cb :=
  { s with positions := s.positions.set i p }

/-- `ctx.scheduler->Schedule(&ctx.callback)` or `Schedule(&ctx.fiber)`. -/
def scheduled (x : Handover Unit Fib Cb) : FiberOrCb Fib Cb :=
  match x.work with
  | .fiber f => .fiber (some f)
  | .callback c => .callback (some c)

def hand (handed : List (Handover Unit Fib Cb)) (s : Manager Fib Cb) : Manager Fib Cb :=
  { s with sched := (s.sched.scheduleRange (handed.map scheduled)).2 }

/-- The tasks that a call gives to the scheduler. -/
def handedOver : IOManager.Seen Unit Fib Cb → List (Handover Unit Fib Cb)
  | .added _ | .deleted _ => []
  | .cancelled _ handed | .cancelledAll _ handed => handed

def call (s : Manager Fib Cb) : Call Fib Cb → Except Fault (Manager Fib Cb)
  | .schedule fc thread => .ok { s with sched := (s.sched.scheduleNoLock fc thread).2 }
  | .timer op => do
    let (_, timers) ← s.timers.step op
    .ok { s with timers := timers }
  | .event op => do
    let (seen, iom) ← s.iom.step op
    .ok ({ s with iom := iom }.hand (handedOver seen))

/-- After its turn in `Run` the thread is in its idle fiber. -/
def entered (i : ℕ) (m : Scheduler Fib Cb) : Bool :=
  match m.workers[i]?.map Worker.phase with
  | some .idle => true
  | _ => false

/-- The next step of thread `i` with record `w`. A move that does not belong to its
position does nothing. -/
def threadStep (i : ℕ) (w : Worker Fib Cb) (s : Manager Fib Cb) :
    Position Cb → Move Fib Cb → Except Fault (Manager Fib Cb)
  | .outside, .call c => s.call c
  | .outside, .stop =>
    .ok ({ s with sched := { s.sched with stopping := true } }.setPosition i .run)
  | .run, .pick state =>
    match w.phase with
    | .picking => do
      let (_, sched) ← s.sched.pick i w state
      .ok ({ s with sched := sched }.setPosition i (if entered i sched then .asksTimers else .run))
    | _ => .ok s
  | .run, .call c =>
    match w.phase with
    | .holding _ => s.call c
    | _ => .ok s
  | .run, .finish =>
    match w.phase with
    | .holding node => .ok { s with sched := s.sched.finish i w node }
    | _ => .ok s
  | .asksTimers, .getNextTimeout now => do
    let (timeout, timers) ← s.timers.getNextTimeout now
    .ok ({ s with timers := timers }.setPosition i (if timeout = ~~~0 then .asksEvents else .waits))
  | .asksEvents, .pendingEvents =>
    .ok (s.setPosition i (if s.iom.pending = 0 then .asksTasks else .waits))
  | .asksTasks, .stopping =>
    -- the idle fiber ends, or goes on to `epoll_wait`
    if s.sched.isStopping then .ok ({ s with sched := s.sched.idleReturn i w }.setPosition i .run)
    else .ok (s.setPosition i .waits)
  | .waits, .expire now addr => do
    let (callbacks, timers) ← s.timers.listExpiredCallbacks now addr
    .ok ({ s with timers := timers }.setPosition i (.expired (callbacks.map Prod.snd)))
  | .expired callbacks, .schedule =>
    .ok ({ s with sched := (s.sched.scheduleRange (callbacks.map .callback)).2 }.setPosition i
      .handles)
  | .handles, .entry p r ctl => do
    let (handed, iom) ← s.iom.handleEntry p r ctl
    .ok ({ s with iom := iom }.hand handed)
  | .handles, .yield => .ok ({ s with sched := s.sched.idleYield i w }.setPosition i .run)
  | _, _ => .ok s

def step (s : Manager Fib Cb) (a : Act Fib Cb) : Except Fault (Unit × Manager Fib Cb) :=
  match s.positions[a.thread]? with
  | none => .ok ((), s)
  | some p =>
    match s.sched.workers[a.thread]? with
    | none => .ok ((), s)
    | some w => do
      let t ← s.threadStep a.thread w p a.move
      .ok ((), t)

end Manager

end Gudov.Shutdown
