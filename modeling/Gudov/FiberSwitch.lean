import Gudov.SchedulerRuns
import Gudov.StepSystem

/-!
# Fibers and the threads that run them

The scheduler with the fibers it resumes. `Resume` and `Yield` each take two steps: the
assignment to `state_`, and the switch that loads or saves the context. In between, other
threads move. A thread that has set a fiber to `Ready` is still on that fiber's stack until
its context is saved.

Fibers are numbered in the order of their construction. The idle fibers are not among
them: `Run` keeps its own to itself, nobody else can schedule it. Neither is `root_fiber_`,
which only `Stop` resumes; the thread that owns it is the first one.
-/
namespace Gudov

/-- What other threads can find of a fiber: `state_`, and whether `ctx_` holds the context
of its last suspension, or a fresh one, that nobody has loaded since. -/
structure FiberContext where
  state : FiberState
  saved : Bool
deriving Repr, DecidableEq

/-- Where a thread is. -/
inductive Station (Cb : Type)
  | outside
  | run
  | branching (picked : Option (TaskNode ℕ Cb))
  | resuming (f : ℕ)
  | onFiber (f : ℕ)
  | leaving (f : ℕ)
  | idle
  | exited
  | joining
deriving Repr, DecidableEq

def Station.isExited {Cb : Type} : Station Cb → Bool
  | .exited => true
  | _ => false

/-- The thread runs the program's own code. -/
def Station.isUserCode {Cb : Type} : Station Cb → Bool
  | .outside | .onFiber _ => true
  | _ => false

structure Fibers (Cb : Type) where
  sched : Scheduler ℕ Cb
  fibers : List FiberContext
  stations : List (Station Cb)
  root : Option FiberState
deriving Repr, DecidableEq

namespace Fibers
variable {Cb : Type}

/-- With `use_caller` the first thread is the owner, outside `Run` until it calls `Stop`. -/
def start (threads : Threads) (useCaller : Bool) : Fibers Cb where
  sched := Scheduler.new threads
  fibers := []
  stations := if useCaller then .outside :: List.replicate (threads.ids.length - 1) .run
    else List.replicate threads.ids.length .run
  root := if useCaller then some .ready else none

/-- `Fiber::GetState`. -/
def getState (s : Fibers Cb) (f : ℕ) : FiberState :=
  match s.fibers[f]? with
  | some c => c.state
  | none => .ready

def setStation (i : ℕ) (p : Station Cb) (s : Fibers Cb) : Fibers Cb :=
  { s with stations := s.stations.set i p }

def setFiber (f : ℕ) (c : FiberContext) (s : Fibers Cb) : Fibers Cb :=
  { s with fibers := s.fibers.set f c }

/-- `new Fiber(callback)` -/
def newFiber (s : Fibers Cb) : ℕ × Fibers Cb :=
  (s.fibers.length, { s with fibers := s.fibers ++ [{ state := .ready, saved := true }] })

/-- The first part of `Fiber::Resume`, up to `state_ = Running`. -/
def resume (i f : ℕ) (s : Fibers Cb) : Except Fault (Fibers Cb) :=
  match s.fibers[f]? with
  | none => .error .nullDereference
  | some c =>
    if c.state ≠ .term ∧ c.state ≠ .running then
      .ok ((s.setFiber f { c with state := .running }).setStation i (.resuming f))
    else .error .assertion

/-- The branches of `Run` after the pick block. A callback gets a new fiber. -/
def branch (i : ℕ) (w : Worker ℕ Cb) (s : Fibers Cb) :
    Option (TaskNode ℕ Cb) → Except Fault (Fibers Cb)
  | some node =>
    let s := { s with sched := s.sched.branch i w (some node) }
    match node.task.fiber with
    | some f => s.resume i f
    | none =>
      let (f, s) := s.newFiber
      s.resume i f
  | none =>
    let s := { s with sched := s.sched.branch i w none }
    if w.idleTerm then
      -- the root fiber ends with its `Run`, and `Stop` goes on to join the threads
      if i = 0 ∧ s.root.isSome then .ok ({ s with root := some .term }.setStation i .joining)
      else .ok (s.setStation i .exited)
    else .ok (s.setStation i .idle)

/-- The first part of `Fiber::Yield`. -/
def yield (i f : ℕ) (s : Fibers Cb) : Except Fault (Fibers Cb) :=
  match s.fibers[f]? with
  | none => .error .nullDereference
  | some c =>
    if c.state = .ready then .error .assertion
    else
      let state := if c.state ≠ .term then .ready else c.state
      .ok ((s.setFiber f { c with state := state }).setStation i (.leaving f))

/-- The end of `Fiber::MainFunc`: `state_ = Term`, then `Yield`. -/
def mainFuncEnd (i f : ℕ) (s : Fibers Cb) : Except Fault (Fibers Cb) :=
  match s.fibers[f]? with
  | none => .error .nullDereference
  | some c => (s.setFiber f { c with state := .term }).yield i f

/-- The second part of `Resume` or `Yield`: the context of the fiber is loaded or saved. -/
def switch (i f : ℕ) (saved : Bool) (p : Station Cb) (s : Fibers Cb) : Except Fault (Fibers Cb) :=
  match s.fibers[f]? with
  | none => .error .nullDereference
  | some c => .ok ((s.setFiber f { c with saved := saved }).setStation i p)

/-- `Scheduler::Stop` by the owner, which calls it from outside `Run` or from a task it is
running. Without a root fiber the call leaves nothing here but the flag. -/
def stop (s : Fibers Cb) : Except Fault (Fibers Cb) :=
  if s.sched.isStopping then .ok s
  else
    let s := { s with sched := { s.sched with stopping := true } }
    match s.root with
    | none => .ok s
    | some state =>
      if state ≠ .term ∧ state ≠ .running then
        .ok ({ s with root := some .running }.setStation 0 .run)
      else .error .assertion

/-- What a thread does next, and what others do. -/
inductive Act (Cb : Type)
  | newFiber
  | schedule (fc : FiberOrCb ℕ Cb) (thread : ℤ)
  | scheduleRange (fcs : List (FiberOrCb ℕ Cb))
  | pick (i : ℕ)
  | branch (i : ℕ)
  | load (i : ℕ)
  | yield (i : ℕ)
  | mainFuncEnd (i : ℕ)
  | save (i : ℕ)
  | idleReturn (i : ℕ)
  | stop
  | join
deriving Repr, DecidableEq

/-- The owner is at a point where it can call `Stop`. -/
def canStop (s : Fibers Cb) : Bool := s.root.isNone || s.stations[0]?.any Station.isUserCode

/-- The step of thread `i` with record `w` at its station; a step that does not belong there
does nothing. -/
def threadStep (i : ℕ) (w : Worker ℕ Cb) (s : Fibers Cb) :
    Station Cb → Act Cb → Except Fault (Fibers Cb)
  | .run, .pick _ => do
    let (_, picked, sched) ← s.sched.pickBlock w s.getState
    .ok ({ s with sched := sched }.setStation i (.branching picked))
  | .branching picked, .branch _ => s.branch i w picked
  | .resuming f, .load _ => s.switch i f false (.onFiber f)
  | .onFiber f, .yield _ => s.yield i f
  | .onFiber f, .mainFuncEnd _ => s.mainFuncEnd i f
  | .leaving f, .save _ =>
    match w.phase with
    | .holding node => { s with sched := s.sched.finish i w node }.switch i f true .run
    | _ => .ok s
  | .idle, .idleReturn _ =>
    .ok ({ s with sched := s.sched.idleReturn i w }.setStation i .run)
  | _, _ => .ok s

def stepThread (s : Fibers Cb) (i : ℕ) (a : Act Cb) : Except Fault (Fibers Cb) :=
  match s.stations[i]?, s.sched.workers[i]? with
  | some p, some w => s.threadStep i w p a
  | _, _ => .ok s

/-- `Stop` returns when the other threads have left `Run`. -/
def join (s : Fibers Cb) : Fibers Cb :=
  match s.stations with
  | .joining :: others =>
    if others.all Station.isExited then s.setStation 0 .outside else s
  | _ => s

def act (s : Fibers Cb) (a : Act Cb) : Except Fault (Fibers Cb) :=
  match a with
  | .newFiber => .ok s.newFiber.2
  | .schedule fc thread => .ok { s with sched := (s.sched.scheduleNoLock fc thread).2 }
  | .scheduleRange fcs => .ok { s with sched := (s.sched.scheduleRange fcs).2 }
  | .stop => if s.canStop then s.stop else .ok s
  | .join => .ok s.join
  | .pick i | .branch i | .load i | .yield i | .mainFuncEnd i | .save i | .idleReturn i =>
    s.stepThread i a

def step (s : Fibers Cb) (a : Act Cb) : Except Fault (Unit × Fibers Cb) := do
  let s ← s.act a
  .ok ((), s)

end Fibers

end Gudov
