import Mathlib.Tactic.NormNum
import Gudov.CallOutcome

/-!
# The task scheduler

`Scheduler::Run` executed by a number of threads, with `Schedule` called by
anyone. Every block under the mutex is one step, and so is the end of a task
together with `--active_thread_count_`. What a fiber does while it runs is left
to the outside, which also supplies the fiber states the pick block reads.

The nodes of `tasks_` carry a ticket, the number of the push that made them. The
lists `scheduled` and `finished` only record what happened.
-/
namespace Gudov

/-- `Fiber::State`. -/
inductive FiberState
  | ready
  | running
  | term
deriving Repr, DecidableEq

/-- The argument of `Schedule`; either pointer or function may be empty. -/
inductive FiberOrCb (Fib Cb : Type)
  | fiber (f : Option Fib)
  | callback (c : Option Cb)
deriving Repr, DecidableEq

/-- `Scheduler::Task`; thread `-1` stands for any thread. -/
structure Task (Fib Cb : Type) where
  fiber : Option Fib := none
  callback : Option Cb := none
  thread : ℤ := -1
deriving Repr, DecidableEq

namespace Task
variable {Fib Cb : Type}

def new : FiberOrCb Fib Cb → ℤ → Task Fib Cb
  | .fiber f, thread => { fiber := f, thread := thread }
  | .callback c, thread => { callback := c, thread := thread }

/-- `!(task.fiber || task.callback)`. -/
def isEmpty (t : Task Fib Cb) : Bool := t.fiber.isNone && t.callback.isNone

/-- The pick block passes over tasks of other threads. -/
def elsewhere (t : Task Fib Cb) (thread : ℤ) : Bool :=
  t.thread != -1 && t.thread != thread

end Task

/-- A list node of `tasks_`. -/
structure TaskNode (Fib Cb : Type) where
  ticket : ℕ
  task : Task Fib Cb
deriving Repr, DecidableEq

/-- Where a thread is in `Scheduler::Run`. -/
inductive RunPhase (Fib Cb : Type)
  | picking
  | holding (node : TaskNode Fib Cb)
  | idle
  | exited
deriving Repr, DecidableEq

/-- A thread in `Scheduler::Run`; `idleTerm` says that its idle fiber is `Term`. -/
structure Worker (Fib Cb : Type) where
  thread : ℤ
  phase : RunPhase Fib Cb
  idleTerm : Bool
deriving Repr, DecidableEq

def Worker.held {Fib Cb : Type} (w : Worker Fib Cb) : Option (TaskNode Fib Cb) :=
  match w.phase with
  | .holding node => some node
  | _ => none

structure Scheduler (Fib Cb : Type) where
  tasks : List (TaskNode Fib Cb)
  workers : List (Worker Fib Cb)
  active : UInt64
  idle : UInt64
  stopping : Bool
  scheduled : List (Task Fib Cb)
  finished : List (ℤ × TaskNode Fib Cb)
deriving Repr, DecidableEq

/-- The ids of the threads in `Run`, counted by a `size_t`. -/
structure Threads where
  ids : List ℤ
  count_lt : ids.length < 2 ^ 64

namespace Scheduler
variable {Fib Cb : Type}

def new (threads : Threads) : Scheduler Fib Cb where
  tasks := []
  workers := threads.ids.map fun id => { thread := id, phase := .picking, idleTerm := false }
  active := 0
  idle := 0
  stopping := false
  scheduled := []
  finished := []

/-- `Scheduler::ScheduleNoLock`. -/
def scheduleNoLock (fc : FiberOrCb Fib Cb) (thread : ℤ) (s : Scheduler Fib Cb) :
    Bool × Scheduler Fib Cb :=
  let needTickle := s.tasks.isEmpty
  let task := Task.new fc thread
  if task.isEmpty then (needTickle, s)
  else (needTickle, { s with
    tasks := s.tasks ++ [{ ticket := s.scheduled.length, task := task }],
    scheduled := s.scheduled ++ [task] })

/-- The locked block of the `Schedule` over a range. -/
def scheduleRange : List (FiberOrCb Fib Cb) → Scheduler Fib Cb → Bool × Scheduler Fib Cb
  | [], s => (false, s)
  | fc :: fcs, s =>
    let (needTickle, s) := s.scheduleNoLock fc (-1)
    let (later, s) := scheduleRange fcs s
    (needTickle || later, s)

/-- The loop of the pick block over `tasks_`: whether to tickle, the task taken
out, and the list left. The iterator of an erased node is not `end()`. -/
def pickLoop (thread : ℤ) (state : Fib → FiberState) : List (TaskNode Fib Cb) →
    Except Fault (Bool × Option (TaskNode Fib Cb) × List (TaskNode Fib Cb))
  | [] => .ok (false, none, [])
  | node :: rest =>
    if node.task.elsewhere thread then do
      let (_, picked, left) ← pickLoop thread state rest
      .ok (true, picked, node :: left)
    else if node.task.isEmpty then .error .assertion
    else if node.task.fiber.any fun f => state f == .running then do
      let (tickleMe, picked, left) ← pickLoop thread state rest
      .ok (tickleMe, picked, node :: left)
    else .ok (true, some node, rest)

/-- `Scheduler::Stopping`. -/
def isStopping (s : Scheduler Fib Cb) : Bool :=
  s.stopping && s.tasks.isEmpty && s.active == 0

def setWorker (i : ℕ) (w : Worker Fib Cb) (s : Scheduler Fib Cb) : Scheduler Fib Cb :=
  { s with workers := s.workers.set i w }

/-- The pick block of `Run` and the branch taken after it. -/
def pick (i : ℕ) (w : Worker Fib Cb) (state : Fib → FiberState) (s : Scheduler Fib Cb) :
    Except Fault (Bool × Scheduler Fib Cb) := do
  let (tickleMe, picked, left) ← pickLoop w.thread state s.tasks
  let s := { s with tasks := left }
  match picked with
  | some node =>
    .ok (tickleMe, { s with active := s.active + 1 }.setWorker i { w with phase := .holding node })
  | none =>
    if w.idleTerm then .ok (tickleMe, s.setWorker i { w with phase := .exited })
    else .ok (tickleMe, { s with idle := s.idle + 1 }.setWorker i { w with phase := .idle })

/-- The locked block of `Run`. -/
def pickBlock (w : Worker Fib Cb) (state : Fib → FiberState) (s : Scheduler Fib Cb) :
    Except Fault (Bool × Option (TaskNode Fib Cb) × Scheduler Fib Cb) := do
  let (tickleMe, picked, left) ← pickLoop w.thread state s.tasks
  let s := { s with tasks := left }
  .ok (tickleMe, picked, if picked.isSome then { s with active := s.active + 1 } else s)

/-- The branches of `Run` after it, up to the `Resume`. -/
def branch (i : ℕ) (w : Worker Fib Cb) (s : Scheduler Fib Cb) :
    Option (TaskNode Fib Cb) → Scheduler Fib Cb
  | some node => s.setWorker i { w with phase := .holding node }
  | none =>
    if w.idleTerm then s.setWorker i { w with phase := .exited }
    else { s with idle := s.idle + 1 }.setWorker i { w with phase := .idle }

/-- The idle fiber yields and the thread goes back to the top of `Run`. -/
def idleYield (i : ℕ) (w : Worker Fib Cb) (s : Scheduler Fib Cb) : Scheduler Fib Cb :=
  { s with idle := s.idle - 1 }.setWorker i { w with phase := .picking }

/-- The two parts are the turn of `Run` without its `Tickle`. -/
theorem pick_eq_pickBlock_branch (i : ℕ) (w : Worker Fib Cb) (state : Fib → FiberState)
    (s : Scheduler Fib Cb) :
    s.pick i w state =
      (s.pickBlock w state >>= fun r => .ok (r.1, r.2.2.branch i w r.2.1)) := by
  unfold pick pickBlock
  cases pickLoop w.thread state s.tasks with
  | error f => rfl
  | ok r =>
    obtain ⟨tickleMe,picked,left⟩ := r
    cases picked with
    | some node => rfl
    | none =>
      cases hterm : w.idleTerm <;>
        simp [bind, Except.bind, branch, hterm]

/-- `Resume` of the task returns and the thread goes back to the top of `Run`. -/
def finish (i : ℕ) (w : Worker Fib Cb) (node : TaskNode Fib Cb) (s : Scheduler Fib Cb) :
    Scheduler Fib Cb :=
  { s with
    active := s.active - 1,
    finished := s.finished ++ [(w.thread, node)] }.setWorker i { w with phase := .picking }

/-- One resumption of `Scheduler::Idle`: it ends if `Stopping()`, else it yields. -/
def idleReturn (i : ℕ) (w : Worker Fib Cb) (s : Scheduler Fib Cb) : Scheduler Fib Cb :=
  { s with idle := s.idle - 1 }.setWorker i { w with phase := .picking, idleTerm := s.isStopping }

/-- The steps; `i` is the index of the thread that moves. -/
inductive Act (Fib Cb : Type)
  | schedule (fc : FiberOrCb Fib Cb) (thread : ℤ)
  | scheduleRange (fcs : List (FiberOrCb Fib Cb))
  | pick (i : ℕ) (state : Fib → FiberState)
  | finish (i : ℕ)
  | idleReturn (i : ℕ)
  | stop
  | stopping

inductive Seen (Fib Cb : Type)
  | scheduled (needTickle : Bool)
  | picked (tickleMe : Bool)
  | finished (node : TaskNode Fib Cb)
  | idleReturned
  | stopped
  | stopping (answer : Bool)
  | disabled
deriving Repr, DecidableEq

/-- A step of a thread that is not at that point of `Run` does nothing. -/
def step (s : Scheduler Fib Cb) : Act Fib Cb → Except Fault (Seen Fib Cb × Scheduler Fib Cb)
  | .schedule fc thread =>
    let (needTickle, s) := s.scheduleNoLock fc thread
    .ok (.scheduled needTickle, s)
  | .scheduleRange fcs =>
    let (needTickle, s) := s.scheduleRange fcs
    .ok (.scheduled needTickle, s)
  | .pick i state =>
    match s.workers[i]? with
    | some w =>
      match w.phase with
      | .picking => do
        let (tickleMe, s) ← s.pick i w state
        .ok (.picked tickleMe, s)
      | _ => .ok (.disabled, s)
    | none => .ok (.disabled, s)
  | .finish i =>
    match s.workers[i]? with
    | some w =>
      match w.phase with
      | .holding node => .ok (.finished node, s.finish i w node)
      | _ => .ok (.disabled, s)
    | none => .ok (.disabled, s)
  | .idleReturn i =>
    match s.workers[i]? with
    | some w =>
      match w.phase with
      | .idle => .ok (.idleReturned, s.idleReturn i w)
      | _ => .ok (.disabled, s)
    | none => .ok (.disabled, s)
  | .stop => .ok (.stopped, { s with stopping := true })
  | .stopping => .ok (.stopping s.isStopping, s)

end Scheduler

end Gudov
