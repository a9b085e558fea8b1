import Gudov.Scheduler
import Gudov.StepSystem

/-!
# The fiber that runs on a thread

One thread with its pointers `t_thread_fiber`, `t_running_fiber` and `t_scheduler_fiber`, and
the context switches that the scheduler makes on it. A worker runs `Scheduler::Run` on its
main fiber, which is the scheduler fiber as well. The thread that made a scheduler with
`use_caller` runs it on `root_fiber_`, below its main fiber.

The context in `ctx_` is the fiber whose execution was saved there last: `swapcontext` saves
what executes, and not what the object stands for.
-/
namespace Gudov

/-- A fiber as a thread finds it; `context` is the execution that `ctx_` holds. -/
structure FiberObject where
  runInScheduler : Bool
  state : FiberState
  context : ℕ
deriving Repr, DecidableEq

/-- `idleFiber` is the local of `Run`, there while it runs; `executing` is the fiber whose
context executes. -/
structure FiberThread where
  fibers : List FiberObject
  threadFiber : ℕ
  schedulerFiber : ℕ
  runningFiber : ℕ
  rootFiber : Option ℕ
  idleFiber : Option ℕ
  executing : ℕ
deriving Repr, DecidableEq

namespace FiberThread

/-- `new Fiber(callback, 0, run_in_scheduler)`; the context is a fresh one. -/
def newFiber (runInScheduler : Bool) (s : FiberThread) : ℕ × FiberThread :=
  (s.fibers.length,
    { s with fibers := s.fibers ++ [⟨runInScheduler,.ready,s.fibers.length⟩] })

/-- A worker that has entered `Run`: the main fiber made by `GetRunningFiber`, and the idle
fiber. -/
def worker : FiberThread where
  fibers := [⟨false,.running,0⟩, ⟨true,.ready,1⟩]
  threadFiber := 0
  schedulerFiber := 0
  runningFiber := 0
  rootFiber := none
  idleFiber := some 1
  executing := 0

/-- The thread that has constructed a scheduler with `use_caller`. -/
def caller : FiberThread where
  fibers := [⟨false,.running,0⟩, ⟨false,.ready,1⟩]
  threadFiber := 0
  schedulerFiber := 1
  runningFiber := 0
  rootFiber := some 1
  idleFiber := none
  executing := 0

def setFiber (f : ℕ) (c : FiberObject) (s : FiberThread) : FiberThread :=
  { s with fibers := s.fibers.set f c }

/-- `swapcontext(&save->ctx_, &load->ctx_)` -/
def swapcontext (save load : ℕ) (s : FiberThread) : Except Fault FiberThread :=
  match s.fibers[save]? with
  | none => .error .nullDereference
  | some c =>
    let s' := s.setFiber save { c with context := s.executing }
    match s'.fibers[load]? with
    | none => .error .nullDereference
    | some d => .ok { s' with executing := d.context }

/-- The fiber whose context a switch to or from this one uses. -/
def partner (c : FiberObject) (s : FiberThread) : ℕ :=
  if c.runInScheduler then s.schedulerFiber else s.threadFiber

/-- `Fiber::Resume` -/
def resume (f : ℕ) (s : FiberThread) : Except Fault FiberThread :=
  match s.fibers[f]? with
  | none => .error .nullDereference
  | some c =>
    if c.state ≠ .term ∧ c.state ≠ .running then
      let s := { s with runningFiber := f }.setFiber f { c with state := .running }
      s.swapcontext (s.partner c) f
    else .error .assertion

/-- `Fiber::Yield` -/
def yield (f : ℕ) (s : FiberThread) : Except Fault FiberThread :=
  match s.fibers[f]? with
  | none => .error .nullDereference
  | some c =>
    if c.state = .running ∨ c.state = .term then
      let state := if c.state ≠ .term then .ready else c.state
      let s := { s with runningFiber := s.threadFiber }.setFiber f { c with state := state }
      s.swapcontext f (s.partner c)
    else .error .assertion

/-- The end of `Fiber::MainFunc`. -/
def mainFuncEnd (f : ℕ) (s : FiberThread) : Except Fault FiberThread :=
  match s.fibers[f]? with
  | none => .error .nullDereference
  | some c => (s.setFiber f { c with state := .term }).yield f

/-- What happens on the thread. Anyone may make fibers. The owner calls `Stop`, which may
find that the scheduler has stopped already. `Run` resumes a task's fiber, a fiber for a
callback, or the idle fiber, and the fiber that executes yields or ends. -/
inductive Act
  | newFiber (runInScheduler : Bool)
  | stop (stopping : Bool)
  | fiber (f : ℕ)
  | callback
  | idle
  | yield
  | finish
deriving Repr, DecidableEq

/-- The loop of `Run` executes. -/
def inRun (s : FiberThread) : Bool := s.idleFiber.isSome && s.executing == s.schedulerFiber

/-- A task, a callback or the idle function executes. -/
def onTask (s : FiberThread) : Bool :=
  s.executing != s.threadFiber && s.executing != s.schedulerFiber

/-- `Run` with no task left. It returns when the idle fiber has ended: a worker's thread ends
then, and so does the root fiber. -/
def runIdle (s : FiberThread) : Except Fault FiberThread :=
  match s.idleFiber with
  | none => .ok s
  | some idle =>
    match s.fibers[idle]? with
    | none => .error .nullDereference
    | some c =>
      if c.state = .term then
        match s.rootFiber with
        | none => .ok { s with idleFiber := none }
        | some root => { s with idleFiber := none }.mainFuncEnd root
      else s.resume idle

/-- An action that does not belong where the thread is does nothing. -/
def act (s : FiberThread) : Act → Except Fault FiberThread
  | .newFiber runInScheduler => .ok (s.newFiber runInScheduler).2
  | .stop stopping =>
    match s.rootFiber with
    | none => .ok s
    | some root =>
      if stopping || s.executing == s.schedulerFiber then .ok s
      else do
        let s ← s.resume root
        -- the root fiber enters `Run`
        let (idle, s) := s.newFiber true
        .ok { s with idleFiber := some idle }
  | .fiber f =>
    match s.fibers[f]? with
    | none => .ok s
    | some c =>
      -- the pick block passes over a fiber that is running
      if s.inRun && c.state != .running then s.resume f else .ok s
  | .callback =>
    -- `callback_fiber` is reset after every callback, so there is never one to use again
    if s.inRun then
      let (f, s) := s.newFiber true
      s.resume f
    else .ok s
  | .idle => if s.inRun then s.runIdle else .ok s
  | .yield => if s.onTask then s.yield s.runningFiber else .ok s
  | .finish => if s.onTask then s.mainFuncEnd s.executing else .ok s

def step (s : FiberThread) (a : Act) : Except Fault (Unit × FiberThread) := do
  let s ← s.act a
  .ok ((), s)

/-! ## One switch -/

open StepSystem
variable {s t : FiberThread} {f k : ℕ} {c d : FiberObject}

theorem setFiber_self (hc : s.fibers[f]? = some c) : (s.setFiber f d).fibers[f]? = some d := by
  have hlt := (List.getElem?_eq_some_iff.mp hc).1
  simp [setFiber, hlt]

theorem setFiber_other (hk : k ≠ f) : (s.setFiber f d).fibers[k]? = s.fibers[k]? := by
  simp [setFiber, List.getElem?_set_ne (Ne.symm hk)]

/-- The thread-local pointers other than `t_running_fiber`, and the scheduler's fibers. -/
structure SameThread (s t : FiberThread) : Prop where
  thread : t.threadFiber = s.threadFiber
  scheduler : t.schedulerFiber = s.schedulerFiber
  root : t.rootFiber = s.rootFiber

/-- The fiber `f` with object `c` executes, and its partner `d` has saved what did before. -/
structure Resumed (s t : FiberThread) (f : ℕ) (c d : FiberObject) : Prop extends
    SameThread s t where
  running : t.runningFiber = f
  executes : t.executing = c.context
  self : t.fibers[f]? = some { c with state := .running }
  partner : t.fibers[s.partner c]? = some { d with context := s.executing }
  others : ∀ k, k ≠ f → k ≠ s.partner c → t.fibers[k]? = s.fibers[k]?

/-- The fiber `f` with object `c` has saved what executed and is left for the context in its
partner `d`. -/
structure Yielded (s t : FiberThread) (f : ℕ) (c d : FiberObject) : Prop extends
    SameThread s t where
  running : t.runningFiber = s.threadFiber
  executes : t.executing = d.context
  self : ∃ state, t.fibers[f]? = some { c with state := state, context := s.executing }
  others : ∀ k, k ≠ f → t.fibers[k]? = s.fibers[k]?

/-- Only a ready fiber can be resumed. -/
theorem ready_of_resume (h : s.resume f = .ok t) :
    ∃ c, s.fibers[f]? = some c ∧ c.state = .ready := by
  unfold resume at h
  split at h
  · cases h
  next c hc =>
    split at h
    next hstate =>
      refine ⟨c,hc,?_⟩
      cases hs : c.state with
      | ready => rfl
      | running => exact absurd hs hstate.2
      | term => exact absurd hs hstate.1
    · cases h

theorem resume_spec (hc : s.fibers[f]? = some c) (hd : s.fibers[s.partner c]? = some d)
    (hne : f ≠ s.partner c) (h : s.resume f = .ok t) : Resumed s t f c d := by
  have hd' : (s.setFiber f { c with state := .running }).fibers[s.partner c]? = some d := by
    rw [setFiber_other (Ne.symm hne), hd]
  have hload : ((s.setFiber f { c with state := .running }).setFiber (s.partner c)
      { d with context := s.executing }).fibers[f]? = some { c with state := .running } := by
    rw [setFiber_other hne, setFiber_self hc]
  have heq : s.resume f = .ok { (s.setFiber f { c with state := .running }).setFiber (s.partner c)
      { d with context := s.executing } with runningFiber := f, executing := c.context } := by
    obtain ⟨c',hc',hready⟩ := ready_of_resume h
    rw [hc] at hc'
    cases hc'
    simp only [resume, hc, hready]
    simp only [swapcontext, partner, setFiber] at hd' hload ⊢
    simp [hd', hload]
  rw [heq] at h
  cases h
  refine ⟨⟨rfl,rfl,rfl⟩,rfl,rfl,hload,setFiber_self hd',?_⟩
  intro k hkf hkp
  exact (setFiber_other hkp).trans (setFiber_other hkf)

theorem yield_spec (hc : s.fibers[f]? = some c) (hstate : c.state ≠ .ready)
    (hd : s.fibers[s.partner c]? = some d) (hne : f ≠ s.partner c) :
    ∃ t, s.yield f = .ok t ∧ Yielded s t f c d := by
  have hone : c.state = .running ∨ c.state = .term := by
    cases hs : c.state with
    | ready => exact absurd hs hstate
    | running => exact Or.inl rfl
    | term => exact Or.inr rfl
  let state := if c.state ≠ .term then FiberState.ready else c.state
  have hsave : (s.setFiber f { c with state := state }).fibers[f]? =
      some { c with state := state } := setFiber_self hc
  have hload : (s.setFiber f { c with state := state, context := s.executing }).fibers[
      s.partner c]? = some d := by
    rw [setFiber_other (Ne.symm hne), hd]
  refine ⟨{ s.setFiber f { c with state := state, context := s.executing } with
    runningFiber := s.threadFiber, executing := d.context },?_,⟨rfl,rfl,rfl⟩,rfl,rfl,
    ⟨state,setFiber_self hc⟩,fun k hk => setFiber_other hk⟩
  simp only [yield, hc, hone, if_true]
  simp only [swapcontext, partner, setFiber, state] at hsave hload ⊢
  simp only [hsave, List.set_set, hload]

/-! ## The invariant -/

/-- Every `ctx_` holds the execution of its own fiber. -/
def Own (s : FiberThread) : Prop :=
  ∀ (f : ℕ) (c : FiberObject), s.fibers[f]? = some c → c.context = f

/-- The fiber on a caller's thread would come back to the scheduler fiber. -/
def Returns (s : FiberThread) : Prop :=
  ∃ c d, s.fibers[s.executing]? = some c ∧ c.state = .running ∧
    s.fibers[s.partner c]? = some d ∧ d.context = s.schedulerFiber

/-- The root fiber is the scheduler fiber and runs whenever the main fiber does not. -/
def RootRuns (s : FiberThread) : Prop :=
  ∃ c, s.fibers[s.schedulerFiber]? = some c ∧ c.runInScheduler = false ∧
    (s.executing ≠ s.threadFiber → c.state = .running)

/-- What holds as long as the pointer is right. -/
structure Right (s : FiberThread) : Prop where
  points : s.runningFiber = s.executing
  main : ∃ c, s.fibers[s.threadFiber]? = some c ∧ c.state = .running
  executes : ∃ c, s.fibers[s.executing]? = some c ∧ c.state = .running
  isWorker : s.rootFiber = none → s.schedulerFiber = s.threadFiber ∧ s.Own
  isCaller : ∀ r, s.rootFiber = some r → r = s.schedulerFiber ∧ r ≠ s.threadFiber ∧ s.RootRuns ∧
    if s.onTask then s.Returns else s.Own

/-- The pointer is right after the action. -/
def Correct (s : FiberThread) (a : Act) : Prop :=
  ∀ o t, s.step a = .ok (o, t) → t.runningFiber = t.executing

/-- A fiber that `Run` resumed yields or ends only where the scheduler fiber is the main fiber. -/
def Meets (s : FiberThread) (a : Act) : Prop :=
  a = .yield ∨ a = .finish → s.onTask = true → s.schedulerFiber = s.threadFiber

theorem worker_right : worker.Right where
  points := rfl
  main := ⟨_,rfl,rfl⟩
  executes := ⟨_,rfl,rfl⟩
  isWorker _ := by
    refine ⟨rfl,?_⟩
    intro f c hc
    match f, hc with
    | 0, rfl => rfl
    | 1, rfl => rfl
  isCaller r hr := by cases hr

theorem caller_right : caller.Right where
  points := rfl
  main := ⟨_,rfl,rfl⟩
  executes := ⟨_,rfl,rfl⟩
  isWorker h := by cases h
  isCaller r hr := by
    cases hr
    refine ⟨rfl,by decide,⟨_,rfl,rfl,fun h => absurd rfl h⟩,?_⟩
    rw [if_neg (by decide)]
    intro f c hc
    match f, hc with
    | 0, rfl => rfl
    | 1, rfl => rfl

theorem newFiber_old (r : Bool) (hk : s.fibers[k]? = some c) :
    (s.newFiber r).2.fibers[k]? = some c := by
  have hlt := (List.getElem?_eq_some_iff.mp hk).1
  simp [newFiber, List.getElem?_append_left hlt, hk]

theorem Own.newFiber (r : Bool) (h : s.Own) : (s.newFiber r).2.Own := by
  intro k c hk
  rcases Nat.lt_trichotomy k s.fibers.length with hlt | rfl | hlt
  · simp only [FiberThread.newFiber, List.getElem?_append_left hlt] at hk
    exact h k c hk
  · simp only [FiberThread.newFiber, List.getElem?_concat_length, Option.some.injEq] at hk
    rw [← hk]
  · simp only [FiberThread.newFiber] at hk
    rw [List.getElem?_eq_none (by simp; omega)] at hk
    cases hk

theorem Right.newFiber (r : Bool) (hs : s.Right) : (s.newFiber r).2.Right where
  points := hs.points
  main := by
    obtain ⟨c,hc,hstate⟩ := hs.main
    exact ⟨c,newFiber_old r hc,hstate⟩
  executes := by
    obtain ⟨c,hc,hstate⟩ := hs.executes
    exact ⟨c,newFiber_old r hc,hstate⟩
  isWorker h := ⟨(hs.isWorker h).1,(hs.isWorker h).2.newFiber r⟩
  isCaller root hroot := by
    obtain ⟨hsched,hne,⟨c,hc,hin,hruns⟩,hctx⟩ := hs.isCaller root hroot
    refine ⟨hsched,hne,⟨c,newFiber_old r hc,hin,hruns⟩,?_⟩
    have htask : (s.newFiber r).2.onTask = s.onTask := rfl
    rw [htask]
    split at hctx
    next h =>
      rw [if_pos h]
      obtain ⟨c,d,hc,hstate,hd,hback⟩ := hctx
      exact ⟨c,d,newFiber_old r hc,hstate,newFiber_old r hd,hback⟩
    next h =>
      rw [if_neg h]
      exact Own.newFiber r hctx

/-- The idle fiber plays no part. -/
theorem Right.setIdle (hs : s.Right) (idle : Option ℕ) : Right { s with idleFiber := idle } where
  points := hs.points
  main := hs.main
  executes := hs.executes
  isWorker := hs.isWorker
  isCaller := hs.isCaller

/-- When the partner executed, it has saved itself. -/
theorem Resumed.own (hr : Resumed s t f c d) (hown : s.Own) (hc : s.fibers[f]? = some c)
    (hexec : s.executing = s.partner c) : t.Own := by
  intro k x hx
  by_cases hkf : k = f
  · subst hkf
    rw [hr.self] at hx
    cases hx
    exact hown k c hc
  · by_cases hkp : k = s.partner c
    · subst hkp
      rw [hr.partner] at hx
      cases hx
      exact hexec
    · rw [hr.others k hkf hkp] at hx
      exact hown k x hx

/-- Of any other fiber at most the context changes. -/
theorem Resumed.keeps {k : ℕ} {x : FiberObject} (hr : Resumed s t f c d)
    (hd : s.fibers[s.partner c]? = some d) (hkf : k ≠ f) (hx : s.fibers[k]? = some x) :
    ∃ y, t.fibers[k]? = some y ∧ y.state = x.state ∧ y.runInScheduler = x.runInScheduler := by
  by_cases hkp : k = s.partner c
  · subst hkp
    rw [hd] at hx
    cases hx
    exact ⟨_,hr.partner,rfl,rfl⟩
  · exact ⟨x,by rw [hr.others k hkf hkp, hx],rfl,rfl⟩

/-- A fiber that `Run` resumes: it is neither of the two below it. -/
theorem Right.resumed (hs : s.Right) (hown : s.Own) (hexec : s.executing = s.schedulerFiber)
    (h : s.resume f = .ok t) : t.Right := by
  obtain ⟨c,hc,hready⟩ := ready_of_resume h
  obtain ⟨m,hm,hmain⟩ := hs.main
  obtain ⟨r,hr,hruns⟩ := hs.executes
  rw [hexec] at hr
  -- The main fiber and the scheduler fiber are running, so the fiber is neither.
  have hrunning : ∀ k x, s.fibers[k]? = some x → x.state = .running → f ≠ k := by
    rintro k x hx hstate rfl
    rw [hx] at hc
    cases hc
    rw [hstate] at hready
    cases hready
  have hfm := hrunning _ m hm hmain
  have hfr := hrunning _ r hr hruns
  have hpartner : ∃ d, s.fibers[s.partner c]? = some d ∧ d.state = .running := by
    unfold partner
    split
    · exact ⟨r,hr,hruns⟩
    · exact ⟨m,hm,hmain⟩
  obtain ⟨d,hd,hdstate⟩ := hpartner
  have hspec := resume_spec hc hd (hrunning _ d hd hdstate) h
  have hexec' : t.executing = f := hspec.executes.trans (hown f c hc)
  constructor
  · rw [hspec.running, hexec']
  · obtain ⟨y,hy,hstate,-⟩ := hspec.keeps hd (Ne.symm hfm) hm
    exact ⟨y,by rw [hspec.thread, hy],hstate.trans hmain⟩
  · exact ⟨_,by rw [hexec', hspec.self],rfl⟩
  · intro hroot
    rw [hspec.root] at hroot
    obtain ⟨hsched,-⟩ := hs.isWorker hroot
    refine ⟨by rw [hspec.scheduler, hspec.thread, hsched],hspec.own hown hc ?_⟩
    simp only [hexec, FiberThread.partner, hsched, ite_self]
  · intro root hroot
    rw [hspec.root] at hroot
    obtain ⟨hsched,hmne,⟨r',hr',hin,-⟩,-⟩ := hs.isCaller root hroot
    rw [hr] at hr'
    cases hr'
    obtain ⟨y,hy,hstate,hswitch⟩ := hspec.keeps hd (Ne.symm hfr) hr
    have htask : t.onTask = true := by
      simp [onTask, hexec', hspec.thread, hspec.scheduler, hfm, hfr]
    have hsame : t.partner { c with state := .running } = s.partner c := by
      simp only [partner, hspec.scheduler, hspec.thread]
    have hback : t.Returns :=
      ⟨{ c with state := .running },{ d with context := s.executing },
        by rw [hexec', hspec.self],rfl,by rw [hsame, hspec.partner],
        by rw [hspec.scheduler]; exact hexec⟩
    rw [htask, if_pos rfl, hspec.scheduler, hspec.thread]
    exact ⟨hsched,hmne,⟨y,by rw [hspec.scheduler, hy],hswitch.trans hin,
      fun _ => hstate.trans hruns⟩,hback⟩

/-- The root fiber that `Stop` resumes. -/
theorem Right.stopped {root : ℕ} (hs : s.Right) (hroot : s.rootFiber = some root)
    (h : s.resume root = .ok t) : t.Right := by
  obtain ⟨hsched,hmne,⟨c,hc,hin,hruns⟩,hctx⟩ := hs.isCaller root hroot
  subst hsched
  obtain ⟨c',hc',hready⟩ := ready_of_resume h
  rw [hc] at hc'
  cases hc'
  -- From a task the root fiber would be running.
  have hmain : s.executing = s.threadFiber := by
    by_contra hne
    rw [hruns hne] at hready
    cases hready
  have htask : s.onTask = false := by simp [onTask, hmain]
  rw [htask, if_neg Bool.false_ne_true] at hctx
  obtain ⟨m,hm,hstate⟩ := hs.main
  have hpartner : s.partner c = s.threadFiber := by simp [partner, hin]
  have hspec := resume_spec (d := m) hc (by rw [hpartner, hm]) (by rw [hpartner]; exact hmne) h
  have hself : t.fibers[s.threadFiber]? = some { m with context := s.executing } := by
    rw [← hpartner, hspec.partner]
  have hexec' : t.executing = s.schedulerFiber := hspec.executes.trans (hctx _ c hc)
  constructor
  · rw [hspec.running, hexec']
  · exact ⟨{ m with context := s.executing },by rw [hspec.thread, hself],hstate⟩
  · exact ⟨{ c with state := .running },by rw [hexec', hspec.self],rfl⟩
  · intro hnone
    rw [hspec.root, hroot] at hnone
    cases hnone
  · intro r hr
    rw [hspec.root, hroot] at hr
    cases hr
    have htask' : t.onTask = false := by simp [onTask, hexec', hspec.scheduler]
    rw [htask', if_neg Bool.false_ne_true, hspec.scheduler, hspec.thread]
    exact ⟨rfl,hmne,⟨{ c with state := .running },by rw [hspec.scheduler, hspec.self],hin,
      fun _ => rfl⟩,hspec.own hctx hc (by rw [hpartner, hmain])⟩

theorem Yielded.own (hy : Yielded s t f c d) (hown : s.Own) (hf : s.executing = f) : t.Own := by
  intro k x hx
  by_cases hkf : k = f
  · subst hkf
    obtain ⟨state,hself⟩ := hy.self
    rw [hself] at hx
    cases hx
    exact hf
  · rw [hy.others k hkf] at hx
    exact hown k x hx

/-- A fiber that yields or ends, back to the main fiber. -/
theorem Right.yielded (hs : s.Right) (hown : s.Own) (hf : s.executing = f)
    (hmain : f ≠ s.threadFiber) (hy : Yielded s t f c d) (hc : s.fibers[f]? = some c)
    (hd : s.fibers[s.threadFiber]? = some d) : t.Right := by
  obtain ⟨m,hm,hstate⟩ := hs.main
  have hexec : t.executing = s.threadFiber := hy.executes.trans (hown _ d hd)
  have hkept : t.fibers[s.threadFiber]? = some m := by
    rw [hy.others _ (Ne.symm hmain), hm]
  constructor
  · rw [hy.running, hexec]
  · exact ⟨m,by rw [hy.thread, hkept],hstate⟩
  · exact ⟨m,by rw [hexec, hkept],hstate⟩
  · intro hroot
    rw [hy.root] at hroot
    exact ⟨by rw [hy.scheduler, hy.thread, (hs.isWorker hroot).1],hy.own hown hf⟩
  · intro r hr
    rw [hy.root] at hr
    obtain ⟨hsched,hne,⟨x,hx,hin,-⟩,-⟩ := hs.isCaller r hr
    have htask : t.onTask = false := by simp [onTask, hexec, hy.thread]
    rw [htask, if_neg Bool.false_ne_true, hy.scheduler, hy.thread]
    refine ⟨hsched,hne,?_,hy.own hown hf⟩
    have hroot : ∃ y, t.fibers[s.schedulerFiber]? = some y ∧ y.runInScheduler = false := by
      by_cases hrf : s.schedulerFiber = f
      · obtain ⟨state,hself⟩ := hy.self
        rw [hrf, hc] at hx
        cases hx
        exact ⟨{ c with state := state, context := s.executing },by rw [hrf, hself],hin⟩
      · exact ⟨x,by rw [hy.others _ hrf, hx],hin⟩
    obtain ⟨y,hy',hswitch⟩ := hroot
    exact ⟨y,by rw [hy.scheduler, hy'],hswitch,fun hno => absurd (hexec.trans hy.thread.symm) hno⟩

theorem mainFuncEnd_spec (hc : s.fibers[f]? = some c) (hd : s.fibers[s.partner c]? = some d)
    (hne : f ≠ s.partner c) : ∃ t, s.mainFuncEnd f = .ok t ∧ Yielded s t f c d := by
  have hc' : (s.setFiber f { c with state := .term }).fibers[f]? =
      some { c with state := .term } := setFiber_self hc
  have hd' : (s.setFiber f { c with state := .term }).fibers[s.partner c]? = some d := by
    rw [setFiber_other (Ne.symm hne), hd]
  obtain ⟨t,hyield,hy⟩ := yield_spec hc' (by simp) hd' hne
  refine ⟨t,?_,⟨hy.thread,hy.scheduler,hy.root⟩,hy.running,hy.executes,hy.self,?_⟩
  · simp only [mainFuncEnd, hc, hyield]
  · intro k hk
    rw [hy.others k hk, setFiber_other hk]

/-! ## Runs -/

theorem onTask_iff :
    s.onTask = true ↔ s.executing ≠ s.threadFiber ∧ s.executing ≠ s.schedulerFiber := by
  simp [onTask]

theorem Right.own_of_not_onTask (hs : s.Right) (h : s.onTask = false) : s.Own := by
  cases hroot : s.rootFiber with
  | none => exact (hs.isWorker hroot).2
  | some r =>
    have hctx := (hs.isCaller r hroot).2.2.2
    rw [h, if_neg Bool.false_ne_true] at hctx
    exact hctx

theorem Right.own_of_worker (hs : s.Right) (h : s.schedulerFiber = s.threadFiber) : s.Own := by
  cases hroot : s.rootFiber with
  | none => exact (hs.isWorker hroot).2
  | some r =>
    obtain ⟨hsched,hne,-⟩ := hs.isCaller r hroot
    exact absurd (hsched.trans h) hne

/-- Where a fiber of a worker goes when it yields or ends. -/
theorem Right.leaves (hs : s.Right) (h : s.schedulerFiber = s.threadFiber)
    (htask : s.onTask = true) (c : FiberObject) :
    ∃ d, s.fibers[s.threadFiber]? = some d ∧ s.fibers[s.partner c]? = some d ∧
      s.executing ≠ s.partner c := by
  obtain ⟨d,hd,-⟩ := hs.main
  have hpartner : s.partner c = s.threadFiber := by
    rw [partner, h, ite_self]
  exact ⟨d,hd,by rw [hpartner, hd],by rw [hpartner]; exact (onTask_iff.mp htask).1⟩

theorem Right.ranIdle (hs : s.Right) (hown : s.Own) (hexec : s.executing = s.schedulerFiber)
    (h : s.runIdle = .ok t) : t.Right := by
  unfold runIdle at h
  split at h
  · cases h
    exact hs
  · split at h
    · cases h
    · split at h
      · split at h
        · cases h
          exact hs.setIdle none
        next root hroot =>
          obtain ⟨rfl,hne,⟨c,hc,hin,-⟩,-⟩ := hs.isCaller root hroot
          obtain ⟨d,hd,-⟩ := hs.main
          have hpartner : s.partner c = s.threadFiber := by simp [partner, hin]
          obtain ⟨u,hu,hy⟩ := mainFuncEnd_spec (s := { s with idleFiber := none }) (d := d) hc
            (by rw [← hpartner] at hd; exact hd) (by rw [← hpartner] at hne; exact hne)
          rw [hu] at h
          cases h
          exact (hs.setIdle none).yielded hown hexec hne hy hc hd
      · exact hs.resumed hown hexec h

theorem act_right {a : Act} (hs : s.Right) (hmeets : s.Meets a) (h : s.act a = .ok t) :
    t.Right := by
  have hrun : s.inRun = true → s.executing = s.schedulerFiber ∧ s.Own := by
    intro hin
    simp only [inRun, Bool.and_eq_true, beq_iff_eq] at hin
    exact ⟨hin.2,hs.own_of_not_onTask (by simp [onTask, hin.2])⟩
  cases a with
  | newFiber r =>
    cases h
    exact hs.newFiber r
  | stop stopping =>
    simp only [act] at h
    split at h
    · cases h
      exact hs
    next root hroot =>
      split at h
      · cases h
        exact hs
      · obtain ⟨u,hu,h⟩ := exists_of_bind_eq_ok h
        cases h
        exact ((hs.stopped hroot hu).newFiber true).setIdle _
  | fiber f =>
    simp only [act] at h
    split at h
    · cases h
      exact hs
    · split at h
      next hgo =>
        simp only [Bool.and_eq_true] at hgo
        obtain ⟨hexec,hown⟩ := hrun hgo.1
        exact hs.resumed hown hexec h
      · cases h
        exact hs
  | callback =>
    simp only [act] at h
    split at h
    next hin =>
      obtain ⟨hexec,hown⟩ := hrun hin
      exact (hs.newFiber true).resumed (hown.newFiber true) hexec h
    · cases h
      exact hs
  | idle =>
    simp only [act] at h
    split at h
    next hin =>
      obtain ⟨hexec,hown⟩ := hrun hin
      exact hs.ranIdle hown hexec h
    · cases h
      exact hs
  | yield =>
    simp only [act] at h
    split at h
    next htask =>
      have hworker := hmeets (Or.inl rfl) htask
      obtain ⟨c,hc,hstate⟩ := hs.executes
      obtain ⟨d,hd,hpartner,hne⟩ := hs.leaves hworker htask c
      obtain ⟨u,hu,hy⟩ := yield_spec hc (by simp [hstate]) hpartner hne
      rw [hs.points, hu] at h
      cases h
      exact hs.yielded (hs.own_of_worker hworker) rfl (onTask_iff.mp htask).1 hy hc hd
    · cases h
      exact hs
  | finish =>
    simp only [act] at h
    split at h
    next htask =>
      have hworker := hmeets (Or.inr rfl) htask
      obtain ⟨c,hc,-⟩ := hs.executes
      obtain ⟨d,hd,hpartner,hne⟩ := hs.leaves hworker htask c
      obtain ⟨u,hu,hy⟩ := mainFuncEnd_spec hc hpartner hne
      rw [hu] at h
      cases h
      exact hs.yielded (hs.own_of_worker hworker) rfl (onTask_iff.mp htask).1 hy hc hd
    · cases h
      exact hs

/-- On the caller's thread a fiber that yields or ends comes back to the root fiber, and the
pointer names the main fiber. -/
theorem act_wrong {a : Act} (hs : s.Right) (hnot : ¬ s.Meets a) :
    ∃ t, s.act a = .ok t ∧ t.runningFiber = s.threadFiber ∧ t.executing = s.schedulerFiber ∧
      s.threadFiber ≠ s.schedulerFiber := by
  simp only [Meets, Classical.not_imp] at hnot
  obtain ⟨ha,htask,hne⟩ := hnot
  cases hroot : s.rootFiber with
  | none => exact absurd (hs.isWorker hroot).1 hne
  | some r =>
    obtain ⟨-,-,-,hctx⟩ := hs.isCaller r hroot
    rw [htask, if_pos rfl] at hctx
    obtain ⟨c,d,hc,hstate,hd,hback⟩ := hctx
    have hother : s.executing ≠ s.partner c := by
      unfold partner
      split
      · exact (onTask_iff.mp htask).2
      · exact (onTask_iff.mp htask).1
    rcases ha with rfl | rfl
    · obtain ⟨t,ht,hy⟩ := yield_spec hc (by simp [hstate]) hd hother
      refine ⟨t,?_,hy.running,hy.executes.trans hback,Ne.symm hne⟩
      simp only [act, htask, if_true, hs.points, ht]
    · obtain ⟨t,ht,hy⟩ := mainFuncEnd_spec hc hd hother
      refine ⟨t,?_,hy.running,hy.executes.trans hback,Ne.symm hne⟩
      simp only [act, htask, if_true, ht]

theorem act_of_step {a : Act} {o : Unit} (h : s.step a = .ok (o, t)) : s.act a = .ok t := by
  obtain ⟨u,hu,h⟩ := exists_of_bind_eq_ok h
  cases h
  exact hu

theorem correct_iff {a : Act} (hs : s.Right) : s.Correct a ↔ s.Meets a := by
  constructor
  · intro hcorrect
    by_contra hnot
    obtain ⟨t,ht,hrunning,hexec,hne⟩ := act_wrong hs hnot
    have hpoints := hcorrect () t (bind_ok ht)
    rw [hrunning, hexec] at hpoints
    exact hne hpoints
  · intro hmeets o t h
    exact (act_right hs hmeets (act_of_step h)).points

/-! A thread stays what it is. -/

theorem swapcontext_root {save load : ℕ} (h : s.swapcontext save load = .ok t) :
    t.rootFiber = s.rootFiber := by
  unfold swapcontext at h
  split at h
  · cases h
  · dsimp only at h
    split at h
    · cases h
    · cases h
      rfl

theorem resume_root (h : s.resume f = .ok t) : t.rootFiber = s.rootFiber := by
  unfold resume at h
  split at h
  · cases h
  · split at h
    · exact (swapcontext_root h).trans rfl
    · cases h

theorem yield_root (h : s.yield f = .ok t) : t.rootFiber = s.rootFiber := by
  unfold yield at h
  split at h
  · cases h
  · split at h
    · exact (swapcontext_root h).trans rfl
    · cases h

theorem mainFuncEnd_root (h : s.mainFuncEnd f = .ok t) : t.rootFiber = s.rootFiber := by
  unfold mainFuncEnd at h
  split at h
  · cases h
  · exact (yield_root h).trans rfl

theorem runIdle_root (h : s.runIdle = .ok t) : t.rootFiber = s.rootFiber := by
  unfold runIdle at h
  split at h
  · cases h
    rfl
  · split at h
    · cases h
    · split at h
      · split at h
        · cases h
          rfl
        · exact (mainFuncEnd_root h).trans rfl
      · exact resume_root h

theorem act_root {a : Act} (h : s.act a = .ok t) : t.rootFiber = s.rootFiber := by
  cases a with
  | newFiber r =>
    cases h
    rfl
  | stop stopping =>
    simp only [act] at h
    split at h
    · cases h
      rfl
    · split at h
      · cases h
        rfl
      · obtain ⟨u,hu,h⟩ := exists_of_bind_eq_ok h
        cases h
        have hsame := resume_root hu
        exact hsame
  | fiber f =>
    simp only [act] at h
    split at h
    · cases h
      rfl
    · split at h
      · exact resume_root h
      · cases h
        rfl
  | callback =>
    simp only [act] at h
    split at h
    · exact (resume_root h).trans rfl
    · cases h
      rfl
  | idle =>
    simp only [act] at h
    split at h
    · exact runIdle_root h
    · cases h
      rfl
  | yield =>
    simp only [act] at h
    split at h
    · exact yield_root h
    · cases h
      rfl
  | finish =>
    simp only [act] at h
    split at h
    · exact mainFuncEnd_root h
    · cases h
      rfl

theorem meets_of_worker {a : Act} (hs : s.Right) (hroot : s.rootFiber = none) : s.Meets a :=
  fun _ _ => (hs.isWorker hroot).1

/-- On a worker's thread the pointer is right after every switch of every run. On the thread
that made its scheduler with `use_caller` it is right along a run exactly as long as no fiber
resumed by `Run` yields or ends. -/
theorem running_fiber_right_iff (acts : List Act) :
    Along step Correct acts worker ∧
      (Along step Correct acts caller ↔ Along step Meets acts caller) := by
  have hfree : ∀ s, Along step (fun _ _ => True) acts s :=
    Along.of_forall (fun _ _ => trivial) acts
  constructor
  · refine Along.imp (fun s => s.Right ∧ s.rootFiber = none) ?_ ?_ ⟨worker_right,rfl⟩
      (hfree worker)
    · rintro s a o t ⟨hs,hroot⟩ - h
      have hact := act_of_step h
      exact ⟨act_right hs (meets_of_worker hs hroot) hact,by rw [act_root hact, hroot]⟩
    · rintro s a ⟨hs,hroot⟩ -
      exact (correct_iff hs).mpr (meets_of_worker hs hroot)
  · exact along_iff (fun _ _ _ _ hs _ hmeets h => act_right hs hmeets (act_of_step h))
      (fun _ _ hs _ => correct_iff hs) acts caller caller_right (hfree caller)

/-- `Stop` runs the root fiber, which resumes the idle fiber; when that yields, the root fiber
executes and the pointer names the main fiber. -/
theorem running_fiber_wrong :
    ¬ Along step Correct [.stop false, .idle, .yield] caller ∧
      ∃ s o t, run step [.stop false, .idle] caller = .ok ([(), ()], s) ∧
        s.step .yield = .ok (o, t) ∧ t.runningFiber = 0 ∧ t.executing = 1 := by
  refine ⟨?_,_,_,_,rfl,rfl,rfl,rfl⟩
  rintro ⟨-,hall⟩
  obtain ⟨-,hall⟩ := hall _ _ rfl
  obtain ⟨hyield,-⟩ := hall _ _ rfl
  exact absurd (hyield _ _ rfl) (by decide)

end FiberThread

end Gudov
