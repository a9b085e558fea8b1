import Mathlib.Data.List.Perm.Basic
import Mathlib.Data.List.Basic
import Gudov.Scheduler
import Gudov.StepSystem

/-!
# Wake-ups through the tickle pipe

The threads of an `IOManager` alternate between `Scheduler::Run` and
`IOManager::Idle`, where they block in `epoll_wait`. A thread that schedules into
an empty list, or inserts a timer at the front, calls `Tickle`, which is to put a
byte into the pipe watched by every `epoll_wait`.

`Tickle` reads `idle_thread_count_` and later writes, with other threads moving in
between, so the two are separate steps. Its guard returns when there are idle
threads, although the comment above it asks for the opposite. A thread in
`epoll_wait` is always counted as idle. Hence no call whose guard is reached while
a thread is blocked writes a byte, and the wake-up is there only if the pipe holds
a byte from before.
-/
namespace Gudov

/-- Where a thread is between the locked blocks. -/
inductive Place (Fib Cb : Type)
  | run
  | tickling (picked : Option (TaskNode Fib Cb)) (passed : Bool)
  | branching (picked : Option (TaskNode Fib Cb))
  | entering
  | blocked
  | awake (told : Bool)
deriving Repr, DecidableEq

/-- The thread is inside the `Resume` of its idle fiber. -/
def Place.inIdle {Fib Cb : Type} : Place Fib Cb → Bool
  | .entering | .blocked | .awake _ => true
  | _ => false

def Place.isBlocked {Fib Cb : Type} : Place Fib Cb → Bool
  | .blocked => true
  | _ => false

/-- A call of `Tickle` made outside `Run`. It owes a wake-up if it was made for a
`Schedule` into an empty list or for a timer at the front; `passed` says that the
guard was evaluated and did not return. -/
structure TickleCall where
  owing : Bool
  passed : Bool
deriving Repr, DecidableEq

/-- `pipe` counts the unread bytes. The flag `owed` records that a call owing a
wake-up completed with a thread blocked and no thread has left `epoll_wait` since. -/
structure Tickling (Fib Cb : Type) where
  sched : Scheduler Fib Cb
  places : List (Place Fib Cb)
  calls : List TickleCall
  pipe : ℕ
  owed : Bool
deriving Repr, DecidableEq

namespace Tickling
variable {Fib Cb : Type} {s t : Tickling Fib Cb}

def start (threads : Threads) : Tickling Fib Cb where
  sched := Scheduler.new threads
  places := List.replicate threads.ids.length .run
  calls := []
  pipe := 0
  owed := false

def someBlocked (s : Tickling Fib Cb) : Bool := s.places.any Place.isBlocked

/-- `HasIdleThreads`. -/
def hasIdleThreads (s : Tickling Fib Cb) : Bool := decide (0 < s.sched.idle)

def setPlace (i : ℕ) (p : Place Fib Cb) (s : Tickling Fib Cb) : Tickling Fib Cb :=
  { s with places := s.places.set i p }

/-- A call returns to its caller. -/
def complete (owing : Bool) (s : Tickling Fib Cb) : Tickling Fib Cb :=
  { s with owed := s.owed || (owing && s.someBlocked) }

/-- The end of a `Schedule`; `owing` says that `tasks_` was empty when it began. -/
def scheduled (owing needTickle : Bool) (s : Tickling Fib Cb) : Tickling Fib Cb :=
  if needTickle then { s with calls := s.calls ++ [{ owing := owing, passed := false }] }
  else s.complete owing

/-- What a thread in `Run` or `Idle` does next. -/
inductive Move (Fib : Type)
  | pick (state : Fib → FiberState)
  | guard
  | write
  | branch
  | finish
  | stopping
  | epollWait
  | wake (told : Bool)
  | interrupted
  | read
  | yield

/-- The steps. `tickle` is a call made by `Stop`; `guard` and `write` are the two parts
of the call at position `k`. -/
inductive Act (Fib Cb : Type)
  | schedule (fc : FiberOrCb Fib Cb) (thread : ℤ)
  | scheduleRange (fcs : List (FiberOrCb Fib Cb))
  | onTimerInsertedAtFront
  | stop
  | tickle
  | guard (k : ℕ)
  | write (k : ℕ)
  | thread (i : ℕ) (move : Move Fib)

def guard (k : ℕ) (s : Tickling Fib Cb) : Tickling Fib Cb :=
  match s.calls[k]? with
  | some { owing := owing, passed := false } =>
    if s.hasIdleThreads then { s with calls := s.calls.eraseIdx k }.complete owing
    else { s with calls := s.calls.set k { owing := owing, passed := true } }
  | _ => s

def write (k : ℕ) (s : Tickling Fib Cb) : Tickling Fib Cb :=
  match s.calls[k]? with
  | some { owing := owing, passed := true } =>
    { s with calls := s.calls.eraseIdx k, pipe := s.pipe + 1 }.complete owing
  | _ => s

/-- The next step of thread `i` with record `w`. A move that does not belong to its
place does nothing. The idle fiber may end only if `Scheduler::Stopping()`; whether the
manager's own conditions hold as well is left open. The pipe is reported by
`epoll_wait` only if a byte is in it. -/
def threadStep (i : ℕ) (w : Worker Fib Cb) (s : Tickling Fib Cb) :
    Place Fib Cb → Move Fib → Except Fault (Tickling Fib Cb)
  | .run, .pick state =>
    match w.phase with
    | .picking => do
      let (tickleMe, picked, sched) ← s.sched.pickBlock w state
      .ok ({ s with sched := sched }.setPlace i
        (if tickleMe then .tickling picked false else .branching picked))
    | _ => .ok s
  | .run, .finish =>
    match w.phase with
    | .holding node => .ok { s with sched := s.sched.finish i w node }
    | _ => .ok s
  | .tickling picked false, .guard =>
    if s.hasIdleThreads then .ok (s.setPlace i (.branching picked))
    else .ok (s.setPlace i (.tickling picked true))
  | .tickling picked true, .write =>
    .ok ({ s with pipe := s.pipe + 1 }.setPlace i (.branching picked))
  | .branching picked, .branch =>
    .ok ({ s with sched := s.sched.branch i w picked }.setPlace i
      (if picked.isNone && !w.idleTerm then .entering else .run))
  | .entering, .stopping =>
    if s.sched.isStopping then
      .ok ({ s with sched := s.sched.idleReturn i w }.setPlace i .run)
    else .ok s
  | .entering, .epollWait => .ok (s.setPlace i .blocked)
  | .blocked, .wake told =>
    .ok ({ s with owed := false }.setPlace i (.awake (told && decide (0 < s.pipe))))
  | .blocked, .interrupted => .ok { s with owed := false }
  | .awake true, .read =>
    if s.pipe = 0 then .ok (s.setPlace i (.awake false))
    else .ok { s with pipe := s.pipe - 256 }
  | .awake false, .yield =>
    .ok ({ s with sched := s.sched.idleYield i w }.setPlace i .run)
  | _, _ => .ok s

def step (s : Tickling Fib Cb) : Act Fib Cb → Except Fault (Unit × Tickling Fib Cb)
  | .schedule fc thread =>
    let (needTickle, sched) := s.sched.scheduleNoLock fc thread
    .ok ((), { s with sched := sched }.scheduled s.sched.tasks.isEmpty needTickle)
  | .scheduleRange fcs =>
    let (needTickle, sched) := s.sched.scheduleRange fcs
    .ok ((), { s with sched := sched }.scheduled s.sched.tasks.isEmpty needTickle)
  | .onTimerInsertedAtFront => .ok ((), s.scheduled true true)
  | .stop => .ok ((), { s with sched := { s.sched with stopping := true } })
  | .tickle => .ok ((), s.scheduled false true)
  | .guard k => .ok ((), s.guard k)
  | .write k => .ok ((), s.write k)
  | .thread i move =>
    match s.places[i]? with
    | none => .ok ((), s)
    | some p =>
      match s.sched.workers[i]? with
      | none => .ok ((), s)
      | some w => do
        let t ← s.threadStep i w p move
        .ok ((), t)

/-- A wake-up that is owed is in the pipe. -/
def Woken (s : Tickling Fib Cb) : Prop := s.owed = true → 1 ≤ s.pipe

/-- The step leads to such a state. -/
def KeepsWoken (s : Tickling Fib Cb) (a : Act Fib Cb) : Prop :=
  match s.step a with
  | .error _ => True
  | .ok (_, t) => t.Woken

/-- No thread is blocked, or a byte is there from before. -/
def Covered (s : Tickling Fib Cb) : Prop := s.someBlocked = true → 1 ≤ s.pipe

/-- The condition on the state before a step. -/
def Meets (s : Tickling Fib Cb) : Act Fib Cb → Prop
  | .scheduleRange [] => s.sched.tasks.isEmpty = true → s.Covered
  | .guard k => s.calls[k]? = some { owing := true, passed := false } → s.Covered
  | .thread i .read =>
    s.places[i]? = some (.awake true) → s.owed = true → 256 < s.pipe
  | _ => True

instance (s : Tickling Fib Cb) : Decidable s.Woken := inferInstanceAs (Decidable (_ → _))

instance (s : Tickling Fib Cb) (a : Act Fib Cb) : Decidable (s.KeepsWoken a) := by
  unfold KeepsWoken
  split <;> infer_instance

/-- Every thread has a place, and `idle_thread_count_` is the number of threads inside
their idle fiber. -/
structure Counted (m : Scheduler Fib Cb) (places : List (Place Fib Cb)) : Prop where
  length_lt : places.length < 2 ^ 64
  aligned : places.length = m.workers.length
  count : m.idle = UInt64.ofNat (places.countP Place.inIdle)

theorem Counted.worker {m : Scheduler Fib Cb} {places : List (Place Fib Cb)} {i : ℕ}
    {p : Place Fib Cb} (h : Counted m places) (hp : places[i]? = some p) :
    ∃ w, m.workers[i]? = some w := by
  obtain ⟨hi,_⟩ := List.getElem?_eq_some_iff.mp hp
  rw [h.aligned] at hi
  exact ⟨_,List.getElem?_eq_getElem hi⟩

/-- The counter follows the place of one thread. -/
theorem Counted.set {m m' : Scheduler Fib Cb} {places : List (Place Fib Cb)} {i : ℕ}
    {p : Place Fib Cb} (h : Counted m places) (hp : places[i]? = some p) (q : Place Fib Cb)
    (hworkers : m'.workers.length = m.workers.length)
    (hidle : m'.idle + UInt64.ofNat p.inIdle.toNat = m.idle + UInt64.ofNat q.inIdle.toNat) :
    Counted m' (places.set i q) := by
  have hperm : (p :: places.set i q).Perm (q :: places) := by
    simpa [hp] using List.getD_set_perm_cons places i q
  have hcount : (places.set i q).countP Place.inIdle + p.inIdle.toNat =
      places.countP Place.inIdle + q.inIdle.toNat := by
    have := hperm.countP_eq Place.inIdle
    rw [List.countP_cons, List.countP_cons] at this
    cases hpi : p.inIdle <;> cases hqi : q.inIdle <;> simpa [hpi, hqi] using this
  refine ⟨by simpa using h.length_lt,by simpa [hworkers] using h.aligned,?_⟩
  have hsum : m'.idle + UInt64.ofNat p.inIdle.toNat =
      UInt64.ofNat ((places.set i q).countP Place.inIdle) + UInt64.ofNat p.inIdle.toNat := by
    rw [hidle, h.count, ← UInt64.ofNat_add, ← UInt64.ofNat_add, hcount]
  simpa using hsum

/-- A blocked thread is counted, so the guard of `Tickle` returns. -/
theorem Counted.hasIdleThreads (h : Counted s.sched s.places)
    (hblocked : s.someBlocked = true) : s.hasIdleThreads = true := by
  obtain ⟨p,hp,hpb⟩ := List.any_eq_true.mp hblocked
  have hpos : 0 < s.places.countP Place.inIdle := by
    refine List.countP_pos_iff.mpr ⟨p,hp,?_⟩
    cases p <;> simp_all [Place.isBlocked, Place.inIdle]
  have hle : s.places.countP Place.inIdle < 2 ^ 64 :=
    Nat.lt_of_le_of_lt List.countP_le_length h.length_lt
  simp only [Tickling.hasIdleThreads, decide_eq_true_eq, UInt64.lt_iff_toNat_lt, h.count,
    UInt64.toNat_ofNat_of_lt' hle]
  exact hpos

theorem scheduleNoLock_fst (fc : FiberOrCb Fib Cb) (thread : ℤ) (m : Scheduler Fib Cb) :
    (m.scheduleNoLock fc thread).1 = m.tasks.isEmpty := by
  unfold Scheduler.scheduleNoLock
  dsimp only
  split <;> rfl

theorem Counted.scheduleNoLock {m : Scheduler Fib Cb} {places : List (Place Fib Cb)}
    (fc : FiberOrCb Fib Cb) (thread : ℤ) (h : Counted m places) :
    Counted (m.scheduleNoLock fc thread).2 places := by
  unfold Scheduler.scheduleNoLock
  dsimp only
  split <;> exact ⟨h.length_lt,h.aligned,h.count⟩

/-- A push never empties the list. -/
theorem scheduleNoLock_isEmpty (fc : FiberOrCb Fib Cb) (thread : ℤ) (m : Scheduler Fib Cb)
    (h : (m.scheduleNoLock fc thread).2.tasks.isEmpty = true) : m.tasks.isEmpty = true := by
  unfold Scheduler.scheduleNoLock at h
  dsimp only at h
  split at h
  · exact h
  · simp at h

theorem scheduleRange_fst (fcs : List (FiberOrCb Fib Cb)) (m : Scheduler Fib Cb) :
    (m.scheduleRange fcs).1 = (m.tasks.isEmpty && !fcs.isEmpty) := by
  induction fcs generalizing m with
  | nil => simp [Scheduler.scheduleRange]
  | cons fc fcs ih =>
    have hlater := scheduleNoLock_isEmpty fc (-1) m
    simp only [Scheduler.scheduleRange, scheduleNoLock_fst, ih]
    cases hm : m.tasks.isEmpty with
    | true => simp
    | false =>
      have hstill : (m.scheduleNoLock fc (-1)).2.tasks.isEmpty = false := by
        by_contra hcon
        rw [hlater (by simpa using hcon)] at hm
        cases hm
      rw [hstill]
      rfl

theorem Counted.scheduleRange {m : Scheduler Fib Cb} {places : List (Place Fib Cb)}
    (fcs : List (FiberOrCb Fib Cb)) (h : Counted m places) :
    Counted (m.scheduleRange fcs).2 places := by
  induction fcs generalizing m with
  | nil => exact h
  | cons fc fcs ih => exact ih (h.scheduleNoLock fc (-1))

theorem pickBlock_frame {w : Worker Fib Cb} {state : Fib → FiberState} {m m' : Scheduler Fib Cb}
    {tickleMe : Bool} {picked : Option (TaskNode Fib Cb)}
    (h : m.pickBlock w state = .ok (tickleMe, picked, m')) :
    m'.idle = m.idle ∧ m'.workers = m.workers := by
  unfold Scheduler.pickBlock at h
  cases hloop : Scheduler.pickLoop w.thread state m.tasks with
  | error f =>
    rw [hloop] at h
    cases h
  | ok r =>
    rw [bind_ok hloop] at h
    injection h with h
    injection h with _ h
    injection h with _ h
    rw [← h]
    split <;> exact ⟨rfl,rfl⟩

/-- A thread never takes bytes out of the pipe except by a `read`, and no step of a
thread makes a wake-up owed. -/
theorem threadStep_spec {i : ℕ} {w : Worker Fib Cb} {p : Place Fib Cb} {move : Move Fib}
    (hs : Counted s.sched s.places) (hp : s.places[i]? = some p)
    (h : s.threadStep i w p move = .ok t) :
    Counted t.sched t.places ∧ (t.owed = true → s.owed = true) ∧
      (s.pipe ≤ t.pipe ∨ (p = .awake true ∧ move = .read)) := by
  unfold threadStep at h
  split at h
  case h_1 state =>
    split at h
    · cases hb : s.sched.pickBlock w state with
      | error f =>
        rw [hb] at h
        cases h
      | ok r =>
        obtain ⟨tickleMe,picked,sched⟩ := r
        rw [bind_ok hb] at h
        cases h
        obtain ⟨hidle,hworkers⟩ := pickBlock_frame hb
        refine ⟨hs.set hp _ (by simp [setPlace, hworkers]) ?_,id,.inl (Nat.le_refl _)⟩
        cases tickleMe <;> simp [setPlace, hidle, Place.inIdle]
    · cases h
      exact ⟨hs,id,.inl (Nat.le_refl _)⟩
  case h_2 =>
    split at h <;> cases h
    · refine ⟨⟨hs.length_lt,?_,hs.count⟩,id,.inl (Nat.le_refl _)⟩
      simpa [Scheduler.finish, Scheduler.setWorker] using hs.aligned
    · exact ⟨hs,id,.inl (Nat.le_refl _)⟩
  case h_3 picked =>
    split at h <;> cases h <;> exact ⟨hs.set hp _ rfl rfl,id,.inl (Nat.le_refl _)⟩
  case h_4 picked =>
    cases h
    exact ⟨hs.set hp _ rfl rfl,id,.inl (Nat.le_succ _)⟩
  case h_5 picked =>
    cases h
    refine ⟨hs.set hp _ ?_ ?_,id,.inl (Nat.le_refl _)⟩ <;>
      cases picked <;> cases hterm : w.idleTerm <;>
      simp [Scheduler.branch, hterm, Place.inIdle, Scheduler.setWorker, setPlace]
  case h_6 =>
    split at h <;> cases h
    · refine ⟨hs.set hp _ ?_ ?_,id,.inl (Nat.le_refl _)⟩ <;>
      simp [Scheduler.idleReturn, Place.inIdle, Scheduler.setWorker, setPlace]
    · exact ⟨hs,id,.inl (Nat.le_refl _)⟩
  case h_7 =>
    cases h
    exact ⟨hs.set hp _ rfl rfl,id,.inl (Nat.le_refl _)⟩
  case h_8 told =>
    cases h
    exact ⟨hs.set hp _ rfl rfl,by simp [setPlace],.inl (Nat.le_refl _)⟩
  case h_9 =>
    cases h
    exact ⟨hs,by simp,.inl (Nat.le_refl _)⟩
  case h_10 =>
    split at h <;> cases h
    · exact ⟨hs.set hp _ rfl rfl,id,.inr ⟨rfl,rfl⟩⟩
    · exact ⟨hs,id,.inr ⟨rfl,rfl⟩⟩
  case h_11 =>
    cases h
    refine ⟨hs.set hp _ ?_ ?_,id,.inl (Nat.le_refl _)⟩ <;>
    simp [Scheduler.idleYield, Place.inIdle, Scheduler.setWorker, setPlace]
  case h_12 =>
    cases h
    exact ⟨hs,id,.inl (Nat.le_refl _)⟩

/-- The invariant of the runs in which no wake-up was lost yet. -/
structure Tracked (s : Tickling Fib Cb) : Prop where
  woken : s.Woken
  counted : Counted s.sched s.places

theorem start_tracked (threads : Threads) : Tracked (start threads : Tickling Fib Cb) := by
  refine ⟨fun h => ?_,by simpa [start] using threads.count_lt,?_,?_⟩
  · cases h
  · simp [start, Scheduler.new]
  · simp [start, Scheduler.new, List.countP_replicate, Place.inIdle]

theorem scheduled_counted (owing needTickle : Bool) (hs : Counted s.sched s.places) :
    Counted (s.scheduled owing needTickle).sched (s.scheduled owing needTickle).places := by
  cases needTickle <;> exact hs

theorem step_counted {a : Act Fib Cb} {o : Unit} (hs : Counted s.sched s.places)
    (h : s.step a = .ok (o, t)) : Counted t.sched t.places := by
  cases a with
  | schedule fc thread =>
    cases h
    exact scheduled_counted _ _ (hs.scheduleNoLock fc thread)
  | scheduleRange fcs =>
    cases h
    exact scheduled_counted _ _ (hs.scheduleRange fcs)
  | onTimerInsertedAtFront =>
    cases h
    exact scheduled_counted _ _ hs
  | stop =>
    cases h
    exact ⟨hs.length_lt,hs.aligned,hs.count⟩
  | tickle =>
    cases h
    exact scheduled_counted _ _ hs
  | guard k =>
    cases h
    unfold guard
    split
    · split <;> exact hs
    · exact hs
  | write k =>
    cases h
    unfold write
    split <;> exact hs
  | thread i move =>
    simp only [step] at h
    split at h
    next =>
      cases h
      exact hs
    next p hp =>
      split at h
      next =>
        cases h
        exact hs
      next w _ =>
        cases hstep : s.threadStep i w p move with
        | error f =>
          rw [hstep] at h
          cases h
        | ok u =>
          rw [bind_ok hstep] at h
          cases h
          exact (threadStep_spec hs hp hstep).1

theorem complete_woken_iff (owing : Bool) :
    (s.complete owing).Woken ↔ s.Woken ∧ (owing = true → s.Covered) := by
  unfold Woken Covered complete
  cases owing <;> cases s.owed <;> cases s.someBlocked <;> simp

/-- A `Schedule` that calls `Tickle` changes nothing yet. -/
theorem scheduled_woken_iff (owing needTickle : Bool) :
    (s.scheduled owing needTickle).Woken ↔
      s.Woken ∧ (needTickle = false → owing = true → s.Covered) := by
  cases needTickle with
  | true =>
    simp only [scheduled, if_true, Bool.true_eq_false, false_implies, and_true]
    exact Iff.rfl
  | false => simpa [scheduled] using complete_woken_iff owing

/-- With a thread blocked the guard returns, and the call completes without a byte. -/
theorem guard_woken_iff (k : ℕ) (hs : Tracked s) :
    (s.guard k).Woken ↔
      (s.calls[k]? = some { owing := true, passed := false } → s.Covered) := by
  unfold guard
  split
  next owing hcall =>
    rw [hcall]
    split
    next hidle =>
      rw [complete_woken_iff]
      have hwoken : ({ s with calls := s.calls.eraseIdx k } : Tickling Fib Cb).Woken := hs.woken
      cases owing with
      | true =>
        simp only [hwoken, true_and, forall_const]
        exact Iff.rfl
      | false => simp [hwoken]
    next hidle =>
      have hcov : s.Covered := fun hb => absurd (hs.counted.hasIdleThreads hb) hidle
      have hwoken : ({ s with calls := s.calls.set k { owing := owing, passed := true } } :
          Tickling Fib Cb).Woken := hs.woken
      simp [hwoken, hcov]
  next hcall =>
    have hnot : s.calls[k]? ≠ some { owing := true, passed := false } := hcall true
    simp [hnot, hs.woken]

theorem write_woken (k : ℕ) (hs : s.Woken) : (s.write k).Woken := by
  unfold write
  split
  · exact (complete_woken_iff _).mpr ⟨fun _ => Nat.le_add_left _ _,fun _ _ => Nat.le_add_left _ _⟩
  · exact hs

/-- A `read` takes at most 256 bytes. -/
theorem read_woken_iff {i : ℕ} {w : Worker Fib Cb}
    (h : s.threadStep i w (.awake true) .read = .ok t) :
    t.Woken ↔ (s.owed = true → 256 < s.pipe) := by
  unfold threadStep at h
  dsimp only at h
  split at h
  next hpipe =>
    cases h
    simp [Woken, setPlace, hpipe]
  next hpipe =>
    cases h
    unfold Woken
    refine imp_congr_right fun _ => ?_
    dsimp only
    omega

/-- Only a `read` can make a thread's step lose a wake-up. -/
theorem thread_keepsWoken_iff (i : ℕ) (move : Move Fib) (hs : Tracked s) :
    s.KeepsWoken (.thread i move) ↔ s.Meets (.thread i move) := by
  cases hp : s.places[i]? with
  | none =>
    have hstep : s.step (.thread i move) = .ok ((), s) := by
      simp only [step, hp]
    have hmeets : s.Meets (.thread i move) := by
      cases move <;> simp [Meets, hp]
    simpa [KeepsWoken, hstep, hmeets] using hs.woken
  | some p =>
    obtain ⟨w,hw⟩ := hs.counted.worker hp
    have hstep : s.step (.thread i move) = s.threadStep i w p move >>= fun u => .ok ((), u) := by
      simp only [step, hw, hp]
    by_cases hread : p = .awake true ∧ move = .read
    · obtain ⟨rfl,rfl⟩ := hread
      obtain ⟨u,hu⟩ : ∃ u, s.threadStep i w (.awake true) .read = .ok u := by
        unfold threadStep
        dsimp only
        split <;> exact ⟨_,rfl⟩
      simp only [KeepsWoken, hstep, hu, bind, Except.bind]
      rw [read_woken_iff hu]
      simp [Meets, hp]
    · have hmeets : s.Meets (.thread i move) := by
        cases move <;> simp_all [Meets]
      cases hu : s.threadStep i w p move with
      | error f => simp [KeepsWoken, hstep, hu, hmeets, bind, Except.bind]
      | ok u =>
        obtain ⟨_,howed,hpipe⟩ := threadStep_spec hs.counted hp hu
        have hwoken : u.Woken := by
          intro hou
          have hone := hs.woken (howed hou)
          exact Nat.le_trans hone (hpipe.resolve_right hread)
        simp [KeepsWoken, hstep, hu, hmeets, hwoken, bind, Except.bind]

theorem step_keepsWoken_iff (a : Act Fib Cb) (hs : Tracked s) : s.KeepsWoken a ↔ s.Meets a := by
  cases a with
  | schedule fc thread =>
    have hwoken : s.Woken := hs.woken
    simp only [KeepsWoken, step, scheduled_woken_iff, scheduleNoLock_fst, Meets, iff_true]
    exact ⟨hwoken,fun hne he => by simp [he] at hne⟩
  | scheduleRange fcs =>
    have hwoken : s.Woken := hs.woken
    simp only [KeepsWoken, step, scheduled_woken_iff, scheduleRange_fst]
    cases fcs with
    | nil =>
      simp only [Meets, Scheduler.scheduleRange]
      simp [hwoken]
    | cons fc fcs =>
      simp only [Meets, iff_true]
      exact ⟨hwoken,fun hne he => by simp [he] at hne⟩
  | onTimerInsertedAtFront =>
    simp [KeepsWoken, step, scheduled_woken_iff, Meets, hs.woken]
  | stop => exact iff_of_true hs.woken trivial
  | tickle => simp [KeepsWoken, step, scheduled_woken_iff, Meets, hs.woken]
  | guard k => exact guard_woken_iff k hs
  | write k => simpa [KeepsWoken, step, Meets] using write_woken k hs.woken
  | thread i move => exact thread_keepsWoken_iff i move hs

theorem step_tracked {a : Act Fib Cb} {o : Unit} (hs : Tracked s) (hmeets : s.Meets a)
    (h : s.step a = .ok (o, t)) : Tracked t := by
  refine ⟨?_,step_counted hs.counted h⟩
  have hkeeps := (step_keepsWoken_iff a hs).mpr hmeets
  simpa [KeepsWoken, h] using hkeeps

/-- In every run from the start, no wake-up is lost if and only if every step meets
the condition: a call that owes a wake-up finds at its guard no thread blocked or a
byte in the pipe, and no late reader takes the last byte of a wake-up. -/
theorem wakeups_kept_iff (threads : Threads) (acts : List (Act Fib Cb)) :
    StepSystem.Along step KeepsWoken acts (start threads) ↔
      StepSystem.Along step Meets acts (start threads) := by
  have hfree : StepSystem.Along step (fun _ _ => True) acts (start threads : Tickling Fib Cb) :=
    StepSystem.Along.of_forall (fun _ _ => trivial) acts _
  exact StepSystem.along_iff (fun _ _ _ _ hs _ hmeets h => step_tracked hs hmeets h)
    (fun _ a hs _ => step_keepsWoken_iff a hs) acts _ (start_tracked threads) hfree

/-- One thread, blocked in `epoll_wait`. A task is scheduled; `Tickle` sees an idle
thread and returns. -/
theorem wakeup_lost :
    ¬ StepSystem.Along step KeepsWoken
      [.thread 0 (.pick fun _ => .ready), .thread 0 .branch, .thread 0 .epollWait,
        .schedule (.callback (some ())) (-1), .guard 0]
      (start ⟨[7],by decide⟩ : Tickling Unit Unit) := by
  decide

end Tickling

end Gudov
