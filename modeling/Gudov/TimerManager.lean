import Mathlib.Tactic.NormNum
import Gudov.CallOutcome
import Gudov.OrderedList

/-!
# Timers and their manager

A `Timer` is shared between its user and the manager, so timers are objects in
a heap and a handle is an index into it. The ordered set `timers_` holds handles
and is kept in the order of `Timer::Comparator`, which reads the mutable field
`next_` of the stored objects and breaks ties by address.

Every clock reading is an argument of the method that takes it, and so is the
address of every object a method allocates. All times are 64-bit and wrap.
-/
namespace Gudov

/-- Object of class `Timer`; an empty `std::function` is `none`. -/
structure Timer (Cb : Type) where
  recurring : Bool := false
  ms : UInt64 := 0
  next : UInt64 := 0
  callback : Option Cb := none
  addr : ℕ
deriving Repr, DecidableEq

/-- `Timer::Comparator`; a null pointer is `none`. -/
def Timer.comparator {Cb : Type} : Option (Timer Cb) → Option (Timer Cb) → Bool
  | none, none => false
  | none, some _ => true
  | some _, none => false
  | some lhs, some rhs =>
    if lhs.next < rhs.next then true
    else if rhs.next < lhs.next then false
    else decide (lhs.addr < rhs.addr)

/-- `heap` lists every timer ever made; `timers` holds handles in set order. -/
structure TimerManager (Cb : Type) where
  heap : List (Timer Cb)
  timers : List ℕ
  tickled : Bool
  previousTime : UInt64
deriving Repr, DecidableEq

namespace TimerManager
variable {Cb : Type}

/-- `TimerManager::TimerManager`. -/
def new (now : UInt64) : TimerManager Cb :=
  { heap := [], timers := [], tickled := false, previousTime := now }

def deref (h : ℕ) (m : TimerManager Cb) : Except Fault (Timer Cb) :=
  match m.heap[h]? with
  | none => .error .nullDereference
  | some t => .ok t

def less (m : TimerManager Cb) (a b : ℕ) : Bool :=
  Timer.comparator m.heap[a]? m.heap[b]?

/-- Assignment to fields of the object behind a handle. -/
def write (h : ℕ) (t : Timer Cb) (m : TimerManager Cb) : TimerManager Cb :=
  { m with heap := m.heap.set h t }

/-- `timers_.erase(timers_.find(timer))`; `none` when `find` answers `end()`. -/
def erase (h : ℕ) (m : TimerManager Cb) : Option (TimerManager Cb) :=
  (OrderedList.erase m.less h m.timers).map fun l => { m with timers := l }

/-- `timers_.insert(timer)`. -/
def insert (h : ℕ) (m : TimerManager Cb) : TimerManager Cb :=
  { m with timers := OrderedList.insert m.less h m.timers }

/-- The protected `AddTimer(val, lock)`. The result says whether
`OnTimerInsertedAtFront` is called: the returned iterator is `begin()` when no
member precedes the timer. -/
def addTimerLocked (h : ℕ) (m : TimerManager Cb) : Bool × TimerManager Cb :=
  let atFront := (m.timers.takeWhile (m.less · h)).isEmpty && !m.tickled
  let m := m.insert h
  (atFront, if atFront then { m with tickled := true } else m)

/-- The public `AddTimer`: construct the timer, then insert it. -/
def addTimer (now ms : UInt64) (callback : Option Cb) (recurring : Bool) (addr : ℕ)
    (m : TimerManager Cb) : ℕ × Bool × TimerManager Cb :=
  let timer : Timer Cb :=
    { recurring := recurring, ms := ms, next := now + ms, callback := callback, addr := addr }
  let h := m.heap.length
  (h, addTimerLocked h { m with heap := m.heap ++ [timer] })

/-- `Timer::Cancel`. The result of `find` is erased unchecked, and erasing
`end()` is undefined. -/
def cancel (h : ℕ) (m : TimerManager Cb) : Except Fault (Bool × TimerManager Cb) := do
  let t ← m.deref h
  if t.callback.isSome then
    match (m.write h { t with callback := none }).erase h with
    | none => .error .invalidIterator
    | some m => .ok (true, m)
  else .ok (false, m)

/-- `Timer::Refresh`. -/
def refresh (h : ℕ) (now : UInt64) (m : TimerManager Cb) :
    Except Fault (Bool × TimerManager Cb) := do
  let t ← m.deref h
  if t.callback.isNone then .ok (false, m)
  else
    match m.erase h with
    | none => .ok (false, m)
    | some m => .ok (true, (m.write h { t with next := now + t.ms }).insert h)

/-- `Timer::Reset`; the second component is the call of `OnTimerInsertedAtFront`. -/
def reset (h : ℕ) (ms : UInt64) (fromNow : Bool) (now : UInt64) (m : TimerManager Cb) :
    Except Fault (Bool × Bool × TimerManager Cb) := do
  let t ← m.deref h
  if ms == t.ms && !fromNow then .ok (true, false, m)
  else if t.callback.isNone then .ok (false, false, m)
  else
    match m.erase h with
    | none => .ok (false, false, m)
    | some m =>
      let start := if fromNow then now else t.next - t.ms
      .ok (true, addTimerLocked h (m.write h { t with ms := ms, next := start + ms }))

/-- `TimerManager::GetNextTimeout`. -/
def getNextTimeout (now : UInt64) (m : TimerManager Cb) :
    Except Fault (UInt64 × TimerManager Cb) := do
  let m := { m with tickled := false }
  match m.timers with
  | [] => .ok (~~~0, m)
  | h :: _ =>
    let next ← m.deref h
    .ok (if now ≥ next.next then 0 else next.next - now, m)

/-- `TimerManager::DetectClockRollover`. -/
def detectClockRollover (now : UInt64) (m : TimerManager Cb) : Bool × TimerManager Cb :=
  (decide (now < m.previousTime) && decide (now < m.previousTime - 60 * 60 * 1000),
    { m with previousTime := now })

/-- The loop over the expired timers: hand out the callback, then re-arm the
timer or forget its callback. -/
def expireLoop (now : UInt64) : List ℕ → TimerManager Cb →
    Except Fault (List (ℕ × Option Cb) × TimerManager Cb)
  | [], m => .ok ([], m)
  | h :: hs, m => do
    let t ← m.deref h
    let m' := if t.recurring then (m.write h { t with next := now + t.ms }).insert h
      else m.write h { t with callback := none }
    let (callbacks, m'') ← expireLoop now hs m'
    .ok ((h, t.callback) :: callbacks, m'')

/-- The number of timers before the end of the expired range. -/
def expiredCount (rollOver : Bool) (now : UInt64) (addr : ℕ) (m : TimerManager Cb) : ℕ :=
  if rollOver then m.timers.length
  else
    let nowTimer : Timer Cb := { next := now, addr := addr }
    let before h := Timer.comparator m.heap[h]? (some nowTimer)
    let due h := m.heap[h]?.any fun t => t.next == now
    (m.timers.takeWhile before).length + ((m.timers.dropWhile before).takeWhile due).length

/-- `TimerManager::ListExpiredCallbacks`. Each callback comes with the handle of
its timer; `addr` is the address of the local `now_timer`. -/
def listExpiredCallbacks (now : UInt64) (addr : ℕ) (m : TimerManager Cb) :
    Except Fault (List (ℕ × Option Cb) × TimerManager Cb) := do
  match m.timers with
  | [] => .ok ([], m)
  | first :: _ =>
    let (rollOver, m) := m.detectClockRollover now
    let t ← m.deref first
    if !rollOver && decide (now < t.next) then .ok ([], m)
    else
      let n := m.expiredCount rollOver now addr
      expireLoop now (m.timers.take n) { m with timers := m.timers.drop n }

end TimerManager

end Gudov
