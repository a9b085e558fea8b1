import Gudov.IntConversion
import Gudov.TimerRuns

/-!
# How long an idle thread waits

`IOManager::Idle` waits in `epoll_wait` for the time `GetNextTimeout` reports, but at most
for `MAX_TIMEOUT`. The time is unsigned with 64 bits, the argument of `epoll_wait` an `int`,
and the bound is taken between two narrowings, anew before each call that follows an
interrupted one.
-/
namespace Gudov.IdleTimeout
open IntConversion
variable {Cb : Type}

/-- `MAX_TIMEOUT` -/
def maxTimeout : Int32 := 2000

/-- How a call of `epoll_wait` ends: with `EINTR`, or with any other result. -/
inductive Wakeup
  | interrupted
  | returned (rt : Int32)
deriving Repr, DecidableEq

/-- The new value of `next_timeout` before a call. -/
def bounded (nextTimeout : UInt64) : UInt64 :=
  if nextTimeout != ~~~0 then
    -- std::min((int)next_timeout, MAX_TIMEOUT)
    widen (if maxTimeout < narrow nextTimeout then maxTimeout else narrow nextTimeout)
  else widen maxTimeout

/-- The inner loop of `Idle`: the timeouts it passes to `epoll_wait`. It goes on as long as
the calls are interrupted. -/
def wait (nextTimeout : UInt64) : List Wakeup → List Int32
  | [] => []
  | .interrupted :: rest => narrow (bounded nextTimeout) :: wait (bounded nextTimeout) rest
  | .returned _ :: _ => [narrow (bounded nextTimeout)]

/-- `IOManager::Stopping(timeout)`; the last two conditions are the manager's own. -/
def stopping (pendingEventCnt : UInt64) (schedulerStopping : Bool) (timeout : UInt64) : Bool :=
  timeout == ~~~0 && pendingEventCnt == 0 && schedulerStopping

/-- One round of `Idle` up to the wake-up: `none` where it leaves, else the timeouts passed
to `epoll_wait`. -/
def idle (now pendingEventCnt : UInt64) (schedulerStopping : Bool) (wakeups : List Wakeup)
    (m : TimerManager Cb) : Except Fault (Option (List Int32) × TimerManager Cb) := do
  let (nextTimeout, m) ← m.getNextTimeout now
  if stopping pendingEventCnt schedulerStopping nextTimeout then .ok (none, m)
  else .ok (some (wait nextTimeout wakeups), m)

/-- Between nothing and the reported time, and never beyond `MAX_TIMEOUT`. -/
def InRange (t : UInt64) (passed : Int32) : Prop :=
  0 ≤ passed.toInt ∧ passed.toInt ≤ min (t.toNat : ℤ) maxTimeout.toInt

theorem maxTimeout_toInt : maxTimeout.toInt = 2000 := rfl

/-- The bound of a time whose low half is a non-negative `int`. -/
theorem bounded_of_lt {t : UInt64} (hne : t ≠ ~~~0) (hlow : t.toNat % 2 ^ 32 < 2 ^ 31) :
    ((bounded t).toNat : ℤ) = min ((t.toNat % 2 ^ 32 : ℕ) : ℤ) 2000 := by
  have hnarrow := toInt_narrow_of_lt hlow
  have hmax := maxTimeout_toInt
  rw [bounded, if_pos (by simpa using hne)]
  split
  next hlt =>
    rw [Int32.lt_iff_toInt_lt, hnarrow, hmax] at hlt
    rw [toNat_widen_of_nonneg (by omega), hmax]
    omega
  next hlt =>
    rw [Int32.lt_iff_toInt_lt, hnarrow, hmax] at hlt
    rw [toNat_widen_of_nonneg (by omega), hnarrow]
    omega

/-- A time for which the narrowed value is right. -/
def Fits (t : UInt64) : Prop := t = ~~~0 ∨ t.toNat % 2 ^ 32 < 2 ^ 31

theorem bounded_le {t : UInt64} (ht : Fits t) :
    (bounded t).toNat ≤ 2000 ∧ (bounded t).toNat ≤ t.toNat := by
  by_cases hne : t = ~~~0
  · subst hne
    decide
  · have hbound := bounded_of_lt hne (ht.resolve_left hne)
    omega

/-- The bound fits as well, so that a retry starts from a right value. -/
theorem fits_bounded {t : UInt64} (ht : Fits t) : Fits (bounded t) := by
  have hle := bounded_le ht
  exact Or.inr (by omega)

theorem narrow_bounded_inRange {t : UInt64} (ht : Fits t) : InRange t (narrow (bounded t)) := by
  have hle := bounded_le ht
  rw [InRange, toInt_narrow_of_lt (by omega), maxTimeout_toInt]
  omega

/-- By induction over the interrupted calls: the bound only decreases. -/
theorem wait_inRange {t : UInt64} (ht : Fits t) (wakeups : List Wakeup) :
    ∀ x ∈ wait t wakeups, InRange t x := by
  induction wakeups generalizing t with
  | nil => simp [wait]
  | cons w rest ih =>
    cases w with
    | returned rt =>
      intro x hx
      rw [List.mem_singleton.mp hx]
      exact narrow_bounded_inRange ht
    | interrupted =>
      intro x hx
      rcases List.mem_cons.mp hx with rfl | hx
      · exact narrow_bounded_inRange ht
      · have hle := bounded_le ht
        have hlater := ih (fits_bounded ht) x hx
        unfold InRange at hlater ⊢
        omega

/-- A time whose low half is negative is passed on as it is. -/
theorem narrow_bounded_neg {t : UInt64} (ht : ¬ Fits t) : (narrow (bounded t)).toInt < 0 := by
  have hne : t ≠ ~~~0 := fun h => ht (Or.inl h)
  have hneg : (narrow t).toInt < 0 := by
    rw [← Int.not_le, narrow_nonneg_iff]
    exact fun h => ht (Or.inr h)
  have hmin : ¬ maxTimeout < narrow t := by
    rw [Int32.lt_iff_toInt_lt, maxTimeout_toInt]
    omega
  rw [bounded, if_pos (by simpa using hne), if_neg hmin, narrow_widen]
  exact hneg

/-- For every set of timers: all the calls of a round get a timeout in range exactly when the
reported time is `~0ull` or its low half is a non-negative `int`. -/
theorem idle_timeout_inRange_iff {now t : UInt64} {m m' : TimerManager Cb}
    (hget : m.getNextTimeout now = .ok (t, m')) (pendingEventCnt : UInt64)
    (schedulerStopping : Bool) :
    (∀ wakeups passed m'',
        idle now pendingEventCnt schedulerStopping wakeups m = .ok (some passed, m'') →
        ∀ x ∈ passed, InRange t x) ↔
      t = ~~~0 ∨ t.toNat % 2 ^ 32 < 2 ^ 31 := by
  have hidle : ∀ wakeups, idle now pendingEventCnt schedulerStopping wakeups m =
      if stopping pendingEventCnt schedulerStopping t then .ok (none, m')
      else .ok (some (wait t wakeups), m') := fun wakeups => bind_ok hget
  constructor
  · intro hall
    by_contra hfits
    have hne : t ≠ ~~~0 := fun h => hfits (Or.inl h)
    have hgoes : stopping pendingEventCnt schedulerStopping t = false := by
      rw [stopping, beq_false_of_ne hne, Bool.false_and, Bool.false_and]
    have hrun := hidle [.returned 0]
    rw [hgoes, if_neg Bool.false_ne_true] at hrun
    have hfirst := hall [.returned 0] _ m' hrun _ (List.mem_singleton_self _)
    exact absurd hfirst.1 (Int.not_le.mpr (narrow_bounded_neg hfits))
  · intro hfits wakeups passed m'' hrun
    rw [hidle] at hrun
    split at hrun
    · cases hrun
    · cases hrun
      exact wait_inRange hfits wakeups

/-- A timer in an hour, and two interrupted calls. -/
theorem idle_timeout_inRange_iff_hour :
    ∃ t m', (TimerManager.addTimer 10 3600000 (some ()) false 100 (.new 10)).2.2.getNextTimeout 20 =
        .ok (t, m') ∧ t = 3599990 ∧
      ∀ x ∈ wait t [.interrupted, .interrupted, .returned 0], InRange t x := by
  refine ⟨_,_,rfl,rfl,?_⟩
  have hget : (TimerManager.addTimer 10 3600000 (some ()) false 100 (.new 10)).2.2.getNextTimeout
      20 = .ok (3599990, _) := rfl
  have hall := (idle_timeout_inRange_iff hget 0 false).mpr (Or.inr (by decide))
  exact hall [.interrupted, .interrupted, .returned 0] _ _ rfl

/-- A timer in fifty days: the low half of the reported time is negative, and `epoll_wait`
blocks for ever. -/
theorem idle_timeout_negative :
    ∃ t m', (TimerManager.addTimer 10 4294967295 (some ()) false 100 (.new 10)).2.2.getNextTimeout
        20 = .ok (t, m') ∧
      ∃ passed m'', idle 20 0 false [.returned 0]
          (TimerManager.addTimer 10 4294967295 (some ()) false 100 (.new 10)).2.2 =
          .ok (some passed, m'') ∧ (∀ x ∈ passed, x.toInt = -11) ∧
        ¬ ∀ x ∈ passed, InRange t x := by
  refine ⟨_,_,rfl,[-11],_,rfl,?_,?_⟩
  · intro x hx
    rw [List.mem_singleton.mp hx]
    rfl
  · intro hall
    exact absurd (hall (-11) List.mem_cons_self).1 (by decide)

end Gudov.IdleTimeout
