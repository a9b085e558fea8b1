import Gudov.IntConversion
import Gudov.TimerRuns

/-!
# The hooked sleep functions

With the hook enabled, `sleep`, `usleep` and `nanosleep` add a one-shot timer that schedules
the calling fiber, and yield. Each converts its argument to milliseconds in a type of its
own: an unsigned product, an unsigned quotient, and a sum of type `long` that is narrowed to
`int`.
-/
namespace Gudov.HookedSleep
open IntConversion
variable {Fib : Type}

/-- The callback `Schedule(fiber, thread)` that the hooks bind. -/
structure Wakes (Fib : Type) where
  fiber : Fib
  thread : Int32
deriving Repr, DecidableEq

/-- `struct timespec`, with `time_t` and `long` of 64 bits. -/
structure Timespec where
  sec : Int64
  nsec : Int64
deriving Repr, DecidableEq

/-- What the caller, the clock and the allocator supply. -/
structure Context (Fib : Type) where
  hookEnable : Bool
  fiber : Fib
  now : UInt64
  addr : ℕ
deriving Repr, DecidableEq

/-- A hook with its delay: `none` where it calls the original function, else the handle of
the timer and the manager with it. The fiber yields afterwards. -/
def delay (ms : UInt64) (c : Context Fib) (m : TimerManager (Wakes Fib)) :
    Option (ℕ × TimerManager (Wakes Fib)) :=
  if !c.hookEnable then none
  else
    let (h, _, m) := m.addTimer c.now ms (some ⟨c.fiber,-1⟩) false c.addr
    some (h, m)

def sleep (seconds : UInt32) (c : Context Fib) (m : TimerManager (Wakes Fib)) :
    Option (ℕ × TimerManager (Wakes Fib)) :=
  delay (seconds * 1000).toUInt64 c m

def usleep (usec : UInt32) (c : Context Fib) (m : TimerManager (Wakes Fib)) :
    Option (ℕ × TimerManager (Wakes Fib)) :=
  delay (usec / 1000).toUInt64 c m

/-- The result of signed arithmetic, which is undefined on overflow. -/
def long (i : ℤ) : Option Int64 :=
  if -2 ^ 63 ≤ i ∧ i < 2 ^ 63 then some (Int64.ofInt i) else none

/-- `req->tv_sec * 1000 + req->tv_nsec / 1000000` -/
def milliseconds (req : Timespec) : Option Int64 := do
  let ms ← long (req.sec.toInt * 1000)
  long (ms.toInt + (req.nsec / 1000000).toInt)

/-- The outer `none` is an overflow. -/
def nanosleep (req : Timespec) (c : Context Fib) (m : TimerManager (Wakes Fib)) :
    Option (Option (ℕ × TimerManager (Wakes Fib))) :=
  if !c.hookEnable then some none
  else
    (milliseconds req).map fun sum =>
      let timeoutMs : Int32 := sum.toInt32
      delay (widen timeoutMs) c m

/-- The call has added a timer that runs for at least this many nanoseconds. -/
def Lasts (ns : ℤ) (r : Option (ℕ × TimerManager (Wakes Fib))) : Prop :=
  ∃ h m t, r = some (h, m) ∧ m.heap[h]? = some t ∧ ns ≤ t.ms.toNat * 10 ^ 6

theorem delay_lasts_iff {c : Context Fib} (hc : c.hookEnable = true) (ns : ℤ) (ms : UInt64)
    (m : TimerManager (Wakes Fib)) : Lasts ns (delay ms c m) ↔ ns ≤ ms.toNat * 10 ^ 6 := by
  let t : Timer (Wakes Fib) :=
    { recurring := false, ms := ms, next := c.now + ms, callback := some ⟨c.fiber,-1⟩,
      addr := c.addr }
  have hdelay : delay ms c m =
      some (m.heap.length, (m.addTimer c.now ms (some ⟨c.fiber,-1⟩) false c.addr).2.2) := by
    rw [delay, hc]
    rfl
  have hheap : (m.addTimer c.now ms (some ⟨c.fiber,-1⟩) false c.addr).2.2.heap =
      m.heap ++ [t] := by
    simp only [TimerManager.addTimer, TimerManager.addTimerLocked_heap, t]
  have hnew : (m.addTimer c.now ms (some ⟨c.fiber,-1⟩) false c.addr).2.2.heap[m.heap.length]? =
      some t := by
    rw [hheap, List.getElem?_concat_length]
  rw [hdelay]
  constructor
  · rintro ⟨h,m',t',heq,ht',hle⟩
    cases heq
    rw [hnew] at ht'
    cases ht'
    exact hle
  · intro hle
    exact ⟨_,_,t,rfl,hnew,hle⟩

/-! ## The three conversions -/

theorem sleep_lasts_iff {c : Context Fib} (hc : c.hookEnable = true) (seconds : UInt32)
    (m : TimerManager (Wakes Fib)) :
    Lasts (seconds.toNat * 10 ^ 9) (sleep seconds c m) ↔ seconds.toNat * 1000 < 2 ^ 32 := by
  have hms : ((seconds * 1000).toUInt64).toNat = seconds.toNat * 1000 % 2 ^ 32 := by simp
  rw [sleep, delay_lasts_iff hc, hms]
  omega

theorem usleep_lasts_iff {c : Context Fib} (hc : c.hookEnable = true) (usec : UInt32)
    (m : TimerManager (Wakes Fib)) :
    Lasts (usec.toNat * 10 ^ 3) (usleep usec c m) ↔ usec.toNat % 1000 = 0 := by
  have hms : ((usec / 1000).toUInt64).toNat = usec.toNat / 1000 := by simp
  rw [usleep, delay_lasts_iff hc, hms]
  omega

theorem long_of_fits {i : ℤ} (h : -2 ^ 63 ≤ i ∧ i < 2 ^ 63) :
    ∃ v, long i = some v ∧ v.toInt = i :=
  ⟨Int64.ofInt i,if_pos h,Int64.toInt_ofInt_of_le h.1 h.2⟩

/-- The timespec in whole milliseconds. -/
def Timespec.ms (req : Timespec) : ℤ := req.sec.toInt * 1000 + req.nsec.toInt / 10 ^ 6

/-- No step of the sum overflows. -/
def Timespec.Defined (req : Timespec) : Prop :=
  -2 ^ 63 ≤ req.sec.toInt * 1000 ∧ req.ms < 2 ^ 63

theorem nsec_div {req : Timespec} (h : 0 ≤ req.nsec.toInt) :
    (req.nsec / 1000000).toInt = req.nsec.toInt / 10 ^ 6 := by
  have hdiv : (req.nsec / 1000000).toInt = (req.nsec.toInt.tdiv 1000000).bmod (2 ^ 64) :=
    Int64.toInt_div req.nsec 1000000
  have hlt := req.nsec.toInt_lt
  rw [hdiv, Int.tdiv_eq_ediv_of_nonneg h, Int.bmod_def]
  omega

/-- The sum is exact wherever it is defined. -/
theorem milliseconds_of_defined {req : Timespec} (h : 0 ≤ req.nsec.toInt) (hd : req.Defined) :
    ∃ sum, milliseconds req = some sum ∧ sum.toInt = req.ms := by
  obtain ⟨hlow,hhigh⟩ := hd
  unfold Timespec.ms at hhigh ⊢
  obtain ⟨ms,hms,hval⟩ := long_of_fits (i := req.sec.toInt * 1000) (by omega)
  obtain ⟨sum,hsum,hval'⟩ := long_of_fits (i := ms.toInt + (req.nsec / 1000000).toInt)
    (by rw [hval, nsec_div h]; omega)
  refine ⟨sum,?_,by rw [hval', hval, nsec_div h]⟩
  rw [milliseconds, hms]
  exact hsum

theorem milliseconds_of_not_defined {req : Timespec} (h : 0 ≤ req.nsec.toInt)
    (hd : ¬ req.Defined) : milliseconds req = none := by
  by_cases hmul : -2 ^ 63 ≤ req.sec.toInt * 1000 ∧ req.sec.toInt * 1000 < 2 ^ 63
  · obtain ⟨ms,hms,hval⟩ := long_of_fits hmul
    have hbig : ¬ (-2 ^ 63 ≤ ms.toInt + (req.nsec / 1000000).toInt ∧
        ms.toInt + (req.nsec / 1000000).toInt < 2 ^ 63) := by
      rw [hval, nsec_div h]
      exact fun hfit => hd ⟨hmul.1,hfit.2⟩
    rw [milliseconds, hms]
    exact if_neg hbig
  · rw [milliseconds, long, if_neg hmul]
    rfl

/-- The sum after both conversions. -/
theorem toNat_widen_toInt32 (sum : Int64) : ((widen sum.toInt32).toNat : ℤ) =
    if sum.toInt % 2 ^ 32 < 2 ^ 31 then sum.toInt % 2 ^ 32
    else sum.toInt % 2 ^ 32 - 2 ^ 32 + 2 ^ 64 := by
  rw [toNat_widen, Int64.toInt_toInt32, Int.bmod_def]
  split <;> omega

theorem nanosleep_lasts_iff {c : Context Fib} (hc : c.hookEnable = true) {req : Timespec}
    (hnsec : 0 ≤ req.nsec.toInt ∧ req.nsec.toInt < 10 ^ 9) (m : TimerManager (Wakes Fib)) :
    (∃ r, nanosleep req c m = some r ∧
        Lasts (req.sec.toInt * 10 ^ 9 + req.nsec.toInt) r) ↔
      req.Defined ∧ (req.sec.toInt < 0 ∨ (req.ms < 2 ^ 31 ∧ req.nsec.toInt % 10 ^ 6 = 0) ∨
        2 ^ 31 ≤ req.ms % 2 ^ 32) := by
  have hcall : nanosleep req c m =
      (milliseconds req).map fun sum => delay (widen sum.toInt32) c m := by
    rw [nanosleep, hc]
    rfl
  by_cases hd : req.Defined
  · obtain ⟨sum,hsum,hval⟩ := milliseconds_of_defined hnsec.1 hd
    rw [hcall, hsum, and_iff_right hd]
    simp only [Option.map_some, Option.some.injEq, exists_eq_left', delay_lasts_iff hc,
      toNat_widen_toInt32, hval]
    unfold Timespec.Defined Timespec.ms at *
    split <;> omega
  · rw [hcall, milliseconds_of_not_defined hnsec.1 hd]
    simp [hd]

/-- With the hook enabled, for every argument: the three functions sleep long enough exactly
when the product of `sleep` stays below `2^32`, `usleep` is given whole milliseconds, and the
sum of `nanosleep` does not overflow and either the request is negative, or it is a number of
whole milliseconds that an `int` holds, or the narrowed sum is negative. -/
theorem sleeps_not_short_iff {c : Context Fib} (hc : c.hookEnable = true)
    (m : TimerManager (Wakes Fib)) :
    (∀ seconds : UInt32, Lasts (seconds.toNat * 10 ^ 9) (sleep seconds c m) ↔
      seconds.toNat * 1000 < 2 ^ 32) ∧
    (∀ usec : UInt32, Lasts (usec.toNat * 10 ^ 3) (usleep usec c m) ↔
      usec.toNat % 1000 = 0) ∧
    ∀ req : Timespec, 0 ≤ req.nsec.toInt ∧ req.nsec.toInt < 10 ^ 9 →
      ((∃ r, nanosleep req c m = some r ∧
          Lasts (req.sec.toInt * 10 ^ 9 + req.nsec.toInt) r) ↔
        req.Defined ∧ (req.sec.toInt < 0 ∨ (req.ms < 2 ^ 31 ∧ req.nsec.toInt % 10 ^ 6 = 0) ∨
          2 ^ 31 ≤ req.ms % 2 ^ 32)) :=
  ⟨fun seconds => sleep_lasts_iff hc seconds m,fun usec => usleep_lasts_iff hc usec m,
    fun _ hnsec => nanosleep_lasts_iff hc hnsec m⟩

/-- Two seconds, a hundred milliseconds, and a second and a half. -/
theorem sleeps_not_short_iff_two :
    Lasts (2 * 10 ^ 9) (sleep 2 ⟨true,(),10,100⟩ (.new 0)) ∧
      Lasts (100000 * 10 ^ 3) (usleep 100000 ⟨true,(),10,100⟩ (.new 0)) ∧
      ∃ r, nanosleep ⟨1,500000000⟩ ⟨true,(),10,100⟩ (.new 0) = some r ∧
        Lasts (1 * 10 ^ 9 + 500000000) r := by
  obtain ⟨hsleep,husleep,hnano⟩ :=
    sleeps_not_short_iff (c := ⟨true,(),10,100⟩) rfl (.new 0)
  refine ⟨(hsleep 2).mpr (by decide),(husleep 100000).mpr (by decide),?_⟩
  exact (hnano ⟨1,500000000⟩ (by decide)).mpr ⟨⟨by decide,by decide⟩,Or.inr (Or.inl (by decide))⟩

/-- Fifty days, `usleep` and `nanosleep` of less than a millisecond: each is short. -/
theorem sleeps_are_short :
    ¬ Lasts (4294968 * 10 ^ 9) (sleep 4294968 ⟨true,(),10,100⟩ (.new 0)) ∧
      ¬ Lasts (999 * 10 ^ 3) (usleep 999 ⟨true,(),10,100⟩ (.new 0)) ∧
      ¬ ∃ r, nanosleep ⟨0,1⟩ ⟨true,(),10,100⟩ (.new 0) = some r ∧
        Lasts (0 * 10 ^ 9 + 1) r := by
  refine ⟨?_,?_,?_⟩
  · exact fun h => absurd ((sleep_lasts_iff rfl 4294968 _).mp h) (by decide)
  · exact fun h => absurd ((usleep_lasts_iff rfl 999 _).mp h) (by decide)
  · intro h
    have hcond := (nanosleep_lasts_iff rfl (by decide) _).mp h
    exact absurd hcond.2 (by decide)

end Gudov.HookedSleep
