import Gudov.TimerRuns

/-!
# Timers and the readings of the clock

`DetectClockRollover` compares a reading with the one kept in `previous_time_`. To say
which timers it may condemn, a run is recorded: every reading in the order it was taken,
the point at which each timer was last armed, and the point of the reading kept in
`previous_time_`. The record also holds what the last `GetNextTimeout` saw and answered and
how often `OnTimerInsertedAtFront` was called since. It follows the manager and never influences it.
-/
namespace Gudov.TimerManager
open StepSystem
variable {Cb : Type} {m m' : TimerManager Cb} {h : ℕ}

/-- The operation finds its timer armed and in the set. -/
def isLive (h : ℕ) (m : TimerManager Cb) : Bool :=
  (m.heap[h]?.any fun t => t.callback.isSome) && (m.erase h).isSome

/-- The clock reading an operation takes, if it comes to take one. -/
def reading (m : TimerManager Cb) : Op Cb → Option UInt64
  | .addTimer now _ _ _ _ => some now
  | .cancel _ => none
  | .refresh h now => if m.isLive h then some now else none
  | .reset h _ fromNow now => if fromNow && m.isLive h then some now else none
  | .getNextTimeout now => if m.timers.isEmpty then none else some now
  | .listExpiredCallbacks now _ => some now

/-- `Reset` returns early when nothing is to change. -/
def resets (h : ℕ) (ms : UInt64) (fromNow : Bool) (m : TimerManager Cb) : Bool :=
  !(m.heap[h]?.any fun t => ms == t.ms && !fromNow) && m.isLive h

/-- The timers an operation arms: the one added, refreshed or reset, and the recurring
ones among those handed out. -/
def arms (m : TimerManager Cb) : Op Cb → Seen Cb → List ℕ
  | .addTimer _ _ _ _ _, _ => [m.heap.length]
  | .refresh h _, _ => if m.isLive h then [h] else []
  | .reset h ms fromNow _, _ => if m.resets h ms fromNow then [h] else []
  | .listExpiredCallbacks _ _, .expired callbacks =>
    (callbacks.map Prod.fst).filter fun h => m.heap[h]?.any fun t => t.recurring
  | _, _ => []

/-- The operation stores its reading in `previous_time_`. -/
def records (m : TimerManager Cb) : Op Cb → Bool
  | .listExpiredCallbacks _ _ => !m.timers.isEmpty
  | _ => false

/-- `next_` of the timer at `timers_.begin()`. -/
def frontNext (m : TimerManager Cb) : Option UInt64 :=
  match m.timers with
  | [] => none
  | h :: _ => m.heap[h]?.map fun t => t.next

def Seen.notifies : Seen Cb → Bool
  | .added _ notified => notified
  | .reset _ _ notified => notified
  | _ => false

/-- The manager with a record of its run. Places in the record are numbers of readings
taken before. `front` and `answer` are the front timer's `next_` at the last
`GetNextTimeout` and its reading with its result. -/
structure Recorded (Cb : Type) where
  manager : TimerManager Cb
  log : List UInt64
  armedAt : ℕ → ℕ
  previousAt : ℕ
  front : Option UInt64
  answer : Option (UInt64 × UInt64)
  calls : ℕ

namespace Recorded

def new (now : UInt64) : Recorded Cb where
  manager := TimerManager.new now
  log := [now]
  armedAt _ := 0
  previousAt := 0
  front := none
  answer := none
  calls := 0

def step (w : Recorded Cb) (op : Op Cb) : Except Fault (Seen Cb × Recorded Cb) := do
  let (o, m) ← w.manager.step op
  let w' : Recorded Cb :=
    { w with
      manager := m
      log := w.log ++ (w.manager.reading op).toList
      armedAt := fun h => if h ∈ w.manager.arms op o then w.log.length else w.armedAt h
      previousAt := if w.manager.records op then w.log.length else w.previousAt }
  match op, o with
  | .getNextTimeout now, .timeout ms =>
    .ok (o, { w' with front := w.manager.frontNext, answer := some (now, ms), calls := 0 })
  | _, _ => .ok (o, { w' with calls := w.calls + if o.notifies then 1 else 0 })

/-- Readings taken when or after the timer was last armed. -/
def since (w : Recorded Cb) (h : ℕ) : List UInt64 := w.log.drop (w.armedAt h)

end Recorded

/-! ## What each method can do -/

theorem deref_eq_ok {t : Timer Cb} (hd : m.deref h = .ok t) : m.heap[h]? = some t := by
  unfold deref at hd
  split at hd
  · cases hd
  · next ht =>
    cases hd
    exact ht

/-- Erasing touches the set only. -/
theorem erase_cases (he : m.erase h = some m') :
    ∃ l, m' = { m with timers := l } ∧ ∀ k ∈ l, k ∈ m.timers := by
  simp only [erase, Option.map_eq_some_iff] at he
  obtain ⟨l,hl,rfl⟩ := he
  exact ⟨l,rfl,fun k hk => OrderedList.mem_of_mem_erase hl hk⟩

theorem cancel_cases {ok : Bool} (hrun : m.cancel h = .ok (ok, m')) :
    m' = m ∨ ∃ t l, m.heap[h]? = some t ∧ (∀ k ∈ l, k ∈ m.timers) ∧
      m' = { m.write h { t with callback := none } with timers := l } := by
  obtain ⟨t,hd,hrun⟩ := exists_of_bind_eq_ok hrun
  split at hrun
  · split at hrun
    · cases hrun
    · next m₁ he =>
      obtain ⟨l,rfl,hl⟩ := erase_cases he
      cases hrun
      exact Or.inr ⟨t,l,deref_eq_ok hd,hl,rfl⟩
  · cases hrun
    exact Or.inl rfl

theorem isLive_of_erase {t : Timer Cb} (ht : m.heap[h]? = some t)
    (hc : ¬ t.callback.isNone = true) (he : m.erase h = some m') : m.isLive h = true := by
  simp only [isLive, ht, Option.any_some, he, Option.isSome_some, Bool.and_true]
  exact Option.ne_none_iff_isSome.mp fun hnone => hc (Option.isNone_iff_eq_none.mpr hnone)

theorem refresh_cases {now : UInt64} {ok : Bool} (hrun : m.refresh h now = .ok (ok, m')) :
    m' = m ∨ ∃ t l, m.heap[h]? = some t ∧ m.isLive h = true ∧ (∀ k ∈ l, k ∈ m.timers) ∧
      m' = (write h { t with next := now + t.ms } { m with timers := l }).insert h := by
  obtain ⟨t,hd,hrun⟩ := exists_of_bind_eq_ok hrun
  have ht := deref_eq_ok hd
  split at hrun
  · cases hrun
    exact Or.inl rfl
  · next hc =>
    split at hrun
    · cases hrun
      exact Or.inl rfl
    · next m₁ he =>
      have hlive := isLive_of_erase ht hc he
      obtain ⟨l,rfl,hl⟩ := erase_cases he
      cases hrun
      exact Or.inr ⟨t,l,ht,hlive,hl,rfl⟩

theorem reset_cases {ms now : UInt64} {fromNow ok notified : Bool}
    (hrun : m.reset h ms fromNow now = .ok (ok, notified, m')) :
    (notified = false ∧ m' = m) ∨
      ∃ t l, m.heap[h]? = some t ∧ m.isLive h = true ∧ (∀ k ∈ l, k ∈ m.timers) ∧
        (notified, m') = addTimerLocked h (write h
          { t with ms := ms, next := (if fromNow then now else t.next - t.ms) + ms }
          { m with timers := l }) := by
  obtain ⟨t,hd,hrun⟩ := exists_of_bind_eq_ok hrun
  have ht := deref_eq_ok hd
  split at hrun
  · cases hrun
    exact Or.inl ⟨rfl,rfl⟩
  · split at hrun
    · cases hrun
      exact Or.inl ⟨rfl,rfl⟩
    · next hc =>
      split at hrun
      · cases hrun
        exact Or.inl ⟨rfl,rfl⟩
      · next m₁ he =>
        have hlive := isLive_of_erase ht hc he
        obtain ⟨l,rfl,hl⟩ := erase_cases he
        cases hrun
        exact Or.inr ⟨t,l,ht,hlive,hl,rfl⟩

theorem getNextTimeout_cases {now ms : UInt64} (hrun : m.getNextTimeout now = .ok (ms, m')) :
    m' = { m with tickled := false } ∧
      match m.frontNext with
      | none => m.timers = [] ∧ ms = ~~~0
      | some next => m.timers ≠ [] ∧ ms = if now ≥ next then 0 else next - now := by
  by_cases hl : m.timers = []
  · simp only [getNextTimeout, hl] at hrun
    cases hrun
    simp [frontNext, hl]
  · obtain ⟨first,rest,hcons⟩ := List.exists_cons_of_ne_nil hl
    simp only [getNextTimeout, hcons] at hrun
    obtain ⟨t,hd,hrun⟩ := exists_of_bind_eq_ok hrun
    have ht : m.heap[first]? = some t := deref_eq_ok hd
    cases hrun
    simp [frontNext, hcons, ht]

theorem addTimerLocked_previousTime :
    (m.addTimerLocked h).2.previousTime = m.previousTime := by
  simp only [addTimerLocked]
  split <;> rfl

theorem expireLoop_frame {now : UInt64} {hs : List ℕ} {callbacks : List (ℕ × Option Cb)}
    (hloop : expireLoop now hs m = .ok (callbacks, m')) :
    m'.previousTime = m.previousTime ∧ m'.tickled = m.tickled := by
  induction hs generalizing m callbacks with
  | nil =>
    cases hloop
    exact ⟨rfl,rfl⟩
  | cons h hs ih =>
    obtain ⟨t,-,hloop⟩ := exists_of_bind_eq_ok hloop
    obtain ⟨⟨rest,m''⟩,hrest,hloop⟩ := exists_of_bind_eq_ok hloop
    cases hloop
    rw [(ih hrest).1, (ih hrest).2]
    split <;> exact ⟨rfl,rfl⟩

/-- The three ways through `ListExpiredCallbacks`. -/
theorem listExpiredCallbacks_cases {now : UInt64} {addr : ℕ} {callbacks : List (ℕ × Option Cb)}
    (hrun : m.listExpiredCallbacks now addr = .ok (callbacks, m')) :
    (m.timers = [] ∧ callbacks = [] ∧ m' = m) ∨
      m.timers ≠ [] ∧
        ((callbacks = [] ∧ m' = { m with previousTime := now }) ∨
          ∃ n, n = expiredCount (m.detectClockRollover now).1 now addr m ∧
            expireLoop now (m.timers.take n)
              { m with previousTime := now, timers := m.timers.drop n } = .ok (callbacks, m')) := by
  by_cases hl : m.timers = []
  · simp only [listExpiredCallbacks, hl] at hrun
    cases hrun
    exact Or.inl ⟨hl,rfl,rfl⟩
  · refine Or.inr ⟨hl,?_⟩
    obtain ⟨first,rest,hcons⟩ := List.exists_cons_of_ne_nil hl
    simp only [listExpiredCallbacks, hcons] at hrun
    obtain ⟨t,-,hrun⟩ := exists_of_bind_eq_ok hrun
    split at hrun
    · cases hrun
      exact Or.inl ⟨rfl,rfl⟩
    · exact Or.inr ⟨_,rfl,hrun⟩

/-- Only `ListExpiredCallbacks` on a set with timers stores its reading. -/
theorem step_previousTime {op : Op Cb} {o : Seen Cb} (hstep : m.step op = .ok (o, m')) :
    m'.previousTime = if m.records op then (m.reading op).getD 0 else m.previousTime := by
  cases op with
  | addTimer now ms callback recurring addr =>
    cases hstep
    exact addTimerLocked_previousTime
  | cancel h =>
    obtain ⟨⟨ok,m''⟩,hrun,hstep⟩ := exists_of_bind_eq_ok hstep
    cases hstep
    obtain rfl | ⟨t,l,-,-,rfl⟩ := cancel_cases hrun <;> rfl
  | refresh h now =>
    obtain ⟨⟨ok,m''⟩,hrun,hstep⟩ := exists_of_bind_eq_ok hstep
    cases hstep
    obtain rfl | ⟨t,l,-,-,-,rfl⟩ := refresh_cases hrun <;> rfl
  | reset h ms fromNow now =>
    obtain ⟨⟨ok,notified,m''⟩,hrun,hstep⟩ := exists_of_bind_eq_ok hstep
    cases hstep
    obtain ⟨-,rfl⟩ | ⟨t,l,-,-,-,hadd⟩ := reset_cases hrun
    · rfl
    · cases hadd
      exact addTimerLocked_previousTime
  | getNextTimeout now =>
    obtain ⟨⟨ms,m''⟩,hrun,hstep⟩ := exists_of_bind_eq_ok hstep
    cases hstep
    obtain ⟨rfl,-⟩ := getNextTimeout_cases hrun
    rfl
  | listExpiredCallbacks now addr =>
    obtain ⟨⟨callbacks,m''⟩,hrun,hstep⟩ := exists_of_bind_eq_ok hstep
    cases hstep
    obtain ⟨hl,-,rfl⟩ | ⟨hl,⟨-,rfl⟩ | ⟨n,-,hloop⟩⟩ := listExpiredCallbacks_cases hrun
    · simp [records, hl]
    · simp [records, reading, hl]
    · simp [records, reading, hl, (expireLoop_frame hloop).1]

/-! ## Which timers are handed out -/

theorem expireLoop_handsOut {now : UInt64} {hs : List ℕ} {callbacks : List (ℕ × Option Cb)}
    (hloop : expireLoop now hs m = .ok (callbacks, m')) : callbacks.map Prod.fst = hs := by
  induction hs generalizing m callbacks with
  | nil =>
    cases hloop
    rfl
  | cons h hs ih =>
    obtain ⟨t,-,hloop⟩ := exists_of_bind_eq_ok hloop
    obtain ⟨⟨rest,m''⟩,hrest,hloop⟩ := exists_of_bind_eq_ok hloop
    cases hloop
    rw [List.map_cons, ih hrest]

theorem comparator_now {t : Timer Cb} {now : UInt64} {addr : ℕ}
    (hlt : Timer.comparator (some t) (some { next := now, addr := addr }) = true) :
    t.next ≤ now := by
  simp only [Timer.comparator] at hlt
  grind

/-- The timer comes before one with the given reading and address. -/
def comesBefore (now : UInt64) (addr : ℕ) (m : TimerManager Cb) (h : ℕ) : Bool :=
  Timer.comparator m.heap[h]? (some { next := now, addr := addr })

def dueAt (now : UInt64) (m : TimerManager Cb) (h : ℕ) : Bool :=
  m.heap[h]?.any fun t => t.next == now

/-- The expired range without a rollover, and what is behind it. -/
theorem expired_split (now : UInt64) (addr : ℕ) (m : TimerManager Cb) :
    m.timers.take (m.expiredCount false now addr) =
        m.timers.takeWhile (m.comesBefore now addr) ++
          (m.timers.dropWhile (m.comesBefore now addr)).takeWhile (m.dueAt now) ∧
      m.timers.drop (m.expiredCount false now addr) =
        (m.timers.dropWhile (m.comesBefore now addr)).dropWhile (m.dueAt now) := by
  have hall : m.timers = (m.timers.takeWhile (m.comesBefore now addr) ++
      (m.timers.dropWhile (m.comesBefore now addr)).takeWhile (m.dueAt now)) ++
        (m.timers.dropWhile (m.comesBefore now addr)).dropWhile (m.dueAt now) := by
    rw [List.append_assoc, List.takeWhile_append_dropWhile, List.takeWhile_append_dropWhile]
  have hcount : (m.timers.takeWhile (m.comesBefore now addr) ++
      (m.timers.dropWhile (m.comesBefore now addr)).takeWhile (m.dueAt now)).length =
        m.expiredCount false now addr := by
    rw [List.length_append]
    rfl
  constructor
  · conv_lhs => rw [hall]
    exact List.take_left' hcount
  · conv_lhs => rw [hall]
    exact List.drop_left' hcount

/-- Without a rollover the expired range ends with the timers that are due. -/
theorem next_le_of_expired {now : UInt64} {addr : ℕ} {t : Timer Cb}
    (hh : h ∈ m.timers.take (m.expiredCount false now addr)) (ht : m.heap[h]? = some t) :
    t.next ≤ now := by
  rw [(expired_split now addr m).1, List.mem_append] at hh
  rcases hh with hh | hh
  · have hbefore : m.comesBefore now addr h = true := List.mem_takeWhile_imp hh
    rw [comesBefore, ht] at hbefore
    exact comparator_now hbefore
  · have hdue : m.dueAt now h = true := List.mem_takeWhile_imp hh
    simp only [dueAt, ht, Option.any_some, beq_iff_eq] at hdue
    exact UInt64.le_of_eq hdue

theorem rollover_or_due {now : UInt64} {addr : ℕ}
    (hh : h ∈ m.timers.take (m.expiredCount (m.detectClockRollover now).1 now addr)) :
    (m.detectClockRollover now).1 = true ∨ ∀ t, m.heap[h]? = some t → t.next ≤ now := by
  cases hroll : (m.detectClockRollover now).1 with
  | true => exact Or.inl rfl
  | false =>
    rw [hroll] at hh
    exact Or.inr fun t ht => next_le_of_expired hh ht

theorem listExpiredCallbacks_handsOut {now : UInt64} {addr : ℕ}
    {callbacks : List (ℕ × Option Cb)}
    (hrun : m.listExpiredCallbacks now addr = .ok (callbacks, m'))
    (hh : h ∈ callbacks.map Prod.fst) :
    h ∈ m.timers ∧ ((m.detectClockRollover now).1 = true ∨
      ∀ t, m.heap[h]? = some t → t.next ≤ now) := by
  obtain ⟨-,rfl,-⟩ | ⟨-,⟨rfl,-⟩ | ⟨n,rfl,hloop⟩⟩ := listExpiredCallbacks_cases hrun
  · cases hh
  · cases hh
  · rw [expireLoop_handsOut hloop] at hh
    exact ⟨List.mem_of_mem_take hh,rollover_or_due hh⟩

/-- One hour, in milliseconds. -/
def hour : ℕ := 60 * 60 * 1000

theorem prev_gt_of_rollover {now : UInt64} (hroll : (m.detectClockRollover now).1 = true)
    (hour_le : hour ≤ m.previousTime.toNat) : now.toNat + hour < m.previousTime.toNat := by
  simp only [detectClockRollover, Bool.and_eq_true, decide_eq_true_eq] at hroll
  have hlt := UInt64.lt_iff_toNat_lt.mp hroll.2
  have hsub : (m.previousTime - 60 * 60 * 1000).toNat = m.previousTime.toNat - hour :=
    UInt64.toNat_sub_of_le _ _ (UInt64.le_iff_toNat_le.mpr hour_le)
  rw [hsub] at hlt
  omega

namespace Recorded
variable {w w' : Recorded Cb} {op : Op Cb} {o : Seen Cb}

/-- `previousAt` is the place of the reading in `previous_time_`. -/
def Traced (w : Recorded Cb) : Prop := w.log[w.previousAt]? = some w.manager.previousTime

theorem step_fields (hstep : w.step op = .ok (o, w')) :
    w.manager.step op = .ok (o, w'.manager) ∧
      w'.log = w.log ++ (w.manager.reading op).toList ∧
      w'.previousAt = if w.manager.records op then w.log.length else w.previousAt := by
  obtain ⟨⟨o₁,m⟩,hm,hstep⟩ := exists_of_bind_eq_ok hstep
  dsimp only at hstep
  split at hstep <;> cases hstep <;> exact ⟨hm,rfl,rfl⟩

theorem reading_of_records (h : m.records op = true) : ∃ r, m.reading op = some r := by
  cases op with
  | listExpiredCallbacks now addr => exact ⟨now,rfl⟩
  | _ => cases h

theorem step_traced (hw : w.Traced) (hstep : w.step op = .ok (o, w')) : w'.Traced := by
  obtain ⟨hm,hlog,hat⟩ := step_fields hstep
  have hprevious := step_previousTime hm
  unfold Traced at hw ⊢
  cases hrec : w.manager.records op with
  | true =>
    obtain ⟨r,hr⟩ := reading_of_records hrec
    simp only [hrec, if_true, hr, Option.getD_some] at hprevious hat
    rw [hlog, hat, hprevious, hr]
    simp
  | false =>
    simp only [hrec, Bool.false_eq_true, if_false] at hprevious hat
    obtain ⟨hlt,-⟩ := List.getElem?_eq_some_iff.mp hw
    rw [hlog, hat, hprevious, List.getElem?_append_left hlt, hw]

/-- A callback is handed out when its timer is due, or after the clock was read more than
an hour later since the timer was armed. -/
def NotEarly (w : Recorded Cb) : Op Cb → Prop
  | .listExpiredCallbacks now addr => ∀ callbacks m',
      w.manager.listExpiredCallbacks now addr = .ok (callbacks, m') →
        ∀ h ∈ callbacks.map Prod.fst, ∀ t, w.manager.heap[h]? = some t →
          t.next ≤ now ∨ ∃ r ∈ w.since h, now.toNat + hour < r.toNat
  | _ => True

/-- Where a rollover is detected, `previous_time_` is a reading taken when or after each
timer not yet due was armed, and taking an hour off it does not wrap. -/
def FreshJudgement (w : Recorded Cb) : Op Cb → Prop
  | .listExpiredCallbacks now _ => (w.manager.detectClockRollover now).1 = true →
      ∀ h ∈ w.manager.timers, ∀ t, w.manager.heap[h]? = some t → now < t.next →
        hour ≤ w.manager.previousTime.toNat ∧ w.armedAt h ≤ w.previousAt
  | _ => True

theorem notEarly_of_fresh (hw : w.Traced) (hfresh : w.FreshJudgement op) : w.NotEarly op := by
  cases op with
  | listExpiredCallbacks now addr =>
    intro callbacks m' hrun h hh t ht
    obtain ⟨hmem,hroll | hdue⟩ := listExpiredCallbacks_handsOut hrun hh
    · by_cases hnow : t.next ≤ now
      · exact Or.inl hnow
      · obtain ⟨hhour,harmed⟩ := hfresh hroll h hmem t ht (UInt64.not_le.mp hnow)
        refine Or.inr ⟨w.manager.previousTime,?_,prev_gt_of_rollover hroll hhour⟩
        have hin : (w.log.drop (w.armedAt h))[w.previousAt - w.armedAt h]? =
            some w.manager.previousTime := by
          rw [List.getElem?_drop, Nat.add_sub_cancel' harmed]
          exact hw
        exact List.mem_of_getElem? hin
    · exact Or.inl (hdue t ht)
  | _ => trivial

/-- In every run, for arbitrary clock readings, whose detected rollovers rest on fresh
readings. -/
theorem no_timer_fires_early (start : UInt64) (ops : List (Op Cb))
    (hfresh : Along step FreshJudgement ops (new start)) :
    Along step NotEarly ops (new start) :=
  Along.imp Traced (fun _ _ _ _ hw _ hstep => step_traced hw hstep)
    (fun _ _ hw hl => notEarly_of_fresh hw hl) rfl hfresh

/-- Ten o'clock is read when the timer is armed and again before the clock goes back to
five; the timer is then handed out long before its time. -/
theorem no_timer_fires_early_ten :
    Along step FreshJudgement [.addTimer 36000000 1000 (some ()) false 100,
        .listExpiredCallbacks 36000000 104, .listExpiredCallbacks 18000000 104]
        (new 36000000) ∧
      Along step NotEarly [.addTimer 36000000 1000 (some ()) false 100,
        .listExpiredCallbacks 36000000 104, .listExpiredCallbacks 18000000 104]
        (new 36000000) := by
  have hfresh : Along step FreshJudgement [.addTimer 36000000 1000 (some ()) false 100,
      .listExpiredCallbacks 36000000 104, .listExpiredCallbacks 18000000 104]
      (new 36000000) := by
    refine Along.cons trivial rfl (Along.cons ?_ rfl (Along.cons ?_ rfl trivial))
    · intro hroll
      cases hroll
    · intro hroll h hh t ht hnow
      obtain rfl : h = 0 := List.mem_singleton.mp hh
      decide
  exact ⟨hfresh,no_timer_fires_early 36000000 _ hfresh⟩

/-- The manager is made at ten o'clock and has no timer when the clock goes back to five.
A timer of one second added then is handed out after a millisecond: the set was empty,
so `previous_time_` still holds ten o'clock. -/
theorem timer_fires_early :
    ¬ Along step NotEarly [.addTimer 18000000 1000 (some ()) false 100,
        .listExpiredCallbacks 18000001 104] (new 36000000) := by
  intro hall
  have hnot := (hall.2 _ _ rfl).1 _ _ rfl 0 (by decide) _ rfl
  revert hnot
  decide

end Recorded

end Gudov.TimerManager
