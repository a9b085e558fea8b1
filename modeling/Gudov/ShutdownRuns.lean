import Gudov.Shutdown

/-!
# A stopped IO manager has nothing left to do

Work is made by threads that run a task, list expired timers or handle events, and such a
thread asks for everything again before it ends. A thread with checks behind it makes no
work, except one whose idle fiber has ended and which then finds a task in the list: it runs
the task and leaves without looking again. If that does not happen, the threads end only
when no timer is armed, no event is registered, and every task has been run.
-/
namespace Gudov.Shutdown.Manager
open StepSystem StagedChecks
variable {Fib Cb : Type} {s t : Manager Fib Cb} {i : ℕ} {p q : Position Cb}
  {w w' : Worker Fib Cb}

/-- What `Stopping` asks for, in its order. -/
def Nothing : ℕ → Manager Fib Cb → Prop
  | 0, s => s.timers.timers = []
  | 1, s => s.iom.pending = 0
  | 2, s => s.sched.tasks = [] ∧ s.sched.active = 0
  | _, _ => True

theorem Nothing.congr (htimers : t.timers.timers = s.timers.timers)
    (hpending : t.iom.pending = s.iom.pending) (htasks : t.sched.tasks = s.sched.tasks)
    (hactive : t.sched.active = s.sched.active) (j : ℕ) (hj : j < 3) (h : Nothing j s) :
    Nothing j t := by
  match j, hj with
  | 0, _ => exact htimers.trans h
  | 1, _ => exact hpending.trans h
  | 2, _ => exact ⟨htasks.trans h.1,hactive.trans h.2⟩

/-- The checks that a thread has behind it; all of them when its idle fiber has ended. -/
def checksPassed : Position Cb → Worker Fib Cb → ℕ
  | .asksEvents, _ => 1
  | .asksTasks, _ => 2
  | .run, w => if w.idleTerm then 3 else 0
  | _, _ => 0

def stage (s : Manager Fib Cb) (i : ℕ) : ℕ :=
  match s.positions[i]?, s.sched.workers[i]? with
  | some p, some w => checksPassed p w
  | _, _ => 3

/-- A position agrees with the record of `Run`. -/
def Fits : Position Cb → Worker Fib Cb → Prop
  | .outside, w => w.idleTerm = false ∧ w.phase = .picking
  | .run, w => (w.idleTerm = true → w.phase = .picking ∨ w.phase = .exited) ∧
      (w.phase = .exited → w.idleTerm = true)
  | _, w => w.idleTerm = false ∧ w.phase = .idle

/-- The pick block finds no task for the thread. -/
def findsNothing (w : Worker Fib Cb) (state : Fib → FiberState) (s : Manager Fib Cb) : Bool :=
  match Scheduler.pickLoop w.thread state s.sched.tasks with
  | .ok (_, picked, _) => picked.isNone
  | .error _ => true

/-- The clock does not stand at 0, events are registered and removed as `IOManager` asks for,
and a thread whose idle fiber has ended finds no task for itself. -/
def Meets (s : Manager Fib Cb) (a : Act Fib Cb) : Prop :=
  match a.move with
  | .getNextTimeout now => now ≠ 0
  | .call (.event op) => s.iom.Admissible op
  | .pick state => ∀ w ∈ s.sched.workers[a.thread]?, w.idleTerm = true →
      s.findsNothing w state = true
  | _ => True

/-! ## What single operations leave alone -/

theorem scheduleNoLock_workers (fc : FiberOrCb Fib Cb) (thread : ℤ) (m : Scheduler Fib Cb) :
    (m.scheduleNoLock fc thread).2.workers = m.workers := by
  simp only [Scheduler.scheduleNoLock]
  split <;> rfl

theorem scheduleRange_workers (fcs : List (FiberOrCb Fib Cb)) (m : Scheduler Fib Cb) :
    (m.scheduleRange fcs).2.workers = m.workers := by
  induction fcs generalizing m with
  | nil => rfl
  | cons fc fcs ih => exact (ih _).trans (scheduleNoLock_workers fc (-1) m)

/-- What the pick block and the branch after it do. -/
theorem pick_cases {m m' : Scheduler Fib Cb} {state : Fib → FiberState} {b : Bool}
    (h : m.pick i w state = .ok (b, m')) :
    ∃ picked left, Scheduler.pickLoop w.thread state m.tasks = .ok (b, picked, left) ∧
      ((∃ node, picked = some node ∧
          m'.workers = m.workers.set i { w with phase := .holding node }) ∨
        (picked = none ∧ w.idleTerm = true ∧ m'.tasks = left ∧ m'.active = m.active ∧
          m'.workers = m.workers.set i { w with phase := .exited }) ∨
        (picked = none ∧ w.idleTerm = false ∧
          m'.workers = m.workers.set i { w with phase := .idle })) := by
  obtain ⟨⟨b',picked,left⟩,hloop,h⟩ := exists_of_bind_eq_ok h
  cases picked with
  | some node =>
    cases h
    exact ⟨_,_,hloop,Or.inl ⟨node,rfl,rfl⟩⟩
  | none =>
    cases hterm : w.idleTerm with
    | true =>
      simp only [hterm, if_true] at h
      cases h
      exact ⟨_,_,hloop,Or.inr (Or.inl ⟨rfl,rfl,rfl,rfl,rfl⟩)⟩
    | false =>
      simp only [hterm, Bool.false_eq_true, if_false] at h
      cases h
      exact ⟨_,_,hloop,Or.inr (Or.inr ⟨rfl,rfl,rfl⟩)⟩

theorem idleYield_conserves {m : Scheduler Fib Cb} (hm : m.Conserves)
    (hw : m.workers[i]? = some w) (hheld : w.held = none) : (m.idleYield i w).Conserves := by
  have hm' : Scheduler.Conserves { m with idle := m.idle - 1 } :=
    ⟨hm.nodes,hm.nonempty,hm.heldHere,hm.ranHere,hm.active⟩
  exact hm'.setWorker_free _ hw hheld rfl

/-! ## One thread moves -/

theorem stage_eq (hp : s.positions[i]? = some p) (hw : s.sched.workers[i]? = some w) :
    s.stage i = checksPassed p w := by
  rw [stage, hp, hw]

/-- The thread stays where it is. -/
theorem set_position (hp : s.positions[i]? = some p) : s.positions = s.positions.set i p := by
  obtain ⟨hi,hget⟩ := List.getElem?_eq_some_iff.mp hp
  rw [← hget, List.set_getElem_self]

theorem set_worker (hw : s.sched.workers[i]? = some w) :
    s.sched.workers = s.sched.workers.set i w := by
  obtain ⟨hi,hget⟩ := List.getElem?_eq_some_iff.mp hw
  rw [← hget, List.set_getElem_self]

theorem stage_congr (hpos : t.positions = s.positions)
    (hworkers : t.sched.workers = s.sched.workers) : t.stage = s.stage := by
  funext i
  rw [stage, hpos, hworkers, stage]

theorem stage_other {k : ℕ} (hk : k ≠ i) (hpos : t.positions = s.positions.set i q)
    (hworkers : t.sched.workers = s.sched.workers.set i w') : t.stage k = s.stage k := by
  simp only [stage, hpos, hworkers, List.getElem?_set_ne (Ne.symm hk)]

theorem stage_moved (hp : s.positions[i]? = some p) (hw : s.sched.workers[i]? = some w)
    (hpos : t.positions = s.positions.set i q)
    (hworkers : t.sched.workers = s.sched.workers.set i w') : t.stage i = checksPassed q w' := by
  obtain ⟨hi,-⟩ := List.getElem?_eq_some_iff.mp hp
  obtain ⟨hi',-⟩ := List.getElem?_eq_some_iff.mp hw
  refine stage_eq ?_ ?_
  · rw [hpos, List.getElem?_set_self hi]
  · rw [hworkers, List.getElem?_set_self hi']

/-- What the invariant says of the threads alone. -/
structure Placed (s : Manager Fib Cb) : Prop where
  aligned : s.positions.length = s.sched.workers.length
  fits : ∀ (i : ℕ) p w, s.positions[i]? = some p → s.sched.workers[i]? = some w → Fits p w

theorem Placed.moved (hs : s.Placed) (hfits : Fits q w')
    (hpos : t.positions = s.positions.set i q)
    (hworkers : t.sched.workers = s.sched.workers.set i w') : t.Placed where
  aligned := by rw [hpos, hworkers, List.length_set, List.length_set, hs.aligned]
  fits := by
    intro k p w hp hw
    rw [hpos] at hp
    rw [hworkers] at hw
    by_cases hk : i = k
    · subst hk
      rw [List.getElem?_set_self'] at hp hw
      obtain ⟨-,-,rfl⟩ := Option.map_eq_some_iff.mp hp
      obtain ⟨-,-,rfl⟩ := Option.map_eq_some_iff.mp hw
      exact hfits
    · rw [List.getElem?_set_ne hk] at hp hw
      exact hs.fits k p w hp hw

structure Sound (s : Manager Fib Cb) : Prop where
  conserves : s.sched.Conserves
  accounted : IOManager.Accounted s.iom
  size_ge : 32 ≤ s.iom.heap.length
  placed : s.Placed
  watched : Watched Nothing 3 s s.stage

/-- The thread has moved to a position with no check behind it. -/
theorem Sound.fresh (hs : s.Sound) (hp : s.positions[i]? = some p)
    (hw : s.sched.workers[i]? = some w) (hfits : Fits q w') (hzero : checksPassed q w' = 0)
    (hpos : t.positions = s.positions.set i q)
    (hworkers : t.sched.workers = s.sched.workers.set i w')
    (hconserves : t.sched.Conserves) (haccounted : IOManager.Accounted t.iom)
    (hsize : 32 ≤ t.iom.heap.length) : t.Sound where
  conserves := hconserves
  accounted := haccounted
  size_ge := hsize
  placed := hs.placed.moved hfits hpos hworkers
  watched := Watched.of_fresh ((stage_moved hp hw hpos hworkers).trans hzero)

/-- The thread has passed a check. -/
theorem Sound.passed (hs : s.Sound) (hp : s.positions[i]? = some p)
    (hw : s.sched.workers[i]? = some w) (hfits : Fits q w')
    (hidle : Nothing (checksPassed p w) s) (hnext : checksPassed q w' = checksPassed p w + 1)
    (hpos : t.positions = s.positions.set i q)
    (hworkers : t.sched.workers = s.sched.workers.set i w')
    (hkeep : ∀ j < 3, Nothing j s → Nothing j t) (hconserves : t.sched.Conserves)
    (hiom : t.iom = s.iom) : t.Sound where
  conserves := hconserves
  accounted := hiom ▸ hs.accounted
  size_ge := hiom ▸ hs.size_ge
  placed := hs.placed.moved hfits hpos hworkers
  watched := by
    have hstage := stage_eq hp hw
    have hpassed : Watched Nothing 3 s t.stage := by
      refine hs.watched.pass (i := i) (hstage.symm ▸ hidle) ?_
        fun k hk => stage_other hk hpos hworkers
      rw [stage_moved hp hw hpos hworkers, hstage, hnext]
    exact hpassed.mono hkeep fun _ => rfl

/-- The thread has made work where it stands. -/
theorem Sound.worked (hs : s.Sound) (hpos : t.positions = s.positions)
    (hworkers : t.sched.workers = s.sched.workers) (hzero : s.stage i = 0)
    (hconserves : t.sched.Conserves) (haccounted : IOManager.Accounted t.iom)
    (hsize : 32 ≤ t.iom.heap.length) : t.Sound where
  conserves := hconserves
  accounted := haccounted
  size_ge := hsize
  placed := by
    refine ⟨by rw [hpos, hworkers, hs.placed.aligned],?_⟩
    rw [hpos, hworkers]
    exact hs.placed.fits
  watched := Watched.of_fresh (i := i) (by rw [stage_congr hpos hworkers, hzero])

/-! ## The steps -/

theorem hand_sched (handed : List (Handover Unit Fib Cb)) (hs : s.sched.Conserves) :
    (s.hand handed).sched.Conserves ∧ (s.hand handed).sched.workers = s.sched.workers :=
  ⟨Scheduler.scheduleRange_conserves _ hs,scheduleRange_workers _ _⟩

/-- A thread that goes to pick a task is inside `Run`. -/
theorem fits_picking (h : w.phase = .picking) : Fits .run w := by
  constructor
  · exact fun _ => Or.inl h
  · intro hexit
    rw [h] at hexit
    cases hexit

theorem idleTerm_of_holding {node : TaskNode Fib Cb} (h : Fits .run w)
    (hphase : w.phase = .holding node) : w.idleTerm = false := by
  by_contra hterm
  rcases h.1 (by simpa using hterm) with hpick | hexit
  · rw [hphase] at hpick
    cases hpick
  · rw [hphase] at hexit
    cases hexit

theorem call_sound {c : Call Fib Cb} (hs : s.Sound) (hzero : s.stage i = 0)
    (hmeets : ∀ op, c = .event op → s.iom.Admissible op) (h : s.call c = .ok t) : t.Sound := by
  cases c with
  | schedule fc thread =>
    cases h
    exact hs.worked rfl (scheduleNoLock_workers fc thread s.sched) hzero
      (Scheduler.scheduleNoLock_conserves fc thread hs.conserves) hs.accounted hs.size_ge
  | timer op =>
    obtain ⟨⟨seen,timers⟩,-,h⟩ := exists_of_bind_eq_ok h
    cases h
    exact hs.worked rfl rfl hzero hs.conserves hs.accounted hs.size_ge
  | event op =>
    obtain ⟨⟨seen,iom⟩,hrun,h⟩ := exists_of_bind_eq_ok h
    cases h
    rcases IOManager.step_spec hs.accounted hs.size_ge (hmeets op rfl) with
      ⟨seen',iom',hrun',hiom,hlen,-⟩ | ⟨hfault,-⟩
    · rw [hrun] at hrun'
      cases hrun'
      obtain ⟨hconserves,hworkers⟩ := hand_sched (s := { s with iom := iom }) (handedOver seen)
        hs.conserves
      exact hs.worked rfl hworkers hzero hconserves hiom (hs.size_ge.trans hlen)
    · rw [hrun] at hfault
      cases hfault

theorem pick_sound {state : Fib → FiberState} {m : Scheduler Fib Cb} {b : Bool}
    (hs : s.Sound) (hp : s.positions[i]? = some .run) (hw : s.sched.workers[i]? = some w)
    (hphase : w.phase = .picking) (hpick : s.sched.pick i w state = .ok (b, m))
    (hmeets : w.idleTerm = true → s.findsNothing w state = true) :
    Sound ({ s with sched := m }.setPosition i
      (if entered i m then .asksTimers else .run)) := by
  have hheld : w.held = none := by rw [Worker.held, hphase]
  obtain ⟨b',m',hpick',hconserves⟩ := Scheduler.pick_conserves state hs.conserves hw hheld
  rw [hpick] at hpick'
  cases hpick'
  obtain ⟨hi,-⟩ := List.getElem?_eq_some_iff.mp hw
  obtain ⟨picked,left,hloop,⟨node,hpicked,hset⟩ |
    ⟨hpicked,hterm,htasks,hactive,hset⟩ | ⟨hpicked,hterm,hset⟩⟩ := pick_cases hpick
  · have hterm : w.idleTerm = false := by
      by_contra hterm
      have hnone := hmeets (by simpa using hterm)
      rw [findsNothing, hloop, hpicked] at hnone
      cases hnone
    rw [entered, hset, List.getElem?_set_self hi]
    refine hs.fresh (q := .run) hp hw ?_ ?_ rfl hset hconserves hs.accounted hs.size_ge
    · constructor
      · exact fun h => (Bool.false_ne_true (hterm ▸ h)).elim
      · intro hexit
        cases hexit
    · exact if_neg (by simp [hterm])
  · -- the idle fiber has ended before, and now `Run` does
    rw [entered, hset, List.getElem?_set_self hi]
    refine ⟨hconserves,hs.accounted,hs.size_ge,?_,?_⟩
    · have hfits : Fits .run ({ w with phase := .exited } : Worker Fib Cb) := by
        constructor
        · exact fun _ => Or.inr rfl
        · exact fun _ => hterm
      exact hs.placed.moved hfits rfl hset
    · have hleft : s.sched.tasks = [] → left = [] := by
        intro hnil
        rw [hnil] at hloop
        cases hloop
        rfl
      refine hs.watched.mono ?_ ?_
      · intro j hj hidle
        obtain rfl | rfl | rfl : j = 0 ∨ j = 1 ∨ j = 2 := by omega
        · exact hidle
        · exact hidle
        · exact ⟨htasks.trans (hleft hidle.1),hactive.trans hidle.2⟩
      · intro k
        by_cases hk : k = i
        · subst hk
          rw [stage_eq hp hw, stage_moved (q := .run) hp hw rfl hset]
          rfl
        · exact stage_other (q := .run) (s := s) hk rfl hset
  · rw [entered, hset, List.getElem?_set_self hi]
    have hfits : Fits .asksTimers ({ w with phase := .idle } : Worker Fib Cb) :=
      ⟨hterm,rfl⟩
    exact hs.fresh hp hw hfits rfl rfl hset hconserves hs.accounted hs.size_ge

theorem getNextTimeout_none {now : UInt64} {timeout : UInt64} {timers timers' : TimerManager Cb}
    (hnow : now ≠ 0) (hrun : timers.getNextTimeout now = .ok (timeout, timers')) :
    timers'.timers = timers.timers ∧ (timeout = ~~~0 → timers.timers = []) := by
  unfold TimerManager.getNextTimeout at hrun
  dsimp only at hrun
  split at hrun
  next hnil =>
    cases hrun
    exact ⟨rfl,fun _ => hnil⟩
  next h hs hcons =>
    obtain ⟨x,-,hrun⟩ := exists_of_bind_eq_ok hrun
    cases hrun
    refine ⟨rfl,?_⟩
    intro hmax
    exfalso
    -- the difference of two times is the greatest only if the clock stands at 0
    split_ifs at hmax with hdue
    · exact absurd hmax (by decide)
    · apply hnow
      rw [ge_iff_le, UInt64.le_iff_toNat_le, not_le] at hdue
      have hsub := UInt64.toNat_sub_of_le x.next now (UInt64.le_iff_toNat_le.mpr hdue.le)
      have hlt := x.next.toNat_lt
      have hval : (x.next - now).toNat = 2 ^ 64 - 1 := by
        rw [hmax]
        rfl
      rw [hsub] at hval
      exact UInt64.toNat_inj.mp (by rw [UInt64.toNat_zero]; omega)

theorem threadStep_sound {move : Move Fib Cb} (hs : s.Sound) (hp : s.positions[i]? = some p)
    (hw : s.sched.workers[i]? = some w) (hmeets : s.Meets ⟨i,move⟩)
    (h : s.threadStep i w p move = .ok t) : t.Sound := by
  have hfits := hs.placed.fits i p w hp hw
  have hstage := stage_eq hp hw
  have hself := set_worker hw
  have hevent : ∀ c, move = .call c → ∀ op, c = .event op → s.iom.Admissible op := by
    rintro c rfl op rfl
    exact hmeets
  unfold threadStep at h
  split at h
  next c => exact call_sound hs hstage (hevent c rfl) h
  next =>
    -- the thread resumes its root fiber
    cases h
    have hrun : Fits (.run : Position Cb) w := by
      constructor
      · exact fun _ => Or.inl hfits.2
      · intro hexit
        rw [hfits.2] at hexit
        cases hexit
    have hzero : checksPassed (.run : Position Cb) w = 0 := by simp [checksPassed, hfits.1]
    have hstopped : Scheduler.Conserves { s.sched with stopping := true } :=
      ⟨hs.conserves.nodes,hs.conserves.nonempty,hs.conserves.heldHere,hs.conserves.ranHere,
        hs.conserves.active⟩
    exact hs.fresh hp hw hrun hzero rfl hself hstopped hs.accounted hs.size_ge
  next state =>
    split at h
    next hphase =>
      obtain ⟨⟨b,m⟩,hpick,h⟩ := exists_of_bind_eq_ok h
      cases h
      exact pick_sound hs hp hw hphase hpick fun hterm => hmeets w hw hterm
    · cases h
      exact hs
  next c =>
    split at h
    next node hphase =>
      have hterm := idleTerm_of_holding hfits hphase
      exact call_sound hs (by rw [hstage, checksPassed, hterm]; rfl) (hevent c rfl) h
    · cases h
      exact hs
  next =>
    split at h
    next node hphase =>
      cases h
      have hterm := idleTerm_of_holding hfits hphase
      have hrun : Fits .run ({ w with phase := .picking } : Worker Fib Cb) := fits_picking rfl
      exact hs.fresh hp hw hrun (by rw [checksPassed, hterm]; rfl)
        (set_position hp) rfl
        (Scheduler.finish_conserves hs.conserves hw (by rw [Worker.held, hphase]))
        hs.accounted hs.size_ge
    · cases h
      exact hs
  next now =>
    obtain ⟨⟨timeout,timers⟩,hrun,h⟩ := exists_of_bind_eq_ok h
    cases h
    obtain ⟨hsame,hnone⟩ := getNextTimeout_none hmeets hrun
    by_cases hmax : timeout = ~~~0
    · refine hs.passed (q := .asksEvents) hp hw hfits (hnone hmax) rfl ?_ hself
        (Nothing.congr hsame rfl rfl rfl) hs.conserves rfl
      simp only [setPosition, hmax, if_true]
    · refine hs.fresh (q := .waits) hp hw hfits rfl ?_ hself hs.conserves hs.accounted
        hs.size_ge
      simp only [setPosition, hmax, if_false]
  next =>
    cases h
    by_cases hzero : s.iom.pending = 0
    · refine hs.passed (q := .asksTasks) hp hw hfits hzero rfl ?_ hself
        (Nothing.congr rfl rfl rfl rfl) hs.conserves rfl
      simp only [setPosition, hzero, if_true]
    · refine hs.fresh (q := .waits) hp hw hfits rfl ?_ hself hs.conserves hs.accounted
        hs.size_ge
      simp only [setPosition, hzero, if_false]
  next =>
    have hheld : w.held = none := by rw [Worker.held, hfits.2]
    split at h
    next hstop =>
      cases h
      have hended : Fits .run
          ({ w with phase := .picking, idleTerm := s.sched.isStopping } : Worker Fib Cb) :=
        fits_picking rfl
      have hnothing : Nothing 2 s := by
        simp only [Scheduler.isStopping, Bool.and_eq_true, List.isEmpty_iff, beq_iff_eq] at hstop
        exact ⟨hstop.1.2,hstop.2⟩
      exact hs.passed hp hw hended hnothing (by simp [checksPassed, hstop]) rfl rfl
        (Nothing.congr rfl rfl rfl rfl) (Scheduler.idleReturn_conserves hs.conserves hw hheld) rfl
    · cases h
      exact hs.fresh (q := .waits) hp hw hfits rfl rfl hself hs.conserves hs.accounted hs.size_ge
  next now addr =>
    obtain ⟨⟨callbacks,timers⟩,-,h⟩ := exists_of_bind_eq_ok h
    cases h
    exact hs.fresh (q := .expired _) hp hw hfits rfl rfl hself hs.conserves hs.accounted hs.size_ge
  next callbacks =>
    cases h
    exact hs.fresh (q := .handles) hp hw hfits rfl rfl
      ((scheduleRange_workers _ _).trans hself)
      (Scheduler.scheduleRange_conserves _ hs.conserves) hs.accounted hs.size_ge
  next e r ctl =>
    obtain ⟨⟨handed,iom⟩,hrun,h⟩ := exists_of_bind_eq_ok h
    cases h
    obtain ⟨hiom,hlen,-⟩ := IOManager.handleEntry_releases hs.accounted hrun
    obtain ⟨hconserves,hworkers⟩ := hand_sched (s := { s with iom := iom }) handed hs.conserves
    exact hs.worked rfl hworkers hstage hconserves hiom (hlen ▸ hs.size_ge)
  next =>
    cases h
    have hheld : w.held = none := by rw [Worker.held, hfits.2]
    have hrun : Fits .run ({ w with phase := .picking } : Worker Fib Cb) := fits_picking rfl
    exact hs.fresh hp hw hrun (by rw [checksPassed, hfits.1]; rfl) rfl rfl
      (idleYield_conserves hs.conserves hw hheld) hs.accounted hs.size_ge
  · cases h
    exact hs

theorem step_sound {a : Act Fib Cb} {o : Unit} (hs : s.Sound) (hmeets : s.Meets a)
    (h : s.step a = .ok (o, t)) : t.Sound := by
  unfold step at h
  split at h
  · cases h
    exact hs
  next p hp =>
    split at h
    · cases h
      exact hs
    next w hw =>
      obtain ⟨t',hrun,h⟩ := exists_of_bind_eq_ok h
      cases h
      exact threadStep_sound hs hp hw hmeets hrun

theorem start_sound (threads : Threads) (now : UInt64) :
    (start threads now : Manager Fib Cb).Sound where
  conserves := Scheduler.new_conserves threads
  accounted := IOManager.new_accounted.1
  size_ge := IOManager.new_accounted.2.1.ge
  placed := by
    constructor
    · simp [start, Scheduler.new]
      omega
    · intro i p w hp hw
      simp only [Scheduler.new, start, List.getElem?_map, Option.map_eq_some_iff] at hw
      obtain ⟨id,-,rfl⟩ := hw
      have hmem := List.mem_of_mem_take (List.mem_of_getElem? hp)
      rcases List.mem_cons.mp hmem with rfl | hmem
      · exact ⟨rfl,rfl⟩
      · obtain ⟨-,-,rfl⟩ := List.mem_map.mp hmem
        exact fits_picking rfl
  watched := by
    intro j hj hbusy
    obtain rfl | rfl | rfl : j = 0 ∨ j = 1 ∨ j = 2 := by omega
    · exact (hbusy rfl).elim
    · exact (hbusy rfl).elim
    · exact (hbusy ⟨rfl,rfl⟩).elim

/-- Without pending events no descriptor has one. -/
theorem registered_none {m : IOManager Unit Fib Cb} (hm : IOManager.Accounted m)
    (hzero : m.pending = 0) (fd : ℕ) (e : Event) : m.registered fd e = none := by
  have hbits : m.bits = 0 := by
    rw [← hm.pending_toNat, hzero]
    rfl
  rw [hm.registered_eq]
  cases hc : m.heap[fd]? with
  | none => rfl
  | some c =>
    have hcount : c.events.count = 0 :=
      List.sum_eq_zero_iff_forall_eq_nat.mp hbits _ (List.mem_map_of_mem (List.mem_of_getElem? hc))
    have hhas : c.events.has e = false := by
      cases e <;> simp only [Events.count, Events.has] at hcount ⊢ <;>
        exact Bool.toNat_eq_zero.mp (by omega)
    exact (congrArg EventContext.work ((hm.settled fd c hc).empty e hhas)).trans rfl

/-- In every run of an IO manager that uses its caller, in which no thread whose idle fiber has
ended finds another task: once all threads have left `Run`, which is what `Stop` waits for, no
timer is armed, no event is registered, and every task that was scheduled has been run exactly
once. -/
theorem stop_leaves_nothing (threads : Threads) (now : UInt64) (acts : List (Act Fib Cb))
    (os : List Unit) (t : Manager Fib Cb) (h : Along step Meets acts (start threads now))
    (hrun : run step acts (start threads now) = .ok (os, t))
    (hexited : ∀ w ∈ t.sched.workers, w.phase = .exited) :
    t.timers.timers = [] ∧ (∀ fd e, t.iom.registered fd e = none) ∧ t.iom.pending = 0 ∧
      ∀ k < t.sched.scheduled.length,
        ((t.sched.finished.map Prod.snd).map TaskNode.ticket).count k = 1 := by
  have ht : t.Sound := Along.ends Sound (fun _ _ _ _ hs hm hstep => step_sound hs hm hstep)
    (start_sound threads now) h hrun
  have hleft : ∀ i, 3 ≤ t.stage i := by
    intro i
    unfold stage
    split
    next p w hp hw =>
      have hphase := hexited w (List.mem_of_getElem? hw)
      have hfits := ht.placed.fits i p w hp hw
      cases p with
      | run => simp [checksPassed, hfits.2 hphase]
      | _ => simp [Fits, hphase] at hfits
    · exact le_rfl
  have hnothing := ht.watched.all_idle hleft
  refine ⟨hnothing 0 (by omega),?_,hnothing 1 (by omega),?_⟩
  · exact registered_none ht.accounted (hnothing 1 (by omega))
  · intro k hk
    have hheld : t.sched.held = [] := by
      refine List.filterMap_eq_nil_iff.mpr fun w hw => ?_
      rw [Worker.held, hexited w hw]
    have hone := ht.conserves.count_ticket hk
    rw [(hnothing 2 (by omega)).1, hheld] at hone
    simpa using hone

section Evaluation

instance (m : IOManager Unit Fib Cb) : ∀ op, Decidable (m.Admissible op)
  | .addEvent fd event _ caller _ => inferInstanceAs (Decidable (fd < 2 ^ 31 ∧
      caller.scheduler.isSome = true ∧ caller.fiberState = .running ∧
        ∀ c ∈ m.context fd, c.events.has event = false))
  | .delEvent fd _ _ | .cancelEvent fd _ _ | .cancelAll fd _ =>
    inferInstanceAs (Decidable (fd < 2 ^ 31))

instance (s : Manager Fib Cb) (a : Act Fib Cb) : Decidable (s.Meets a) := by
  unfold Meets
  split <;> infer_instance

end Evaluation

/-- Two threads, the first of which made the manager. -/
def pair : Threads := ⟨[10, 11],by decide⟩

def free : Unit → FiberState := fun _ => .ready

/-- The first thread adds a timer and stops the manager; the second takes the callback to the
task list and has a task of its own. -/
def firing : List (Act Unit Unit) :=
  [⟨0,.call (.timer (.addTimer 1 5 (some ()) false 0))⟩,
    ⟨0,.call (.event (.addEvent 5 .read (some ()) ⟨some (),(),.running⟩ fun _ => true))⟩,
    ⟨0,.stop⟩, ⟨1,.pick free⟩, ⟨1,.getNextTimeout 2⟩, ⟨1,.expire 6 1⟩, ⟨1,.schedule⟩,
    ⟨1,.entry 5 { epollin := true } fun _ => true⟩, ⟨1,.yield⟩, ⟨1,.pick free⟩, ⟨1,.finish⟩,
    ⟨0,.pick free⟩, ⟨0,.finish⟩]

/-- A thread finds nothing to do and leaves `Run`. -/
def leaving (i : ℕ) : List (Act Unit Unit) :=
  [⟨i,.pick free⟩, ⟨i,.getNextTimeout 7⟩, ⟨i,.pendingEvents⟩, ⟨i,.stopping⟩, ⟨i,.pick free⟩]

theorem stop_leaves_nothing_pair :
    ∃ os t, run step (firing ++ leaving 0 ++ leaving 1) (start pair 1) = .ok (os, t) ∧
      t.sched.finished.length = 2 ∧ t.timers.timers = [] ∧
      ∀ fd e, t.iom.registered fd e = none := by
  have hmeets : Along step Meets (firing ++ leaving 0 ++ leaving 1) (start pair 1) := by
    decide +kernel
  have hreturns : (match run step (firing ++ leaving 0 ++ leaving 1) (start pair 1) with
      | .ok (_, t) => decide ((∀ w ∈ t.sched.workers, w.phase = .exited) ∧
          t.sched.finished.length = 2)
      | .error _ => false) = true := by decide +kernel
  split at hreturns
  next os t hrun =>
    obtain ⟨hexited,hfinished⟩ := of_decide_eq_true hreturns
    obtain ⟨htimers,hevents,-⟩ := stop_leaves_nothing pair 1 _ os t hmeets hrun hexited
    exact ⟨os,t,hrun,hfinished,htimers,hevents⟩
  next => cases hreturns

/-- The first thread's idle fiber ends while the second one carries the callback of an expired
timer to the list. The first thread takes it there, adds a timer and leaves. -/
def addsLate : List (Act Unit Unit) :=
  [⟨0,.call (.timer (.addTimer 1 5 (some ()) false 0))⟩, ⟨0,.stop⟩,
    ⟨1,.pick free⟩, ⟨1,.getNextTimeout 2⟩, ⟨1,.expire 6 1⟩,
    ⟨0,.pick free⟩, ⟨0,.getNextTimeout 7⟩, ⟨0,.pendingEvents⟩, ⟨0,.stopping⟩,
    ⟨1,.schedule⟩, ⟨0,.pick free⟩, ⟨1,.yield⟩, ⟨1,.pick free⟩, ⟨1,.getNextTimeout 7⟩,
    ⟨0,.call (.timer (.addTimer 8 5 (some ()) false 0))⟩, ⟨0,.finish⟩, ⟨0,.pick free⟩,
    ⟨1,.pendingEvents⟩, ⟨1,.stopping⟩, ⟨1,.pick free⟩]

/-- Without the condition a timer can be left armed. -/
theorem timer_abandoned :
    ¬ ∀ acts os t, run step acts (start pair 1 : Manager Unit Unit) = .ok (os, t) →
      (∀ w ∈ t.sched.workers, w.phase = .exited) → t.timers.timers = [] := by
  intro h
  have hleft : (match run step addsLate (start pair 1) with
      | .ok (_, t) => decide ((∀ w ∈ t.sched.workers, w.phase = .exited) ∧ t.timers.timers ≠ [])
      | .error _ => false) = true := by decide +kernel
  split at hleft
  next os t hrun =>
    obtain ⟨hexited,htimers⟩ := of_decide_eq_true hleft
    exact htimers (h addsLate os t hrun hexited)
  next => cases hleft

end Gudov.Shutdown.Manager
