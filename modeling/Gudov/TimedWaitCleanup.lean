import Gudov.TimedWaitWakeup

/-!
# What a timed wait leaves behind

`timer` is a local variable of `doIO`, and the fiber is put into one event context only. So a
call that has returned leaves nothing with the manager it shares: its timers are out of the
set, no context holds its fiber, and nobody is about to resume it for this wait. Meanwhile
the rest of the program arms and cancels timers of its own and registers other fibers and
callbacks.
-/
namespace Gudov

namespace TimerManager
open StepSystem
variable {Cb : Type} {m m' : TimerManager Cb} {h k : ℕ} {x : Timer Cb}

/-- The callback of the timer that an operation adds. -/
def added : Op Cb → Option Cb
  | .addTimer _ _ callback _ _ => callback
  | _ => none

/-- A timer in the set after an operation has the callback it had in the set before, unless
the operation added it or took its callback. -/
theorem step_callback {op : Op Cb} {o : Seen Cb} (hm : Kept m []) (hstep : m.step op = .ok (o, m'))
    (hx : m'.Has k x) : x.callback = none ∨ (∃ t, m.Has k t ∧ t.callback = x.callback) ∨
      (k = m.heap.length ∧ x.callback = added op) := by
  have hsame : m.Has k x → x.callback = none ∨ (∃ t, m.Has k t ∧ t.callback = x.callback) ∨
      (k = m.heap.length ∧ x.callback = added op) := fun hk => Or.inr (Or.inl ⟨x,hk,rfl⟩)
  cases op with
  | addTimer now ms callback recurring addr =>
    cases hstep
    rcases Has.of_addTimerLocked hx with ⟨hk,hget⟩ | ⟨rfl,hget⟩
    · obtain ⟨y,hy⟩ := hm.known k (List.mem_append_left [] hk)
      rw [List.getElem?_append_left (List.getElem?_eq_some_iff.mp hy).1] at hget
      exact hsame ⟨hk,hget⟩
    · rw [List.getElem?_concat_length] at hget
      cases hget
      exact Or.inr (Or.inr ⟨rfl,rfl⟩)
  | cancel h =>
    obtain ⟨⟨ok,m''⟩,hrun,hstep⟩ := exists_of_bind_eq_ok hstep
    cases hstep
    obtain rfl | ⟨t,l,ht,hl,rfl⟩ := cancel_cases hrun
    · exact hsame hx
    · have hw : (m.write h { t with callback := none }).Has k x := ⟨hl k hx.1,hx.2⟩
      rcases hw.of_write with hk | ⟨rfl,rfl⟩
      · exact hsame hk
      · exact Or.inl rfl
  | refresh h now =>
    obtain ⟨⟨ok,m''⟩,hrun,hstep⟩ := exists_of_bind_eq_ok hstep
    cases hstep
    obtain rfl | ⟨t,l,ht,hlive,hl,rfl⟩ := refresh_cases hrun
    · exact hsame hx
    · rcases Has.of_rekeyed ht hl hx.of_insert with hx | ⟨rfl,rfl⟩
      · exact hsame hx
      · exact Or.inr (Or.inl ⟨t,hm.has_of_isLive ht hlive,rfl⟩)
  | reset h ms fromNow now =>
    obtain ⟨⟨ok,notified,m''⟩,hrun,hstep⟩ := exists_of_bind_eq_ok hstep
    cases hstep
    obtain ⟨-,rfl⟩ | ⟨t,l,ht,hlive,hl,hadd⟩ := reset_cases hrun
    · exact hsame hx
    · cases hadd
      rcases Has.of_rekeyed ht hl (Has.of_addTimerLocked hx) with hx | ⟨rfl,rfl⟩
      · exact hsame hx
      · exact Or.inr (Or.inl ⟨t,hm.has_of_isLive ht hlive,rfl⟩)
  | getNextTimeout now =>
    obtain ⟨⟨ms,m''⟩,hrun,hstep⟩ := exists_of_bind_eq_ok hstep
    cases hstep
    obtain ⟨rfl,-⟩ := getNextTimeout_cases hrun
    exact hsame hx
  | listExpiredCallbacks now addr =>
    obtain ⟨⟨callbacks,m''⟩,hrun,hstep⟩ := exists_of_bind_eq_ok hstep
    cases hstep
    obtain ⟨-,-,rfl⟩ | ⟨-,⟨-,rfl⟩ | ⟨n,-,hloop⟩⟩ := listExpiredCallbacks_cases hrun
    · exact hsame hx
    · exact hsame hx
    · rcases Has.of_expireLoop (hm.split now _) hloop hx with hx | ⟨hk,t,ht,-,rfl⟩
      · exact hsame ⟨List.mem_of_mem_drop hx.1,hx.2⟩
      · exact Or.inr (Or.inl ⟨t,⟨List.mem_of_mem_take hk,ht⟩,rfl⟩)

/-- `Cancel` leaves its timer without a callback. -/
theorem cancel_disarms {ok : Bool} (hrun : m.cancel h = .ok (ok, m'))
    (hx : m'.heap[h]? = some x) : x.callback = none := by
  obtain ⟨t,hd,hrun⟩ := exists_of_bind_eq_ok hrun
  have ht := deref_eq_ok hd
  split at hrun
  · split at hrun
    · cases hrun
    next m₁ he =>
      obtain ⟨l,rfl,-⟩ := erase_cases he
      cases hrun
      have hself : (m.write h { t with callback := none }).heap[h]? =
          some { t with callback := none } := write_self ht
      have hget : (m.write h { t with callback := none }).heap[h]? = some x := hx
      rw [hself] at hget
      cases hget
      rfl
  next hnone =>
    cases hrun
    rw [ht] at hx
    cases hx
    simpa using hnone

end TimerManager

namespace IOManager
variable {Sched Fib Cb : Type} {m m' : IOManager Sched Fib Cb} {fd p : ℕ} {event : Event}

/-- What is handed over was registered, and what stays registered was not handed over. -/
def Takes (m m' : IOManager Sched Fib Cb) (handed : List (Handover Sched Fib Cb)) : Prop :=
  ∀ fd e, (∀ w ∈ select fd e handed, m.registered fd e = some w) ∧
    ∀ w, m'.registered fd e = some w → m.registered fd e = some w ∧ select fd e handed = []

theorem Takes.refl (m : IOManager Sched Fib Cb) :
    Takes m m ([] : List (Handover Sched Fib Cb)) := fun _ _ => ⟨nofun,fun _ hw => ⟨hw,rfl⟩⟩

theorem cancelEvent_takes {ctl : EpollRequest → Bool} {ok : Bool}
    {handed : List (Handover Sched Fib Cb)} (hm : Accounted m)
    (hrun : m.cancelEvent fd event ctl = .ok (ok, handed, m')) : Takes m m' handed := by
  obtain ⟨ok',handed',m'',hrun',-,-,hans⟩ := cancelEvent_spec fd event ctl hm
  rw [hrun] at hrun'
  cases hrun'
  intro k e
  obtain ⟨hhanded,hnext⟩ := hans k e
  simp only [Seen.handed] at hhanded
  rw [hhanded, hnext]
  cases ok with
  | false => exact ⟨by simp [due],fun _ hw => ⟨hw,rfl⟩⟩
  | true => by_cases hke : k = fd ∧ e = event <;> simp [next, due, hke]

theorem cancelAll_takes {ctl : EpollRequest → Bool} {ok : Bool}
    {handed : List (Handover Sched Fib Cb)} (hm : Accounted m)
    (hrun : m.cancelAll fd ctl = .ok (ok, handed, m')) : Takes m m' handed := by
  obtain ⟨ok',handed',m'',hrun',-,-,hans⟩ := cancelAll_spec fd ctl hm
  rw [hrun] at hrun'
  cases hrun'
  intro k e
  obtain ⟨hhanded,hnext⟩ := hans k e
  simp only [Seen.handed] at hhanded
  rw [hhanded, hnext]
  cases ok with
  | false => exact ⟨by simp [due],fun _ hw => ⟨hw,rfl⟩⟩
  | true => by_cases hk : k = fd <;> simp [next, due, hk]

theorem handleEntry_takes {r : Reported} {ctl : EpollRequest → Bool}
    {handed : List (Handover Sched Fib Cb)} (hm : Accounted m)
    (hrun : m.handleEntry p r ctl = .ok (handed, m')) : Takes m m' handed := by
  obtain ⟨c,hderef,hrun⟩ := exists_of_bind_eq_ok hrun
  have hc : m.heap[p]? = some c := by
    unfold deref at hderef
    split at hderef
    · cases hderef
    next c' hc' =>
      cases hderef
      exact hc'
  dsimp only at hrun
  split at hrun
  · cases hrun
    exact Takes.refl m
  · split at hrun
    · cases hrun
      exact Takes.refl m
    · by_cases hsub : ∀ e, (realEvents r c.events).has e = true → c.events.has e = true
      · obtain ⟨n,htrig,hn,hset⟩ := triggers_spec m.pending (hm.settled p c hc) hsub
        rw [← bind_assoc, bind_ok htrig] at hrun
        cases hrun
        have hm' := hm.update hc hset rfl hn
        intro k e
        rw [hm.registered_dropMany hm' hc, select_handovers, hm.fd_eq p c hc]
        by_cases hke : k = p ∧ (realEvents r c.events).has e = true
        · rw [if_pos hke, if_pos hke, hke.1, hm.registered_at hc]
          exact ⟨fun _ hw => Option.mem_toList.mp hw,by simp⟩
        · rw [if_neg hke, if_neg hke]
          exact ⟨by simp,fun _ hw => ⟨hw,rfl⟩⟩
      · rw [← bind_assoc, Idling.triggers_fail m.pending (hm.settled p c hc) hsub] at hrun
        cases hrun

theorem new_registered (fd : ℕ) (e : Event) :
    (new : IOManager Sched Fib Cb).registered fd e = none := by
  rw [new_accounted.1.registered_eq, new_accounted.2.2]
  split <;> cases e <;> rfl

end IOManager

/-- What the local `timer` refers to, as long as the call has not cancelled it. -/
def Stage.held : Stage → Option ℕ
  | .timed timer | .refused timer | .registered timer | .suspended timer | .resumed timer => timer
  | _ => none

namespace TimedWait
open IOManager StepSystem
variable {Sched Fib Cb : Type} {call : IOCall Sched Fib} {s t : TimedWait Sched Fib Cb}

/-- What other fibers do with the managers, besides listing timers and triggering events. -/
inductive Other (Sched Fib Cb : Type)
  | timers (op : TimerManager.Op TimerCallback)
  | addEvent (fd : ℕ) (event : Event) (callback : Option Cb) (caller : Caller Sched Fib)
      (ctl : EpollRequest → Bool)
  | delEvent (fd : ℕ) (event : Event) (ctl : EpollRequest → Bool)

def other (s : TimedWait Sched Fib Cb) : Other Sched Fib Cb → Except Fault (TimedWait Sched Fib Cb)
  | .timers op => do
    let (_, timers) ← s.timers.step op
    .ok { s with timers := timers }
  | .addEvent fd event callback caller ctl => do
    let (_, iom) ← s.iom.addEvent fd event callback caller ctl
    .ok { s with iom := iom }
  | .delEvent fd event ctl => do
    let (_, iom) ← s.iom.delEvent fd event ctl
    .ok { s with iom := iom }

/-- They use neither the callback nor the fiber of the call. -/
def Beside (call : IOCall Sched Fib) (s : TimedWait Sched Fib Cb) : Act ⊕ Other Sched Fib Cb → Prop
  | .inl _ => True
  | .inr (.timers op) => s.timers.Callable op ∧ TimerManager.added op ≠ some .expiry
  | .inr (.addEvent fd _ callback caller _) => fd < 2 ^ 31 ∧ caller.scheduler.isSome = true ∧
      caller.fiberState = .running ∧ (callback.isNone = true → caller.fiber ≠ call.fiber)
  | .inr (.delEvent _ _ _) => True

/-- The rest of the program has not used the callback or the fiber of the call so far. -/
structure Free (call : IOCall Sched Fib) (m : Managers Sched Fib Cb) : Prop where
  timers : ∀ k x, m.timers.Has k x → x.callback ≠ some .expiry
  events : ∀ fd e sched, m.iom.registered fd e ≠ some (sched, .fiber call.fiber)

/-- No timer of the call is in the set, no event context holds its fiber, and no scheduler
was given the fiber for an event. -/
structure Gone (call : IOCall Sched Fib) (s : TimedWait Sched Fib Cb) : Prop where
  timers : ∀ k x, s.timers.Has k x → x.callback ≠ some .expiry
  events : ∀ fd e sched, s.iom.registered fd e ≠ some (sched, .fiber call.fiber)
  handed : s.handed = false

/-- The call holds the only one of its timers that is in the set. Its fiber is in the context
of its event or was handed over, at most one of both, and only while the event is its own. -/
structure Contained (call : IOCall Sched Fib) (s : TimedWait Sched Fib Cb) : Prop where
  accounted : Accounted s.iom
  size_ge : 32 ≤ s.iom.heap.length
  kept : TimerManager.Kept s.timers []
  timer : ∀ k x, s.timers.Has k x → x.callback = some .expiry → s.stage.held = some k
  fiber : ∀ fd e sched, s.iom.registered fd e = some (sched, .fiber call.fiber) →
    (fd = call.fd ∧ e = call.event) ∧ s.stage.isRegistered = true ∧ s.handed = false
  handed : s.handed = true → s.stage.isRegistered = true

/-- While the event is not the call's, nothing is done with the fiber. -/
theorem Contained.apart (hs : s.Contained call) (hreg : s.stage.isRegistered = false) :
    (∀ fd e sched, s.iom.registered fd e ≠ some (sched, .fiber call.fiber)) ∧
      s.handed = false := by
  constructor
  · intro fd e sched h
    have hat := (hs.fiber fd e sched h).2.1
    rw [hreg] at hat
    cases hat
  · cases hh : s.handed with
    | false => rfl
    | true =>
      have hat := hs.handed hh
      rw [hreg] at hat
      cases hat

theorem Contained.gone (hs : s.Contained call) {n : ℤ} (hret : s.stage = .returned n) :
    s.Gone call where
  timers k x hx hcb := by
    have hheld := hs.timer k x hx hcb
    rw [hret] at hheld
    cases hheld
  events := (hs.apart (by rw [hret]; rfl)).1
  handed := (hs.apart (by rw [hret]; rfl)).2

theorem start_contained {m : Managers Sched Fib Cb} (hm : Free call m) :
    (start m).Contained call where
  accounted := m.accounted
  size_ge := m.size_ge
  kept := m.kept
  timer k x hx hcb := absurd hcb (hm.timers k x hx)
  fiber fd e sched hreg := absurd hreg (hm.events fd e sched)
  handed := nofun

/-- A step of the call that goes on to a stage with the same timer and registration. -/
theorem Contained.move (hs : s.Contained call) {stage : Stage} (hheld : stage.held = s.stage.held)
    (hreg : stage.isRegistered = s.stage.isRegistered) :
    ({ s with stage := stage } : TimedWait Sched Fib Cb).Contained call where
  accounted := hs.accounted
  size_ge := hs.size_ge
  kept := hs.kept
  timer k x hx hcb := hheld ▸ hs.timer k x hx hcb
  fiber fd e sched h := by
    rw [show ({ s with stage := stage } : TimedWait Sched Fib Cb).stage = stage from rfl, hreg]
    exact hs.fiber fd e sched h
  handed h := by
    rw [show ({ s with stage := stage } : TimedWait Sched Fib Cb).stage = stage from rfl, hreg]
    exact hs.handed h

/-- An operation on the timers that adds none of the call. -/
theorem Contained.timersStep (hs : s.Contained call) {op : TimerManager.Op TimerCallback}
    {o : TimerManager.Seen TimerCallback} {timers : TimerManager TimerCallback}
    (hkept : TimerManager.Kept timers [])
    (hother : TimerManager.added op ≠ some .expiry)
    (hstep : s.timers.step op = .ok (o, timers)) (queued : List ℕ) :
    ({ s with timers := timers, queued := queued } : TimedWait Sched Fib Cb).Contained call where
  accounted := hs.accounted
  size_ge := hs.size_ge
  kept := hkept
  timer k x hx hcb := by
    rcases TimerManager.step_callback hs.kept hstep hx with
      hnone | ⟨y,hy,hcb'⟩ | ⟨-,hadded⟩
    · rw [hcb] at hnone
      cases hnone
    · exact hs.timer k y hy (hcb'.trans hcb)
    · exact absurd (hadded.symm.trans hcb) hother
  fiber := hs.fiber
  handed := hs.handed

theorem Contained.expire (hs : s.Contained call) {now : UInt64} {addr : ℕ}
    (h : s.expire now addr = .ok t) : t.Contained call := by
  obtain ⟨⟨callbacks,timers⟩,hrun,h⟩ := exists_of_bind_eq_ok h
  cases h
  obtain ⟨callbacks',timers',hrun',hkept⟩ :=
    TimerManager.listExpiredCallbacks_kept now addr hs.kept
  rw [hrun] at hrun'
  cases hrun'
  have hstep : s.timers.step (.listExpiredCallbacks now addr) = .ok (.expired callbacks, timers) :=
    bind_ok hrun
  exact hs.timersStep hkept (by simp [TimerManager.added]) hstep _

theorem Contained.callback (hs : s.Contained call) (k : ℕ) : (s.callback k).Contained call := by
  unfold TimedWait.callback
  split
  · dsimp only
    split <;> exact ⟨hs.accounted,hs.size_ge,hs.kept,hs.timer,hs.fiber,hs.handed⟩
  · exact hs

theorem Contained.addTimer (hs : s.Contained call) (hp : s.stage = .waits) {now : UInt64}
    {addr : ℕ} (hfresh : isFresh addr s.timers = true) : (s.addTimer call now addr).Contained call := by
  have hfree : ∀ k ∈ s.timers.timers, ∀ x, s.timers.heap[k]? = some x → x.addr ≠ addr := by
    intro k hk x hx
    have hall := List.all_eq_true.mp hfresh k hk
    rw [hx] at hall
    simpa using hall
  unfold TimedWait.addTimer
  split
  · obtain ⟨-,-,hkept,-⟩ := TimerManager.addTimer_has now call.timeout
      (some TimerCallback.expiry) false hs.kept hfree
    have hstep : s.timers.step (.addTimer now call.timeout (some .expiry) false addr) =
        .ok (.added s.timers.heap.length _, _) := rfl
    obtain ⟨hno,hnot⟩ := hs.apart (by rw [hp]; rfl)
    refine ⟨hs.accounted,hs.size_ge,hkept,?_,?_,?_⟩
    · intro k x hx hcb
      rcases TimerManager.step_callback hs.kept hstep hx with hnone | ⟨y,hy,hcb'⟩ | ⟨hk,-⟩
      · rw [hcb] at hnone
        cases hnone
      · have hheld := hs.timer k y hy (hcb'.trans hcb)
        rw [hp] at hheld
        cases hheld
      · rw [hk]
        rfl
    · exact fun fd e sched h => absurd h (hno fd e sched)
    · exact fun h => absurd h (by rw [hnot]; simp)
  · exact hs.move (by rw [hp]; rfl) (by rw [hp]; rfl)

theorem Contained.addEvent (hs : s.Contained call) {timer : Option ℕ} {ctl : EpollRequest → Bool}
    (hp : s.stage = .timed timer) (h : s.addEvent call timer ctl = .ok t) : t.Contained call := by
  obtain ⟨⟨ok,iom⟩,hrun,h⟩ := exists_of_bind_eq_ok h
  cases h
  obtain ⟨hiom,hmin,hreg⟩ := addEvent_registers hs.accounted hs.size_ge call.fd_lt rfl rfl hrun
  obtain ⟨hno,hnot⟩ := hs.apart (by rw [hp]; rfl)
  have hheld : ∀ k x, s.timers.Has k x → x.callback = some .expiry → timer = some k := by
    intro k x hx hcb
    have := hs.timer k x hx hcb
    rwa [hp] at this
  cases ok with
  | true =>
    refine ⟨hiom,hmin,hs.kept,hheld,?_,fun _ => rfl⟩
    intro fd e sched h
    have h : iom.registered fd e = some (sched, .fiber call.fiber) := h
    rw [hreg] at h
    split at h
    next hat => exact ⟨hat.2,rfl,hnot⟩
    · exact absurd h (hno fd e sched)
  | false =>
    refine ⟨hiom,hmin,hs.kept,hheld,?_,?_⟩
    · intro fd e sched h
      have h : iom.registered fd e = some (sched, .fiber call.fiber) := h
      rw [hreg, if_neg (by simp)] at h
      exact absurd h (hno fd e sched)
    · exact fun h => absurd h (by rw [hnot]; simp)

theorem Contained.cancelTimer (hs : s.Contained call) {timer : Option ℕ} {stage : Stage}
    (hheld : s.stage.held = timer) (hreg : s.stage.isRegistered = false)
    (hheld' : stage.held = none) (hreg' : stage.isRegistered = false)
    (h : s.cancelTimer timer stage = .ok t) : t.Contained call := by
  unfold TimedWait.cancelTimer at h
  split at h
  · cases h
    exact hs.move (by rw [hheld', hheld]) (by rw [hreg', hreg])
  next k =>
    obtain ⟨⟨ok,timers⟩,hrun,h⟩ := exists_of_bind_eq_ok h
    cases h
    obtain ⟨x,hd,-⟩ := exists_of_bind_eq_ok hrun
    obtain ⟨ok',timers',hrun',hkept⟩ :=
      TimerManager.cancel_kept hs.kept (TimerManager.deref_eq_ok hd)
    rw [hrun] at hrun'
    cases hrun'
    have hstep : s.timers.step (.cancel k) = .ok (.cancelled k ok, timers) := bind_ok hrun
    have hs' := hs.timersStep hkept (by simp [TimerManager.added]) hstep s.queued
    refine ⟨hs'.accounted,hs'.size_ge,hkept,?_,?_,?_⟩
    · -- the timer it held is the one that was cancelled
      intro j y hy hcb
      have hj := hs'.timer j y hy hcb
      have hj : s.stage.held = some j := hj
      rw [hheld] at hj
      cases hj
      rw [TimerManager.cancel_disarms hrun hy.2] at hcb
      cases hcb
    · exact fun fd e sched h => absurd h ((hs.apart hreg).1 fd e sched)
    · exact fun h => absurd h (by rw [(hs.apart hreg).2]; simp)

/-- Other fibers register other tasks. -/
theorem Contained.otherEvents (hs : s.Contained call) {iom : IOManager Sched Fib Cb}
    (hiom : Accounted iom) (hmin : 32 ≤ iom.heap.length)
    (hreg : ∀ fd e sched, iom.registered fd e = some (sched, .fiber call.fiber) →
      s.iom.registered fd e = some (sched, .fiber call.fiber)) :
    ({ s with iom := iom } : TimedWait Sched Fib Cb).Contained call where
  accounted := hiom
  size_ge := hmin
  kept := hs.kept
  timer := hs.timer
  fiber fd e sched h := hs.fiber fd e sched (hreg fd e sched h)
  handed := hs.handed

theorem other_contained {a : Other Sched Fib Cb} (hs : s.Contained call)
    (hmeets : s.Beside call (.inr a)) (h : s.other a = .ok t) : t.Contained call := by
  cases a with
  | timers op =>
    obtain ⟨⟨o,timers⟩,hstep,h⟩ := exists_of_bind_eq_ok h
    cases h
    obtain ⟨o',timers',hstep',hkept⟩ := TimerManager.step_kept op hs.kept hmeets.1
    rw [hstep] at hstep'
    cases hstep'
    exact hs.timersStep hkept hmeets.2 hstep s.queued
  | addEvent fd event callback caller ctl =>
    obtain ⟨hfd,hsched,hf,hwork⟩ := hmeets
    obtain ⟨⟨ok,iom⟩,hrun,h⟩ := exists_of_bind_eq_ok h
    cases h
    obtain ⟨hiom,hmin,hreg⟩ := addEvent_registers hs.accounted hs.size_ge hfd hsched hf hrun
    refine hs.otherEvents hiom hmin ?_
    intro k e sched h
    rw [hreg] at h
    split at h
    · cases callback with
      | some c =>
        obtain ⟨sch,-,hsch⟩ := Option.map_eq_some_iff.mp h
        cases hsch
      | none =>
        obtain ⟨sch,-,hsch⟩ := Option.map_eq_some_iff.mp h
        exact absurd (Work.fiber.inj (Prod.mk.inj hsch).2) (hwork rfl)
    · exact h
  | delEvent fd event ctl =>
    obtain ⟨⟨ok,iom⟩,hrun,h⟩ := exists_of_bind_eq_ok h
    cases h
    obtain ⟨ok',iom',hrun',hiom,hlen,hans⟩ := delEvent_spec fd event ctl hs.accounted
    rw [hrun] at hrun'
    cases hrun'
    refine hs.otherEvents hiom (hlen ▸ hs.size_ge) ?_
    intro k e sched h
    rw [(hans k e).2] at h
    cases ok with
    | false => exact h
    | true =>
      simp only [next] at h
      split at h
      · cases h
      · exact h

section
variable [DecidableEq Fib]

/-- The fiber is found among the tasks in the register of an event. -/
theorem mem_of_isHanded {f : Fib} {handed : List (Handover Sched Fib Cb)}
    (h : isHanded f handed = true) :
    ∃ fd e sched, (sched, .fiber f) ∈ select fd e handed := by
  obtain ⟨x,hx,hf⟩ := List.any_eq_true.mp h
  refine ⟨x.fd,x.event,x.scheduler,List.mem_map.mpr ⟨x,List.mem_filter.mpr ⟨hx,by simp⟩,?_⟩⟩
  cases hw : x.work with
  | fiber g =>
    rw [hw] at hf
    rw [of_decide_eq_true hf]
  | callback c =>
    rw [hw] at hf
    cases hf

theorem Contained.triggered (hs : s.Contained call) {iom : IOManager Sched Fib Cb}
    {handed : List (Handover Sched Fib Cb)} (hiom : Accounted iom)
    (hlen : iom.heap.length = s.iom.heap.length) (htakes : Takes s.iom iom handed) :
    ({ s with iom := iom }.hand call.fiber handed).Contained call where
  accounted := hiom
  size_ge := hlen ▸ hs.size_ge
  kept := hs.kept
  timer := hs.timer
  fiber fd e sched h := by
    obtain ⟨hreg,hnot⟩ := (htakes fd e).2 _ h
    obtain ⟨⟨rfl,rfl⟩,hat,hbefore⟩ := hs.fiber fd e sched hreg
    refine ⟨⟨rfl,rfl⟩,hat,?_⟩
    -- the fiber can only be handed over from the context of its event
    cases hh : isHanded call.fiber handed with
    | false => simp only [hand, hbefore, hh, Bool.or_false]
    | true =>
      obtain ⟨k,e',sched',hmem⟩ := mem_of_isHanded hh
      obtain ⟨⟨rfl,rfl⟩,-⟩ := hs.fiber k e' sched' ((htakes k e').1 _ hmem)
      rw [hnot] at hmem
      cases hmem
  handed h := by
    simp only [hand, Bool.or_eq_true] at h
    rcases h with h | h
    · exact hs.handed h
    · obtain ⟨fd,e,sched,hmem⟩ := mem_of_isHanded h
      exact (hs.fiber fd e sched ((htakes fd e).1 _ hmem)).2.1

theorem Contained.trigger (hs : s.Contained call) {g : Trigger} (h : s.trigger call g = .ok t) :
    t.Contained call := by
  cases g with
  | cancelEvent fd event ctl =>
    obtain ⟨⟨ok,handed,iom⟩,hrun,h⟩ := exists_of_bind_eq_ok h
    cases h
    obtain ⟨hiom,hlen,-⟩ := cancelEvent_releases hs.accounted hrun
    exact hs.triggered hiom hlen (cancelEvent_takes hs.accounted hrun)
  | cancelAll fd ctl =>
    obtain ⟨⟨ok,handed,iom⟩,hrun,h⟩ := exists_of_bind_eq_ok h
    cases h
    obtain ⟨hiom,hlen,-⟩ := cancelAll_releases hs.accounted hrun
    exact hs.triggered hiom hlen (cancelAll_takes hs.accounted hrun)
  | entry p r ctl =>
    obtain ⟨⟨handed,iom⟩,hrun,h⟩ := exists_of_bind_eq_ok h
    cases h
    obtain ⟨hiom,hlen,-⟩ := handleEntry_releases hs.accounted hrun
    exact hs.triggered hiom hlen (handleEntry_takes hs.accounted hrun)

theorem Contained.cancelEvent (hs : s.Contained call) {k : ℕ} {ctl : EpollRequest → Bool}
    (h : s.cancelEvent call k ctl = .ok t) : t.Contained call := by
  unfold TimedWait.cancelEvent at h
  split at h
  · obtain ⟨⟨ok,handed,iom⟩,hrun,h⟩ := exists_of_bind_eq_ok h
    cases h
    obtain ⟨hiom,hlen,-⟩ := cancelEvent_releases hs.accounted hrun
    have htrig := hs.triggered hiom hlen (cancelEvent_takes hs.accounted hrun)
    exact ⟨hiom,htrig.size_ge,hs.kept,hs.timer,htrig.fiber,htrig.handed⟩
  · cases h
    exact hs

theorem act_contained {a : Act} (hs : s.Contained call) (h : s.act call a = .ok t) :
    t.Contained call := by
  unfold act at h
  split at h
  next n errno hp =>
    cases h
    have hplain : (attempted n errno).held = none ∧ (attempted n errno).isRegistered = false := by
      simp only [attempted]
      split
      · exact ⟨rfl,rfl⟩
      · split <;> exact ⟨rfl,rfl⟩
    exact hs.move (by rw [hplain.1, hp]; rfl) (by rw [hplain.2, hp]; rfl)
  next now addr hp =>
    cases h
    split
    next hfresh => exact hs.addTimer hp hfresh
    · exact hs
  next ctl timer hp => exact hs.addEvent hp h
  next timer hp =>
    cases h
    exact hs.move (by rw [hp]; rfl) (by rw [hp]; rfl)
  next timer hp =>
    cases h
    split
    next hh =>
      -- the fiber is resumed once it was handed over, so no context holds it any more
      refine ⟨hs.accounted,hs.size_ge,hs.kept,?_,?_,by simp⟩
      · intro k x hx hcb
        have hheld := hs.timer k x hx hcb
        rwa [hp] at hheld
      · intro fd e sched hreg
        have hnot := (hs.fiber fd e sched hreg).2.2
        rw [hh] at hnot
        cases hnot
    · exact hs
  next timer hp => exact hs.cancelTimer (by rw [hp]; rfl) (by rw [hp]; rfl) rfl rfl h
  next timer hp => exact hs.cancelTimer (by rw [hp]; rfl) (by rw [hp]; rfl) rfl rfl h
  next hp =>
    cases h
    split <;> exact hs.move (by rw [hp]; rfl) (by rw [hp]; rfl)
  next now addr => exact hs.expire h
  next k =>
    cases h
    exact hs.callback k
  next k ctl => exact hs.cancelEvent h
  next g => exact hs.trigger h
  · cases h
    exact hs

/-- A step of the call and its callbacks, or one of another fiber. -/
def stepBeside (call : IOCall Sched Fib) (s : TimedWait Sched Fib Cb) :
    Act ⊕ Other Sched Fib Cb → Except Fault (Unit × TimedWait Sched Fib Cb)
  | .inl a => s.step call a
  | .inr a => do
    let s ← s.other a
    .ok ((), s)

theorem stepBeside_contained {a : Act ⊕ Other Sched Fib Cb} {o : Unit} (hs : s.Contained call)
    (hmeets : s.Beside call a) (h : s.stepBeside call a = .ok (o, t)) : t.Contained call := by
  cases a with
  | inl a =>
    obtain ⟨t',hact,ht⟩ := exists_of_bind_eq_ok h
    cases ht
    exact act_contained hs hact
  | inr a =>
    obtain ⟨t',hother,ht⟩ := exists_of_bind_eq_ok h
    cases ht
    exact other_contained hs hmeets hother

/-- However the call and the rest of the program interleave: once the call has returned,
nothing of it is left with the managers. -/
theorem returned_leaves_nothing (call : IOCall Sched Fib) (m : Managers Sched Fib Cb)
    (hm : Free call m) (acts : List (Act ⊕ Other Sched Fib Cb)) (os : List Unit)
    (t : TimedWait Sched Fib Cb) (n : ℤ) (h : Along (stepBeside call) (Beside call) acts (start m))
    (hrun : run (stepBeside call) acts (start m) = .ok (os, t)) (hret : t.stage = .returned n) :
    t.Gone call := by
  have ht : t.Contained call := Along.ends (Contained call)
    (fun _ _ _ _ hs hb hstep => stepBeside_contained hs hb hstep) (start_contained hm) h hrun
  exact ht.gone hret

end

section Evaluation

instance Beside.decidable [DecidableEq Fib] (call : IOCall Sched Fib) (s : TimedWait Sched Fib Cb) :
    ∀ a, Decidable (s.Beside call a)
  | .inl _ => isTrue trivial
  | .inr (.timers op) =>
    have : Decidable (s.timers.Callable op) :=
      match op with
      | .addTimer _ _ _ _ addr => decidable_of_iff
          (s.timers.timers.all fun k => s.timers.heap[k]?.all fun x => x.addr != addr)
          (by simp [TimerManager.Callable, Option.all_eq_true])
      | .cancel h | .refresh h _ | .reset h _ _ _ =>
        inferInstanceAs (Decidable (h < s.timers.heap.length))
      | .getNextTimeout _ | .listExpiredCallbacks _ _ => isTrue trivial
    inferInstanceAs (Decidable (_ ∧ _))
  | .inr (.addEvent _ _ _ _ _) => inferInstanceAs (Decidable (_ ∧ _ ∧ _ ∧ _))
  | .inr (.delEvent _ _ _) => isTrue trivial

end Evaluation

/-- The read waits twice. Its first timer expires after the data came; another fiber waits
for the same descriptor and arms a timer of its own. -/
def waitsTwice : List (Act ⊕ Other Unit Unit Unit) :=
  [.inl (.attempt (-1) .eagain), .inl (.addTimer 0 0), .inl (.addEvent fun _ => true),
    .inr (.addEvent 5 .write (some ()) ⟨some (),(),.running⟩ fun _ => true), .inl .yield,
    .inl (.trigger (.entry 5 { epollin := true } fun _ => true)), .inl (.expire 10 1),
    .inl .resume, .inl .cancelTimer, .inl .check, .inl (.attempt (-1) .eagain),
    .inr (.timers (.addTimer 10 20 (some .other) false 2)), .inl (.addTimer 10 3),
    .inl (.addEvent fun _ => true), .inl .yield,
    .inl (.trigger (.entry 5 { epollin := true } fun _ => true)), .inl .resume,
    .inl .cancelTimer, .inl .check, .inl (.attempt 7 .other)]

theorem returned_leaves_nothing_twice :
    ∃ os t, run (stepBeside readFive) waitsTwice (start freshManagers) = .ok (os, t) ∧
      t.stage = .returned 7 ∧ t.Gone readFive := by
  have hfree : Free readFive freshManagers := by
    constructor
    · intro k x hx
      exact absurd hx.1 List.not_mem_nil
    · intro fd e sched
      rw [show freshManagers.iom = IOManager.new from rfl, new_registered]
      intro h
      cases h
  have hbeside : Along (stepBeside readFive) (Beside readFive) waitsTwice (start freshManagers) := by
    decide +kernel
  have hreturns : (match run (stepBeside readFive) waitsTwice (start freshManagers) with
      | .ok (_, t) => decide (t.stage = .returned 7)
      | .error _ => false) = true := by decide +kernel
  split at hreturns
  next os t hrun =>
    have hret := of_decide_eq_true hreturns
    refine ⟨os,t,hrun,hret,?_⟩
    exact returned_leaves_nothing readFive freshManagers hfree waitsTwice os t 7 hbeside hrun hret
  next => cases hreturns

end TimedWait

end Gudov
