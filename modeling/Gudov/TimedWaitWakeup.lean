import Gudov.TimedWait

/-!
# The wake-up of a timed wait

A suspended fiber whose event is registered is woken by the expiry callback, as long as
that callback finds `cancelled` unset. The callback sets it before it cancels the event, so
a callback that runs before `AddEvent` leaves a call that waits for nothing: it finds no
event to cancel, and no later callback will try.
-/
namespace Gudov

namespace TimerManager
variable {Cb : Type} {m m' : TimerManager Cb} {h k : ℕ} {x : Timer Cb} {ps : List ℕ}

/-- The loop leaves the timers of the set alone, and hands out the callback of every
pending one. -/
theorem expireLoop_keeps {now : UInt64} {callbacks : List (ℕ × Option Cb)} (hm : Kept m ps)
    (hloop : expireLoop now ps m = .ok (callbacks, m')) :
    (∀ k x, m.Has k x → m'.Has k x) ∧
      ∀ k x, k ∈ ps → m.heap[k]? = some x → (k, x.callback) ∈ callbacks := by
  have hspent := expireLoop_spends hm hloop
  constructor
  · intro k x hx
    have hk : k ∉ ps := List.disjoint_of_nodup_append hm.nodup hx.1
    exact ⟨(hspent.otherMem k hk).mpr hx.1,by rw [hspent.otherHeap k hk, hx.2]⟩
  · intro k x hk hx
    rw [← expireLoop_handsOut hloop] at hk
    obtain ⟨⟨k,c⟩,hc,rfl⟩ := List.mem_map.mp hk
    obtain ⟨t,ht,rfl⟩ := hspent.callback (k,c) hc
    rw [hx] at ht
    cases ht
    exact hc

/-- A timer of the set stays there, or its callback is handed out. -/
theorem listExpiredCallbacks_keeps {now : UInt64} {addr : ℕ} {callbacks : List (ℕ × Option Cb)}
    (hm : Kept m []) (hrun : m.listExpiredCallbacks now addr = .ok (callbacks, m'))
    (hx : m.Has k x) : m'.Has k x ∨ (k, x.callback) ∈ callbacks := by
  obtain ⟨-,-,rfl⟩ | ⟨-,⟨-,rfl⟩ | ⟨n,-,hloop⟩⟩ := listExpiredCallbacks_cases hrun
  · exact Or.inl hx
  · exact Or.inl hx
  · obtain ⟨hkeep,hgiven⟩ := expireLoop_keeps (hm.split now n) hloop
    rw [Has, ← List.take_append_drop n m.timers, List.mem_append] at hx
    obtain ⟨hk | hk,hget⟩ := hx
    · exact Or.inr (hgiven k x hk hget)
    · exact Or.inl (hkeep k x ⟨hk,hget⟩)

/-- `AddTimer` puts the new timer into the set. -/
theorem addTimer_has (now ms : UInt64) (callback : Option Cb) (recurring : Bool) {addr : ℕ}
    (hm : Kept m []) (hfresh : ∀ k ∈ m.timers, ∀ x, m.heap[k]? = some x → x.addr ≠ addr) :
    ∃ t : Timer Cb, t.callback = callback ∧ Kept (m.addTimer now ms callback recurring addr).2.2 [] ∧
      (m.addTimer now ms callback recurring addr).2.2.Has m.heap.length t := by
  let t : Timer Cb :=
    { recurring := recurring, ms := ms, next := now + ms, callback := callback, addr := addr }
  have hm₁ : Kept { m with heap := m.heap ++ [t] } [m.heap.length] := hm.allocate hfresh
  have hmem : m.heap.length ∈ (insert m.heap.length { m with heap := m.heap ++ [t] }).timers := by
    simpa using hm₁.put_back.2.mem_iff (a := m.heap.length)
  have hheap : (addTimerLocked m.heap.length { m with heap := m.heap ++ [t] }).2.heap =
      m.heap ++ [t] := addTimerLocked_heap
  refine ⟨t,rfl,addTimerLocked_kept hm₁,?_,?_⟩
  · simp only [addTimer, addTimerLocked]
    split <;> exact hmem
  · rw [addTimer, hheap, List.getElem?_concat_length]

end TimerManager

namespace IOManager
variable {Sched Fib Cb : Type} {m m' : IOManager Sched Fib Cb} {fd p : ℕ} {event : Event}

/-- What is registered stays so, or is among the tasks handed over. -/
def Releases (m m' : IOManager Sched Fib Cb) (handed : List (Handover Sched Fib Cb)) : Prop :=
  ∀ fd e w, m.registered fd e = some w → m'.registered fd e = some w ∨ w ∈ select fd e handed

theorem cancelEvent_releases {ctl : EpollRequest → Bool} {ok : Bool}
    {handed : List (Handover Sched Fib Cb)} (hm : Accounted m)
    (hrun : m.cancelEvent fd event ctl = .ok (ok, handed, m')) :
    Accounted m' ∧ m'.heap.length = m.heap.length ∧ Releases m m' handed := by
  obtain ⟨ok',handed',m'',hrun',hm',hlen,hans⟩ := cancelEvent_spec fd event ctl hm
  rw [hrun] at hrun'
  cases hrun'
  refine ⟨hm',hlen,?_⟩
  intro k e w hw
  obtain ⟨hhanded,hnext⟩ := hans k e
  simp only [Seen.handed] at hhanded
  rw [hhanded, hnext, hw]
  cases ok with
  | false => exact Or.inl rfl
  | true => by_cases hke : k = fd ∧ e = event <;> simp [next, due, hke]

theorem cancelAll_releases {ctl : EpollRequest → Bool} {ok : Bool}
    {handed : List (Handover Sched Fib Cb)} (hm : Accounted m)
    (hrun : m.cancelAll fd ctl = .ok (ok, handed, m')) :
    Accounted m' ∧ m'.heap.length = m.heap.length ∧ Releases m m' handed := by
  obtain ⟨ok',handed',m'',hrun',hm',hlen,hans⟩ := cancelAll_spec fd ctl hm
  rw [hrun] at hrun'
  cases hrun'
  refine ⟨hm',hlen,?_⟩
  intro k e w hw
  obtain ⟨hhanded,hnext⟩ := hans k e
  simp only [Seen.handed] at hhanded
  rw [hhanded, hnext, hw]
  cases ok with
  | false => exact Or.inl rfl
  | true => by_cases hk : k = fd <;> simp [next, due, hk]

theorem handleEntry_releases {r : Reported} {ctl : EpollRequest → Bool}
    {handed : List (Handover Sched Fib Cb)} (hm : Accounted m)
    (hrun : m.handleEntry p r ctl = .ok (handed, m')) :
    Accounted m' ∧ m'.heap.length = m.heap.length ∧ Releases m m' handed := by
  have hsame : Accounted m ∧ m.heap.length = m.heap.length ∧
      Releases m m ([] : List (Handover Sched Fib Cb)) := ⟨hm,rfl,fun _ _ _ hw => Or.inl hw⟩
  obtain ⟨c,hderef,hrun⟩ := exists_of_bind_eq_ok hrun
  have hc : m.heap[p]? = some c := by
    unfold deref at hderef
    split at hderef
    · cases hderef
    next c' hc' =>
      cases hderef
      exact hc'
  dsimp only at hrun
  split at hrun
  · cases hrun
    exact hsame
  · split at hrun
    · cases hrun
      exact hsame
    · by_cases hsub : ∀ e, (realEvents r c.events).has e = true → c.events.has e = true
      · obtain ⟨n,htrig,hn,hset⟩ := triggers_spec m.pending (hm.settled p c hc) hsub
        rw [← bind_assoc, bind_ok htrig] at hrun
        cases hrun
        have hm' := hm.update hc hset rfl hn
        refine ⟨hm',write_length _ _,?_⟩
        intro k e w hw
        rw [hm.registered_dropMany hm' hc, select_handovers, hm.fd_eq p c hc]
        by_cases hke : k = p ∧ (realEvents r c.events).has e = true
        · right
          rw [hke.1, hm.registered_at hc] at hw
          rw [if_pos hke, hw]
          simp
        · left
          rw [if_neg hke]
          exact hw
      · rw [← bind_assoc, Idling.triggers_fail m.pending (hm.settled p c hc) hsub] at hrun
        cases hrun

/-- `AddEvent` registers what it was called for, and nothing else; a call that returns
was made for a free event. -/
theorem addEvent_registers {ctl : EpollRequest → Bool} {callback : Option Cb}
    {caller : Caller Sched Fib} {ok : Bool} (hm : Accounted m) (hmin : 32 ≤ m.heap.length)
    (hfd : fd < 2 ^ 31) (hs : caller.scheduler.isSome = true) (hf : caller.fiberState = .running)
    (hrun : m.addEvent fd event callback caller ctl = .ok (ok, m')) :
    Accounted m' ∧ 32 ≤ m'.heap.length ∧ ∀ k e, m'.registered k e =
      if ok = true ∧ k = fd ∧ e = event then Caller.work callback caller
      else m.registered k e := by
  obtain ⟨⟨p,m₁⟩,hres,hreg⟩ := exists_of_bind_eq_ok hrun
  rcases reserve_spec hm hmin hfd with ⟨m₂,hres',hm₂,hlen,_,hlt,hsame⟩ | ⟨hover,-⟩
  · rw [hres] at hres'
    cases hres'
    have hc := List.getElem?_eq_getElem hlt
    change m₁.register fd fd event callback caller ctl = _ at hreg
    cases he : m₁.heap[fd].events.has event with
    | true =>
      simp only [register, deref_eq hc, bind, Except.bind, he, if_true] at hreg
      cases hreg
    | false =>
      obtain ⟨ok',m'',hreg',hm',hlen',hnext⟩ :
          ∃ ok' m'', m₁.register fd fd event callback caller ctl = .ok (ok', m'') ∧
            Accounted m'' ∧ m''.heap.length = m₁.heap.length ∧ ∀ fd' e, m''.registered fd' e =
              if ok' = true ∧ fd' = fd ∧ e = event then Caller.work callback caller
              else m₁.registered fd' e := register_spec fd ctl hm₂ hc he hs hf
      rw [hreg] at hreg'
      cases hreg'
      refine ⟨hm',by omega,?_⟩
      intro k e
      rw [hnext, registered_contextOf k e m₁, registered_contextOf k e m, hsame k]
  · rw [hres] at hover
    cases hover

/-- A registered event that `epoll_ctl` lets go is handed over. -/
theorem cancelEvent_hands {ctl : EpollRequest → Bool} {ok : Bool} {w : Sched × Work Fib Cb}
    {handed : List (Handover Sched Fib Cb)} (hm : Accounted m)
    (hctl : ∀ c, m.heap[fd]? = some c → ctl (leave fd fd (c.events.clear event)) = true)
    (hw : m.registered fd event = some w)
    (hrun : m.cancelEvent fd event ctl = .ok (ok, handed, m')) : w ∈ select fd event handed := by
  rw [hm.registered_eq] at hw
  obtain ⟨c,hc,hwork⟩ := Option.bind_eq_some_iff.mp hw
  have he : c.events.has event = true := by
    by_contra hnot
    rw [(hm.settled fd c hc).empty event (by simpa using hnot)] at hwork
    cases hwork
  obtain ⟨w',hw',htrig⟩ := FdContext.triggerEvent_spec (hm.settled fd c hc) he
  rw [hwork] at hw'
  cases hw'
  rw [cancelEvent_eq ctl hm hc, he, hctl c hc, Bool.and_self, if_pos rfl, bind_ok htrig] at hrun
  cases hrun
  rw [hm.fd_eq fd c hc, select_singleton]
  simp

end IOManager

/-- The timer of the call, from `AddConditionTimer` until the fiber is resumed. -/
def Stage.timer : Stage → Option (Option ℕ)
  | .timed timer | .registered timer | .suspended timer => some timer
  | _ => none

/-- The event of the call is registered, unless it was triggered. -/
def Stage.isRegistered : Stage → Bool
  | .registered _ | .suspended _ => true
  | _ => false

namespace TimedWait
open IOManager StepSystem
variable {Sched Fib Cb : Type} {call : IOCall Sched Fib} {s t : TimedWait Sched Fib Cb}

/-- The fiber in the register of its event. -/
def Registered (call : IOCall Sched Fib) (s : TimedWait Sched Fib Cb) : Prop :=
  s.iom.registered call.fd call.event = some (call.scheduler, .fiber call.fiber)

/-- The timer of the call is armed, or its callback is queued. -/
def Pending (s : TimedWait Sched Fib Cb) (timer : Option ℕ) : Prop :=
  ∃ h, timer = some h ∧
    ((∃ x, s.timers.Has h x ∧ x.callback = some .expiry) ∨ h ∈ s.queued)

structure Attended (call : IOCall Sched Fib) (s : TimedWait Sched Fib Cb) : Prop where
  accounted : Accounted s.iom
  size_ge : 32 ≤ s.iom.heap.length
  kept : TimerManager.Kept s.timers []
  timed : ∀ timer, s.stage.timer = some timer → s.cancelled = false → s.Pending timer
  registered : s.stage.isRegistered = true → s.handed = false → s.Registered call
  cancels : ∀ timer, s.stage = .suspended timer → s.cancelled = true →
    s.cancelling ≠ [] ∨ s.handed = true

theorem Attended.hasWakeSource (hs : s.Attended call) : s.HasWakeSource := by
  intro timer hplace
  cases hc : s.cancelled with
  | true => exact Or.inr (hs.cancels timer hplace hc)
  | false =>
    obtain ⟨h,rfl,hpending⟩ := hs.timed timer (by rw [hplace]; rfl) hc
    refine Or.inl ⟨h,rfl,hpending.imp ?_ id⟩
    rintro ⟨x,hx,hcb⟩
    exact ⟨hx.1,x,hx.2,by rw [hcb]; rfl⟩

/-- The call is at a stage where it needs neither its timer nor its event. -/
theorem Attended.leave (hs : s.Attended call) (hiom : t.iom = s.iom)
    (hkept : TimerManager.Kept t.timers []) (htimer : t.stage.timer = none) :
    t.Attended call where
  accounted := hiom ▸ hs.accounted
  size_ge := hiom ▸ hs.size_ge
  kept := hkept
  timed timer h := by
    rw [htimer] at h
    cases h
  registered h := by
    cases hp : t.stage <;> simp [hp, Stage.isRegistered, Stage.timer] at h htimer
  cancels timer h := by
    rw [h] at htimer
    cases htimer

theorem Attended.callback (hs : s.Attended call) (k : ℕ) : (s.callback k).Attended call := by
  unfold TimedWait.callback
  split
  next hk =>
    dsimp only
    split
    next hstop =>
      refine ⟨hs.accounted,hs.size_ge,hs.kept,?_,hs.registered,hs.cancels⟩
      intro timer htimer hc
      -- a callback of a call that has returned; otherwise `cancelled` would be set
      have hc : s.cancelled = false := hc
      simp only [hc, Bool.or_false, Bool.not_eq_true'] at hstop
      cases hp : s.stage <;> simp [hp, Stage.timer, Stage.alive] at htimer hstop
    · refine ⟨hs.accounted,hs.size_ge,hs.kept,?_,hs.registered,?_⟩
      · intro timer _ hc
        cases hc
      · intro timer _ _
        left
        simp
  · exact hs

theorem Attended.expire (hs : s.Attended call) {now : UInt64} {addr : ℕ}
    (h : s.expire now addr = .ok t) : t.Attended call := by
  obtain ⟨⟨callbacks,timers⟩,hrun,h⟩ := exists_of_bind_eq_ok h
  cases h
  obtain ⟨callbacks',timers',hrun',hkept⟩ :=
    TimerManager.listExpiredCallbacks_kept now addr hs.kept
  rw [hrun] at hrun'
  cases hrun'
  refine ⟨hs.accounted,hs.size_ge,hkept,?_,hs.registered,hs.cancels⟩
  intro timer htimer hc
  obtain ⟨k,rfl,⟨x,hx,hcb⟩ | hqueued⟩ := hs.timed timer htimer hc
  · refine ⟨k,rfl,?_⟩
    rcases TimerManager.listExpiredCallbacks_keeps hs.kept hrun hx with hx | hgiven
    · exact Or.inl ⟨x,hx,hcb⟩
    · right
      refine List.mem_append_right _ (List.mem_map.mpr ⟨_,List.mem_filter.mpr ⟨hgiven,?_⟩,rfl⟩)
      simp [hcb]
  · exact ⟨k,rfl,Or.inr (List.mem_append_left _ hqueued)⟩

theorem Attended.addTimer (hs : s.Attended call) (htimeout : call.timeout ≠ ~~~0) {now : UInt64}
    {addr : ℕ} (hfresh : isFresh addr s.timers = true) : (s.addTimer call now addr).Attended call := by
  have hfree : ∀ k ∈ s.timers.timers, ∀ x, s.timers.heap[k]? = some x → x.addr ≠ addr := by
    intro k hk x hx
    have hall := List.all_eq_true.mp hfresh k hk
    rw [hx] at hall
    simpa using hall
  obtain ⟨x,hcb,hkept,hhas⟩ := TimerManager.addTimer_has now call.timeout
    (some TimerCallback.expiry) false hs.kept hfree
  rw [TimedWait.addTimer, if_pos htimeout]
  refine ⟨hs.accounted,hs.size_ge,hkept,?_,nofun,nofun⟩
  rintro timer ⟨⟩ _
  exact ⟨_,rfl,Or.inl ⟨x,hhas,hcb⟩⟩

theorem Attended.addEvent (hs : s.Attended call) {timer : Option ℕ} {ctl : EpollRequest → Bool}
    (hp : s.stage = .timed timer) (h : s.addEvent call timer ctl = .ok t) : t.Attended call := by
  obtain ⟨⟨ok,iom⟩,hrun,h⟩ := exists_of_bind_eq_ok h
  cases h
  obtain ⟨hiom,hmin,hreg⟩ := addEvent_registers hs.accounted hs.size_ge call.fd_lt rfl rfl hrun
  cases ok with
  | true =>
    refine ⟨hiom,hmin,hs.kept,?_,?_,nofun⟩
    · rintro timer' ⟨⟩ hc
      exact hs.timed timer (by rw [hp]; rfl) hc
    · intro _ _
      rw [Registered, hreg, if_pos ⟨rfl,rfl,rfl⟩]
      rfl
  | false => exact ⟨hiom,hmin,hs.kept,nofun,nofun,nofun⟩

theorem Attended.cancelTimer (hs : s.Attended call) {timer : Option ℕ} {stage : Stage}
    (htimer : stage.timer = none) (h : s.cancelTimer timer stage = .ok t) : t.Attended call := by
  unfold TimedWait.cancelTimer at h
  split at h
  · cases h
    exact hs.leave rfl hs.kept htimer
  next k =>
    obtain ⟨⟨ok,timers⟩,hrun,h⟩ := exists_of_bind_eq_ok h
    cases h
    obtain ⟨x,hd,-⟩ := exists_of_bind_eq_ok hrun
    obtain ⟨ok',timers',hrun',hkept⟩ :=
      TimerManager.cancel_kept hs.kept (TimerManager.deref_eq_ok hd)
    rw [hrun] at hrun'
    cases hrun'
    exact hs.leave rfl hkept htimer

theorem start_attended (m : Managers Sched Fib Cb) : (start m).Attended call where
  accounted := m.accounted
  size_ge := m.size_ge
  kept := m.kept
  timed := nofun
  registered := nofun
  cancels := nofun

section
variable [DecidableEq Fib]

theorem isHanded_of_mem {fd : ℕ} {e : Event} {sched : Sched} {f : Fib}
    {handed : List (Handover Sched Fib Cb)} (h : (sched, .fiber f) ∈ select fd e handed) :
    isHanded f handed = true := by
  obtain ⟨x,hx,heq⟩ := List.mem_map.mp h
  refine List.any_eq_true.mpr ⟨x,(List.mem_filter.mp hx).1,?_⟩
  rw [(Prod.mk.inj heq).2]
  simp

theorem Attended.triggered (hs : s.Attended call) {iom : IOManager Sched Fib Cb}
    {handed : List (Handover Sched Fib Cb)} (hiom : Accounted iom)
    (hlen : iom.heap.length = s.iom.heap.length) (hrel : Releases s.iom iom handed) :
    ({ s with iom := iom }.hand call.fiber handed).Attended call where
  accounted := hiom
  size_ge := hlen ▸ hs.size_ge
  kept := hs.kept
  timed := hs.timed
  registered hp hnot := by
    simp only [hand, Bool.or_eq_false_iff] at hnot
    rcases hrel _ _ _ (hs.registered hp hnot.1) with hreg | hmem
    · exact hreg
    · rw [isHanded_of_mem hmem] at hnot
      cases hnot.2
  cancels timer hp hc := by
    rcases hs.cancels timer hp hc with h | h
    · exact Or.inl h
    · right
      simp only [hand, h, Bool.true_or]

theorem Attended.trigger (hs : s.Attended call) {g : Trigger} (h : s.trigger call g = .ok t) :
    t.Attended call := by
  cases g with
  | cancelEvent fd event ctl =>
    obtain ⟨⟨ok,handed,iom⟩,hrun,h⟩ := exists_of_bind_eq_ok h
    cases h
    obtain ⟨hiom,hlen,hrel⟩ := cancelEvent_releases hs.accounted hrun
    exact hs.triggered hiom hlen hrel
  | cancelAll fd ctl =>
    obtain ⟨⟨ok,handed,iom⟩,hrun,h⟩ := exists_of_bind_eq_ok h
    cases h
    obtain ⟨hiom,hlen,hrel⟩ := cancelAll_releases hs.accounted hrun
    exact hs.triggered hiom hlen hrel
  | entry p r ctl =>
    obtain ⟨⟨handed,iom⟩,hrun,h⟩ := exists_of_bind_eq_ok h
    cases h
    obtain ⟨hiom,hlen,hrel⟩ := handleEntry_releases hs.accounted hrun
    exact hs.triggered hiom hlen hrel

theorem Attended.cancelEvent (hs : s.Attended call) {k : ℕ} {ctl : EpollRequest → Bool}
    (hctl : s.Meets call (.cancelEvent k ctl)) (h : s.cancelEvent call k ctl = .ok t) :
    t.Attended call := by
  unfold TimedWait.cancelEvent at h
  split at h
  next hk =>
    obtain ⟨⟨ok,handed,iom⟩,hrun,h⟩ := exists_of_bind_eq_ok h
    cases h
    obtain ⟨hiom,hlen,hrel⟩ := cancelEvent_releases hs.accounted hrun
    have htrig := hs.triggered hiom hlen hrel
    refine ⟨hiom,htrig.size_ge,hs.kept,htrig.timed,htrig.registered,?_⟩
    -- the callback has done its work: the event was there, or the fiber is on its way
    intro timer hp _
    right
    cases hh : s.handed with
    | true => simp only [hand, Bool.true_or]
    | false =>
      have hp : s.stage = .suspended timer := hp
      have hreg := hs.registered (by rw [hp]; rfl) hh
      have hmem := cancelEvent_hands hs.accounted (hctl hk) hreg hrun
      simp only [hand, isHanded_of_mem hmem, Bool.or_true]
  · cases h
    exact hs

theorem act_attended (htimeout : call.timeout ≠ ~~~0) {a : Act} (hs : s.Attended call)
    (hmeets : s.Meets call a) (h : s.act call a = .ok t) : t.Attended call := by
  unfold act at h
  split at h
  next n errno hp =>
    cases h
    refine hs.leave rfl hs.kept ?_
    simp only [attempted]
    split
    · rfl
    · split <;> rfl
  next now addr hp =>
    cases h
    split
    next hfresh => exact hs.addTimer htimeout hfresh
    · exact hs
  next ctl timer hp => exact hs.addEvent hp h
  next timer hp =>
    cases h
    refine ⟨hs.accounted,hs.size_ge,hs.kept,?_,?_,fun _ _ => hmeets ⟨timer,hp⟩⟩
    · rintro timer' ⟨⟩
      exact hs.timed timer (by rw [hp]; rfl)
    · exact fun _ => hs.registered (by rw [hp]; rfl)
  next timer hp =>
    cases h
    split
    · exact hs.leave rfl hs.kept rfl
    · exact hs
  next timer hp => exact hs.cancelTimer rfl h
  next timer hp => exact hs.cancelTimer rfl h
  next hp =>
    cases h
    refine hs.leave rfl hs.kept ?_
    dsimp only
    split <;> rfl
  next now addr => exact hs.expire h
  next k =>
    cases h
    exact hs.callback k
  next k ctl => exact hs.cancelEvent hmeets h
  next g => exact hs.trigger h
  · cases h
    exact hs

theorem step_attended (htimeout : call.timeout ≠ ~~~0) {a : Act} {o : Unit} (hs : s.Attended call)
    (hmeets : s.Meets call a) (h : s.step call a = .ok (o, t)) : t.Attended call := by
  obtain ⟨t',hact,ht⟩ := exists_of_bind_eq_ok h
  cases ht
  exact act_attended htimeout hs hmeets hact

/-- For every call with a timeout and every interleaving in which the fiber does not yield
on a wait that is already cancelled and `epoll_ctl` does not refuse the callback: whenever
the fiber is suspended, there is something left to wake it. -/
theorem suspended_has_wake_source (call : IOCall Sched Fib) (htimeout : call.timeout ≠ ~~~0)
    (m : Managers Sched Fib Cb) (acts : List Act) (os : List Unit) (t : TimedWait Sched Fib Cb)
    (h : Along (step call) (Meets call) acts (start m))
    (hrun : run (step call) acts (start m) = .ok (os, t)) : t.HasWakeSource := by
  have ht : t.Attended call := Along.ends (Attended call)
    (fun _ _ _ _ hs hm hstep => step_attended htimeout hs hm hstep) (start_attended m) h hrun
  exact ht.hasWakeSource

end

section Evaluation

instance HasWakeSource.decidable (s : TimedWait Sched Fib Cb) : Decidable s.HasWakeSource :=
  match hp : s.stage with
  | .suspended timer =>
    decidable_of_iff ((timer.any fun h => (s.timers.timers.contains h &&
        s.timers.heap[h]?.any fun t => t.callback.isSome) || s.queued.contains h) = true ∨
      s.cancelling ≠ [] ∨ s.handed = true) (by
        cases timer <;> simp [HasWakeSource, hp, TimerManager.Armed, Option.any_eq_true])
  | .retry | .waits | .timed _ | .refused _ | .registered _ | .resumed _ | .checks | .returned _ =>
    isTrue (by simp [HasWakeSource, hp])

instance Meets.decidable (call : IOCall Sched Fib) (s : TimedWait Sched Fib Cb) :
    ∀ a, Decidable (s.Meets call a)
  | .yield =>
    match hp : s.stage with
    | .registered _ => decidable_of_iff (s.cancelled = true → s.cancelling ≠ [] ∨ s.handed = true)
        (by simp [Meets, hp])
    | .retry | .waits | .timed _ | .refused _ | .suspended _ | .resumed _ | .checks
    | .returned _ => isTrue (by simp [Meets, hp])
  | .cancelEvent h ctl => inferInstanceAs (Decidable (h ∈ s.cancelling → ∀ c,
      s.iom.heap[call.fd]? = some c →
        ctl (leave call.fd call.fd (c.events.clear call.event)) = true))
  | .attempt _ _ | .addTimer _ _ | .addEvent _ | .resume | .cancelTimer | .check | .expire _ _
  | .callback _ | .trigger _ => isTrue trivial

end Evaluation

/-- Managers that nobody has used. -/
def freshManagers : Managers Unit Unit Unit where
  iom := IOManager.new
  timers := TimerManager.new 0
  accounted := new_accounted.1
  size_ge := new_accounted.2.1.ge
  kept := TimerManager.new_kept 0

/-- A read on descriptor 5 with a timeout of 10 ms. -/
def readFive : IOCall Unit Unit where
  fd := 5
  event := .read
  timeout := 10
  scheduler := ()
  fiber := ()
  fd_lt := by decide

/-- The timer expires while the fiber is suspended, and its callback is half way. -/
def expiresLate : List Act :=
  [.attempt (-1) .eagain, .addTimer 0 0, .addEvent fun _ => true, .yield, .expire 10 1, .callback 0]

theorem suspended_has_wake_source_late :
    ∃ os t, run (step readFive) expiresLate (start freshManagers) = .ok (os, t) ∧
      t.stage = .suspended (some 0) ∧ t.HasWakeSource := by
  have hmeets : Along (step readFive) (Meets readFive) expiresLate (start freshManagers) := by
    decide +kernel
  have hreturns : (match run (step readFive) expiresLate (start freshManagers) with
      | .ok (_, t) => decide (t.stage = .suspended (some 0))
      | .error _ => false) = true := by decide +kernel
  split at hreturns
  next os t hrun =>
    refine ⟨os,t,hrun,of_decide_eq_true hreturns,?_⟩
    exact suspended_has_wake_source readFive (by decide) freshManagers expiresLate os t hmeets hrun
  next => cases hreturns

/-- The timer expires between `AddConditionTimer` and `AddEvent`, and its callback finds no
event to cancel. -/
def expiresEarly : List Act :=
  [.attempt (-1) .eagain, .addTimer 0 0, .expire 10 1, .callback 0, .cancelEvent 0 fun _ => true,
    .addEvent fun _ => true, .yield]

theorem wake_source_lost :
    ¬ ∀ acts os t, run (step readFive) acts (start freshManagers) = .ok (os, t) →
      t.HasWakeSource := by
  intro h
  have hlost : (match run (step readFive) expiresEarly (start freshManagers) with
      | .ok (_, t) => decide t.HasWakeSource
      | .error _ => true) = false := by decide +kernel
  split at hlost
  next os t hrun =>
    rw [decide_eq_true (h expiresEarly os t hrun)] at hlost
    cases hlost
  next => cases hlost

end TimedWait

end Gudov
