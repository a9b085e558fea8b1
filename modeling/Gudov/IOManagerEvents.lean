import Gudov.IOManagerInvariant

/-!
# The life of a registered event

For one descriptor and one event the manager is a register that is empty or
holds a scheduler with a fiber or callback. A successful `AddEvent` fills it,
`DelEvent` empties it, and a cancel hands its content to the scheduler and
empties it. The calls follow this machine for all descriptors at once, whatever
`epoll_ctl` answers.
-/
namespace Gudov.IOManager
variable {Sched Fib Cb : Type} {m m' : IOManager Sched Fib Cb} {c c' : FdContext Sched Fib Cb}
  {p fd : ℕ} {event : Event}

/-- A call with the answers `epoll_ctl` gives during it. -/
inductive Op (Sched Fib Cb : Type)
  | addEvent (fd : ℕ) (event : Event) (callback : Option Cb) (caller : Caller Sched Fib)
      (ctl : EpollRequest → Bool)
  | delEvent (fd : ℕ) (event : Event) (ctl : EpollRequest → Bool)
  | cancelEvent (fd : ℕ) (event : Event) (ctl : EpollRequest → Bool)
  | cancelAll (fd : ℕ) (ctl : EpollRequest → Bool)

/-- The answer of a call and the tasks it gave to schedulers. -/
inductive Seen (Sched Fib Cb : Type)
  | added (ok : Bool)
  | deleted (ok : Bool)
  | cancelled (ok : Bool) (handed : List (Handover Sched Fib Cb))
  | cancelledAll (ok : Bool) (handed : List (Handover Sched Fib Cb))
deriving Repr, DecidableEq

def step (m : IOManager Sched Fib Cb) :
    Op Sched Fib Cb → Except Fault (Seen Sched Fib Cb × IOManager Sched Fib Cb)
  | .addEvent fd event callback caller ctl => do
    let (ok, m) ← m.addEvent fd event callback caller ctl
    .ok (.added ok, m)
  | .delEvent fd event ctl => do
    let (ok, m) ← m.delEvent fd event ctl
    .ok (.deleted ok, m)
  | .cancelEvent fd event ctl => do
    let (ok, handed, m) ← m.cancelEvent fd event ctl
    .ok (.cancelled ok handed, m)
  | .cancelAll fd ctl => do
    let (ok, handed, m) ← m.cancelAll fd ctl
    .ok (.cancelledAll ok handed, m)

/-- Descriptors are non-negative ints. `AddEvent` is called for an event that is
not registered, by a thread with a scheduler whose running fiber is running. -/
def Admissible (m : IOManager Sched Fib Cb) : Op Sched Fib Cb → Prop
  | .addEvent fd event _ caller _ => fd < 2 ^ 31 ∧ caller.scheduler.isSome = true ∧
      caller.fiberState = .running ∧ ∀ c, m.context fd = some c → c.events.has event = false
  | .delEvent fd _ _ => fd < 2 ^ 31
  | .cancelEvent fd _ _ => fd < 2 ^ 31
  | .cancelAll fd _ => fd < 2 ^ 31

/-- The content of the register of an event. -/
def registered (fd : ℕ) (e : Event) (m : IOManager Sched Fib Cb) :
    Option (Sched × Work Fib Cb) :=
  (m.context fd).bind fun c => (c.getContext e).work

/-- What `AddEvent` registers. -/
def Caller.work (callback : Option Cb) (caller : Caller Sched Fib) :
    Option (Sched × Work Fib Cb) :=
  caller.scheduler.map fun s =>
    (s, match callback with
      | some cb => .callback cb
      | none => .fiber caller.fiber)

/-- The register after a call with its answer. -/
def next (fd : ℕ) (e : Event) (reg : Option (Sched × Work Fib Cb)) :
    Op Sched Fib Cb → Seen Sched Fib Cb → Option (Sched × Work Fib Cb)
  | .addEvent fd' e' callback caller _, .added true =>
    if fd = fd' ∧ e = e' then Caller.work callback caller else reg
  | .delEvent fd' e' _, .deleted true => if fd = fd' ∧ e = e' then none else reg
  | .cancelEvent fd' e' _, .cancelled true _ => if fd = fd' ∧ e = e' then none else reg
  | .cancelAll fd' _, .cancelledAll true _ => if fd = fd' then none else reg
  | _, _ => reg

/-- What a call has to hand over for an event, by the register before it. -/
def due (fd : ℕ) (e : Event) (reg : Option (Sched × Work Fib Cb)) :
    Op Sched Fib Cb → Seen Sched Fib Cb → List (Sched × Work Fib Cb)
  | .cancelEvent fd' e' _, .cancelled true _ => if fd = fd' ∧ e = e' then reg.toList else []
  | .cancelAll fd' _, .cancelledAll true _ => if fd = fd' then reg.toList else []
  | _, _ => []

/-- The tasks of a list that come from one event. -/
def select (fd : ℕ) (e : Event) (l : List (Handover Sched Fib Cb)) :
    List (Sched × Work Fib Cb) :=
  (l.filter fun h => h.fd == fd && h.event == e).map fun h => (h.scheduler, h.work)

/-- What a call handed over for an event. -/
def Seen.handed (fd : ℕ) (e : Event) : Seen Sched Fib Cb → List (Sched × Work Fib Cb)
  | .cancelled _ l => select fd e l
  | .cancelledAll _ l => select fd e l
  | _ => []

/-- Calls and answers follow the register of an event. -/
def Follows (fd : ℕ) (e : Event) : Option (Sched × Work Fib Cb) →
    List (Op Sched Fib Cb × Seen Sched Fib Cb) → Option (Sched × Work Fib Cb) → Prop
  | reg, [], final => final = reg
  | reg, (op, o) :: rest, final =>
    o.handed fd e = due fd e reg op o ∧ Follows fd e (next fd e reg op o) rest final

/-- One call acts as one step of every register. -/
def Answers (m : IOManager Sched Fib Cb) (op : Op Sched Fib Cb) (o : Seen Sched Fib Cb)
    (m' : IOManager Sched Fib Cb) : Prop :=
  ∀ fd e, o.handed fd e = due fd e (m.registered fd e) op o ∧
    m'.registered fd e = next fd e (m.registered fd e) op o

theorem deref_eq (hc : m.heap[p]? = some c) : m.deref p = .ok c := by
  simp only [deref, hc]

theorem Accounted.registered_eq (hm : Accounted m) (fd : ℕ) (e : Event) :
    m.registered fd e = m.heap[fd]?.bind fun c => (c.getContext e).work := by
  rw [registered, hm.context_eq]

/-- The registers after one context was replaced. -/
theorem Accounted.registered_write {pending : UInt64} (hm : Accounted m)
    (hm' : Accounted ({ m with pending := pending }.write p c')) (hc : m.heap[p]? = some c)
    (fd : ℕ) (e : Event) :
    ({ m with pending := pending }.write p c').registered fd e =
      if fd = p then (c'.getContext e).work else m.registered fd e := by
  obtain ⟨hlt,_⟩ := List.getElem?_eq_some_iff.mp hc
  rw [hm'.registered_eq, hm.registered_eq]
  by_cases hfd : fd = p
  · subst hfd
    simp [write, hlt]
  · simp [write, hfd, List.getElem?_set_ne (Ne.symm hfd)]

theorem Accounted.registered_at (hm : Accounted m) (hc : m.heap[p]? = some c) (e : Event) :
    m.registered p e = (c.getContext e).work := by
  rw [hm.registered_eq, hc]
  rfl

theorem work_empty : ({} : EventContext Sched Fib Cb).work = none := rfl

@[simp] theorem select_nil (fd : ℕ) (e : Event) :
    select fd e ([] : List (Handover Sched Fib Cb)) = [] := rfl

theorem select_singleton (fd p : ℕ) (e event : Event) (w : Sched × Work Fib Cb) :
    select fd e [⟨p,event,w.1,w.2⟩] = if fd = p ∧ e = event then [w] else [] := by
  by_cases h : fd = p ∧ e = event
  · obtain ⟨rfl,rfl⟩ := h
    simp [select]
  · have hne : (p == fd && event == e) = false := by
      simp only [Bool.and_eq_false_iff, beq_eq_false_iff_ne]
      by_contra hcon
      push Not at hcon
      exact h ⟨hcon.1.symm,hcon.2.symm⟩
    simp [select, h, hne]

/-- The counter pays for one bit less. -/
theorem sub_add_count (n : UInt64) (he : c.events.has event = true) :
    n - 1 + UInt64.ofNat c.events.count = n + UInt64.ofNat (c.drop event).events.count := by
  rw [FdContext.drop_events, ← FdContext.count_clear he, UInt64.ofNat_add]
  have hone : UInt64.ofNat 1 = 1 := rfl
  rw [hone, UInt64.add_comm _ 1, ← UInt64.add_assoc, UInt64.sub_add_cancel]

/-- Dropping one registered event. -/
theorem Accounted.drop (hm : Accounted m) (hc : m.heap[p]? = some c)
    (he : c.events.has event = true) :
    Accounted ({ m with pending := m.pending - 1 }.write p (c.drop event)) :=
  hm.update hc ((hm.settled p c hc).drop event) (c.drop_fd event) (sub_add_count m.pending he)

theorem Accounted.registered_drop (hm : Accounted m) (hc : m.heap[p]? = some c)
    (he : c.events.has event = true) (fd : ℕ) (e : Event) :
    ({ m with pending := m.pending - 1 }.write p (c.drop event)).registered fd e =
      if fd = p ∧ e = event then none else m.registered fd e := by
  rw [hm.registered_write (hm.drop hc he) hc, FdContext.getContext_drop]
  by_cases hfd : fd = p
  · subst hfd
    rw [if_pos rfl, hm.registered_at hc]
    by_cases hev : e = event <;> simp [hev, work_empty]
  · simp [hfd]

theorem write_length (pending : UInt64) (c' : FdContext Sched Fib Cb) :
    ({ m with pending := pending }.write p c').heap.length = m.heap.length := by
  simp [write]

theorem Accounted.lookup_some (hm : Accounted m) (hc : m.heap[fd]? = some c) :
    m.lookup fd = .ok (some fd) := by
  rw [hm.lookup_eq, if_pos (List.getElem?_eq_some_iff.mp hc).1]

theorem Accounted.lookup_none (hm : Accounted m) (hc : m.heap[fd]? = none) :
    m.lookup fd = .ok none := by
  rw [hm.lookup_eq, if_neg (by simpa using hc)]

theorem delEvent_eq (ctl : EpollRequest → Bool) (hm : Accounted m)
    (hc : m.heap[fd]? = some c) :
    m.delEvent fd event ctl =
      if c.events.has event && ctl (leave fd fd (c.events.clear event)) then
        .ok (true, { m with pending := m.pending - 1 }.write fd (c.drop event))
      else .ok (false, m) := by
  rw [delEvent, bind_ok (hm.lookup_some hc)]
  dsimp only
  rw [bind_ok (deref_eq hc)]
  cases c.events.has event <;> cases ctl (leave fd fd (c.events.clear event)) <;> rfl

theorem delEvent_spec (fd : ℕ) (event : Event) (ctl : EpollRequest → Bool) (hm : Accounted m) :
    ∃ ok m', m.delEvent fd event ctl = .ok (ok, m') ∧ Accounted m' ∧
      m'.heap.length = m.heap.length ∧
      Answers m (.delEvent fd event ctl) (.deleted ok) m' := by
  have hsame : Answers m (.delEvent fd event ctl) (.deleted false) m := fun _ _ => ⟨rfl,rfl⟩
  cases hc : m.heap[fd]? with
  | none =>
    refine ⟨false,m,?_,hm,rfl,hsame⟩
    rw [delEvent, bind_ok (hm.lookup_none hc)]
  | some c =>
    rw [delEvent_eq ctl hm hc]
    split
    next hdone =>
      obtain ⟨he,_⟩ := Bool.and_eq_true_iff.mp hdone
      refine ⟨true,_,rfl,hm.drop hc he,write_length _ _,?_⟩
      intro fd' e
      exact ⟨rfl,hm.registered_drop hc he fd' e⟩
    next => exact ⟨false,m,rfl,hm,rfl,hsame⟩

theorem cancelEvent_eq (ctl : EpollRequest → Bool) (hm : Accounted m)
    (hc : m.heap[fd]? = some c) :
    m.cancelEvent fd event ctl =
      if c.events.has event && ctl (leave fd fd (c.events.clear event)) then do
        let (handed, c) ← c.triggerEvent event
        .ok (true, handed, { m with pending := m.pending - 1 }.write fd c)
      else .ok (false, [], m) := by
  rw [cancelEvent, bind_ok (hm.lookup_some hc)]
  dsimp only
  rw [bind_ok (deref_eq hc)]
  cases c.events.has event <;> cases ctl (leave fd fd (c.events.clear event)) <;> rfl

theorem cancelEvent_spec (fd : ℕ) (event : Event) (ctl : EpollRequest → Bool) (hm : Accounted m) :
    ∃ ok handed m', m.cancelEvent fd event ctl = .ok (ok, handed, m') ∧ Accounted m' ∧
      m'.heap.length = m.heap.length ∧
      Answers m (.cancelEvent fd event ctl) (.cancelled ok handed) m' := by
  have hsame : Answers m (.cancelEvent fd event ctl) (.cancelled false []) m :=
    fun _ _ => ⟨rfl,rfl⟩
  cases hc : m.heap[fd]? with
  | none =>
    refine ⟨false,[],m,?_,hm,rfl,hsame⟩
    rw [cancelEvent, bind_ok (hm.lookup_none hc)]
  | some c =>
    rw [cancelEvent_eq ctl hm hc]
    split
    next hdone =>
      obtain ⟨he,_⟩ := Bool.and_eq_true_iff.mp hdone
      obtain ⟨w,hw,htrig⟩ := FdContext.triggerEvent_spec (hm.settled fd c hc) he
      rw [hm.fd_eq fd c hc] at htrig
      refine ⟨true,[⟨fd,event,w.1,w.2⟩],_,?_,hm.drop hc he,write_length _ _,?_⟩
      · rw [bind_ok htrig]
      · intro fd' e
        refine ⟨?_,hm.registered_drop hc he fd' e⟩
        simp only [Seen.handed, select_singleton, due]
        split
        next hat =>
          obtain ⟨rfl,rfl⟩ := hat
          rw [hm.registered_at hc, hw]
          rfl
        next => rfl
    next => exact ⟨false,[],m,rfl,hm,rfl,hsame⟩

section Triggers
variable {mask : Events}

/-- A context after all events of a mask were triggered. -/
def dropMany (mask : Events) (c : FdContext Sched Fib Cb) : FdContext Sched Fib Cb :=
  { c with
    events := c.events.diff mask,
    read := if mask.read then {} else c.read,
    write := if mask.write then {} else c.write }

/-- The tasks this hands over, in order. -/
def handovers (mask : Events) (c : FdContext Sched Fib Cb) : List (Handover Sched Fib Cb) :=
  [Event.read, .write].flatMap fun e =>
    if mask.has e then (c.getContext e).work.toList.map fun w => ⟨c.fd,e,w.1,w.2⟩ else []

theorem getContext_dropMany (mask : Events) (c : FdContext Sched Fib Cb) (e : Event) :
    (dropMany mask c).getContext e = if mask.has e then {} else c.getContext e := by
  cases e <;> rfl

theorem triggerIf_none (s : List (Handover Sched Fib Cb) × FdContext Sched Fib Cb × UInt64)
    (h : mask.has event = false) : triggerIf mask event s = .ok s := by
  simp [triggerIf, h]

theorem triggerIf_some {l : List (Handover Sched Fib Cb)} {n : UInt64} (hc : c.Settled)
    (h : mask.has event = true) (he : c.events.has event = true) :
    triggerIf mask event (l, c, n) =
      .ok (l ++ (c.getContext event).work.toList.map fun w => ⟨c.fd,event,w.1,w.2⟩,
        c.drop event, n - 1) := by
  obtain ⟨w,hw,htrig⟩ := FdContext.triggerEvent_spec hc he
  simp only [triggerIf, h, if_true]
  rw [bind_ok htrig, hw]
  rfl

theorem triggerIf_fails {l : List (Handover Sched Fib Cb)} {n : UInt64}
    (h : mask.has event = true) (he : c.events.has event = false) :
    triggerIf mask event (l, c, n) = .error .assertion := by
  simp only [triggerIf, h, if_true, FdContext.triggerEvent_fails he]
  rfl

/-- Triggering the registered events of a mask one after the other. -/
theorem triggers_spec (n : UInt64) (hc : c.Settled)
    (hsub : ∀ e, mask.has e = true → c.events.has e = true) :
    ∃ n', (triggerIf mask .read ([], c, n) >>= triggerIf mask .write) =
        .ok (handovers mask c, dropMany mask c, n') ∧
      n' + UInt64.ofNat c.events.count = n + UInt64.ofNat (dropMany mask c).events.count ∧
      (dropMany mask c).Settled := by
  obtain ⟨r,w⟩ := mask
  cases r with
  | false =>
    rw [bind_ok (triggerIf_none _ rfl)]
    cases w with
    | false =>
      have hdrop : dropMany {} c = c := by
        obtain ⟨_,_,_,⟨r,w⟩⟩ := c
        simp [dropMany, Events.diff]
      rw [triggerIf_none _ rfl, hdrop]
      exact ⟨n,rfl,rfl,hc⟩
    | true =>
      have hw := hsub .write rfl
      have hdrop : dropMany { write := true } c = c.drop .write := by
        obtain ⟨_,_,_,⟨r,w⟩⟩ := c
        simp [dropMany, Events.diff, FdContext.drop, FdContext.setContext, Events.clear]
      rw [triggerIf_some hc rfl hw, hdrop]
      exact ⟨n - 1,by simp [handovers, Events.has],sub_add_count n hw,hc.drop .write⟩
  | true =>
    have hr := hsub .read rfl
    rw [bind_ok (triggerIf_some hc rfl hr)]
    cases w with
    | false =>
      have hdrop : dropMany { read := true } c = c.drop .read := by
        obtain ⟨_,_,_,⟨r,w⟩⟩ := c
        simp [dropMany, Events.diff, FdContext.drop, FdContext.setContext, Events.clear]
      rw [triggerIf_none _ rfl, hdrop]
      exact ⟨n - 1,by simp [handovers, Events.has],sub_add_count n hr,hc.drop .read⟩
    | true =>
      have hw : (c.drop .read).events.has .write = true := hsub .write rfl
      have hdrop : dropMany { read := true, write := true } c = (c.drop .read).drop .write := by
        obtain ⟨_,_,_,⟨r,w⟩⟩ := c
        simp [dropMany, Events.diff, FdContext.drop, FdContext.setContext, Events.clear]
      rw [triggerIf_some (hc.drop .read) rfl hw, hdrop]
      refine ⟨n - 1 - 1,?_,?_,(hc.drop .read).drop .write⟩
      · simp [handovers, Events.has, FdContext.getContext_drop]
      · have h₁ := sub_add_count n hr
        have h₂ := sub_add_count (n - 1) hw
        grind

/-- What a list of handovers holds for one event. -/
theorem select_handovers (fd : ℕ) (e : Event) (mask : Events) (c : FdContext Sched Fib Cb) :
    select fd e (handovers mask c) =
      if fd = c.fd ∧ mask.has e = true then (c.getContext e).work.toList else [] := by
  have hone : ∀ e', select fd e (if mask.has e' then
      (c.getContext e').work.toList.map (fun w => ⟨c.fd,e',w.1,w.2⟩) else []) =
      if fd = c.fd ∧ e = e' ∧ mask.has e' = true then (c.getContext e').work.toList else [] := by
    intro e'
    cases hm : mask.has e' with
    | false => simp
    | true =>
      cases hw : (c.getContext e').work with
      | none => simp
      | some w => simpa using select_singleton fd c.fd e e' w
  have happ : ∀ l l' : List (Handover Sched Fib Cb),
      select fd e (l ++ l') = select fd e l ++ select fd e l' := by
    intro l l'
    simp [select]
  simp only [handovers, List.flatMap_cons, List.flatMap_nil, List.append_nil, happ, hone]
  cases e <;> simp

end Triggers

/-- Dropping several registered events. -/
theorem Accounted.registered_dropMany {mask : Events} {pending : UInt64} (hm : Accounted m)
    (hm' : Accounted ({ m with pending := pending }.write p (dropMany mask c)))
    (hc : m.heap[p]? = some c) (fd : ℕ) (e : Event) :
    ({ m with pending := pending }.write p (dropMany mask c)).registered fd e =
      if fd = p ∧ mask.has e = true then none else m.registered fd e := by
  rw [hm.registered_write hm' hc]
  by_cases hfd : fd = p
  · subst hfd
    rw [if_pos rfl, hm.registered_at hc, getContext_dropMany]
    cases mask.has e <;> simp [work_empty]
  · simp [hfd]

/-- The second test of `CancelAll` reads the mask after the first trigger. -/
theorem triggers_own (n : UInt64) (hc : c.Settled) :
    (triggerIf c.events .read ([], c, n) >>= fun s => triggerIf s.2.1.events .write s) =
      (triggerIf c.events .read ([], c, n) >>= triggerIf c.events .write) := by
  cases hr : c.events.has .read with
  | false => rw [bind_ok (triggerIf_none _ hr), bind_ok (triggerIf_none _ hr)]
  | true =>
    rw [bind_ok (triggerIf_some hc hr hr), bind_ok (triggerIf_some hc hr hr)]
    rfl

theorem cancelAll_eq (ctl : EpollRequest → Bool) (hm : Accounted m)
    (hc : m.heap[fd]? = some c) :
    m.cancelAll fd ctl =
      if !c.events.isNone && ctl ⟨.del,fd,{},fd⟩ then do
        let s ← triggerIf c.events .read ([], c, m.pending) >>= triggerIf c.events .write
        if s.2.1.events.isNone then
          .ok (true, s.1, { m with pending := s.2.2 }.write fd s.2.1)
        else .error .assertion
      else .ok (false, [], m) := by
  rw [← triggers_own m.pending (hm.settled fd c hc), cancelAll, bind_ok (hm.lookup_some hc)]
  dsimp only
  rw [bind_ok (deref_eq hc)]
  cases c.events.isNone <;> cases ctl ⟨.del,fd,{},fd⟩ <;> try rfl
  cases triggerIf c.events .read ([], c, m.pending) <;> rfl

theorem cancelAll_spec (fd : ℕ) (ctl : EpollRequest → Bool) (hm : Accounted m) :
    ∃ ok handed m', m.cancelAll fd ctl = .ok (ok, handed, m') ∧ Accounted m' ∧
      m'.heap.length = m.heap.length ∧
      Answers m (.cancelAll fd ctl) (.cancelledAll ok handed) m' := by
  have hsame : Answers m (.cancelAll fd ctl) (.cancelledAll false []) m := fun _ _ => ⟨rfl,rfl⟩
  cases hc : m.heap[fd]? with
  | none =>
    refine ⟨false,[],m,?_,hm,rfl,hsame⟩
    rw [cancelAll, bind_ok (hm.lookup_none hc)]
  | some c =>
    have hset := hm.settled fd c hc
    have hfd := hm.fd_eq fd c hc
    rw [cancelAll_eq ctl hm hc]
    split
    next hdone =>
      obtain ⟨n,htrig,hn,hset'⟩ := triggers_spec m.pending hset fun _ h => h
      have hnone : (dropMany c.events c).events.isNone = true := by
        obtain ⟨_,_,_,⟨r,w⟩⟩ := c
        cases r <;> cases w <;> rfl
      have hm' := hm.update hc hset' rfl hn
      refine ⟨true,handovers c.events c,_,?_,hm',write_length _ _,?_⟩
      · rw [bind_ok htrig]
        simp only [hnone, if_true]
      · intro fd' e
        have hoff : c.events.has e = false → (c.getContext e).work = none := fun h => by
          rw [hset.empty e h]
          rfl
        rw [hm.registered_dropMany hm' hc]
        simp only [Seen.handed, select_handovers, hfd, due, next]
        by_cases hat : fd' = fd
        · subst hat
          rw [hm.registered_at hc]
          cases he : c.events.has e with
          | true => simp
          | false => simp [hoff he]
        · simp [hat]
    next => exact ⟨false,[],m,rfl,hm,rfl,hsame⟩

/-- The context of a descriptor, or the blank one it would get. -/
def contextOf (fd : ℕ) (m : IOManager Sched Fib Cb) : FdContext Sched Fib Cb :=
  (m.context fd).getD { fd := fd }

theorem registered_contextOf (fd : ℕ) (e : Event) (m : IOManager Sched Fib Cb) :
    m.registered fd e = ((m.contextOf fd).getContext e).work := by
  unfold registered contextOf
  cases m.context fd with
  | none => cases e <;> rfl
  | some c => rfl

/-- `AddEvent` finds the context of the descriptor, after growing the table if
needed, or fails because the new size does not fit an int. -/
theorem reserve_spec (hm : Accounted m) (hmin : 32 ≤ m.heap.length) (hfd : fd < 2 ^ 31) :
    (∃ m', m.reserve fd = .ok (fd, m') ∧ Accounted m' ∧ m.heap.length ≤ m'.heap.length ∧
        m'.pending = m.pending ∧ fd < m'.heap.length ∧
        ∀ k, m'.contextOf k = m.contextOf k) ∨
      (m.reserve fd = .error .assertion ∧ 2 ^ 31 ≤ fd * 3 / 2) := by
  by_cases hlt : fd < m.heap.length
  · left
    refine ⟨m,?_,hm,le_rfl,rfl,hlt,fun _ => rfl⟩
    have hint : (fd : ℤ) < m.intSize := by
      rw [hm.intSize_eq]
      omega
    rw [reserve, if_pos hint, bind_ok (hm.slot_eq hlt)]
  · have hint : ¬ (fd : ℤ) < m.intSize := by
      rw [hm.intSize_eq]
      omega
    rw [reserve, if_neg hint, growFor]
    by_cases hsize : fd * 3 / 2 < 2 ^ 31
    · left
      obtain ⟨hm',hlen,hget⟩ := hm.contextResize (show m.heap.length ≤ fd * 3 / 2 by omega) hsize
      refine ⟨m.contextResize (fd * 3 / 2),?_,hm',by omega,rfl,by omega,?_⟩
      · have hint' : (fd : ℤ) < (m.contextResize (fd * 3 / 2)).intSize := by
          rw [hm'.intSize_eq, hlen]
          omega
        rw [if_pos hint', bind_ok (hm'.slot_eq (by omega))]
      · intro k
        rw [contextOf, contextOf, hm'.context_eq, hm.context_eq, hget k]
        split
        · rfl
        next hk =>
          rw [List.getElem?_eq_none (Nat.le_of_not_lt hk)]
          split <;> rfl
    · right
      have hlen : m.fdContexts.length = m.heap.length := by rw [hm.table, List.length_range]
      have hlen' : (m.contextResize (fd * 3 / 2)).fdContexts.length = fd * 3 / 2 := by
        simp only [contextResize, List.length_append, List.length_take, List.length_map,
          List.length_range]
        omega
      have hneg : (m.contextResize (fd * 3 / 2)).intSize = (fd * 3 / 2 : ℕ) - 2 ^ 32 := by
        unfold intSize
        rw [hlen']
        exact bmod_of_ge (Nat.le_of_not_lt hsize) (by omega)
      refine ⟨?_,Nat.le_of_not_lt hsize⟩
      rw [if_neg]
      rw [hneg]
      omega

/-- The part under the mutex of a context whose event is free. -/
theorem register_spec (fd : ℕ) (ctl : EpollRequest → Bool) {callback : Option Cb}
    {caller : Caller Sched Fib} (hm : Accounted m) (hc : m.heap[p]? = some c)
    (he : c.events.has event = false) (hs : caller.scheduler.isSome = true)
    (hf : caller.fiberState = .running) :
    ∃ ok m', m.register p fd event callback caller ctl = .ok (ok, m') ∧ Accounted m' ∧
      m'.heap.length = m.heap.length ∧
      ∀ fd e, m'.registered fd e =
        if ok = true ∧ fd = p ∧ e = event then Caller.work callback caller
        else m.registered fd e := by
  let op : CtlOp := if c.events.isNone then .add else .mod
  cases hctl : ctl ⟨op,fd,c.events.set event,p⟩ with
  | false =>
    refine ⟨false,m,?_,hm,rfl,by simp⟩
    rw [register, bind_ok (deref_eq hc)]
    simp only [he, Bool.false_eq_true, if_false]
    rw [hctl]
    rfl
  | true =>
    let ctx : EventContext Sched Fib Cb :=
      match callback with
      | some cb => { scheduler := caller.scheduler, callback := some cb }
      | none => { scheduler := caller.scheduler, fiber := some caller.fiber }
    let c' := { c with events := c.events.set event }.setContext event ctx
    obtain ⟨s,hs⟩ := Option.isSome_iff_exists.mp hs
    have hwork : ctx.work = Caller.work callback caller := by
      cases callback <;> simp [ctx, EventContext.work, Caller.work, hs]
    have hsome : ctx.work.isSome = true := by
      rw [hwork]
      simp [Caller.work, hs]
    have hcount : m.pending + 1 + UInt64.ofNat c.events.count =
        m.pending + UInt64.ofNat c'.events.count := by
      have : c'.events.count = c.events.count + 1 := by
        simpa [c'] using FdContext.count_set he
      rw [this, UInt64.ofNat_add, UInt64.add_assoc, UInt64.add_comm 1]
      rfl
    have hm' := hm.update hc ((hm.settled p c hc).fill hsome) (by simp) hcount
    refine ⟨true,{ m with pending := m.pending + 1 }.write p c',?_,hm',write_length _ _,?_⟩
    · have hfree : ∀ x : EventContext Sched Fib Cb, x = {} →
          (x.scheduler.isSome || x.fiber.isSome || x.callback.isSome) = false := by
        rintro x rfl
        rfl
      have hctx : ({ c with events := c.events.set event }).getContext event = {} := by
        have := (hm.settled p c hc).empty event he
        cases event <;> exact this
      rw [register, bind_ok (deref_eq hc)]
      simp only [he, Bool.false_eq_true, if_false]
      rw [hctl]
      simp only [Bool.not_true, Bool.false_eq_true, if_false, hfree _ hctx, hf]
      cases callback <;> rfl
    · intro fd' e
      rw [hm.registered_write hm' hc, FdContext.getContext_setContext]
      by_cases hat : fd' = p
      · subst hat
        rw [hm.registered_at hc]
        by_cases hev : e = event
        · simp [hev, hwork]
        · have hget : ({ c with events := c.events.set event }).getContext e = c.getContext e := by
            cases e <;> rfl
          simp [hev, hget]
      · simp [hat]

/-- A refused registration leaves the manager as it was. -/
theorem register_refused {ctl : EpollRequest → Bool} {callback : Option Cb}
    {caller : Caller Sched Fib} {ok : Bool} (href : ∀ r, ctl r = false)
    (h : m.register p fd event callback caller ctl = .ok (ok, m')) : m' = m := by
  unfold register at h
  cases hc : m.deref p with
  | error f =>
    rw [hc] at h
    cases h
  | ok c =>
    rw [bind_ok hc] at h
    dsimp only at h
    split at h
    · cases h
    · rw [href] at h
      cases h
      rfl

theorem addEvent_spec (ctl : EpollRequest → Bool) {callback : Option Cb}
    {caller : Caller Sched Fib} (hm : Accounted m) (hmin : 32 ≤ m.heap.length)
    (hok : Admissible m (.addEvent fd event callback caller ctl)) :
    (∃ ok m', m.addEvent fd event callback caller ctl = .ok (ok, m') ∧ Accounted m' ∧
        m.heap.length ≤ m'.heap.length ∧
        Answers m (.addEvent fd event callback caller ctl) (.added ok) m') ∨
      (m.reserve fd = .error .assertion ∧ 2 ^ 31 ≤ fd * 3 / 2) := by
  obtain ⟨hfd,hs,hf,hfree⟩ := hok
  rcases reserve_spec hm hmin hfd with ⟨m₁,hres,hm₁,hlen,_,hlt,hsame⟩ | hover
  · left
    obtain ⟨c,hc⟩ : ∃ c, m₁.heap[fd]? = some c := ⟨_,List.getElem?_eq_getElem hlt⟩
    have he : c.events.has event = false := by
      have hcur : m.contextOf fd = c := by
        rw [← hsame fd, contextOf, hm₁.context_eq, hc]
        rfl
      rw [← hcur, contextOf]
      cases hc' : m.context fd with
      | some x => exact hfree x hc'
      | none => cases event <;> rfl
    have hreg : ∀ k e, m₁.registered k e = m.registered k e := by
      intro k e
      rw [registered_contextOf, registered_contextOf, hsame k]
    obtain ⟨ok,m',hrun,hm',hlen',hnext⟩ := register_spec fd ctl hm₁ hc he hs hf
    refine ⟨ok,m',?_,hm',by omega,?_⟩
    · rw [addEvent, bind_ok hres]
      exact hrun
    · intro k e
      refine ⟨by cases ok <;> rfl,?_⟩
      rw [hnext, hreg]
      cases ok <;> simp [next]
  · exact Or.inr hover

end Gudov.IOManager
