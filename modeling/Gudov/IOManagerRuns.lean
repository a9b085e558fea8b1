import Gudov.IOManagerEvents

/-!
# Event accounting over whole runs

Any sequence of calls with any answers of `epoll_ctl`. The only way a run ends
early is an `AddEvent` whose table size no longer fits an int, which the size
assertion of that call catches.
-/
namespace Gudov.IOManager
variable {Sched Fib Cb : Type} {m m' : IOManager Sched Fib Cb}

/-- `AddEvent` fails while it grows the table. -/
def Overflows (m : IOManager Sched Fib Cb) : Op Sched Fib Cb → Prop
  | .addEvent fd _ _ _ _ => m.reserve fd = .error .assertion ∧ 2 ^ 31 ≤ fd * 3 / 2
  | _ => False

theorem step_spec {op : Op Sched Fib Cb} (hm : Accounted m) (hmin : 32 ≤ m.heap.length)
    (hop : m.Admissible op) :
    (∃ o m', m.step op = .ok (o, m') ∧ Accounted m' ∧ m.heap.length ≤ m'.heap.length ∧
        Answers m op o m') ∨
      (m.step op = .error .assertion ∧ m.Overflows op) := by
  cases op with
  | addEvent fd event callback caller ctl =>
    rcases addEvent_spec ctl hm hmin hop with ⟨ok,m',hrun,hm',hlen,hans⟩ | ⟨hres,hsize⟩
    · left
      refine ⟨.added ok,m',?_,hm',hlen,hans⟩
      rw [step, bind_ok hrun]
    · right
      refine ⟨?_,hres,hsize⟩
      simp only [step, addEvent, hres]
      rfl
  | delEvent fd event ctl =>
    left
    obtain ⟨ok,m',hrun,hm',hlen,hans⟩ := delEvent_spec fd event ctl hm
    refine ⟨.deleted ok,m',?_,hm',hlen.ge,hans⟩
    rw [step, bind_ok hrun]
  | cancelEvent fd event ctl =>
    left
    obtain ⟨ok,handed,m',hrun,hm',hlen,hans⟩ := cancelEvent_spec fd event ctl hm
    refine ⟨.cancelled ok handed,m',?_,hm',hlen.ge,hans⟩
    rw [step, bind_ok hrun]
  | cancelAll fd ctl =>
    left
    obtain ⟨ok,handed,m',hrun,hm',hlen,hans⟩ := cancelAll_spec fd ctl hm
    refine ⟨.cancelledAll ok handed,m',?_,hm',hlen.ge,hans⟩
    rw [step, bind_ok hrun]

theorem run_spec (ops : List (Op Sched Fib Cb)) (hm : Accounted m)
    (hmin : 32 ≤ m.heap.length) (hok : StepSystem.Along step Admissible ops m) :
    (∃ seen m', StepSystem.run step ops m = .ok (seen, m') ∧ Accounted m' ∧
        32 ≤ m'.heap.length ∧
        ∀ fd e, Follows fd e (m.registered fd e) (ops.zip seen) (m'.registered fd e)) ∨
      ∃ pre op post seen m', ops = pre ++ op :: post ∧
        StepSystem.run step pre m = .ok (seen, m') ∧ m'.Overflows op ∧
        StepSystem.run step ops m = .error .assertion := by
  induction ops generalizing m with
  | nil => exact Or.inl ⟨[],m,rfl,hm,hmin,fun _ _ => rfl⟩
  | cons op ops ih =>
    rcases step_spec hm hmin hok.1 with ⟨o,m₁,hstep,hm₁,hlen,hans⟩ | ⟨hstep,hover⟩
    · rcases ih hm₁ (by omega) (hok.2 o m₁ hstep) with
        ⟨seen,m',hrun,hm',hmin',hfol⟩ | ⟨pre,op',post,seen,m',rfl,hpre,hover,hrun⟩
      · left
        refine ⟨o :: seen,m',by simp only [StepSystem.run, hstep, hrun],hm',hmin',?_⟩
        intro fd e
        obtain ⟨hhanded,hnext⟩ := hans fd e
        refine ⟨hhanded,?_⟩
        rw [← hnext]
        exact hfol fd e
      · right
        refine ⟨op :: pre,op',post,o :: seen,m',rfl,?_,hover,?_⟩
        · simp only [StepSystem.run, hstep, hpre]
        · simp only [StepSystem.run, hstep, hrun]
    · right
      exact ⟨[],op,ops,[],m,rfl,rfl,hover,by simp only [StepSystem.run, hstep]⟩

/-- Every `epoll_ctl` the call makes fails. -/
def Op.Refused : Op Sched Fib Cb → Prop
  | .addEvent _ _ _ _ ctl => ∀ r, ctl r = false
  | .delEvent _ _ ctl => ∀ r, ctl r = false
  | .cancelEvent _ _ ctl => ∀ r, ctl r = false
  | .cancelAll _ ctl => ∀ r, ctl r = false

/-- A refused call changes neither the counter nor any context. -/
theorem refused_unchanged {op : Op Sched Fib Cb} {o : Seen Sched Fib Cb} (hm : Accounted m)
    (hmin : 32 ≤ m.heap.length) (hop : m.Admissible op) (href : op.Refused)
    (hstep : m.step op = .ok (o, m')) :
    m'.pending = m.pending ∧ ∀ fd, m'.contextOf fd = m.contextOf fd := by
  cases op with
  | addEvent fd event callback caller ctl =>
    obtain ⟨hfd,_⟩ := hop
    rcases reserve_spec hm hmin hfd with ⟨m₁,hres,_,_,hpend,_,hsame⟩ | ⟨hres,_⟩
    · rw [step, addEvent, bind_ok hres] at hstep
      cases hreg : m₁.register fd fd event callback caller ctl with
      | error f =>
        simp only [hreg] at hstep
        cases hstep
      | ok r =>
        obtain ⟨ok,m₂⟩ := r
        rw [bind_ok hreg] at hstep
        cases hstep
        rw [register_refused href hreg]
        exact ⟨hpend,hsame⟩
    · rw [step, addEvent, hres] at hstep
      cases hstep
  | delEvent fd event ctl =>
    cases hc : m.heap[fd]? with
    | none =>
      rw [step, delEvent, bind_ok (hm.lookup_none hc)] at hstep
      cases hstep
      exact ⟨rfl,fun _ => rfl⟩
    | some c =>
      rw [step, delEvent_eq ctl hm hc, href, Bool.and_false] at hstep
      cases hstep
      exact ⟨rfl,fun _ => rfl⟩
  | cancelEvent fd event ctl =>
    cases hc : m.heap[fd]? with
    | none =>
      rw [step, cancelEvent, bind_ok (hm.lookup_none hc)] at hstep
      cases hstep
      exact ⟨rfl,fun _ => rfl⟩
    | some c =>
      rw [step, cancelEvent_eq ctl hm hc, href, Bool.and_false] at hstep
      cases hstep
      exact ⟨rfl,fun _ => rfl⟩
  | cancelAll fd ctl =>
    cases hc : m.heap[fd]? with
    | none =>
      rw [step, cancelAll, bind_ok (hm.lookup_none hc)] at hstep
      cases hstep
      exact ⟨rfl,fun _ => rfl⟩
    | some c =>
      rw [step, cancelAll_eq ctl hm hc, href, Bool.and_false] at hstep
      cases hstep
      exact ⟨rfl,fun _ => rfl⟩

theorem bits_le (m : IOManager Sched Fib Cb) : m.bits ≤ 2 * m.heap.length := by
  have hle : ∀ l : List (FdContext Sched Fib Cb),
      (l.map fun c => c.events.count).sum ≤ 2 * l.length := by
    intro l
    induction l with
    | nil => exact le_rfl
    | cons c l ih =>
      have hc : c.events.count ≤ 2 :=
        Nat.add_le_add (Bool.toNat_le c.events.read) (Bool.toNat_le c.events.write)
      simp only [List.map_cons, List.sum_cons, List.length_cons]
      omega
  exact hle m.heap

theorem Accounted.pending_toNat (hm : Accounted m) : m.pending.toNat = m.bits := by
  have hle := m.bits_le
  have hlt := hm.size_lt
  rw [hm.pending, UInt64.toNat_ofNat_of_lt']
  change m.bits < 2 ^ 64
  omega

theorem FdContext.Settled.iffs {c : FdContext Sched Fib Cb} (hc : c.Settled) (e : Event) :
    (c.events.has e = true ↔ (c.getContext e).work.isSome = true) ∧
      (c.events.has e = false ↔ c.getContext e = {}) := by
  cases he : c.events.has e with
  | true =>
    have hw := hc.full e he
    refine ⟨by simp [hw],?_⟩
    constructor
    · intro h
      cases h
    · intro h
      rw [h] at hw
      cases hw
  | false =>
    have hempty := hc.empty e he
    simp [hempty, work_empty]

/-- In every reachable state the counter is the number of bits set and bits and
contexts agree. A call refused by `epoll_ctl` changes nothing. For each event the
calls follow its register: a cancel hands over what was added, once, and nothing
else is ever handed over. A run that faults does so while growing the table. -/
theorem event_accounting (ops : List (Op Sched Fib Cb))
    (hok : StepSystem.Along step Admissible ops new) :
    (∀ seen m, StepSystem.run step ops new = .ok (seen, m) →
      m.pending.toNat = m.bits ∧
      (∀ fd c e, m.context fd = some c →
        (c.events.has e = true ↔ (c.getContext e).work.isSome = true) ∧
          (c.events.has e = false ↔ c.getContext e = {})) ∧
      (∀ op o m', m.Admissible op → op.Refused → m.step op = .ok (o, m') →
        m'.pending = m.pending ∧ ∀ fd, m'.contextOf fd = m.contextOf fd) ∧
      ∀ fd e, Follows fd e none (ops.zip seen) (m.registered fd e)) ∧
    ∀ f, StepSystem.run step ops new = .error f →
      ∃ pre op post seen m, ops = pre ++ op :: post ∧
        StepSystem.run step pre new = .ok (seen, m) ∧ m.Overflows op := by
  have hnew : Accounted (new : IOManager Sched Fib Cb) := new_accounted.1
  have hlen : (new : IOManager Sched Fib Cb).heap.length = 32 := new_accounted.2.1
  have hstart : ∀ fd e, (new : IOManager Sched Fib Cb).registered fd e = none := by
    intro fd e
    rw [hnew.registered_eq, new_accounted.2.2]
    split
    · cases e <;> rfl
    · rfl
  rcases run_spec ops hnew hlen.ge hok with
    ⟨seen,m,hrun,hm,hmin,hfol⟩ | ⟨pre,op,post,seen,m,hops,hpre,hover,hrun⟩
  · constructor
    · intro seen' m' hrun'
      rw [hrun] at hrun'
      cases hrun'
      refine ⟨hm.pending_toNat,?_,?_,?_⟩
      · intro fd c e hc
        rw [hm.context_eq] at hc
        exact FdContext.Settled.iffs (hm.settled fd c hc) e
      · intro op o m' hop href hstep
        exact refused_unchanged hm hmin hop href hstep
      · intro fd e
        rw [← hstart fd e]
        exact hfol fd e
    · intro f hf
      rw [hrun] at hf
      cases hf
  · constructor
    · intro seen' m' hrun'
      rw [hrun] at hrun'
      cases hrun'
    · intro f _
      exact ⟨pre,op,post,seen,m,hops,hpre,hover⟩

/-- An event is added, a removal is refused, and all events are cancelled. -/
theorem event_accounting_cancelled :
    ∃ seen m, StepSystem.run step [.addEvent 5 .read (some ()) ⟨some (),(),.running⟩ fun _ => true,
        .delEvent 5 .read fun _ => false, .cancelAll 5 fun _ => true]
        (new : IOManager Unit Unit Unit) = .ok (seen, m) ∧
      m.pending.toNat = m.bits ∧
        Follows 5 .read none ([.addEvent 5 .read (some ()) ⟨some (),(),.running⟩ fun _ => true,
          .delEvent 5 .read fun _ => false, .cancelAll 5 fun _ => true].zip seen)
          (m.registered 5 .read) := by
  have hok : StepSystem.Along step Admissible
      [.addEvent 5 .read (some ()) ⟨some (),(),.running⟩ fun _ => true,
        .delEvent 5 .read fun _ => false, .cancelAll 5 fun _ => true]
      (new : IOManager Unit Unit Unit) := by
    have hfd : 5 < 2 ^ 31 := by decide
    refine ⟨⟨hfd,rfl,rfl,?_⟩,fun _ _ _ => ⟨hfd,fun _ _ _ => ⟨hfd,fun _ _ _ => trivial⟩⟩⟩
    intro c hc
    cases hc
    rfl
  have hreturns : (match StepSystem.run step
      [.addEvent 5 .read (some ()) ⟨some (),(),.running⟩ fun _ => true,
        .delEvent 5 .read fun _ => false, .cancelAll 5 fun _ => true]
      (new : IOManager Unit Unit Unit) with
      | .ok _ => true
      | .error _ => false) = true := by decide +kernel
  split at hreturns
  next r hrun =>
    obtain ⟨seen,m⟩ := r
    obtain ⟨hpending,_,_,hfollows⟩ := (event_accounting _ hok).1 seen m hrun
    exact ⟨seen,m,hrun,hpending,hfollows 5 .read⟩
  next => cases hreturns

end Gudov.IOManager
