import Gudov.IOManagerRuns

/-!
# Entries of `epoll_wait` handled later

Threads in `IOManager::Idle` hold a batch of entries that `epoll_wait` filled in.
Each entry is handled under the mutex of its context, and between the two any
other thread may call the manager. The masks in the batch are therefore a
snapshot, while the mask of the context is current.

An entry is handled as intended when what it reports is still registered, when
nothing of it is, or when `epoll_ctl` refuses the change. In the remaining case
the code triggers an event that is no longer registered.
-/
namespace Gudov
open IOManager

/-- The manager with the unhandled entries of every thread in `Idle`; an entry is
a pointer with the reported bits. -/
structure Idling (Sched Fib Cb : Type) where
  io : IOManager Sched Fib Cb
  batches : List (List (ℕ × Reported))
deriving Repr, DecidableEq

namespace Idling
variable {Sched Fib Cb : Type} {s t : Idling Sched Fib Cb}

def start (threads : ℕ) : Idling Sched Fib Cb :=
  { io := new, batches := List.replicate threads [] }

inductive Op (Sched Fib Cb : Type)
  | call (op : IOManager.Op Sched Fib Cb)
  | epollWait (thread : ℕ) (entries : List (ℕ × Reported))
  | handle (thread : ℕ) (ctl : EpollRequest → Bool)

/-- Only a thread that has handled its batch is back in `epoll_wait`, and only one
with entries handles the next of them. Other steps do nothing. -/
def step (s : Idling Sched Fib Cb) :
    Op Sched Fib Cb → Except Fault (List (Handover Sched Fib Cb) × Idling Sched Fib Cb)
  | .call op => do
    let (_, io) ← s.io.step op
    .ok ([], { s with io := io })
  | .epollWait thread entries =>
    match s.batches[thread]? with
    | some [] => .ok ([], { s with batches := s.batches.set thread entries })
    | _ => .ok ([], s)
  | .handle thread ctl =>
    match s.batches[thread]? with
    | some ((p, r) :: rest) => do
      let (handed, io) ← s.io.handleEntry p r ctl
      .ok (handed, { io := io, batches := s.batches.set thread rest })
    | _ => .ok ([], s)

/-- Everything reported is registered. -/
def Fresh (r : Reported) (events : Events) : Prop :=
  (r.epollin = true → events.read = true) ∧ (r.epollout = true → events.write = true)

/-- The kernel reports a context it was given, and of `EPOLLIN` and `EPOLLOUT` only
what is registered at that moment. -/
def Told (m : IOManager Sched Fib Cb) (entry : ℕ × Reported) : Prop :=
  match m.heap[entry.1]? with
  | none => False
  | some c => Fresh entry.2 c.events

def Admissible (s : Idling Sched Fib Cb) : Op Sched Fib Cb → Prop
  | .call op => s.io.Admissible op
  | .epollWait _ entries => ∀ entry ∈ entries, Told s.io entry
  | .handle _ _ => True

/-- The assertion of `TriggerEvent` holds for each event the entry triggers, and
the counter is the number of bits afterwards. -/
def HandledWell (s : Idling Sched Fib Cb) : Op Sched Fib Cb → Prop
  | .handle thread ctl =>
    match s.step (.handle thread ctl) with
    | .error _ => False
    | .ok (_, t) => t.io.pending.toNat = t.io.bits
  | _ => True

/-- Nothing reported is registered any more. -/
def Gone (r : Reported) (events : Events) : Prop :=
  (r.epollin && events.read) = false ∧ (r.epollout && events.write) = false ∧
    ((r.epollerr || r.epollhup) = true → events = {})

/-- The condition on a context before an entry for it is handled. -/
def Consistent (p : ℕ) (r : Reported) (ctl : EpollRequest → Bool)
    (c : FdContext Sched Fib Cb) : Prop :=
  Fresh r c.events ∨ Gone r c.events ∨
    ctl (leave p c.fd (c.events.diff (realEvents r c.events))) = false

/-- The condition on the state before a step. -/
def Meets (s : Idling Sched Fib Cb) : Op Sched Fib Cb → Prop
  | .handle thread ctl =>
    match s.batches[thread]? with
    | some ((p, r) :: _) => ∀ c, s.io.heap[p]? = some c → Consistent p r ctl c
    | _ => True
  | _ => True

theorem realEvents_sub_iff (r : Reported) (events : Events) :
    (∀ e, (realEvents r events).has e = true → events.has e = true) ↔ Fresh r events := by
  obtain ⟨i,o,er,hup⟩ := r
  obtain ⟨rd,wr⟩ := events
  have hboth : ∀ P : Event → Prop, (∀ e, P e) ↔ P .read ∧ P .write := fun P =>
    ⟨fun h => ⟨h .read,h .write⟩,fun h e => by cases e; exacts [h.1,h.2]⟩
  rw [hboth]
  cases er <;> cases hup <;> simp [realEvents, Fresh, Events.has, Events.union, or_imp]

theorem inter_isNone_iff (r : Reported) (events : Events) :
    (events.inter (realEvents r events)).isNone = true ↔ Gone r events := by
  obtain ⟨i,o,er,hup⟩ := r
  obtain ⟨rd,wr⟩ := events
  cases er <;> cases hup <;> cases rd <;> cases wr <;> cases i <;> cases o <;>
    simp [realEvents, Gone, Events.inter, Events.union, Events.isNone]

/-- A mask with an event that is not registered fails at that event. -/
theorem triggers_fail {c : FdContext Sched Fib Cb} {mask : Events} (n : UInt64)
    (hc : c.Settled) (hsub : ¬ ∀ e, mask.has e = true → c.events.has e = true) :
    (triggerIf mask .read ([], c, n) >>= triggerIf mask .write) = .error .assertion := by
  by_cases hread : mask.has .read = true → c.events.has .read = true
  · have hwrite : mask.has .write = true ∧ c.events.has .write = false := by
      by_contra hcon
      refine hsub fun e he => ?_
      cases e with
      | read => exact hread he
      | write =>
        by_contra hnot
        exact hcon ⟨he,by simpa using hnot⟩
    cases hr : mask.has .read with
    | false =>
      rw [bind_ok (triggerIf_none _ hr)]
      exact triggerIf_fails hwrite.1 hwrite.2
    | true =>
      rw [bind_ok (triggerIf_some hc hr (hread hr))]
      exact triggerIf_fails hwrite.1 hwrite.2
  · push Not at hread
    rw [triggerIf_fails hread.1 (by simpa using hread.2)]
    rfl

section Entry
variable {m : IOManager Sched Fib Cb} {c : FdContext Sched Fib Cb} {p : ℕ} {r : Reported}
  {ctl : EpollRequest → Bool}

theorem handleEntry_ok (hm : Accounted m) (hc : m.heap[p]? = some c)
    (h : Consistent p r ctl c) :
    ∃ handed m', m.handleEntry p r ctl = .ok (handed, m') ∧ Accounted m' ∧
      m'.heap.length = m.heap.length := by
  unfold handleEntry
  rw [bind_ok (deref_eq hc)]
  dsimp only
  split
  · exact ⟨[],m,rfl,hm,rfl⟩
  next hleft =>
    split
    · exact ⟨[],m,rfl,hm,rfl⟩
    next hctl =>
      have hsub : ∀ e, (realEvents r c.events).has e = true → c.events.has e = true := by
        rw [realEvents_sub_iff]
        rcases h with hfresh | hgone | href
        · exact hfresh
        · exact absurd ((inter_isNone_iff r c.events).mpr hgone) hleft
        · exact absurd (by simp [href]) hctl
      obtain ⟨n,htrig,hn,hset⟩ := triggers_spec m.pending (hm.settled p c hc) hsub
      refine ⟨handovers (realEvents r c.events) c,_,?_,hm.update hc hset rfl hn,
        write_length _ _⟩
      rw [← bind_assoc, bind_ok htrig]

theorem handleEntry_fails (hm : Accounted m) (hc : m.heap[p]? = some c)
    (h : ¬ Consistent p r ctl c) : m.handleEntry p r ctl = .error .assertion := by
  unfold Consistent at h
  push Not at h
  obtain ⟨hfresh,hgone,hctl⟩ := h
  unfold handleEntry
  rw [bind_ok (deref_eq hc)]
  dsimp only
  rw [if_neg (by rwa [inter_isNone_iff]), if_neg (by simpa using hctl), ← bind_assoc,
    triggers_fail m.pending (hm.settled p c hc) (by rwa [realEvents_sub_iff])]
  rfl

end Entry

/-- The invariant: the manager is accounted for and batches point to contexts. -/
structure Sound (s : Idling Sched Fib Cb) : Prop where
  accounted : Accounted s.io
  size_ge : 32 ≤ s.io.heap.length
  pointers : ∀ batch ∈ s.batches, ∀ entry ∈ batch, entry.1 < s.io.heap.length

theorem start_sound (threads : ℕ) : Sound (start threads : Idling Sched Fib Cb) where
  accounted := new_accounted.1
  size_ge := new_accounted.2.1.ge
  pointers batch hb entry he := by
    rw [List.eq_of_mem_replicate hb] at he
    cases he

theorem Sound.entry (hs : Sound s) {thread p : ℕ} {r : Reported} {rest : List (ℕ × Reported)}
    (hb : s.batches[thread]? = some ((p, r) :: rest)) : ∃ c, s.io.heap[p]? = some c :=
  ⟨_,List.getElem?_eq_getElem (hs.pointers _ (List.mem_of_getElem? hb) (p, r) (by simp))⟩

theorem handle_iff {thread : ℕ} {ctl : EpollRequest → Bool} (hs : Sound s) :
    HandledWell s (.handle thread ctl) ↔ Meets s (.handle thread ctl) := by
  rcases hb : s.batches[thread]? with _ | _ | ⟨⟨p,r⟩,rest⟩
  · simp only [HandledWell, Meets, step, hb]
    exact ⟨fun _ => trivial,fun _ => hs.accounted.pending_toNat⟩
  · simp only [HandledWell, Meets, step, hb]
    exact ⟨fun _ => trivial,fun _ => hs.accounted.pending_toNat⟩
  · obtain ⟨c,hc⟩ := hs.entry hb
    have hmeets : Meets s (.handle thread ctl) ↔ Consistent p r ctl c := by
      simp only [Meets, hb, hc, Option.some.injEq, forall_eq']
    rw [hmeets]
    simp only [HandledWell, step, hb]
    by_cases hcond : Consistent p r ctl c
    · obtain ⟨handed,m',hrun,hm',_⟩ := handleEntry_ok hs.accounted hc hcond
      rw [bind_ok hrun]
      exact ⟨fun _ => hcond,fun _ => hm'.pending_toNat⟩
    · rw [handleEntry_fails hs.accounted hc hcond]
      exact ⟨fun h => h.elim,fun h => (hcond h).elim⟩

theorem step_sound {op : Op Sched Fib Cb} {o : List (Handover Sched Fib Cb)} (hs : Sound s)
    (hop : s.Admissible op) (hstep : s.step op = .ok (o, t)) : Sound t := by
  cases op with
  | call op =>
    rcases step_spec hs.accounted hs.size_ge hop with ⟨o',io,hrun,hio,hlen,_⟩ | ⟨hrun,_⟩
    · rw [step, bind_ok hrun] at hstep
      cases hstep
      exact ⟨hio,hs.size_ge.trans hlen,fun b hb e he => (hs.pointers b hb e he).trans_le hlen⟩
    · rw [step, hrun] at hstep
      cases hstep
  | epollWait thread entries =>
    simp only [step] at hstep
    split at hstep
    next hb =>
      cases hstep
      refine ⟨hs.accounted,hs.size_ge,?_⟩
      intro batch hbatch entry hentry
      rcases List.mem_or_eq_of_mem_set hbatch with hold | rfl
      · exact hs.pointers batch hold entry hentry
      · have htold := hop entry hentry
        unfold Told at htold
        split at htold
        · exact htold.elim
        next c hc => exact (List.getElem?_eq_some_iff.mp hc).1
    next =>
      cases hstep
      exact hs
  | handle thread ctl =>
    simp only [step] at hstep
    split at hstep
    next p r rest hb =>
      obtain ⟨c,hc⟩ := hs.entry hb
      by_cases hcond : Consistent p r ctl c
      · obtain ⟨handed,m',hrun,hm',hlen⟩ := handleEntry_ok hs.accounted hc hcond
        rw [bind_ok hrun] at hstep
        cases hstep
        refine ⟨hm',hlen ▸ hs.size_ge,?_⟩
        intro batch hbatch entry hentry
        rw [hlen]
        rcases List.mem_or_eq_of_mem_set hbatch with hold | rfl
        · exact hs.pointers batch hold entry hentry
        · exact hs.pointers _ (List.mem_of_getElem? hb) entry (List.mem_cons_of_mem _ hentry)
      · rw [handleEntry_fails hs.accounted hc hcond] at hstep
        cases hstep
    next =>
      cases hstep
      exact hs

/-- In every interleaving, all entries are handled as intended exactly when each
of them meets the condition at the moment it is handled. -/
theorem idle_triggers_registered (threads : ℕ) (ops : List (Op Sched Fib Cb))
    (hok : StepSystem.Along step Admissible ops (start threads)) :
    StepSystem.Along step HandledWell ops (start threads) ↔
      StepSystem.Along step Meets ops (start threads) := by
  refine StepSystem.along_iff (fun s op o t hs hop _ => step_sound hs hop) ?_ ops _
    (start_sound threads) hok
  intro s op hs _
  cases op with
  | call op => exact Iff.rfl
  | epollWait thread entries => exact Iff.rfl
  | handle thread ctl => exact handle_iff hs

section Evaluation

instance Fresh.decidable (r : Reported) (events : Events) : Decidable (Fresh r events) :=
  inferInstanceAs (Decidable (_ ∧ _))

instance forallSome.decidable {α : Type} {P : α → Prop} [DecidablePred P] :
    ∀ o : Option α, Decidable (∀ a, o = some a → P a)
  | none => isTrue (by simp)
  | some a => decidable_of_iff (P a) (by simp)

instance ioAdmissible.decidable (m : IOManager Sched Fib Cb) :
    ∀ op, Decidable (m.Admissible op)
  | .addEvent _ _ _ _ _ => inferInstanceAs (Decidable (_ ∧ _ ∧ _ ∧ _))
  | .delEvent _ _ _ => inferInstanceAs (Decidable (_ < _))
  | .cancelEvent _ _ _ => inferInstanceAs (Decidable (_ < _))
  | .cancelAll _ _ => inferInstanceAs (Decidable (_ < _))

instance Told.decidable (m : IOManager Sched Fib Cb) (entry : ℕ × Reported) :
    Decidable (Told m entry) :=
  match h : m.heap[entry.1]? with
  | none => isFalse (by simp [Told, h])
  | some c => decidable_of_iff (Fresh entry.2 c.events) (by simp [Told, h])

instance Admissible.decidable (s : Idling Sched Fib Cb) : ∀ op, Decidable (s.Admissible op)
  | .call op => inferInstanceAs (Decidable (s.io.Admissible op))
  | .epollWait _ entries => inferInstanceAs (Decidable (∀ entry ∈ entries, Told s.io entry))
  | .handle _ _ => isTrue trivial

instance HandledWell.decidable (s : Idling Sched Fib Cb) : ∀ op, Decidable (s.HandledWell op)
  | .call _ => isTrue trivial
  | .epollWait _ _ => isTrue trivial
  | .handle thread ctl =>
    match h : s.step (.handle thread ctl) with
    | .error _ => isFalse (by simp [HandledWell, h])
    | .ok (_, t) => decidable_of_iff (t.io.pending.toNat = t.io.bits) (by simp [HandledWell, h])

instance Consistent.decidable (p : ℕ) (r : Reported) (ctl : EpollRequest → Bool) :
    DecidablePred (Consistent p r ctl : FdContext Sched Fib Cb → Prop) := fun c =>
  have : Decidable (Gone r c.events) := inferInstanceAs (Decidable (_ ∧ _ ∧ (_ → _)))
  inferInstanceAs (Decidable (_ ∨ _ ∨ _))

instance Meets.decidable (s : Idling Sched Fib Cb) : ∀ op, Decidable (s.Meets op)
  | .call _ => isTrue trivial
  | .epollWait _ _ => isTrue trivial
  | .handle thread ctl =>
    match h : s.batches[thread]? with
    | none => isTrue (by simp [Meets, h])
    | some [] => isTrue (by simp [Meets, h])
    | some ((p, r) :: _) =>
      decidable_of_iff (∀ c, s.io.heap[p]? = some c → Consistent p r ctl c) (by simp [Meets, h])

end Evaluation

/-- One event is cancelled while its entry waits, and the other entry is current. -/
def cancelledBetween : List (Op Unit Unit Unit) :=
  [.call (.addEvent 5 .read (some ()) ⟨some (),(),.running⟩ fun _ => true),
    .call (.addEvent 7 .write none ⟨some (),(),.running⟩ fun _ => true),
    .epollWait 0 [(5, { epollin := true }), (7, { epollhup := true })],
    .call (.cancelEvent 5 .read fun _ => true),
    .handle 0 fun _ => true,
    .handle 0 fun _ => true]

theorem idle_triggers_registered_cancelled :
    StepSystem.Along step HandledWell cancelledBetween (start 1) ∧
      StepSystem.Along step Meets cancelledBetween (start 1) := by
  have hok : StepSystem.Along step Admissible cancelledBetween (start 1) := by decide +kernel
  have hmeets : StepSystem.Along step Meets cancelledBetween (start 1) := by decide +kernel
  exact ⟨(idle_triggers_registered 1 cancelledBetween hok).mpr hmeets,hmeets⟩

/-- Both events of descriptor 5 are reported, `DelEvent` removes one of them, and
the entry is handled afterwards. -/
def deletedBetween : List (Op Unit Unit Unit) :=
  [.call (.addEvent 5 .read (some ()) ⟨some (),(),.running⟩ fun _ => true),
    .call (.addEvent 5 .write (some ()) ⟨some (),(),.running⟩ fun _ => true),
    .epollWait 0 [(5, { epollin := true, epollout := true })],
    .call (.delEvent 5 .write fun _ => true),
    .handle 0 fun _ => true]

theorem idle_triggers_unregistered :
    ¬ ∀ ops : List (Op Unit Unit Unit), StepSystem.Along step Admissible ops (start 1) →
      StepSystem.Along step HandledWell ops (start 1) := by
  intro h
  have hok : StepSystem.Along step Admissible deletedBetween (start 1) := by decide +kernel
  have hnot : ¬ StepSystem.Along step HandledWell deletedBetween (start 1) := by decide +kernel
  exact hnot (h deletedBetween hok)

end Idling

end Gudov
