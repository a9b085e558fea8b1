import Mathlib.Algebra.BigOperators.Group.List.Basic
import Mathlib.Data.List.Perm.Basic
import Mathlib.Tactic.NormNum
import Gudov.IOManager
import Gudov.StepSystem

/-!
# Masks, contexts and the counter stay in step

A context is settled when each bit of its mask is set exactly for the event
contexts that are filled in. The manager is accounted for when all its contexts
are settled and the counter is the number of bits. Every call replaces one
context by a settled one, and pays the counter for the difference.
-/
namespace Gudov

/-- What the context resumes: a scheduler with exactly one of fiber and callback. -/
def EventContext.work {Sched Fib Cb : Type} (ctx : EventContext Sched Fib Cb) :
    Option (Sched × Work Fib Cb) :=
  match ctx.scheduler, ctx.fiber, ctx.callback with
  | some s, some f, none => some (s, .fiber f)
  | some s, none, some c => some (s, .callback c)
  | _, _, _ => none

namespace FdContext
variable {Sched Fib Cb : Type} {c : FdContext Sched Fib Cb} {event : Event}

structure Settled (c : FdContext Sched Fib Cb) : Prop where
  full : ∀ e, c.events.has e = true → (c.getContext e).work.isSome = true
  empty : ∀ e, c.events.has e = false → c.getContext e = {}

theorem settled_new (fd : ℕ) : Settled ({ fd := fd } : FdContext Sched Fib Cb) where
  full e h := by cases e <;> cases h
  empty e _ := by cases e <;> rfl

theorem getContext_setContext (c : FdContext Sched Fib Cb) (event e : Event)
    (ctx : EventContext Sched Fib Cb) :
    (c.setContext event ctx).getContext e = if e = event then ctx else c.getContext e := by
  cases event <;> cases e <;> rfl

@[simp] theorem setContext_events (c : FdContext Sched Fib Cb) (event : Event)
    (ctx : EventContext Sched Fib Cb) : (c.setContext event ctx).events = c.events := by
  cases event <;> rfl

@[simp] theorem setContext_fd (c : FdContext Sched Fib Cb) (event : Event)
    (ctx : EventContext Sched Fib Cb) : (c.setContext event ctx).fd = c.fd := by
  cases event <;> rfl

theorem has_set (m : Events) (event e : Event) :
    (m.set event).has e = if e = event then true else m.has e := by
  cases event <;> cases e <;> rfl

theorem has_clear (m : Events) (event e : Event) :
    (m.clear event).has e = if e = event then false else m.has e := by
  cases event <;> cases e <;> rfl

theorem count_set {m : Events} (h : m.has event = false) : (m.set event).count = m.count + 1 := by
  obtain ⟨r,w⟩ := m
  cases event <;> cases h <;> simp [Events.set, Events.count, Nat.add_comm]

theorem count_clear {m : Events} (h : m.has event = true) :
    (m.clear event).count + 1 = m.count := by
  obtain ⟨r,w⟩ := m
  cases event <;> cases h <;> simp [Events.clear, Events.count, Nat.add_comm]

theorem getContext_drop (c : FdContext Sched Fib Cb) (event e : Event) :
    (c.drop event).getContext e = if e = event then {} else c.getContext e := by
  rw [drop, getContext_setContext]
  cases e <;> rfl

@[simp] theorem drop_events (c : FdContext Sched Fib Cb) (event : Event) :
    (c.drop event).events = c.events.clear event := by simp [drop]

@[simp] theorem drop_fd (c : FdContext Sched Fib Cb) (event : Event) :
    (c.drop event).fd = c.fd := by simp [drop]

theorem Settled.drop (hc : Settled c) (event : Event) : Settled (c.drop event) := by
  constructor
  · intro e he
    rw [drop_events, has_clear] at he
    rw [getContext_drop]
    split at he
    · cases he
    next hne =>
      rw [if_neg hne]
      exact hc.full e he
  · intro e he
    rw [drop_events, has_clear] at he
    rw [getContext_drop]
    split at he
    next heq => rw [if_pos heq]
    next hne =>
      rw [if_neg hne]
      exact hc.empty e he

/-- Filling a free event context settles it again. -/
theorem Settled.fill (hc : Settled c) {ctx : EventContext Sched Fib Cb}
    (hw : ctx.work.isSome = true) :
    Settled ({ c with events := c.events.set event }.setContext event ctx) := by
  constructor
  · intro e he
    rw [getContext_setContext]
    rw [setContext_events, has_set] at he
    split
    · exact hw
    next hne =>
      rw [if_neg hne] at he
      have := hc.full e he
      cases e <;> exact this
  · intro e he
    rw [getContext_setContext]
    rw [setContext_events, has_set] at he
    split
    next heq =>
      rw [if_pos heq] at he
      cases he
    next hne =>
      rw [if_neg hne] at he
      have := hc.empty e he
      cases e <;> exact this

/-- A registered event hands over its work, and its context is dropped. -/
theorem triggerEvent_spec (hc : Settled c) (he : c.events.has event = true) :
    ∃ w, (c.getContext event).work = some w ∧
      c.triggerEvent event = .ok ([⟨c.fd,event,w.1,w.2⟩],c.drop event) := by
  obtain ⟨w,hw⟩ := Option.isSome_iff_exists.mp (hc.full event he)
  refine ⟨w,hw,?_⟩
  simp only [triggerEvent, he, Bool.not_true, Bool.false_eq_true, if_false]
  unfold EventContext.work at hw
  split at hw
  next s f hs hf hcb =>
    cases hw
    simp [hs, hf, hcb]
  next s cb hs hf hcb =>
    cases hw
    simp [hs, hcb]
  next => cases hw

theorem triggerEvent_fails (he : c.events.has event = false) :
    c.triggerEvent event = .error .assertion := by
  simp [triggerEvent, he]

end FdContext

namespace IOManager
variable {Sched Fib Cb : Type} {m m' : IOManager Sched Fib Cb} {c c' : FdContext Sched Fib Cb}
  {p fd : ℕ} {event : Event}

/-- Number of event bits set over all contexts. -/
def bits (m : IOManager Sched Fib Cb) : ℕ := (m.heap.map fun c => c.events.count).sum

/-- The context the table holds for a descriptor. -/
def context (fd : ℕ) (m : IOManager Sched Fib Cb) : Option (FdContext Sched Fib Cb) :=
  m.fdContexts[fd]?.bind fun p => m.heap[p]?

structure Accounted (m : IOManager Sched Fib Cb) : Prop where
  table : m.fdContexts = List.range m.heap.length
  size_lt : m.heap.length < 2 ^ 31
  settled : ∀ (p : ℕ) c, m.heap[p]? = some c → FdContext.Settled c
  fd_eq : ∀ (p : ℕ) c, m.heap[p]? = some c → FdContext.fd c = p
  pending : m.pending = UInt64.ofNat m.bits

theorem Accounted.context_eq (hm : Accounted m) (fd : ℕ) : m.context fd = m.heap[fd]? := by
  rw [context, hm.table]
  by_cases hlt : fd < m.heap.length
  · simp [hlt]
  · simp [hlt]

theorem bmod_of_lt {n : ℕ} (h : n < 2 ^ 31) : Int.bmod (n : ℤ) (2 ^ 32) = n :=
  Int.bmod_eq_of_le (by omega) (by norm_num; omega)

theorem bmod_of_ge {n : ℕ} (h : 2 ^ 31 ≤ n) (hlt : n < 2 ^ 32) :
    Int.bmod (n : ℤ) (2 ^ 32) = n - 2 ^ 32 := by
  rw [Int.bmod_eq_iff (by norm_num)]
  refine ⟨?_,?_,?_⟩
  · norm_num
    omega
  · norm_num
    omega
  · norm_num

theorem Accounted.intSize_eq (hm : Accounted m) : m.intSize = m.heap.length := by
  have hlen : m.fdContexts.length = m.heap.length := by rw [hm.table, List.length_range]
  unfold intSize
  rw [hlen]
  exact bmod_of_lt hm.size_lt

theorem Accounted.slot_eq (hm : Accounted m) (hlt : fd < m.heap.length) : m.slot fd = .ok fd := by
  have hget : m.fdContexts[fd]? = some fd := by simp [hm.table, hlt]
  simp only [slot, hget]

theorem Accounted.lookup_eq (hm : Accounted m) (fd : ℕ) :
    m.lookup fd = .ok (if fd < m.heap.length then some fd else none) := by
  by_cases hlt : fd < m.heap.length
  · have hnot : ¬ (m.heap.length : ℤ) ≤ fd := by omega
    simp [lookup, hm.intSize_eq, hlt, hnot, hm.slot_eq hlt, bind, Except.bind]
  · have hle : (m.heap.length : ℤ) ≤ fd := by omega
    simp [lookup, hm.intSize_eq, hlt, hle]

/-- Replacing one context by a settled one, with the counter paid. -/
theorem Accounted.update {pending : UInt64} (hm : Accounted m) (hc : m.heap[p]? = some c)
    (hs : c'.Settled) (hfd : c'.fd = c.fd)
    (hp : pending + UInt64.ofNat c.events.count = m.pending + UInt64.ofNat c'.events.count) :
    Accounted ({ m with pending := pending }.write p c') := by
  obtain ⟨hlt,_⟩ := List.getElem?_eq_some_iff.mp hc
  have hget : ∀ (q : ℕ) x, (m.heap.set p c')[q]? = some x →
      m.heap[q]? = some x ∨ q = p ∧ x = c' := by
    intro q x hx
    rw [List.getElem?_set] at hx
    split at hx
    next heq =>
      subst heq
      cases hx
      exact Or.inr ⟨rfl,rfl⟩
    next => exact Or.inl hx
  constructor
  · simpa [write] using hm.table
  · simpa [write] using hm.size_lt
  · intro q x hx
    rcases hget q x hx with hold | ⟨_,rfl⟩
    · exact hm.settled q x hold
    · exact hs
  · intro q x hx
    rcases hget q x hx with hold | ⟨rfl,rfl⟩
    · exact hm.fd_eq q x hold
    · exact hfd.trans (hm.fd_eq q c hc)
  · have hperm : (c :: m.heap.set p c').Perm (c' :: m.heap) := by
      simpa [hc] using List.getD_set_perm_cons m.heap p c'
    have hsum := (hperm.map fun c => c.events.count).sum_eq
    simp only [List.map_cons, List.sum_cons] at hsum
    have hofNat := congrArg UInt64.ofNat hsum
    rw [UInt64.ofNat_add, UInt64.ofNat_add] at hofNat
    change pending = UInt64.ofNat ((m.heap.set p c').map fun c => c.events.count).sum
    apply (UInt64.add_left_inj (UInt64.ofNat c.events.count)).mp
    rw [hp, hm.pending, UInt64.add_comm, bits, ← hofNat, UInt64.add_comm]

/-- Growing the table adds blank contexts. -/
theorem Accounted.contextResize {size : ℕ} (hm : Accounted m) (hle : m.heap.length ≤ size)
    (hlt : size < 2 ^ 31) :
    Accounted (m.contextResize size) ∧ (m.contextResize size).heap.length = size ∧
      ∀ fd, (m.contextResize size).heap[fd]? =
        if fd < m.heap.length then m.heap[fd]? else
          if fd < size then some { fd := fd } else none := by
  have hlen : m.fdContexts.length = m.heap.length := by rw [hm.table, List.length_range]
  have hheap : (m.contextResize size).heap = m.heap ++
      (List.range (size - m.heap.length)).map fun i => { fd := m.heap.length + i } := by
    simp only [IOManager.contextResize, hlen]
  have hget : ∀ fd, (m.contextResize size).heap[fd]? =
      if fd < m.heap.length then m.heap[fd]? else
        if fd < size then some { fd := fd } else none := by
    intro fd
    rw [hheap]
    by_cases hold : fd < m.heap.length
    · rw [if_pos hold, List.getElem?_append_left hold]
    · rw [if_neg hold, List.getElem?_append_right (by omega), List.getElem?_map]
      by_cases hnew : fd < size
      · rw [List.getElem?_range (by omega), if_pos hnew]
        have heq : m.heap.length + (fd - m.heap.length) = fd := by omega
        simp only [Option.map_some, heq]
      · rw [if_neg hnew, List.getElem?_eq_none (by simp; omega)]
        rfl
  have hsize : (m.contextResize size).heap.length = size := by
    rw [hheap, List.length_append, List.length_map, List.length_range]
    omega
  have hcases : ∀ (p : ℕ) c, (m.contextResize size).heap[p]? = some c →
      m.heap[p]? = some c ∨ c = { fd := p } := by
    intro p c hc
    rw [hget] at hc
    split at hc
    · exact Or.inl hc
    · split at hc
      · exact Or.inr (Option.some.inj hc).symm
      · cases hc
  refine ⟨⟨?_,by omega,?_,?_,?_⟩,hsize,hget⟩
  · rw [hsize]
    simp only [IOManager.contextResize, hm.table, List.length_range]
    rw [List.take_of_length_le (by simpa using hle)]
    have hsplit : size = m.heap.length + (size - m.heap.length) := by omega
    conv_rhs => rw [hsplit, List.range_add]
  · intro p c hc
    rcases hcases p c hc with hold | rfl
    · exact hm.settled p c hold
    · exact FdContext.settled_new p
  · intro p c hc
    rcases hcases p c hc with hold | rfl
    · exact hm.fd_eq p c hold
    · rfl
  · have hbits : (m.contextResize size).bits = m.bits := by
      rw [bits, hheap, List.map_append, List.sum_append, List.map_map]
      simp [bits, Function.comp_def, Events.count]
    rw [hbits]
    exact hm.pending

theorem new_accounted : Accounted (new : IOManager Sched Fib Cb) ∧
    (new : IOManager Sched Fib Cb).heap.length = 32 ∧
    ∀ fd, (new : IOManager Sched Fib Cb).heap[fd]? =
      if fd < 32 then some { fd := fd } else none := by
  have hempty : Accounted ({ heap := [], fdContexts := [], pending := 0 } :
      IOManager Sched Fib Cb) := by
    constructor
    · rfl
    · exact Nat.two_pow_pos 31
    · intro p c hc
      simp at hc
    · intro p c hc
      simp at hc
    · rfl
  obtain ⟨hnew,hlen,hget⟩ := hempty.contextResize (Nat.zero_le 32) (by decide)
  exact ⟨hnew,hlen,fun fd => by simpa [new] using hget fd⟩

end IOManager

end Gudov
