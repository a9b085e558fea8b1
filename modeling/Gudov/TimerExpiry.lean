import Gudov.TimerFront

/-!
# Which timers expire

`ListExpiredCallbacks` looks for the end of the expired range with a timer of its own, whose
address takes part in the order, and then passes over the timers that are due at the very
reading. Wherever that timer comes to stand, the range holds the timers that are due.
-/
namespace Gudov.TimerManager
open StepSystem
variable {Cb : Type} {m m' : TimerManager Cb} {h k : ℕ} {t : Timer Cb} {ps : List ℕ}
  {now : UInt64} {addr : ℕ} {callbacks : List (ℕ × Option Cb)}

/-- The timer is in the set and due, or the clock was turned back. -/
def Expires (m : TimerManager Cb) (now : UInt64) (h : ℕ) : Prop :=
  h ∈ m.timers ∧ ((m.detectClockRollover now).1 = true ∨ ∀ t, m.heap[h]? = some t → t.next ≤ now)

/-- The timers that expire are handed out, each once and in the order of their deadlines. The
one-shot ones are gone then, the recurring ones are armed anew and the others are as before. -/
structure ExpiresExactly (m : TimerManager Cb) (now : UInt64) (callbacks : List (ℕ × Option Cb))
    (m' : TimerManager Cb) : Prop where
  once : (callbacks.map Prod.fst).Nodup
  handedOut : ∀ h, h ∈ callbacks.map Prod.fst ↔ m.Expires now h
  callback : ∀ x ∈ callbacks, ∃ t, m.heap[x.1]? = some t ∧ x.2 = t.callback
  order : (callbacks.map Prod.fst).Pairwise fun a b =>
    ∀ x y, m.heap[a]? = some x → m.heap[b]? = some y → x.next ≤ y.next
  oneShot : ∀ h t, m.Expires now h → m.heap[h]? = some t → t.recurring = false →
    m'.timers.count h = 0 ∧ m'.heap[h]? = some { t with callback := none }
  recurring : ∀ h t, m.Expires now h → m.heap[h]? = some t → t.recurring = true →
    m'.timers.count h = 1 ∧ m'.heap[h]? = some { t with next := now + t.ms }
  others : ∀ h, ¬ m.Expires now h →
    m'.timers.count h = m.timers.count h ∧ m'.heap[h]? = m.heap[h]?

/-! ## The range -/

/-- The bound of a deadline passes on along the set. -/
theorem Kept.bound_passes (hm : Kept m ps) {P : UInt64 → Prop}
    (hP : ∀ x y : UInt64, x ≤ y → P x → P y) (hh : h ∈ m.timers)
    (hle : ∀ x y, m.heap[h]? = some x → m.heap[k]? = some y → x.next ≤ y.next)
    (hbound : ∀ x, m.heap[h]? = some x → P x.next) : ∀ y, m.heap[k]? = some y → P y.next := by
  intro y hy
  obtain ⟨x,hx⟩ := hm.known h (List.mem_append_left ps hh)
  exact hP x.next y.next (hle x y hx hy) (hbound x hx)

/-- A timer that does not come before the reading is not due earlier. -/
theorem le_next_of_not_before (hbefore : m.comesBefore now addr h = false)
    (ht : m.heap[h]? = some t) : now ≤ t.next := by
  simp only [comesBefore, ht, Timer.comparator] at hbefore
  grind

/-- No timer behind the expired range is due. -/
theorem Kept.not_due (hm : Kept m ps) (hh : h ∈ m.timers.drop (m.expiredCount false now addr)) :
    ∀ t, m.heap[h]? = some t → now < t.next := by
  rw [(expired_split now addr m).2] at hh
  have hsub : (m.timers.dropWhile (m.comesBefore now addr)).Sublist m.timers :=
    List.dropWhile_sublist _
  have hfrom : ∀ k ∈ m.timers.dropWhile (m.comesBefore now addr), ∀ x, m.heap[k]? = some x →
      now ≤ x.next :=
    OrderedList.forall_mem_dropWhile hm.next_sorted (fun _ _ hk _ => le_next_of_not_before hk)
      fun a ha _ hle => hm.bound_passes (fun _ _ hxy hx => UInt64.le_trans hx hxy) ha hle
  refine OrderedList.forall_mem_dropWhile (Q := fun k => ∀ x, m.heap[k]? = some x → now < x.next)
    (hm.next_sorted.sublist hsub) ?_ ?_ h hh
  · intro k hk hdue x hx
    have hne : x.next ≠ now := by
      simpa [dueAt, hx] using hdue
    exact UInt64.lt_of_le_of_ne (hfrom k hk x hx) hne.symm
  · intro a ha _ hle
    exact hm.bound_passes (fun _ _ hxy hx => UInt64.lt_of_lt_of_le hx hxy) (hsub.mem ha) hle

/-- The expired range holds the timers that expire. -/
theorem Kept.mem_range (hm : Kept m []) :
    h ∈ m.timers.take (m.expiredCount (m.detectClockRollover now).1 now addr) ↔
      m.Expires now h := by
  cases hroll : (m.detectClockRollover now).1 with
  | true =>
    have hall : m.timers.take (m.expiredCount true now addr) = m.timers := List.take_length
    rw [hall, Expires, hroll]
    simp
  | false =>
    rw [Expires, hroll]
    simp only [Bool.false_eq_true, false_or]
    constructor
    · intro hh
      exact ⟨List.mem_of_mem_take hh,fun t ht => next_le_of_expired hh ht⟩
    · rintro ⟨hh,hdue⟩
      rw [← List.take_append_drop (m.expiredCount false now addr) m.timers, List.mem_append] at hh
      rcases hh with hh | hh
      · exact hh
      · obtain ⟨t,ht⟩ := hm.known h (by simpa using List.mem_of_mem_drop hh)
        exact absurd (hdue t ht) (UInt64.not_le.mpr (hm.not_due hh t ht))

/-! ## The whole call -/

/-- With timers in the set the call is the loop over the expired range. Where it returns early
the range is empty. -/
theorem listExpiredCallbacks_eq (hm : Kept m []) (hl : m.timers ≠ []) :
    m.listExpiredCallbacks now addr =
      expireLoop now (m.timers.take (m.expiredCount (m.detectClockRollover now).1 now addr))
        { m with
          previousTime := now
          timers := m.timers.drop (m.expiredCount (m.detectClockRollover now).1 now addr) } := by
  obtain ⟨first,rest,hcons⟩ := List.exists_cons_of_ne_nil hl
  obtain ⟨t,ht⟩ := hm.known first (by simp [hcons])
  rw [listExpiredCallbacks_first hcons ht]
  split
  next hearly =>
    simp only [Bool.and_eq_true, Bool.not_eq_true', decide_eq_true_eq] at hearly
    have hnone : m.timers.take (m.expiredCount (m.detectClockRollover now).1 now addr) = [] := by
      rw [List.eq_nil_iff_forall_not_mem]
      intro h hh
      obtain ⟨hmem,hroll | hdue⟩ := hm.mem_range.mp hh
      · rw [hearly.1] at hroll
        cases hroll
      · obtain ⟨x,hx⟩ := hm.known h (List.mem_append_left [] hmem)
        have hle := UInt64.le_trans (hm.first_next hcons hmem ht hx) (hdue x hx)
        exact absurd hle (UInt64.not_le.mpr hearly.2)
    have hzero := (List.take_eq_nil_iff.mp hnone).resolve_right hl
    rw [hnone, hzero]
    rfl
  next => rfl

theorem listExpiredCallbacks_exact (hm : Kept m [])
    (hrun : m.listExpiredCallbacks now addr = .ok (callbacks, m')) :
    ExpiresExactly m now callbacks m' := by
  by_cases hl : m.timers = []
  · rw [listExpiredCallbacks_empty hl] at hrun
    cases hrun
    have hnone : ∀ h, ¬ m.Expires now h := by
      intro h hh
      rw [Expires, hl] at hh
      simp at hh
    exact ⟨by simp,by simp [hnone],by simp,by simp,fun h _ hh => absurd hh (hnone h),
      fun h _ hh => absurd hh (hnone h),fun _ _ => ⟨rfl,rfl⟩⟩
  rw [listExpiredCallbacks_eq hm hl] at hrun
  have hsplit := hm.split now (m.expiredCount (m.detectClockRollover now).1 now addr)
  have hspent := expireLoop_spends hsplit hrun
  have hfst := expireLoop_handsOut hrun
  have hrange : ∀ h, h ∈ m.timers.take (m.expiredCount (m.detectClockRollover now).1 now addr) ↔
      m.Expires now h := fun h => hm.mem_range
  obtain ⟨_,_,hrun',hm'⟩ := expireLoop_kept now hsplit
  rw [hrun] at hrun'
  cases hrun'
  have hnodup : m.timers.Nodup := by simpa using hm.nodup
  have hnodup' : m'.timers.Nodup := by simpa using hm'.nodup
  constructor
  · rw [hfst]
    exact hnodup.sublist (List.take_sublist _ _)
  · intro h
    rw [hfst, hrange]
  · exact hspent.callback
  · rw [hfst]
    exact hm.next_sorted.sublist (List.take_sublist _ _)
  · intro h t hh ht hr
    have hspentHeap := hspent.heap h ((hrange h).mpr hh) t ht
    rw [spent, if_neg (by simp [hr])] at hspentHeap
    refine ⟨List.count_eq_zero.mpr ?_,hspentHeap⟩
    rw [hspent.mem h ((hrange h).mpr hh) t ht, hr]
    simp
  · intro h t hh ht hr
    have hspentHeap := hspent.heap h ((hrange h).mpr hh) t ht
    rw [spent, if_pos hr] at hspentHeap
    exact ⟨List.count_eq_one_of_mem hnodup' ((hspent.mem h ((hrange h).mpr hh) t ht).mpr hr),
      hspentHeap⟩
  · intro h hh
    rw [← hrange] at hh
    refine ⟨?_,hspent.otherHeap h hh⟩
    have hmem : h ∈ m'.timers ↔ h ∈ m.timers := by
      rw [hspent.otherMem h hh]
      constructor
      · exact List.mem_of_mem_drop
      · intro hmem
        rw [← List.take_append_drop (m.expiredCount (m.detectClockRollover now).1 now addr)
          m.timers, List.mem_append] at hmem
        exact hmem.resolve_left hh
    rw [hnodup'.count, hnodup.count]
    simp only [hmem]

/-- In every reachable state and at every reading of the clock, `ListExpiredCallbacks` hands
out exactly the timers that expire. -/
theorem expiry_exact (start : UInt64) (ops : List (Op Cb)) (hok : Along step Callable ops (new start)) :
    ∃ seen m, run step ops (new start) = .ok (seen, m) ∧ ∀ now addr,
      ∃ callbacks m', m.listExpiredCallbacks now addr = .ok (callbacks, m') ∧
        ExpiresExactly m now callbacks m' := by
  obtain ⟨seen,m,hrun,hm⟩ := Along.run_invariant
    (fun _ op hm hop => step_kept op hm hop) (new_kept start) hok
  refine ⟨seen,m,hrun,?_⟩
  intro now addr
  obtain ⟨callbacks,m',hcall,_⟩ := listExpiredCallbacks_kept now addr hm
  exact ⟨callbacks,m',hcall,listExpiredCallbacks_exact hm hcall⟩

/-- A one-shot timer at 15 and a recurring one with an empty callback at 13, at the reading 15. -/
theorem expiry_exact_fifteen :
    ∃ seen m, run step [.addTimer 10 5 (some ()) false 100, .addTimer 10 3 none true 96] (new 0) =
        .ok (seen, m) ∧
      ∃ callbacks m', m.listExpiredCallbacks 15 104 = .ok (callbacks, m') ∧
        ExpiresExactly m 15 callbacks m' ∧ callbacks = [(1, none), (0, some ())] := by
  have hok : Along step Callable [.addTimer 10 5 (some ()) false 100, .addTimer 10 3 none true 96]
      (new 0) := by
    refine Along.cons (by simp [Callable, new]) rfl (Along.cons ?_ rfl trivial)
    intro k hk x hx
    have hk0 : k = 0 := List.mem_singleton.mp hk
    subst hk0
    cases hx
    decide
  obtain ⟨seen,m,hrun,hall⟩ := expiry_exact 0 _ hok
  obtain ⟨callbacks,m',hcall,hexact⟩ := hall 15 104
  refine ⟨seen,m,hrun,callbacks,m',hcall,hexact,?_⟩
  cases hrun
  cases hcall
  rfl

end Gudov.TimerManager
