import Gudov.TimerExpiry

/-!
# What Refresh and Reset say about a timer

Both answer true for a timer that is armed. What is armed is read off the history: the timer
was not cancelled and, if it fires once, not handed out. Along every run these are the timers
in the set. The methods test the callback instead, and `Reset` answers before it tests
anything when nothing is to change.
-/
namespace Gudov.TimerManager
open StepSystem
variable {Cb : Type} {m m' : TimerManager Cb} {h k : ℕ} {t : Timer Cb} {o : Seen Cb}
  {op : Op Cb}

/-- The output neither cancels the timer nor hands it out for the only time. -/
def Seen.Spares (h : ℕ) (recurring : Bool) (o : Seen Cb) : Prop :=
  o.cancels h = 0 ∧ (recurring = false → o.handedOut h = 0)

/-- Along the run the timer was not cancelled and, if it fires once, not handed out. -/
def StillArmed (seen : List (Seen Cb)) (h : ℕ) (t : Timer Cb) : Prop :=
  (seen.map (Seen.cancels h)).sum = 0 ∧
    (t.recurring = false → (seen.map (Seen.handedOut h)).sum = 0)

/-- The answer says whether the timer is armed. An armed timer is then in the set with this
period and deadline, and for any other nothing changes. -/
structure Truthful (m : TimerManager Cb) (h : ℕ) (armed : Prop) (ms next : UInt64) (ok : Bool)
    (m' : TimerManager Cb) : Prop where
  answer : ok = true ↔ armed
  done : ok = true → h ∈ m'.timers ∧ ∃ t', m'.heap[h]? = some t' ∧ t'.ms = ms ∧ t'.next = next
  untouched : ok = false → m' = m

/-- The set holds the same timers, and one of them was written. -/
structure Rewritten (m : TimerManager Cb) (h : ℕ) (t' : Timer Cb) (m' : TimerManager Cb) :
    Prop where
  mem : ∀ k, k ∈ m'.timers ↔ k ∈ m.timers
  heap : m'.heap = (m.write h t').heap

theorem addTimerLocked_timers : (m.addTimerLocked h).2.timers = (m.insert h).timers := by
  simp only [addTimerLocked]
  split <;> rfl

/-! ## The effect of one call -/

theorem Rewritten.refl (ht : m.heap[h]? = some t) : Rewritten m h t m where
  mem _ := Iff.rfl
  heap := by
    obtain ⟨hlt,hget⟩ := List.getElem?_eq_some_iff.mp ht
    rw [write, ← hget, List.set_getElem_self]

/-- Taking an armed timer out, writing it and putting it back. -/
theorem Kept.rewritten (hm : Kept m []) (ht : m.heap[h]? = some t) (hc : t.callback.isSome = true)
    (t' : Timer Cb) (ha : t'.addr = t.addr) : ∃ l, m.erase h = some { m with timers := l } ∧
      Rewritten m h t' ((TimerManager.write h t' { m with timers := l }).insert h) := by
  obtain ⟨l,hl,hsorted,hperm⟩ := hm.take_out (hm.armed_mem ht hc)
  have hout := (hm.rearrange hsorted hperm).write t' ht ha
  refine ⟨l,hl,?_,rfl⟩
  intro k
  have hback := hout.put_back.2.mem_iff (a := k)
  rw [List.append_nil] at hback
  rw [hback, ← List.append_nil m.timers, hperm.mem_iff]
  rfl

theorem refresh_effect (now : UInt64) (hm : Kept m []) (ht : m.heap[h]? = some t) :
    ∃ m', m.refresh h now = .ok (t.callback.isSome, m') ∧
      (t.callback.isSome = false → m' = m) ∧
      (t.callback.isSome = true → Rewritten m h { t with next := now + t.ms } m') := by
  cases hc : t.callback.isSome with
  | false =>
    exact ⟨m,refresh_unarmed ht hc,fun _ => rfl,by simp⟩
  | true =>
    obtain ⟨l,hl,hnew⟩ := hm.rewritten ht hc { t with next := now + t.ms } rfl
    exact ⟨_,refresh_armed ht hc hl,by simp,fun _ => hnew⟩

/-- `Reset` leaves the timer with the period and the deadline asked for wherever it answers
true; where it returns early both were so before. -/
theorem reset_effect (ms : UInt64) (fromNow : Bool) (now : UInt64) (hm : Kept m [])
    (ht : m.heap[h]? = some t) :
    ∃ ok notified m', m.reset h ms fromNow now = .ok (ok, notified, m') ∧
      ok = (t.callback.isSome || (ms == t.ms && !fromNow)) ∧ (ok = false → m' = m) ∧
      (ok = true → Rewritten m h
        { t with ms := ms, next := (if fromNow then now else t.next - t.ms) + ms } m') := by
  cases hsame : ms == t.ms && !fromNow with
  | true =>
    refine ⟨true,false,m,reset_unchanged ht hsame,by simp,by simp,?_⟩
    intro _
    simp only [Bool.and_eq_true, beq_iff_eq, Bool.not_eq_true'] at hsame
    obtain ⟨rfl,rfl⟩ := hsame
    rw [if_neg Bool.false_ne_true, UInt64.sub_add_cancel]
    exact Rewritten.refl ht
  | false =>
    cases hc : t.callback.isSome with
    | false =>
      exact ⟨false,false,m,reset_unarmed ht hsame hc,rfl,fun _ => rfl,by simp⟩
    | true =>
      let t' := { t with ms := ms, next := (if fromNow then now else t.next - t.ms) + ms }
      obtain ⟨l,hl,hnew⟩ := hm.rewritten ht hc t' rfl
      refine ⟨true,(addTimerLocked h (write h t' { m with timers := l })).1,
        (addTimerLocked h (write h t' { m with timers := l })).2,
        reset_armed ht hsame hc hl,rfl,by simp,?_⟩
      intro _
      refine ⟨?_,by rw [addTimerLocked_heap]; exact hnew.heap⟩
      intro k
      rw [addTimerLocked_timers, hnew.mem]

theorem cancel_effect (hm : Kept m []) (ht : m.heap[h]? = some t) :
    ∃ m', m.cancel h = .ok (t.callback.isSome, m') ∧
      (t.callback.isSome = false → m' = m) ∧
      (t.callback.isSome = true → m'.heap = (m.write h { t with callback := none }).heap ∧
        ∀ k, k ∈ m'.timers ↔ k ∈ m.timers ∧ k ≠ h) := by
  cases hc : t.callback.isSome with
  | false =>
    exact ⟨m,cancel_unarmed ht hc,fun _ => rfl,by simp⟩
  | true =>
    obtain ⟨l,hl,hsorted,hperm⟩ := hm.take_out (hm.armed_mem ht hc)
    have hout := hm.rearrange hsorted hperm
    refine ⟨_,cancel_armed ht hc hl,by simp,fun _ => ⟨rfl,?_⟩⟩
    intro k
    have hmem := hperm.mem_iff (a := k)
    simp only [List.append_nil, List.mem_append, List.mem_singleton] at hmem
    rw [hmem]
    constructor
    · intro hk
      exact ⟨Or.inl hk,hout.ne_pending hk⟩
    · rintro ⟨hk | hk,hne⟩
      · exact hk
      · exact absurd hk hne

/-! ## Which timers are in the set -/

/-- Whether the timer recurs; `none` before it is made. -/
def flag (m : TimerManager Cb) (h : ℕ) : Option Bool := m.heap[h]?.map Timer.recurring

/-- The timer is in the set or not yet made. -/
def Waits (m : TimerManager Cb) (h : ℕ) : Prop := m.flag h = none ∨ h ∈ m.timers

theorem write_flag (t' : Timer Cb) (ht : m.heap[h]? = some t) (hr : t'.recurring = t.recurring)
    (k : ℕ) : (m.write h t').flag k = m.flag k := by
  by_cases hk : k = h
  · subst hk
    rw [flag, flag, write_self ht, ht, Option.map_some, Option.map_some, hr]
  · rw [flag, flag, write_other hk]

theorem Rewritten.waits {t' : Timer Cb} (hw : Rewritten m h t' m') (ht : m.heap[h]? = some t)
    (hr : t'.recurring = t.recurring) (k : ℕ) :
    m'.flag k = m.flag k ∧ (m'.Waits k ↔ m.Waits k) := by
  have hflag : m'.flag k = m.flag k := by
    rw [flag, hw.heap]
    exact write_flag t' ht hr k
  refine ⟨hflag,?_⟩
  rw [Waits, Waits, hflag, hw.mem]

/-- A new timer is in the set and the others stay as they are. -/
theorem addTimer_waits (now ms : UInt64) (callback : Option Cb) (recurring : Bool) {addr : ℕ}
    (hm : Kept m []) (hfresh : ∀ k ∈ m.timers, ∀ x, m.heap[k]? = some x → x.addr ≠ addr) :
    (∀ r, m.flag h = some r → (m.addTimer now ms callback recurring addr).2.2.flag h = some r) ∧
      ((m.addTimer now ms callback recurring addr).2.2.Waits h ↔ m.Waits h) := by
  let t : Timer Cb :=
    { recurring := recurring, ms := ms, next := now + ms, callback := callback, addr := addr }
  have hheap : (m.addTimer now ms callback recurring addr).2.2.heap = m.heap ++ [t] := by
    simp only [addTimer, addTimerLocked_heap, t]
  have hmem : h ∈ (m.addTimer now ms callback recurring addr).2.2.timers ↔
      h ∈ m.timers ∨ h = m.heap.length := by
    have hback := (hm.allocate (t := t) hfresh).put_back.2.mem_iff (a := h)
    simp only [List.append_nil, List.mem_append, List.mem_singleton] at hback
    rw [← hback]
    simp only [addTimer, addTimerLocked_timers, t]
  rcases Nat.lt_trichotomy h m.heap.length with hlt | rfl | hlt
  · have hold : (m.addTimer now ms callback recurring addr).2.2.flag h = m.flag h := by
      rw [flag, flag, hheap, List.getElem?_append_left hlt]
    refine ⟨fun r hr => by rw [hold, hr],?_⟩
    rw [Waits, Waits, hold, hmem, or_iff_left (Nat.ne_of_lt hlt)]
  · have hnone : m.flag m.heap.length = none := by simp [flag]
    refine ⟨fun r hr => absurd hr (by simp [hnone]),?_⟩
    exact iff_of_true (Or.inr (hmem.mpr (Or.inr rfl))) (Or.inl hnone)
  · have hnone : m.flag h = none := by
      rw [flag, List.getElem?_eq_none (by omega), Option.map_none]
    refine ⟨fun r hr => absurd hr (by simp [hnone]),?_⟩
    refine iff_of_true (Or.inl ?_) (Or.inl hnone)
    rw [flag, hheap, List.getElem?_eq_none (by simp; omega), Option.map_none]

theorem cancel_waits (r : Bool) (hm : Kept m []) (ht : m.heap[k]? = some t)
    (hrun : m.cancel k = .ok (t.callback.isSome, m')) : m'.flag h = m.flag h ∧
      (m'.Waits h ↔ m.Waits h ∧ (Seen.cancelled k t.callback.isSome : Seen Cb).Spares h r) := by
  obtain ⟨m₁,hrun₁,hsame,hgone⟩ := cancel_effect hm ht
  rw [hrun] at hrun₁
  cases hrun₁
  cases hc : t.callback.isSome with
  | false =>
    rw [hsame hc]
    simp [Seen.Spares, Seen.cancels, Seen.handedOut]
  | true =>
    obtain ⟨hheap,hmem⟩ := hgone hc
    have hwrite : (m.write k { t with callback := none }).flag h = m.flag h :=
      write_flag { t with callback := none } ht rfl h
    have hflag : m'.flag h = m.flag h := by
      rw [← hwrite, flag, flag, hheap]
    refine ⟨hflag,?_⟩
    rw [Waits, Waits, hflag, hmem]
    by_cases hkh : k = h
    · subst hkh
      simp [Seen.Spares, Seen.cancels, flag, ht]
    · have hne : h ≠ k := fun he => hkh he.symm
      simp [Seen.Spares, Seen.cancels, Seen.handedOut, hkh, hne]

theorem expired_flag {now : UInt64} {callbacks : List (ℕ × Option Cb)} (hm : Kept m [])
    (hx : ExpiresExactly m now callbacks m') (h : ℕ) : m'.flag h = m.flag h := by
  by_cases hE : m.Expires now h
  · obtain ⟨t,ht⟩ := hm.known h (List.mem_append_left [] hE.1)
    cases hr : t.recurring with
    | true => simp [flag, ht, (hx.recurring h t hE ht hr).2]
    | false => simp [flag, ht, (hx.oneShot h t hE ht hr).2]
  · rw [flag, flag, (hx.others h hE).2]

theorem expired_waits {now : UInt64} {callbacks : List (ℕ × Option Cb)} {r : Bool}
    (hm : Kept m []) (hx : ExpiresExactly m now callbacks m') (hr : ∀ r' ∈ m.flag h, r' = r) :
    m'.Waits h ↔ m.Waits h ∧ (Seen.expired callbacks).Spares h r := by
  rw [Waits, Waits, expired_flag hm hx h]
  by_cases hE : m.Expires now h
  · obtain ⟨t,ht⟩ := hm.known h (List.mem_append_left [] hE.1)
    have hone : (callbacks.map Prod.fst).count h = 1 :=
      List.count_eq_one_of_mem hx.once ((hx.handedOut h).mpr hE)
    have hrec : t.recurring = r := hr t.recurring (by simp [flag, ht])
    cases r with
    | true =>
      have hin : h ∈ m'.timers :=
        List.count_pos_iff.mp (by rw [(hx.recurring h t hE ht hrec).1]; exact Nat.one_pos)
      simp [Seen.Spares, Seen.cancels, hin, hE.1]
    | false =>
      have hout := List.count_eq_zero.mp (hx.oneShot h t hE ht hrec).1
      simp [Seen.Spares, Seen.handedOut, flag, ht, hone, hout]
  · have hmem : h ∈ m'.timers ↔ h ∈ m.timers := by
      rw [← List.count_pos_iff, ← List.count_pos_iff, (hx.others h hE).1]
    have hzero : (callbacks.map Prod.fst).count h = 0 := by
      rw [List.count_eq_zero, hx.handedOut h]
      exact hE
    rw [hmem]
    simp [Seen.Spares, Seen.cancels, Seen.handedOut, hzero]

theorem step_waits {r : Bool} (hm : Kept m []) (hop : m.Callable op)
    (hstep : m.step op = .ok (o, m')) (hr : ∀ r' ∈ m'.flag h, r' = r) :
    (∀ r' ∈ m.flag h, r' = r) ∧ (m'.Waits h ↔ m.Waits h ∧ o.Spares h r) := by
  have hget : ∀ k, k < m.heap.length → ∃ t, m.heap[k]? = some t := fun k hlt =>
    ⟨_,List.getElem?_eq_getElem hlt⟩
  -- An operation that only rewrites a timer gives nothing away.
  have hquiet : o.Spares h r → m'.flag h = m.flag h ∧ (m'.Waits h ↔ m.Waits h) →
      (∀ r' ∈ m.flag h, r' = r) ∧ (m'.Waits h ↔ m.Waits h ∧ o.Spares h r) := by
    rintro hspares ⟨hflag,hwaits⟩
    rw [hflag] at hr
    exact ⟨hr,by rw [hwaits, and_iff_left hspares]⟩
  cases op with
  | addTimer now ms callback recurring addr =>
    obtain ⟨hflag,hwaits⟩ := addTimer_waits (h := h) now ms callback recurring hm hop
    cases hstep
    refine ⟨fun r' hr' => hr r' (hflag r' hr'),?_⟩
    refine hwaits.trans (and_iff_left ?_).symm
    simp [Seen.Spares, Seen.cancels, Seen.handedOut]
  | cancel k =>
    obtain ⟨t,ht⟩ := hget k hop
    obtain ⟨m₁,hrun,-⟩ := cancel_effect hm ht
    have hstep' : m.step (.cancel k) = .ok (.cancelled k t.callback.isSome, m₁) := bind_ok hrun
    rw [hstep'] at hstep
    cases hstep
    obtain ⟨hflag,hwaits⟩ := cancel_waits (h := h) r hm ht hrun
    exact ⟨by rwa [← hflag],hwaits⟩
  | refresh k now =>
    obtain ⟨t,ht⟩ := hget k hop
    obtain ⟨m₁,hrun,hsame,hnew⟩ := refresh_effect now hm ht
    have hstep' : m.step (.refresh k now) = .ok (.refreshed k t.callback.isSome, m₁) :=
      bind_ok hrun
    rw [hstep'] at hstep
    cases hstep
    refine hquiet (by simp [Seen.Spares, Seen.cancels, Seen.handedOut]) ?_
    cases hc : t.callback.isSome with
    | false => exact ⟨by rw [hsame hc],by rw [hsame hc]⟩
    | true => exact (hnew hc).waits ht rfl h
  | reset k ms fromNow now =>
    obtain ⟨t,ht⟩ := hget k hop
    obtain ⟨ok,notified,m₁,hrun,-,hsame,hnew⟩ := reset_effect ms fromNow now hm ht
    have hstep' : m.step (.reset k ms fromNow now) = .ok (.reset k ok notified, m₁) :=
      bind_ok hrun
    rw [hstep'] at hstep
    cases hstep
    refine hquiet (by simp [Seen.Spares, Seen.cancels, Seen.handedOut]) ?_
    cases hok : ok with
    | false => exact ⟨by rw [hsame hok],by rw [hsame hok]⟩
    | true => exact (hnew hok).waits ht rfl h
  | getNextTimeout now =>
    obtain ⟨⟨ms,m₁⟩,hrun,hstep⟩ := exists_of_bind_eq_ok hstep
    cases hstep
    obtain ⟨rfl,-⟩ := getNextTimeout_cases hrun
    exact hquiet (by simp [Seen.Spares, Seen.cancels, Seen.handedOut]) ⟨rfl,Iff.rfl⟩
  | listExpiredCallbacks now addr =>
    obtain ⟨⟨callbacks,m₁⟩,hrun,hstep⟩ := exists_of_bind_eq_ok hstep
    cases hstep
    have hx := listExpiredCallbacks_exact hm hrun
    rw [expired_flag hm hx h] at hr
    exact ⟨hr,expired_waits hm hx hr⟩

/-- Over a whole run. -/
theorem run_waits {r : Bool} {ops : List (Op Cb)} {seen : List (Seen Cb)} (hm : Kept m [])
    (hok : Along step Callable ops m) (hrun : run step ops m = .ok (seen, m'))
    (hr : ∀ r' ∈ m'.flag h, r' = r) :
    (∀ r' ∈ m.flag h, r' = r) ∧
      (m'.Waits h ↔ m.Waits h ∧ ∀ o ∈ seen, o.Spares h r) := by
  induction ops generalizing m seen with
  | nil =>
    cases hrun
    exact ⟨hr,by simp⟩
  | cons op ops ih =>
    obtain ⟨o,m₁,hstep,hm₁⟩ := step_kept op hm hok.1
    obtain ⟨seen',m₂,hrest,-⟩ := Along.run_invariant
      (fun _ op hm hop => step_kept op hm hop) hm₁ (hok.2 o m₁ hstep)
    simp only [run, hstep, hrest] at hrun
    cases hrun
    obtain ⟨hr₁,hrest⟩ := ih hm₁ (hok.2 o m₁ hstep) hrest
    obtain ⟨hr₀,hfirst⟩ := step_waits hm hok.1 hstep hr₁
    refine ⟨hr₀,?_⟩
    rw [hrest, hfirst, List.forall_mem_cons, and_assoc]

theorem stillArmed_iff (seen : List (Seen Cb)) :
    StillArmed seen h t ↔ ∀ o ∈ seen, o.Spares h t.recurring := by
  simp only [StillArmed, Seen.Spares, List.sum_eq_zero_iff_forall_eq_nat, List.forall_mem_map]
  constructor
  · rintro ⟨hcancels,hout⟩ o ho
    exact ⟨hcancels o ho,fun hr => hout hr o ho⟩
  · intro hall
    exact ⟨fun o ho => (hall o ho).1,fun hr o ho => (hall o ho).2 hr⟩

/-- In every reachable state the timers that are still armed are those in the set. -/
theorem mem_iff_stillArmed {start : UInt64} {ops : List (Op Cb)} {seen : List (Seen Cb)}
    (hok : Along step Callable ops (new start)) (hrun : run step ops (new start) = .ok (seen, m))
    (ht : m.heap[h]? = some t) : h ∈ m.timers ↔ StillArmed seen h t := by
  have hflag : m.flag h = some t.recurring := by rw [flag, ht, Option.map_some]
  have hr : ∀ r' ∈ m.flag h, r' = t.recurring := by
    intro r' hr'
    rw [hflag] at hr'
    cases hr'
    rfl
  have hwaits := (run_waits (new_kept start) hok hrun hr).2
  have hstart : (new start : TimerManager Cb).Waits h := Or.inl (by simp [flag, new])
  rw [stillArmed_iff, ← and_iff_right (b := ∀ o ∈ seen, o.Spares h t.recurring) hstart, ← hwaits,
    Waits, hflag]
  simp

/-! ## The answers -/

theorem refresh_truthful {armed : Prop} (now : UInt64) (hm : Kept m []) (ht : m.heap[h]? = some t)
    (harmed : h ∈ m.timers ↔ armed) :
    ∃ ok m', m.refresh h now = .ok (ok, m') ∧
      (Truthful m h armed t.ms (now + t.ms) ok m' ↔
        (h ∈ m.timers → t.callback.isSome = true)) := by
  obtain ⟨m',hrun,hsame,hnew⟩ := refresh_effect now hm ht
  refine ⟨t.callback.isSome,m',hrun,?_⟩
  constructor
  · intro htrue hh
    exact htrue.answer.mpr (harmed.mp hh)
  · intro hcond
    refine ⟨⟨fun hc => harmed.mp (hm.armed_mem ht hc),fun ha => hcond (harmed.mpr ha)⟩,?_,hsame⟩
    intro hc
    refine ⟨((hnew hc).mem h).mpr (hm.armed_mem ht hc),{ t with next := now + t.ms },?_,rfl,rfl⟩
    rw [(hnew hc).heap, write_self ht]

theorem reset_truthful {armed : Prop} (ms : UInt64) (fromNow : Bool) (now : UInt64)
    (hm : Kept m []) (ht : m.heap[h]? = some t) (harmed : h ∈ m.timers ↔ armed) :
    ∃ ok notified m', m.reset h ms fromNow now = .ok (ok, notified, m') ∧
      (Truthful m h armed ms ((if fromNow then now else t.next - t.ms) + ms) ok m' ↔
        if ms = t.ms ∧ fromNow = false then h ∈ m.timers
        else (h ∈ m.timers → t.callback.isSome = true)) := by
  obtain ⟨ok,notified,m',hrun,hanswer,hsame,hnew⟩ := reset_effect ms fromNow now hm ht
  refine ⟨ok,notified,m',hrun,?_⟩
  have hdone : ok = true → h ∈ m.timers → h ∈ m'.timers ∧ ∃ t', m'.heap[h]? = some t' ∧
      t'.ms = ms ∧ t'.next = (if fromNow then now else t.next - t.ms) + ms := by
    intro hc hh
    refine ⟨((hnew hc).mem h).mpr hh,
      { t with ms := ms, next := (if fromNow then now else t.next - t.ms) + ms },?_,rfl,rfl⟩
    rw [(hnew hc).heap, write_self ht]
  by_cases hearly : ms = t.ms ∧ fromNow = false
  · rw [if_pos hearly]
    have htrue : ok = true := by simp [hanswer, hearly.1, hearly.2]
    constructor
    · intro h
      exact harmed.mpr (h.answer.mp htrue)
    · intro hh
      exact ⟨iff_of_true htrue (harmed.mp hh),fun hc => hdone hc hh,hsame⟩
  · rw [if_neg hearly]
    have hcallback : ok = t.callback.isSome := by
      have hno : (ms == t.ms && !fromNow) = false := by simpa using hearly
      rw [hanswer, hno, Bool.or_false]
    rw [← hcallback]
    constructor
    · intro htrue hh
      exact htrue.answer.mpr (harmed.mp hh)
    · intro hcond
      have hin : ok = true → h ∈ m.timers := fun hc => hm.armed_mem ht (hcallback ▸ hc)
      exact ⟨⟨fun hc => harmed.mp (hin hc),fun ha => hcond (harmed.mpr ha)⟩,
        fun hc => hdone hc (hin hc),hsame⟩

/-- In every reachable state and for every timer: `Refresh` is truthful unless the timer was
made without a callback and is still in the set, and so is `Reset` where something is to
change. Where nothing is, `Reset` is truthful only for timers that are in the set. -/
theorem liveness_truthful_iff (start : UInt64) (ops : List (Op Cb))
    (hok : Along step Callable ops (new start)) :
    ∃ seen m, run step ops (new start) = .ok (seen, m) ∧ ∀ h t, m.heap[h]? = some t →
      (∀ now, ∃ ok m', m.refresh h now = .ok (ok, m') ∧
        (Truthful m h (StillArmed seen h t) t.ms (now + t.ms) ok m' ↔
          (h ∈ m.timers → t.callback.isSome = true))) ∧
      ∀ ms fromNow now, ∃ ok notified m', m.reset h ms fromNow now = .ok (ok, notified, m') ∧
        (Truthful m h (StillArmed seen h t) ms ((if fromNow then now else t.next - t.ms) + ms)
            ok m' ↔
          if ms = t.ms ∧ fromNow = false then h ∈ m.timers
          else (h ∈ m.timers → t.callback.isSome = true)) := by
  obtain ⟨seen,m,hrun,hm⟩ := Along.run_invariant
    (fun _ op hm hop => step_kept op hm hop) (new_kept start) hok
  refine ⟨seen,m,hrun,?_⟩
  intro h t ht
  have harmed := mem_iff_stillArmed hok hrun ht
  exact ⟨fun now => refresh_truthful now hm ht harmed,
    fun ms fromNow now => reset_truthful ms fromNow now hm ht harmed⟩

/-- A recurring timer that fired once is refreshed. -/
theorem liveness_truthful_iff_recurring :
    ∃ seen m, run step [.addTimer 10 5 (some ()) true 100, .listExpiredCallbacks 15 104] (new 0) =
        .ok (seen, m) ∧ ∃ t, m.heap[0]? = some t ∧
      ∃ m', m.refresh 0 17 = .ok (true, m') ∧
        Truthful m 0 (StillArmed seen 0 t) 5 22 true m' := by
  have hok : Along step Callable
      [.addTimer 10 5 (some ()) true 100, .listExpiredCallbacks 15 104] (new 0) :=
    Along.cons (by simp [Callable, new]) rfl (Along.cons trivial rfl trivial)
  obtain ⟨seen,m,hrun,hall⟩ := liveness_truthful_iff 0 _ hok
  refine ⟨seen,m,hrun,?_⟩
  cases hrun
  obtain ⟨ok,m',hcall,hiff⟩ := (hall 0 _ rfl).1 17
  refine ⟨_,rfl,m',?_⟩
  cases hcall
  exact ⟨rfl,hiff.mpr fun _ => rfl⟩

/-- A one-shot timer of five milliseconds has fired. `Reset` with the same period answers
true, though the timer is no longer armed and stays out of the set. -/
theorem reset_answers_true_when_spent :
    ∃ seen m, run step [.addTimer 10 5 (some ()) false 100, .listExpiredCallbacks 15 104] (new 0) =
        .ok (seen, m) ∧ ∃ t, m.heap[0]? = some t ∧ ¬ StillArmed seen 0 t ∧
      ∃ m', m.reset 0 5 false 20 = .ok (true, false, m') ∧ 0 ∉ m'.timers ∧
        ¬ Truthful m 0 (StillArmed seen 0 t) 5
          ((if false then 20 else t.next - t.ms) + 5) true m' := by
  refine ⟨_,_,rfl,_,rfl,?_,_,rfl,by decide,?_⟩
  · intro hstill
    exact absurd (hstill.2 rfl) (by decide)
  · intro htrue
    exact absurd (htrue.done rfl).1 (by decide)

end Gudov.TimerManager
