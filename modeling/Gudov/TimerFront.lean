import Gudov.TimerHistory

/-!
# An earlier deadline is announced

A thread sleeps for the timeout that `GetNextTimeout` reported. Deadlines move in six
ways and only one of them calls `OnTimerInsertedAtFront`, unless `tickled_` suppresses
it. While the clock does not go back, the silent ones only move deadlines later: a timer
in the set was armed at a reading already taken, and re-arming adds the same period to a
later one.
-/
namespace Gudov.TimerManager
open StepSystem
variable {Cb : Type} {m m' : TimerManager Cb} {h k : ℕ} {t t' x : Timer Cb} {ps : List ℕ}

/-! ## Every call returns -/

/-- A method is called on an existing timer, and the address of a new timer is not that of
one the set keeps alive. The callback may be empty. -/
def Callable (m : TimerManager Cb) : Op Cb → Prop
  | .addTimer _ _ _ _ addr => ∀ k ∈ m.timers, ∀ x, m.heap[k]? = some x → x.addr ≠ addr
  | .cancel h => h < m.heap.length
  | .refresh h _ => h < m.heap.length
  | .reset h _ _ _ => h < m.heap.length
  | .getNextTimeout _ => True
  | .listExpiredCallbacks _ _ => True

theorem Kept.armed_mem (hm : Kept m []) (ht : m.heap[h]? = some t)
    (hc : t.callback.isSome = true) : h ∈ m.timers := by
  simpa using hm.complete h ⟨t,ht,hc⟩

theorem addTimerLocked_kept (hm : Kept m (h :: ps)) : Kept (m.addTimerLocked h).2 ps := by
  have hput := hm.put_back.1
  simp only [addTimerLocked]
  split
  · exact ⟨hput.sorted,hput.nodup,hput.known,hput.complete,hput.distinct⟩
  · exact hput

theorem cancel_kept (hm : Kept m []) (ht : m.heap[h]? = some t) :
    ∃ ok m', m.cancel h = .ok (ok, m') ∧ Kept m' [] := by
  cases hc : t.callback.isSome with
  | false => exact ⟨false,m,cancel_unarmed ht hc,hm⟩
  | true =>
    obtain ⟨l,hl,hsorted,hperm⟩ := hm.take_out (hm.armed_mem ht hc)
    have hout := hm.rearrange hsorted hperm
    exact ⟨true,_,cancel_armed ht hc hl,hout.disarm ht⟩

theorem refresh_kept (now : UInt64) (hm : Kept m []) (ht : m.heap[h]? = some t) :
    ∃ ok m', m.refresh h now = .ok (ok, m') ∧ Kept m' [] := by
  cases hc : t.callback.isSome with
  | false => exact ⟨false,m,refresh_unarmed ht hc,hm⟩
  | true =>
    obtain ⟨l,hl,hsorted,hperm⟩ := hm.take_out (hm.armed_mem ht hc)
    have hout := hm.rearrange hsorted hperm
    have hrekeyed := hout.write { t with next := now + t.ms } ht rfl
    exact ⟨true,_,refresh_armed ht hc hl,hrekeyed.put_back.1⟩

theorem reset_kept (ms : UInt64) (fromNow : Bool) (now : UInt64) (hm : Kept m [])
    (ht : m.heap[h]? = some t) :
    ∃ ok notified m', m.reset h ms fromNow now = .ok (ok, notified, m') ∧ Kept m' [] := by
  cases hsame : ms == t.ms && !fromNow with
  | true => exact ⟨true,false,m,reset_unchanged ht hsame,hm⟩
  | false =>
    cases hc : t.callback.isSome with
    | false => exact ⟨false,false,m,reset_unarmed ht hsame hc,hm⟩
    | true =>
      obtain ⟨l,hl,hsorted,hperm⟩ := hm.take_out (hm.armed_mem ht hc)
      have hout := hm.rearrange hsorted hperm
      let t' := { t with ms := ms, next := (if fromNow then now else t.next - t.ms) + ms }
      exact ⟨true,_,_,reset_armed ht hsame hc hl,addTimerLocked_kept (hout.write t' ht rfl)⟩

theorem getNextTimeout_kept (now : UInt64) (hm : Kept m []) :
    ∃ ms m', m.getNextTimeout now = .ok (ms, m') ∧ Kept m' [] := by
  have hm' : Kept { m with tickled := false } [] :=
    ⟨hm.sorted,hm.nodup,hm.known,hm.complete,hm.distinct⟩
  cases hl : m.timers with
  | nil => exact ⟨_,_,getNextTimeout_empty hl,hm'⟩
  | cons first rest =>
    obtain ⟨t,ht⟩ := hm.known first (by simp [hl])
    exact ⟨_,_,getNextTimeout_first hl ht,hm'⟩

theorem expireLoop_kept (now : UInt64) (hm : Kept m ps) :
    ∃ callbacks m', expireLoop now ps m = .ok (callbacks, m') ∧ Kept m' [] := by
  induction ps generalizing m with
  | nil => exact ⟨[],m,rfl,hm⟩
  | cons h hs ih =>
    obtain ⟨t,ht⟩ := hm.known h (by simp)
    cases hr : t.recurring with
    | true =>
      have hrekeyed := hm.write { t with next := now + t.ms } ht rfl
      obtain ⟨callbacks,m',hloop,hm'⟩ := ih hrekeyed.put_back.1
      exact ⟨_,m',expireLoop_recurring ht hr hloop,hm'⟩
    | false =>
      obtain ⟨callbacks,m',hloop,hm'⟩ := ih (hm.disarm ht)
      exact ⟨_,m',expireLoop_oneShot ht hr hloop,hm'⟩

theorem listExpiredCallbacks_kept (now : UInt64) (addr : ℕ) (hm : Kept m []) :
    ∃ callbacks m', m.listExpiredCallbacks now addr = .ok (callbacks, m') ∧ Kept m' [] := by
  cases hl : m.timers with
  | nil => exact ⟨[],m,listExpiredCallbacks_empty hl,hm⟩
  | cons first rest =>
    obtain ⟨t,ht⟩ := hm.known first (by simp [hl])
    cases hearly : !(m.detectClockRollover now).1 && decide (now < t.next) with
    | true =>
      have hm₁ : Kept { m with previousTime := now } [] :=
        ⟨hm.sorted,hm.nodup,hm.known,hm.complete,hm.distinct⟩
      refine ⟨[],_,?_,hm₁⟩
      rw [listExpiredCallbacks_first hl ht, if_pos hearly]
    | false =>
      let n := m.expiredCount (m.detectClockRollover now).1 now addr
      obtain ⟨callbacks,m',hloop,hm'⟩ := expireLoop_kept now (hm.split now n)
      refine ⟨callbacks,m',?_,hm'⟩
      rw [listExpiredCallbacks_first hl ht, if_neg (by simp [hearly]), hloop]

theorem step_kept (op : Op Cb) (hm : Kept m []) (hop : m.Callable op) :
    ∃ o m', m.step op = .ok (o, m') ∧ Kept m' [] := by
  have hget : ∀ h, h < m.heap.length → ∃ t, m.heap[h]? = some t := fun h hlt =>
    ⟨_,List.getElem?_eq_getElem hlt⟩
  cases op with
  | addTimer now ms callback recurring addr =>
    exact ⟨_,_,rfl,addTimerLocked_kept (hm.allocate hop)⟩
  | cancel h =>
    obtain ⟨t,ht⟩ := hget h hop
    obtain ⟨ok,m',hrun,hm'⟩ := cancel_kept hm ht
    exact ⟨_,m',bind_ok hrun,hm'⟩
  | refresh h now =>
    obtain ⟨t,ht⟩ := hget h hop
    obtain ⟨ok,m',hrun,hm'⟩ := refresh_kept now hm ht
    exact ⟨_,m',bind_ok hrun,hm'⟩
  | reset h ms fromNow now =>
    obtain ⟨t,ht⟩ := hget h hop
    obtain ⟨ok,notified,m',hrun,hm'⟩ := reset_kept ms fromNow now hm ht
    exact ⟨_,m',bind_ok hrun,hm'⟩
  | getNextTimeout now =>
    obtain ⟨ms,m',hrun,hm'⟩ := getNextTimeout_kept now hm
    exact ⟨_,m',bind_ok hrun,hm'⟩
  | listExpiredCallbacks now addr =>
    obtain ⟨callbacks,m',hrun,hm'⟩ := listExpiredCallbacks_kept now addr hm
    exact ⟨_,m',bind_ok hrun,hm'⟩

/-! ## The loop over the expired timers

It changes the keys of the set while it puts recurring timers back. -/

section Loop
variable {now : UInt64} {callbacks : List (ℕ × Option Cb)}

/-- What the loop leaves of a timer. -/
def spent (now : UInt64) (t : Timer Cb) : Timer Cb :=
  if t.recurring then { t with next := now + t.ms } else { t with callback := none }

/-- The loop has gone through these timers. -/
structure Spent (m : TimerManager Cb) (now : UInt64) (ps : List ℕ)
    (callbacks : List (ℕ × Option Cb)) (m' : TimerManager Cb) : Prop where
  callback : ∀ x ∈ callbacks, ∃ t, m.heap[x.1]? = some t ∧ x.2 = t.callback
  heap : ∀ k ∈ ps, ∀ t, m.heap[k]? = some t → m'.heap[k]? = some (spent now t)
  mem : ∀ k ∈ ps, ∀ t, m.heap[k]? = some t → (k ∈ m'.timers ↔ t.recurring = true)
  otherHeap : ∀ k, k ∉ ps → m'.heap[k]? = m.heap[k]?
  otherMem : ∀ k, k ∉ ps → (k ∈ m'.timers ↔ k ∈ m.timers)

/-- One pass of the loop. -/
def spend (now : UInt64) (h : ℕ) (t : Timer Cb) (m : TimerManager Cb) : TimerManager Cb :=
  if t.recurring then (m.write h { t with next := now + t.ms }).insert h
  else m.write h { t with callback := none }

theorem spend_heap : (m.spend now h t).heap = (m.write h (spent now t)).heap := by
  unfold spend spent
  cases t.recurring <;> rfl

theorem spend_spec (now : UInt64) (hm : Kept m (h :: ps)) (ht : m.heap[h]? = some t) :
    Kept (m.spend now h t) ps ∧
      ∀ k, k ∉ ps → (k ∈ (m.spend now h t).timers ↔
        if k = h then t.recurring = true else k ∈ m.timers) := by
  have hout : h ∉ m.timers := fun hmem => hm.ne_pending hmem rfl
  by_cases hr : t.recurring = true
  · obtain ⟨hkept,hperm⟩ := (hm.write { t with next := now + t.ms } ht rfl).put_back
    rw [spend, if_pos hr]
    refine ⟨hkept,?_⟩
    intro k hk
    have hmem : k ∈ _ ++ ps ↔ k ∈ m.timers ++ h :: ps := hperm.mem_iff
    by_cases hkh : k = h
    · subst hkh
      simpa [hk, hr] using hmem
    · simpa [hk, hkh] using hmem
  · rw [spend, if_neg hr]
    refine ⟨hm.disarm ht,?_⟩
    intro k _
    have hsame : (m.write h { t with callback := none }).timers = m.timers := rfl
    rw [hsame]
    split
    next hkh =>
      subst hkh
      simp [hout, hr]
    next => rfl

theorem expireLoop_spends (hm : Kept m ps) (hloop : expireLoop now ps m = .ok (callbacks, m')) :
    Spent m now ps callbacks m' := by
  induction ps generalizing m callbacks with
  | nil =>
    cases hloop
    exact ⟨by simp,by simp,by simp,fun _ _ => rfl,fun _ _ => Iff.rfl⟩
  | cons h hs ih =>
    obtain ⟨t,hd,hloop⟩ := exists_of_bind_eq_ok hloop
    obtain ⟨⟨rest,m''⟩,hrest,hloop⟩ := exists_of_bind_eq_ok hloop
    cases hloop
    have ht := deref_eq_ok hd
    have hnotin : h ∉ hs := (List.nodup_cons.mp (List.nodup_append.mp hm.nodup).2.1).1
    obtain ⟨hkept,hmem⟩ := spend_spec now hm ht
    have hspent := ih hkept hrest
    have hself : (m.spend now h t).heap[h]? = some (spent now t) := by
      rw [spend_heap, write_self ht]
    have hother : ∀ k, k ≠ h → (m.spend now h t).heap[k]? = m.heap[k]? := by
      intro k hk
      rw [spend_heap, write_other hk]
    have hne : ∀ k ∈ hs, k ≠ h := by
      rintro k hk rfl
      exact hnotin hk
    constructor
    · intro x hx
      rcases List.mem_cons.mp hx with rfl | hx
      · exact ⟨t,ht,rfl⟩
      · obtain ⟨u,hu,hcb⟩ := hspent.callback x hx
        have hin : x.1 ∈ hs := by
          rw [← expireLoop_handsOut hrest]
          exact List.mem_map_of_mem hx
        rw [hother x.1 (hne x.1 hin)] at hu
        exact ⟨u,hu,hcb⟩
    · intro k hk u hu
      rcases List.mem_cons.mp hk with rfl | hk
      · rw [ht] at hu
        cases hu
        rw [hspent.otherHeap k hnotin, hself]
      · exact hspent.heap k hk u (by rw [hother k (hne k hk), hu])
    · intro k hk u hu
      rcases List.mem_cons.mp hk with rfl | hk
      · rw [ht] at hu
        cases hu
        rw [hspent.otherMem k hnotin, hmem k hnotin, if_pos rfl]
      · exact hspent.mem k hk u (by rw [hother k (hne k hk), hu])
    · intro k hk
      rw [List.mem_cons, not_or] at hk
      rw [hspent.otherHeap k hk.2, hother k hk.1]
    · intro k hk
      rw [List.mem_cons, not_or] at hk
      rw [hspent.otherMem k hk.2, hmem k hk.2, if_neg hk.1]

end Loop

/-! ## What is in the set afterwards -/

/-- A timer in the set, with its object. -/
def Has (m : TimerManager Cb) (h : ℕ) (t : Timer Cb) : Prop :=
  h ∈ m.timers ∧ m.heap[h]? = some t

theorem Has.of_write (hx : (m.write h t').Has k x) : m.Has k x ∨ k = h ∧ x = t' := by
  by_cases hk : k = h
  · subst hk
    obtain ⟨hlt,hget⟩ := List.getElem?_eq_some_iff.mp hx.2
    refine Or.inr ⟨rfl,?_⟩
    simpa [write] using hget.symm
  · exact Or.inl ⟨hx.1,by rw [← write_other hk, hx.2]⟩

theorem Has.of_insert (hx : (m.insert h).Has k x) : m.Has k x ∨ k = h ∧ m.heap[h]? = some x := by
  rcases OrderedList.mem_of_mem_insert hx.1 with rfl | hk
  · exact Or.inr ⟨rfl,hx.2⟩
  · exact Or.inl ⟨hk,hx.2⟩

theorem Has.of_addTimerLocked (hx : (m.addTimerLocked h).2.Has k x) :
    m.Has k x ∨ k = h ∧ m.heap[h]? = some x := by
  simp only [addTimerLocked] at hx
  split at hx
  · exact Has.of_insert hx
  · exact Has.of_insert hx

/-- Taking a timer out, writing it and putting it back changes this timer only. -/
theorem Has.of_rekeyed {l : List ℕ} (ht : m.heap[h]? = some t) (hl : ∀ k ∈ l, k ∈ m.timers)
    (hx : (write h t' { m with timers := l }).Has k x ∨
      k = h ∧ (write h t' { m with timers := l }).heap[h]? = some x) :
    m.Has k x ∨ k = h ∧ x = t' := by
  rcases hx with hx | ⟨rfl,hget⟩
  · rcases hx.of_write with hx | hx
    · exact Or.inl ⟨hl k hx.1,hx.2⟩
    · exact Or.inr hx
  · have hself : (write k t' { m with timers := l }).heap[k]? = some t' := write_self ht
    rw [hself] at hget
    cases hget
    exact Or.inr ⟨rfl,rfl⟩

/-- The loop puts back recurring timers only, with the next period added to the reading. -/
theorem Has.of_expireLoop {now : UInt64} {callbacks : List (ℕ × Option Cb)} (hm : Kept m ps)
    (hloop : expireLoop now ps m = .ok (callbacks, m')) (hx : m'.Has k x) :
    m.Has k x ∨ k ∈ ps ∧ ∃ t, m.heap[k]? = some t ∧ t.recurring = true ∧
      x = { t with next := now + t.ms } := by
  have hspent := expireLoop_spends hm hloop
  by_cases hk : k ∈ ps
  · obtain ⟨t,ht⟩ := hm.known k (List.mem_append_right m.timers hk)
    have hr := (hspent.mem k hk t ht).mp hx.1
    have hget := hspent.heap k hk t ht
    rw [hx.2, spent, if_pos hr] at hget
    exact Or.inr ⟨hk,t,ht,hr,Option.some.inj hget⟩
  · exact Or.inl ⟨(hspent.otherMem k hk).mp hx.1,by rw [← hspent.otherHeap k hk, hx.2]⟩

/-- `t'` is what the operation leaves of the timer `h` that it puts into the set. -/
def PutBack (m : TimerManager Cb) (h : ℕ) (t' : Timer Cb) : Op Cb → Prop
  | .addTimer now ms callback recurring addr => t' =
      { recurring := recurring, ms := ms, next := now + ms, callback := callback, addr := addr }
  | .refresh k now => h = k ∧ m.isLive k = true ∧ ∃ t, m.Has k t ∧
      t' = { t with next := now + t.ms }
  | .reset k ms fromNow now => h = k ∧ m.isLive k = true ∧ ∃ t, m.Has k t ∧
      t' = { t with ms := ms, next := (if fromNow then now else t.next - t.ms) + ms }
  | .listExpiredCallbacks now _ => ∃ t, m.Has h t ∧ t.recurring = true ∧
      ((m.detectClockRollover now).1 = true ∨ t.next ≤ now) ∧
      t' = { t with next := now + t.ms }
  | _ => False

theorem Kept.has_of_isLive (hm : Kept m []) (ht : m.heap[h]? = some t)
    (hlive : m.isLive h = true) : m.Has h t := by
  simp only [isLive, ht, Option.any_some, Bool.and_eq_true] at hlive
  exact ⟨hm.armed_mem ht hlive.1,ht⟩

/-- A timer in the set was there before with the same period and deadline, or the operation
put it there. -/
theorem step_has {op : Op Cb} {o : Seen Cb} (hm : Kept m [])
    (hstep : m.step op = .ok (o, m')) (hx : m'.Has k x) :
    (∃ t, m.Has k t ∧ t.next = x.next ∧ t.ms = x.ms) ∨ m.PutBack k x op := by
  have hsame : m.Has k x → ∃ t, m.Has k t ∧ t.next = x.next ∧ t.ms = x.ms := fun hk =>
    ⟨x,hk,rfl,rfl⟩
  cases op with
  | addTimer now ms callback recurring addr =>
    cases hstep
    rcases Has.of_addTimerLocked hx with ⟨hk,hget⟩ | ⟨rfl,hget⟩
    · obtain ⟨y,hy⟩ := hm.known k (List.mem_append_left [] hk)
      have hlt := (List.getElem?_eq_some_iff.mp hy).1
      rw [List.getElem?_append_left hlt] at hget
      exact Or.inl (hsame ⟨hk,hget⟩)
    · simp only [List.getElem?_concat_length, Option.some.injEq] at hget
      exact Or.inr hget.symm
  | cancel h =>
    obtain ⟨⟨ok,m''⟩,hrun,hstep⟩ := exists_of_bind_eq_ok hstep
    cases hstep
    obtain rfl | ⟨t,l,ht,hl,rfl⟩ := cancel_cases hrun
    · exact Or.inl (hsame hx)
    · have hw : (m.write h { t with callback := none }).Has k x := ⟨hl k hx.1,hx.2⟩
      rcases hw.of_write with hk | ⟨rfl,rfl⟩
      · exact Or.inl (hsame hk)
      · exact Or.inl ⟨t,⟨hl k hx.1,ht⟩,rfl,rfl⟩
  | refresh h now =>
    obtain ⟨⟨ok,m''⟩,hrun,hstep⟩ := exists_of_bind_eq_ok hstep
    cases hstep
    obtain rfl | ⟨t,l,ht,hlive,hl,rfl⟩ := refresh_cases hrun
    · exact Or.inl (hsame hx)
    · rcases Has.of_rekeyed ht hl hx.of_insert with hx | ⟨rfl,rfl⟩
      · exact Or.inl (hsame hx)
      · exact Or.inr ⟨rfl,hlive,t,hm.has_of_isLive ht hlive,rfl⟩
  | reset h ms fromNow now =>
    obtain ⟨⟨ok,notified,m''⟩,hrun,hstep⟩ := exists_of_bind_eq_ok hstep
    cases hstep
    obtain ⟨-,rfl⟩ | ⟨t,l,ht,hlive,hl,hadd⟩ := reset_cases hrun
    · exact Or.inl (hsame hx)
    · cases hadd
      rcases Has.of_rekeyed ht hl (Has.of_addTimerLocked hx) with hx | ⟨rfl,rfl⟩
      · exact Or.inl (hsame hx)
      · exact Or.inr ⟨rfl,hlive,t,hm.has_of_isLive ht hlive,rfl⟩
  | getNextTimeout now =>
    obtain ⟨⟨ms,m''⟩,hrun,hstep⟩ := exists_of_bind_eq_ok hstep
    cases hstep
    obtain ⟨rfl,-⟩ := getNextTimeout_cases hrun
    exact Or.inl (hsame hx)
  | listExpiredCallbacks now addr =>
    obtain ⟨⟨callbacks,m''⟩,hrun,hstep⟩ := exists_of_bind_eq_ok hstep
    cases hstep
    obtain ⟨-,-,rfl⟩ | ⟨-,⟨-,rfl⟩ | ⟨n,rfl,hloop⟩⟩ := listExpiredCallbacks_cases hrun
    · exact Or.inl (hsame hx)
    · exact Or.inl (hsame hx)
    · rcases Has.of_expireLoop (hm.split now _) hloop hx with hx | ⟨hk,t,ht,hr,rfl⟩
      · exact Or.inl (hsame ⟨List.mem_of_mem_drop hx.1,hx.2⟩)
      · refine Or.inr ⟨t,⟨List.mem_of_mem_take hk,ht⟩,hr,?_,rfl⟩
        exact (rollover_or_due hk).imp id fun hdue => hdue t ht

/-! ## The flag and the notification -/

theorem addTimerLocked_tickled :
    (m.addTimerLocked h).2.tickled = (m.tickled || (m.addTimerLocked h).1) ∧
      ((m.addTimerLocked h).1 = true → m.tickled = false) := by
  simp only [addTimerLocked]
  split
  · next hfront =>
    rw [hfront]
    simp only [Bool.and_eq_true, Bool.not_eq_true'] at hfront
    exact ⟨by simp,fun _ => hfront.2⟩
  · next hfront =>
    simp only [Bool.not_eq_true] at hfront
    rw [hfront]
    exact ⟨by simp [TimerManager.insert],fun hno => by cases hno⟩

/-- A timer that is inserted silently though the flag is down has one before it. -/
theorem addTimerLocked_silent (hsilent : (m.addTimerLocked h).1 = false)
    (hdown : m.tickled = false) : ∃ k ∈ m.timers, m.less k h = true := by
  simp only [addTimerLocked, hdown, Bool.not_false, Bool.and_true,
    List.isEmpty_eq_false_iff_exists_mem] at hsilent
  obtain ⟨k,hk⟩ := hsilent
  exact ⟨k,(List.takeWhile_sublist _).mem hk,List.mem_takeWhile_imp (p := (m.less · h)) hk⟩

theorem next_le_of_less (hlt : m.less h k = true) (ht : m.heap[h]? = some t)
    (hx : m.heap[k]? = some x) : t.next ≤ x.next := by
  simp only [less, ht, hx, Timer.comparator] at hlt
  grind

/-- Deadlines do not decrease along the set. -/
theorem Kept.next_sorted (hm : Kept m ps) : m.timers.Pairwise fun a b =>
    ∀ x y, m.heap[a]? = some x → m.heap[b]? = some y → x.next ≤ y.next := by
  refine List.Pairwise.imp ?_ hm.sorted
  intro a b hab x y hx hy
  exact next_le_of_less hab hx hy

/-- The first timer of the set is due first. -/
theorem Kept.first_next {first : ℕ} {rest : List ℕ} (hm : Kept m ps)
    (hcons : m.timers = first :: rest) (hh : h ∈ m.timers) (ht : m.heap[first]? = some t)
    (hx : m.heap[h]? = some x) : t.next ≤ x.next := by
  have hsorted := hm.next_sorted
  rw [hcons] at hsorted hh
  rcases List.mem_cons.mp hh with rfl | hh
  · rw [ht] at hx
    cases hx
    exact UInt64.le_refl _
  · exact (List.pairwise_cons.mp hsorted).1 h hh t x ht hx

theorem step_tickled {op : Op Cb} {o : Seen Cb} (hop : ∀ now, op ≠ .getNextTimeout now)
    (hstep : m.step op = .ok (o, m')) :
    m'.tickled = (m.tickled || o.notifies) ∧ (o.notifies = true → m.tickled = false) := by
  cases op with
  | addTimer now ms callback recurring addr =>
    cases hstep
    exact addTimerLocked_tickled
  | cancel h =>
    obtain ⟨⟨ok,m''⟩,hrun,hstep⟩ := exists_of_bind_eq_ok hstep
    cases hstep
    obtain rfl | ⟨t,l,-,-,rfl⟩ := cancel_cases hrun <;> simp [Seen.notifies, write]
  | refresh h now =>
    obtain ⟨⟨ok,m''⟩,hrun,hstep⟩ := exists_of_bind_eq_ok hstep
    cases hstep
    obtain rfl | ⟨t,l,-,-,-,rfl⟩ := refresh_cases hrun <;>
      simp [Seen.notifies, write, TimerManager.insert]
  | reset h ms fromNow now =>
    obtain ⟨⟨ok,notified,m''⟩,hrun,hstep⟩ := exists_of_bind_eq_ok hstep
    cases hstep
    obtain ⟨rfl,rfl⟩ | ⟨t,l,-,-,-,hadd⟩ := reset_cases hrun
    · simp [Seen.notifies]
    · cases hadd
      exact addTimerLocked_tickled
  | getNextTimeout now => exact absurd rfl (hop now)
  | listExpiredCallbacks now addr =>
    obtain ⟨⟨callbacks,m''⟩,hrun,hstep⟩ := exists_of_bind_eq_ok hstep
    cases hstep
    obtain ⟨-,-,rfl⟩ | ⟨-,⟨-,rfl⟩ | ⟨n,-,hloop⟩⟩ := listExpiredCallbacks_cases hrun
    · simp [Seen.notifies]
    · simp [Seen.notifies]
    · simp [Seen.notifies, (expireLoop_frame hloop).2]

/-- No sum of a clock reading and a period wraps. -/
def NoOverflow (m : TimerManager Cb) : Op Cb → Prop
  | .addTimer now ms _ _ _ => now.toNat + ms.toNat < 2 ^ 64
  | .refresh h now => ∀ t, m.Has h t → now.toNat + t.ms.toNat < 2 ^ 64
  | .reset h ms fromNow now => ∀ t, m.Has h t →
      (if fromNow then now else t.next - t.ms).toNat + ms.toNat < 2 ^ 64
  | .listExpiredCallbacks now _ => ∀ h t, m.Has h t → t.recurring = true → t.next ≤ now →
      now.toNat + t.ms.toNat < 2 ^ 64
  | _ => True

/-- The timer was armed at a reading already taken, or earlier. -/
def ArmedBy (log : List UInt64) (t : Timer Cb) : Prop :=
  t.ms ≤ t.next ∧ ∃ c ∈ log, t.next.toNat ≤ c.toNat + t.ms.toNat

theorem armedBy_of_start {log : List UInt64} {start c : UInt64} (hc : c ∈ log)
    (hstart : start ≤ c) (hnext : t.next = start + t.ms)
    (hfit : start.toNat + t.ms.toNat < 2 ^ 64) : ArmedBy log t := by
  have hsum : t.next.toNat = start.toNat + t.ms.toNat := by
    rw [hnext, UInt64.toNat_add, Nat.mod_eq_of_lt hfit]
  have hle := UInt64.le_iff_toNat_le.mp hstart
  refine ⟨UInt64.le_iff_toNat_le.mpr (by omega),c,hc,by omega⟩

/-- A later reading does not bring the deadline forward. -/
theorem next_le_rearmed {log : List UInt64} {now : UInt64} (ht : ArmedBy log t)
    (hnow : ∀ c ∈ log, c ≤ now) (hfit : now.toNat + t.ms.toNat < 2 ^ 64) :
    t.next ≤ now + t.ms := by
  obtain ⟨-,c,hc,hle⟩ := ht
  have hcn := UInt64.le_iff_toNat_le.mp (hnow c hc)
  rw [UInt64.le_iff_toNat_le, UInt64.toNat_add, Nat.mod_eq_of_lt hfit]
  omega

theorem no_rollover {now : UInt64} (hle : m.previousTime ≤ now) :
    (m.detectClockRollover now).1 = false := by
  have hnot : ¬ now < m.previousTime := UInt64.not_lt.mpr hle
  simp only [detectClockRollover, decide_eq_false hnot, Bool.false_and]

/-- What an operation puts into the set was armed by then. -/
theorem PutBack.armedBy {log : List UInt64} {op : Op Cb} (hput : m.PutBack h t' op)
    (hold : ∀ k t, m.Has k t → ArmedBy log t)
    (hprevious : m.previousTime ∈ log) (hfit : m.NoOverflow op)
    (hclock : ∀ r, m.reading op = some r → ∀ c ∈ log, c ≤ r) :
    ArmedBy (log ++ (m.reading op).toList) t' := by
  cases op with
  | addTimer now ms callback recurring addr =>
    cases hput
    exact armedBy_of_start (c := now) (by simp [reading]) (UInt64.le_refl _) rfl hfit
  | refresh k now =>
    obtain ⟨rfl,hlive,t,ht,rfl⟩ := hput
    have hread : m.reading (.refresh h now) = some now := if_pos hlive
    rw [hread]
    exact armedBy_of_start (c := now) (by simp) (UInt64.le_refl _) rfl (hfit t ht)
  | reset k ms fromNow now =>
    obtain ⟨rfl,hlive,t,ht,rfl⟩ := hput
    cases fromNow with
    | true =>
      have hread : m.reading (.reset h ms true now) = some now := by
        simp only [reading, hlive, Bool.and_true, if_true]
      rw [hread]
      exact armedBy_of_start (c := now) (by simp) (UInt64.le_refl _) rfl (hfit t ht)
    | false =>
      obtain ⟨hle,c,hc,hnext⟩ := hold h t ht
      have hstart : t.next - t.ms ≤ c := by
        rw [UInt64.le_iff_toNat_le, UInt64.toNat_sub_of_le _ _ hle]
        omega
      exact armedBy_of_start (List.mem_append_left _ hc) hstart rfl (hfit t ht)
  | listExpiredCallbacks now addr =>
    obtain ⟨t,ht,hr,hdue,rfl⟩ := hput
    have hnow := hclock now rfl
    have hdue : t.next ≤ now := by
      simpa [no_rollover (hnow _ hprevious)] using hdue
    exact armedBy_of_start (c := now) (by simp [reading]) (UInt64.le_refl _) rfl
      (hfit h t ht hr hdue)
  | cancel k => cases hput
  | getNextTimeout now => cases hput

/-- A timer put into the set silently, though the flag is down, comes after one that was
there before. -/
theorem PutBack.not_first {log : List UInt64} {op : Op Cb} {o : Seen Cb} (hm : Kept m [])
    (hstep : m.step op = .ok (o, m')) (hx : m'.Has h t') (hput : m.PutBack h t' op)
    (hold : ∀ k t, m.Has k t → ArmedBy log t)
    (hprevious : m.previousTime ∈ log) (hfit : m.NoOverflow op)
    (hclock : ∀ r, m.reading op = some r → ∀ c ∈ log, c ≤ r)
    (hdown : m.tickled = false) (hsilent : o.notifies = false) :
    ∃ k t, m.Has k t ∧ t.next ≤ t'.next := by
  cases op with
  | addTimer now ms callback recurring addr =>
    cases hput
    cases hstep
    obtain ⟨k,hk,hless⟩ := addTimerLocked_silent hsilent hdown
    obtain ⟨t,ht⟩ := hm.known k (List.mem_append_left [] hk)
    have hlt := (List.getElem?_eq_some_iff.mp ht).1
    refine ⟨k,t,⟨hk,ht⟩,next_le_of_less hless ?_ List.getElem?_concat_length⟩
    rw [List.getElem?_append_left hlt, ht]
  | refresh k now =>
    obtain ⟨rfl,hlive,t,ht,rfl⟩ := hput
    exact ⟨h,t,ht,next_le_rearmed (hold h t ht) (hclock now (if_pos hlive)) (hfit t ht)⟩
  | reset k ms fromNow now =>
    obtain ⟨⟨ok,notified,m''⟩,hrun,hstep⟩ := exists_of_bind_eq_ok hstep
    cases hstep
    obtain ⟨-,rfl⟩ | ⟨t,l,ht,hlive,hl,hadd⟩ := reset_cases hrun
    · exact ⟨h,t',hx,UInt64.le_refl _⟩
    · obtain ⟨rfl,-,t₁,ht₁,rfl⟩ := hput
      have heq : t₁ = t := Option.some.inj (ht₁.2.symm.trans ht)
      subst heq
      cases hadd
      obtain ⟨k,hk,hless⟩ := addTimerLocked_silent hsilent hdown
      obtain ⟨y,hy⟩ := hm.known k (List.mem_append_left [] (hl k hk))
      have hne : k ≠ h := by
        rintro rfl
        rw [(less_strict _).irrefl] at hless
        cases hless
      refine ⟨k,y,⟨hl k hk,hy⟩,next_le_of_less hless ?_ (write_self ht)⟩
      rw [write_other hne]
      exact hy
  | listExpiredCallbacks now addr =>
    obtain ⟨t,ht,hr,hdue,rfl⟩ := hput
    have hnow := hclock now rfl
    have hdue : t.next ≤ now := by
      simpa [no_rollover (hnow _ hprevious)] using hdue
    exact ⟨h,t,ht,next_le_rearmed (hold h t ht) hnow (hfit h t ht hr hdue)⟩
  | cancel k => cases hput
  | getNextTimeout now => cases hput

namespace Recorded
variable {w w' : Recorded Cb} {op : Op Cb} {o : Seen Cb}

/-- The outside keeps the rules of the calls, the clock does not go back and no deadline
wraps. -/
def Steady (w : Recorded Cb) (op : Op Cb) : Prop :=
  w.manager.Callable op ∧ w.manager.NoOverflow op ∧
    ∀ r, w.manager.reading op = some r → ∀ c ∈ w.log, c ≤ r

/-- How the last answer and the front timer it was computed from belong together. -/
def Answers (w : Recorded Cb) : Prop :=
  match w.answer, w.front with
  | none, none => True
  | some (_, ms), none => ms = ~~~0
  | some (now, ms), some next =>
    next ≤ now ∧ ms = 0 ∨ 0 < ms ∧ next.toNat = now.toNat + ms.toNat
  | none, some _ => False

/-- The deadline is before that of the front timer the last `GetNextTimeout` saw; with no
such timer every deadline is. -/
def earlier (w : Recorded Cb) (next : UInt64) : Bool :=
  match w.front with
  | none => true
  | some front => next < front

structure Watchful (w : Recorded Cb) : Prop where
  kept : Kept w.manager []
  armed : ∀ h t, w.manager.Has h t → ArmedBy w.log t
  previous : w.manager.previousTime ∈ w.log
  answers : w.Answers
  calls_eq : w.calls = if w.manager.tickled then 1 else 0
  quiet : w.manager.tickled = false → ∀ h t, w.manager.Has h t → w.earlier t.next = false

theorem new_watchful (now : UInt64) : (new now : Recorded Cb).Watchful where
  kept := new_kept now
  armed h t ht := by cases ht.1
  previous := List.mem_singleton_self now
  answers := trivial
  calls_eq := rfl
  quiet _ h t ht := by cases ht.1

/-- What the record keeps of the answers and the notifications. -/
theorem step_notes (hstep : w.step op = .ok (o, w')) :
    (∃ now ms, op = .getNextTimeout now ∧ o = .timeout ms ∧ w'.front = w.manager.frontNext ∧
        w'.answer = some (now, ms) ∧ w'.calls = 0) ∨
      (∀ now, op ≠ .getNextTimeout now) ∧ w'.front = w.front ∧ w'.answer = w.answer ∧
        w'.calls = w.calls + if o.notifies then 1 else 0 := by
  obtain ⟨⟨o₁,m⟩,hm,hstep⟩ := exists_of_bind_eq_ok hstep
  cases op with
  | getNextTimeout now =>
    obtain ⟨⟨ms,m''⟩,-,hm⟩ := exists_of_bind_eq_ok hm
    cases hm
    cases hstep
    exact Or.inl ⟨now,ms,rfl,rfl,rfl,rfl,rfl⟩
  | _ =>
    cases hstep
    exact Or.inr ⟨nofun,rfl,rfl,rfl⟩

/-- The front timer is the earliest. -/
theorem frontNext_le (hm : Kept m []) (ht : m.Has h t) :
    ∃ next, m.frontNext = some next ∧ next ≤ t.next := by
  obtain ⟨first,rest,hcons⟩ := List.exists_cons_of_ne_nil (List.ne_nil_of_mem ht.1)
  obtain ⟨x,hx⟩ := hm.known first (by simp [hcons])
  refine ⟨x.next,by simp only [frontNext, hcons, hx, Option.map_some],?_⟩
  exact hm.first_next hcons ht.1 hx ht.2

theorem answers_of_getNextTimeout {now ms : UInt64}
    (hrun : w.manager.getNextTimeout now = .ok (ms, m'))
    (hfront : w'.front = w.manager.frontNext) (hanswer : w'.answer = some (now, ms)) :
    w'.Answers := by
  have hms := (getNextTimeout_cases hrun).2
  unfold Answers
  rw [hfront, hanswer]
  cases hnext : w.manager.frontNext with
  | none =>
    rw [hnext] at hms
    exact hms.2
  | some next =>
    rw [hnext] at hms
    by_cases hle : now ≥ next
    · refine Or.inl ⟨hle,?_⟩
      rw [hms.2, if_pos hle]
    · have hlt := UInt64.not_le.mp hle
      have hsub : (next - now).toNat = next.toNat - now.toNat :=
        UInt64.toNat_sub_of_le _ _ (UInt64.le_of_lt hlt)
      have hnat := UInt64.lt_iff_toNat_lt.mp hlt
      rw [hms.2, if_neg hle]
      refine Or.inr ⟨UInt64.lt_iff_toNat_lt.mpr ?_,by omega⟩
      rw [hsub]
      exact Nat.sub_pos_of_lt hnat

theorem earlier_mono {a b : UInt64} (hab : a ≤ b) (ha : w.earlier a = false) :
    w.earlier b = false := by
  unfold earlier at ha ⊢
  split at ha
  · cases ha
  · next front hfront =>
    simp only [decide_eq_false_iff_not, UInt64.not_lt] at ha ⊢
    exact UInt64.le_trans ha hab

theorem step_watchful (hw : w.Watchful) (hop : w.Steady op) :
    ∃ o w', w.step op = .ok (o, w') ∧ w'.Watchful := by
  obtain ⟨hcall,hfit,hclock⟩ := hop
  obtain ⟨o,m',hm,hkept⟩ := step_kept op hw.kept hcall
  obtain ⟨o',w',hstep⟩ : ∃ o' w', w.step op = .ok (o', w') := by
    simp only [step, hm, bind, Except.bind]
    split <;> exact ⟨_,_,rfl⟩
  obtain ⟨hm',hlog,-⟩ := step_fields hstep
  rw [hm] at hm'
  cases hm'
  have harmed : ∀ h t, w'.manager.Has h t → ArmedBy w'.log t := by
    intro h t ht
    rw [hlog]
    rcases step_has hw.kept hm ht with ⟨t₁,ht₁,hnext₁,hms₁⟩ | hput
    · obtain ⟨hle,c,hc,hnext⟩ := hw.armed h t₁ ht₁
      rw [hnext₁, hms₁] at hle hnext
      exact ⟨hle,c,List.mem_append_left _ hc,hnext⟩
    · exact hput.armedBy hw.armed hw.previous hfit hclock
  have hprevious : w'.manager.previousTime ∈ w'.log := by
    rw [step_previousTime hm, hlog]
    split
    · next hrec =>
      obtain ⟨r,hr⟩ := reading_of_records hrec
      simp [hr]
    · exact List.mem_append_left _ hw.previous
  refine ⟨o,w',hstep,?_⟩
  rcases step_notes hstep with ⟨now,ms,rfl,rfl,hfront,hanswer,hcalls⟩ | ⟨hne,hfront,hanswer,hcalls⟩
  · obtain ⟨⟨ms',m''⟩,hrun,hm'⟩ := exists_of_bind_eq_ok hm
    cases hm'
    have hdown : w'.manager = { w.manager with tickled := false } := (getNextTimeout_cases hrun).1
    refine ⟨hkept,harmed,hprevious,answers_of_getNextTimeout hrun hfront hanswer,?_,?_⟩
    · rw [hcalls, hdown]
      rfl
    · intro _ h t ht
      rw [hdown] at ht
      obtain ⟨next,hnext,hle⟩ := frontNext_le hw.kept ht
      simp only [earlier, hfront, hnext, decide_eq_false_iff_not, UInt64.not_lt]
      exact hle
  · obtain ⟨htickled,hfirst⟩ := step_tickled hne hm
    refine ⟨hkept,harmed,hprevious,?_,?_,?_⟩
    · simpa only [Answers, hfront, hanswer] using hw.answers
    · rw [hcalls, htickled, hw.calls_eq]
      cases hn : o.notifies with
      | true => simp [hfirst hn]
      | false => simp
    · intro hdown h t ht
      rw [htickled, Bool.or_eq_false_iff] at hdown
      have hkeep : w'.earlier = w.earlier := by
        funext next
        simp only [earlier, hfront]
      rw [hkeep]
      rcases step_has hw.kept hm ht with ⟨t₁,ht₁,hnext₁,-⟩ | hput
      · rw [← hnext₁]
        exact hw.quiet hdown.1 h t₁ ht₁
      · obtain ⟨k,t₁,ht₁,hle⟩ := hput.not_first hw.kept hm ht hw.armed hw.previous hfit hclock
          hdown.1 hdown.2
        exact earlier_mono hle (hw.quiet hdown.1 k t₁ ht₁)

/-- In every state of a run with a steady clock, a timer earlier than the front timer seen by
the last `GetNextTimeout` has been announced once, and the flag says so. -/
theorem earlier_front_announced (start : UInt64) (ops : List (Op Cb))
    (hok : Along step Steady ops (new start)) :
    ∃ seen w, run step ops (new start) = .ok (seen, w) ∧ w.Answers ∧ w.calls ≤ 1 ∧
      ∀ h t, w.manager.Has h t → w.earlier t.next = true →
        w.manager.tickled = true ∧ w.calls = 1 := by
  obtain ⟨seen,w,hrun,hw⟩ := Along.run_invariant
    (fun _ _ hw hop => step_watchful hw hop) (new_watchful start) hok
  have hcalls := hw.calls_eq
  refine ⟨seen,w,hrun,hw.answers,?_,?_⟩
  · rw [hcalls]
    split <;> omega
  · intro h t ht hearly
    have hup : w.manager.tickled = true := by
      by_contra hdown
      rw [hw.quiet (Bool.not_eq_true _ ▸ hdown) h t ht] at hearly
      cases hearly
    rw [hcalls, hup]
    exact ⟨rfl,rfl⟩

/-- A timer for 25 is announced to the thread that sleeps until 50. -/
theorem earlier_front_announced_twentyFive :
    Along step Steady [.addTimer 0 50 (some ()) false 100, .getNextTimeout 10,
        .addTimer 20 5 (some ()) false 96] (new 0) ∧
      ∃ seen w, run step [.addTimer 0 50 (some ()) false 100, .getNextTimeout 10,
          .addTimer 20 5 (some ()) false 96] (new 0) = .ok (seen, w) ∧
        w.answer = some (10, 40) ∧ w.earlier 25 = true ∧ w.calls ≤ 1 ∧
        w.manager.tickled = true ∧ w.calls = 1 := by
  have hok : Along step Steady [.addTimer 0 50 (some ()) false 100, .getNextTimeout 10,
      .addTimer 20 5 (some ()) false 96] (new 0) := by
    have hfit : (0 : UInt64).toNat + (50 : UInt64).toNat < 2 ^ 64 := by decide
    have hfit' : (20 : UInt64).toNat + (5 : UInt64).toNat < 2 ^ 64 := by decide
    refine Along.cons ⟨by simp [new, TimerManager.new, Callable],hfit,?_⟩ rfl
      (Along.cons ⟨trivial,trivial,?_⟩ rfl (Along.cons ⟨?_,hfit',?_⟩ rfl trivial))
    · rintro r ⟨⟩
      change ∀ c ∈ [0], c ≤ (0 : UInt64)
      simp
    · rintro r ⟨⟩
      change ∀ c ∈ [0, 0], c ≤ (10 : UInt64)
      simp
    · intro k hk x hx
      obtain rfl : k = 0 := List.mem_singleton.mp hk
      cases hx
      decide
    · rintro r ⟨⟩
      change ∀ c ∈ [0, 0, 10], c ≤ (20 : UInt64)
      simp
  obtain ⟨seen,w,hrun,-,hcalls,hannounced⟩ := earlier_front_announced 0 _ hok
  refine ⟨hok,seen,w,hrun,?_⟩
  cases hrun
  exact ⟨rfl,rfl,hcalls,hannounced 1 _ ⟨by decide,rfl⟩ rfl⟩

/-- The deadline by the bare answer: the reading plus the reported timeout, infinite for
`~0` and before the first call. -/
def reported (w : Recorded Cb) : Option ℕ :=
  match w.answer with
  | none => none
  | some (now, ms) => if ms = ~~~0 then none else some (now.toNat + ms.toNat)

/-- A front timer that is overdue lies before the reading at which `GetNextTimeout`
reports a timeout of zero. Nobody is notified of it. -/
theorem overdue_front_not_announced :
    Along step Steady [.addTimer 0 5 (some ()) false 100, .getNextTimeout 10] (new 0) ∧
      ∃ seen w, run step [.addTimer 0 5 (some ()) false 100, .getNextTimeout 10] (new 0) =
          .ok (seen, w) ∧
        ∃ h t d, w.manager.Has h t ∧ w.reported = some d ∧ t.next.toNat < d ∧
          ¬ (w.manager.tickled = true ∧ 1 ≤ w.calls) := by
  have hfit : (0 : UInt64).toNat + (5 : UInt64).toNat < 2 ^ 64 := by decide
  refine ⟨Along.cons ⟨by simp [new, TimerManager.new, Callable],hfit,?_⟩ rfl
    (Along.cons ⟨trivial,trivial,?_⟩ rfl trivial),?_⟩
  · rintro r ⟨⟩
    change ∀ c ∈ [0], c ≤ (0 : UInt64)
    simp
  · rintro r ⟨⟩
    change ∀ c ∈ [0, 0], c ≤ (10 : UInt64)
    simp
  · exact ⟨_,_,rfl,0,_,10,⟨by decide,rfl⟩,rfl,by decide,by decide⟩

end Recorded

end Gudov.TimerManager
