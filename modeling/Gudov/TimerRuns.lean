import Gudov.TimerInvariant
import Gudov.StepSystem

/-!
# The life cycle of a timer over whole runs

A run is any sequence of method calls with arbitrary clock readings. Beside the
invariant of the set, each call is charged for what it gives away: a callback
handed out or a successful `Cancel`. A one-shot timer has a credit of one while
it is armed or not yet made, and nothing ever adds to it.
-/
namespace Gudov.TimerManager
open OrderedList
variable {Cb : Type} {m m' m'' : TimerManager Cb} {h : ℕ} {t t' : Timer Cb} {ps : List ℕ}

/-- What a one-shot timer may still give away; a timer not yet made counts as armed. -/
def credit (m : TimerManager Cb) (h : ℕ) : ℕ :=
  match m.heap[h]? with
  | none => 1
  | some t => if t.callback.isSome then 1 else 0

def OneShot (m : TimerManager Cb) (h : ℕ) : Prop :=
  ∀ t, m.heap[h]? = some t → t.recurring = false

/-- The change from `m` to `m'` gives away the timers of `given` and pays for them. -/
structure Pays (m m' : TimerManager Cb) (given : List ℕ) : Prop where
  oneShot : ∀ k, m'.OneShot k → m.OneShot k
  credit : ∀ k, m'.OneShot k → given.count k + m'.credit k ≤ m.credit k

theorem Pays.of_heap_eq (he : m'.heap = m.heap) : Pays m m' [] where
  oneShot k hk := by simpa only [OneShot, he] using hk
  credit k _ := by simp [TimerManager.credit, he]

theorem Pays.trans {g g' : List ℕ} (h₁ : Pays m m' g) (h₂ : Pays m' m'' g') :
    Pays m m'' (g ++ g') where
  oneShot k hk := h₁.oneShot k (h₂.oneShot k hk)
  credit k hk := by
    have first := h₁.credit k (h₂.oneShot k hk)
    have later := h₂.credit k hk
    rw [List.count_append]
    omega

theorem Pays.heap_eq_left {g : List ℕ} (he : m'.heap = m.heap) (hp : Pays m' m'' g) :
    Pays m m'' g := by simpa using (Pays.of_heap_eq he).trans hp

theorem Pays.heap_eq_right {g : List ℕ} (hp : Pays m m' g) (he : m''.heap = m'.heap) :
    Pays m m'' g := by simpa using hp.trans (Pays.of_heap_eq he)

/-- A write keeps one-shot timers one-shot and pays for its own timer from the
credit it takes away. -/
theorem Pays.write {g : List ℕ} (t' : Timer Cb) (ht : m.heap[h]? = some t)
    (hr : t'.recurring = t.recurring)
    (hg : ∀ k ∈ g, k = h)
    (hpay : t.recurring = false →
      g.count h + (m.write h t').credit h ≤ m.credit h) :
    Pays m (m.write h t') g := by
  have hshot : ∀ k, (m.write h t').OneShot k → m.OneShot k := by
    intro k hk x hx
    by_cases hkh : k = h
    · subst hkh
      rw [ht] at hx
      cases hx
      rw [← hr]
      exact hk t' (write_self ht)
    · exact hk x (by rw [write_other hkh, hx])
  refine ⟨hshot,?_⟩
  intro k hk
  by_cases hkh : k = h
  · subst hkh
    exact hpay (hshot k hk t ht)
  · have hcount : g.count k = 0 := List.count_eq_zero.mpr fun hmem => hkh (hg k hmem)
    simp [hcount, TimerManager.credit, write_other hkh]

theorem credit_eq (ht : m.heap[h]? = some t) :
    m.credit h = if t.callback.isSome then 1 else 0 := by
  simp only [TimerManager.credit, ht]

/-- Moving the deadline is free. -/
theorem Pays.rekey (t' : Timer Cb) (ht : m.heap[h]? = some t) (hr : t'.recurring = t.recurring)
    (hc : t'.callback.isSome = t.callback.isSome) : Pays m (m.write h t') [] := by
  apply Pays.write _ ht hr (by simp)
  intro _
  rw [credit_eq ht, credit_eq (write_self ht), hc]
  simp

/-- Handing out the callback of a one-shot timer uses up its credit. -/
theorem Pays.disarm (ht : m.heap[h]? = some t) (hc : t.callback.isSome = true) :
    Pays m (m.write h { t with callback := none }) [h] := by
  apply Pays.write { t with callback := none } ht rfl (by simp)
  intro _
  rw [credit_eq ht, credit_eq (write_self ht), hc]
  simp

/-- Handing out the callback of a recurring timer is not charged. -/
theorem Pays.recur (t' : Timer Cb) (ht : m.heap[h]? = some t) (hr : t.recurring = true)
    (hr' : t'.recurring = t.recurring) : Pays m (m.write h t') [h] := by
  apply Pays.write _ ht hr' (by simp)
  intro hfalse
  rw [hr] at hfalse
  cases hfalse

theorem deref_eq (ht : m.heap[h]? = some t) : m.deref h = .ok t := by
  simp only [deref, ht]

/-- `find` and `erase` do not look at the callback. -/
theorem erase_write (t' : Timer Cb) (ht : m.heap[h]? = some t) (hn : t'.next = t.next)
    (ha : t'.addr = t.addr) :
    (m.write h t').erase h = (m.erase h).map fun m => m.write h t' := by
  have hleft : ∀ y, Timer.comparator (some t') y = Timer.comparator (some t) y := by
    intro y
    cases y <;> simp only [Timer.comparator, hn, ha]
  have hright : ∀ x, Timer.comparator x (some t') = Timer.comparator x (some t) := by
    intro x
    cases x <;> simp only [Timer.comparator, hn, ha]
  have hless : (m.write h t').less = m.less := by
    funext a b
    simp only [less]
    by_cases hah : a = h
    · subst hah
      rw [write_self ht, ht, hleft]
      by_cases hba : b = a
      · subst hba
        rw [write_self ht, ht, hright]
      · rw [write_other hba]
    · rw [write_other hah]
      by_cases hbh : b = h
      · subst hbh
        rw [write_self ht, ht, hright]
      · rw [write_other hbh]
  simp only [erase, hless]
  change (OrderedList.erase m.less h m.timers).map _ = _
  cases OrderedList.erase m.less h m.timers <;> rfl

/-! ## What each call returns -/

theorem cancel_unarmed (ht : m.heap[h]? = some t) (hc : t.callback.isSome = false) :
    m.cancel h = .ok (false, m) := by
  simp [cancel, deref_eq ht, hc, bind, Except.bind]

theorem cancel_armed (ht : m.heap[h]? = some t) (hc : t.callback.isSome = true)
    (he : m.erase h = some m') :
    m.cancel h = .ok (true, m'.write h { t with callback := none }) := by
  have hwrite := erase_write { t with callback := none } ht rfl rfl
  simp only [cancel, deref_eq ht, hc, bind, Except.bind, if_true, hwrite, he, Option.map_some]

theorem refresh_unarmed {now : UInt64} (ht : m.heap[h]? = some t)
    (hc : t.callback.isSome = false) : m.refresh h now = .ok (false, m) := by
  simp [refresh, deref_eq ht, ← Option.not_isSome, hc, bind, Except.bind]

theorem refresh_armed {now : UInt64} (ht : m.heap[h]? = some t) (hc : t.callback.isSome = true)
    (he : m.erase h = some m') :
    m.refresh h now = .ok (true, (m'.write h { t with next := now + t.ms }).insert h) := by
  simp [refresh, deref_eq ht, ← Option.not_isSome, hc, bind, Except.bind, he]

section Reset
variable {ms now : UInt64} {fromNow : Bool}

theorem reset_unchanged (ht : m.heap[h]? = some t) (hsame : (ms == t.ms && !fromNow) = true) :
    m.reset h ms fromNow now = .ok (true, false, m) := by
  simp only [reset, deref_eq ht, bind, Except.bind, hsame, if_true]

theorem reset_unarmed (ht : m.heap[h]? = some t) (hsame : (ms == t.ms && !fromNow) = false)
    (hc : t.callback.isSome = false) : m.reset h ms fromNow now = .ok (false, false, m) := by
  simp [reset, deref_eq ht, bind, Except.bind, hsame, ← Option.not_isSome, hc]

theorem reset_armed (ht : m.heap[h]? = some t) (hsame : (ms == t.ms && !fromNow) = false)
    (hc : t.callback.isSome = true) (he : m.erase h = some m') :
    m.reset h ms fromNow now = .ok (true, addTimerLocked h (m'.write h
      { t with ms := ms, next := (if fromNow then now else t.next - t.ms) + ms })) := by
  simp [reset, deref_eq ht, bind, Except.bind, hsame, ← Option.not_isSome, hc, he]

end Reset

section Expire
variable {now : UInt64} {addr first : ℕ} {hs rest : List ℕ} {callbacks : List (ℕ × Option Cb)}

theorem getNextTimeout_empty (hl : m.timers = []) :
    m.getNextTimeout now = .ok (~~~0, { m with tickled := false }) := by
  simp only [getNextTimeout, hl]

theorem getNextTimeout_first (hl : m.timers = first :: rest) (ht : m.heap[first]? = some t) :
    m.getNextTimeout now =
      .ok (if now ≥ t.next then 0 else t.next - now, { m with tickled := false }) := by
  simp only [getNextTimeout, hl]
  simp only [deref, ht, bind, Except.bind]

theorem expireLoop_recurring (ht : m.heap[h]? = some t) (hr : t.recurring = true)
    (hloop : expireLoop now hs ((m.write h { t with next := now + t.ms }).insert h) =
      .ok (callbacks, m')) :
    expireLoop now (h :: hs) m = .ok ((h, t.callback) :: callbacks, m') := by
  simp only [expireLoop, deref_eq ht, bind, Except.bind]
  rw [if_pos hr, hloop]

theorem expireLoop_oneShot (ht : m.heap[h]? = some t) (hr : t.recurring = false)
    (hloop : expireLoop now hs (m.write h { t with callback := none }) = .ok (callbacks, m')) :
    expireLoop now (h :: hs) m = .ok ((h, t.callback) :: callbacks, m') := by
  simp only [expireLoop, deref_eq ht, bind, Except.bind]
  rw [if_neg (by simp [hr]), hloop]

theorem listExpiredCallbacks_empty (hl : m.timers = []) :
    m.listExpiredCallbacks now addr = .ok ([], m) := by
  simp only [listExpiredCallbacks, hl]

/-- The loop runs over the expired range, unless the first timer is not due. -/
theorem listExpiredCallbacks_first (hl : m.timers = first :: rest) (ht : m.heap[first]? = some t) :
    m.listExpiredCallbacks now addr =
      if !(m.detectClockRollover now).1 && decide (now < t.next) then
        .ok ([], { m with previousTime := now })
      else
        expireLoop now (m.timers.take (m.expiredCount (m.detectClockRollover now).1 now addr))
          { m with
            previousTime := now
            timers := m.timers.drop (m.expiredCount (m.detectClockRollover now).1 now addr) } := by
  have hd : deref first (m.detectClockRollover now).2 = .ok t := deref_eq ht
  unfold listExpiredCallbacks
  split
  next hnil =>
    rw [hl] at hnil
    cases hnil
  next hcons =>
    rw [hl] at hcons
    cases hcons
    simp only [hd, bind, Except.bind]
    rfl

end Expire

/-! ## What each call keeps -/

theorem Holds.armed_mem (hm : Holds m []) (ht : m.heap[h]? = some t)
    (hc : t.callback.isSome = true) : h ∈ m.timers := by
  simpa using (hm.armed h).mpr ⟨t,ht,hc⟩

theorem addTimerLocked_heap : (m.addTimerLocked h).2.heap = m.heap := by
  simp only [addTimerLocked]
  split <;> rfl

theorem addTimerLocked_holds (hm : Holds m (h :: ps)) : Holds (m.addTimerLocked h).2 ps := by
  simp only [addTimerLocked]
  split
  · exact ⟨hm.put_back.sorted,hm.put_back.nodup,hm.put_back.armed,hm.put_back.distinct⟩
  · exact hm.put_back

theorem addTimer_spec (now ms : UInt64) {callback : Option Cb} (recurring : Bool) {addr : ℕ}
    (hm : Holds m []) (hc : callback.isSome = true)
    (hfresh : ∀ k ∈ m.timers, ∀ x, m.heap[k]? = some x → x.addr ≠ addr) :
    Holds (m.addTimer now ms callback recurring addr).2.2 [] ∧
      Pays m (m.addTimer now ms callback recurring addr).2.2 [] := by
  constructor
  · exact addTimerLocked_holds (hm.allocate hc hfresh)
  · have hold : ∀ (k : ℕ) (x : Timer Cb), m.heap[k]? = some x →
        (m.addTimer now ms callback recurring addr).2.2.heap[k]? = some x := by
      intro k x hx
      obtain ⟨hlt,_⟩ := List.getElem?_eq_some_iff.mp hx
      simp only [addTimer, addTimerLocked_heap]
      rw [List.getElem?_append_left hlt, hx]
    refine ⟨fun k hk x hx => hk x (hold k x hx),?_⟩
    intro k _
    cases hx : m.heap[k]? with
    | some x => simp [TimerManager.credit, hold k x hx, hx]
    | none =>
      simp only [TimerManager.credit, hx, List.count_nil, Nat.zero_add]
      split
      · exact le_rfl
      · split <;> omega

/-- An armed timer is cancelled; any other is left alone. -/
theorem cancel_spec (hm : Holds m []) (ht : m.heap[h]? = some t) :
    ∃ m', m.cancel h = .ok (t.callback.isSome, m') ∧ Holds m' [] ∧
      Pays m m' (if t.callback.isSome then [h] else []) := by
  cases hc : t.callback.isSome with
  | false =>
    exact ⟨m,cancel_unarmed ht hc,hm,Pays.of_heap_eq rfl⟩
  | true =>
    obtain ⟨l,hl,hout⟩ := hm.take_out (hm.armed_mem ht hc)
    have hpay : Pays { m with timers := l } _ [h] := Pays.disarm ht hc
    exact ⟨_,cancel_armed ht hc hl,hout.disarm ht,hpay.heap_eq_left (by rfl)⟩

/-- An armed timer gets a new deadline; any other is left alone. -/
theorem refresh_spec (now : UInt64) (hm : Holds m []) (ht : m.heap[h]? = some t) :
    ∃ m', m.refresh h now = .ok (t.callback.isSome, m') ∧ Holds m' [] ∧ Pays m m' [] := by
  cases hc : t.callback.isSome with
  | false =>
    exact ⟨m,refresh_unarmed ht hc,hm,Pays.of_heap_eq rfl⟩
  | true =>
    obtain ⟨l,hl,hout⟩ := hm.take_out (hm.armed_mem ht hc)
    have hrekeyed := hout.write { t with next := now + t.ms } ht rfl rfl
    have hpay : Pays { m with timers := l } _ [] :=
      Pays.rekey { t with next := now + t.ms } ht rfl rfl
    exact ⟨_,refresh_armed ht hc hl,hrekeyed.put_back,
      (hpay.heap_eq_left (by rfl)).heap_eq_right (by rfl)⟩

/-- `Reset` answers true for an armed timer, and for every timer when nothing
is to change. -/
theorem reset_spec (ms : UInt64) (fromNow : Bool) (now : UInt64) (hm : Holds m [])
    (ht : m.heap[h]? = some t) :
    ∃ notified m', m.reset h ms fromNow now =
        .ok (t.callback.isSome || (ms == t.ms && !fromNow), notified, m') ∧
      Holds m' [] ∧ Pays m m' [] := by
  cases hsame : ms == t.ms && !fromNow with
  | true =>
    refine ⟨false,m,?_,hm,Pays.of_heap_eq rfl⟩
    rw [reset_unchanged ht hsame, Bool.or_true]
  | false =>
    cases hc : t.callback.isSome with
    | false =>
      exact ⟨false,m,reset_unarmed ht hsame hc,hm,Pays.of_heap_eq rfl⟩
    | true =>
      obtain ⟨l,hl,hout⟩ := hm.take_out (hm.armed_mem ht hc)
      let t' := { t with ms := ms, next := (if fromNow then now else t.next - t.ms) + ms }
      have hrekeyed := hout.write t' ht rfl rfl
      have hpay : Pays { m with timers := l } _ [] := Pays.rekey t' ht rfl rfl
      exact ⟨_,_,reset_armed ht hsame hc hl,addTimerLocked_holds hrekeyed,
        (hpay.heap_eq_left (by rfl)).heap_eq_right addTimerLocked_heap⟩

theorem getNextTimeout_spec (now : UInt64) (hm : Holds m []) :
    ∃ ms m', m.getNextTimeout now = .ok (ms, m') ∧ Holds m' [] ∧ Pays m m' [] := by
  have hm' : Holds { m with tickled := false } [] := ⟨hm.sorted,hm.nodup,hm.armed,hm.distinct⟩
  cases hl : m.timers with
  | nil =>
    exact ⟨~~~0,_,getNextTimeout_empty hl,hm',Pays.of_heap_eq rfl⟩
  | cons h hs =>
    obtain ⟨t,ht,_⟩ := hm.heap_of_mem (h := h) (by simp [hl])
    exact ⟨_,_,getNextTimeout_first hl ht,hm',Pays.of_heap_eq rfl⟩

/-- The loop gives away each pending timer once and leaves none pending. -/
theorem expireLoop_spec (now : UInt64) (hm : Holds m ps) :
    ∃ callbacks m', expireLoop now ps m = .ok (callbacks, m') ∧ callbacks.map Prod.fst = ps ∧
      Holds m' [] ∧ Pays m m' ps := by
  induction ps generalizing m with
  | nil => exact ⟨[],m,rfl,rfl,hm,Pays.of_heap_eq rfl⟩
  | cons h hs ih =>
    obtain ⟨t,ht,hc⟩ := hm.heap_of_mem (h := h) (by simp)
    cases hr : t.recurring with
    | true =>
      have hrekeyed := hm.write { t with next := now + t.ms } ht rfl rfl
      have hpay : Pays m _ [h] := Pays.recur { t with next := now + t.ms } ht hr rfl
      obtain ⟨callbacks,m',hloop,hfst,hm',hrest⟩ := ih hrekeyed.put_back
      exact ⟨(h,t.callback) :: callbacks,m',expireLoop_recurring ht hr hloop,by simp [hfst],hm',
        (hpay.heap_eq_right (by rfl)).trans hrest⟩
    | false =>
      obtain ⟨callbacks,m',hloop,hfst,hm',hrest⟩ := ih (hm.disarm ht)
      exact ⟨(h,t.callback) :: callbacks,m',expireLoop_oneShot ht hr hloop,by simp [hfst],hm',
        (Pays.disarm ht hc).trans hrest⟩

theorem perm_split (l : List ℕ) (n : ℕ) : (l ++ []).Perm (l.drop n ++ l.take n) := by
  have hperm := @List.perm_append_comm _ (l.take n) (l.drop n)
  rw [List.take_append_drop] at hperm
  simpa using hperm

/-- The expired range leaves the set and is pending. -/
theorem Kept.split (now : UInt64) (n : ℕ) (hm : Kept m []) :
    Kept { m with previousTime := now, timers := m.timers.drop n } (m.timers.take n) := by
  have hm₁ : Kept { m with previousTime := now } [] :=
    ⟨hm.sorted,hm.nodup,hm.known,hm.complete,hm.distinct⟩
  exact hm₁.rearrange (hm₁.sorted.sublist (List.drop_sublist n _)) (perm_split _ n)

theorem Holds.split (now : UInt64) (n : ℕ) (hm : Holds m []) :
    Holds { m with previousTime := now, timers := m.timers.drop n } (m.timers.take n) :=
  (hm.kept.split now n).holds fun h hh =>
    (hm.armed h).mp ((perm_split m.timers n).mem_iff.mpr hh)

theorem listExpiredCallbacks_spec (now : UInt64) (addr : ℕ) (hm : Holds m []) :
    ∃ callbacks m', m.listExpiredCallbacks now addr = .ok (callbacks, m') ∧ Holds m' [] ∧
      Pays m m' (callbacks.map Prod.fst) := by
  cases hl : m.timers with
  | nil => exact ⟨[],m,listExpiredCallbacks_empty hl,hm,Pays.of_heap_eq rfl⟩
  | cons first rest =>
    obtain ⟨t,ht,_⟩ := hm.heap_of_mem (h := first) (by simp [hl])
    cases hearly : !(m.detectClockRollover now).1 && decide (now < t.next) with
    | true =>
      have hm₁ : Holds { m with previousTime := now } [] :=
        ⟨hm.sorted,hm.nodup,hm.armed,hm.distinct⟩
      refine ⟨[],_,?_,hm₁,Pays.of_heap_eq rfl⟩
      rw [listExpiredCallbacks_first hl ht, if_pos hearly]
    | false =>
      let n := m.expiredCount (m.detectClockRollover now).1 now addr
      obtain ⟨callbacks,m',hloop,hfst,hm',hpay⟩ := expireLoop_spec now (hm.split now n)
      refine ⟨callbacks,m',?_,hm',?_⟩
      · rw [listExpiredCallbacks_first hl ht, if_neg (by simp [hearly]), hloop]
      · rw [hfst]
        exact hpay.heap_eq_left (by rfl)

/-- One call; clock readings and addresses are whatever the outside supplies. -/
inductive Op (Cb : Type)
  | addTimer (now ms : UInt64) (callback : Option Cb) (recurring : Bool) (addr : ℕ)
  | cancel (timer : ℕ)
  | refresh (timer : ℕ) (now : UInt64)
  | reset (timer : ℕ) (ms : UInt64) (fromNow : Bool) (now : UInt64)
  | getNextTimeout (now : UInt64)
  | listExpiredCallbacks (now : UInt64) (addr : ℕ)
deriving Repr, DecidableEq

/-- What the caller sees of it; `notified` is a call of `OnTimerInsertedAtFront`. -/
inductive Seen (Cb : Type)
  | added (timer : ℕ) (notified : Bool)
  | cancelled (timer : ℕ) (ok : Bool)
  | refreshed (timer : ℕ) (ok : Bool)
  | reset (timer : ℕ) (ok notified : Bool)
  | timeout (ms : UInt64)
  | expired (callbacks : List (ℕ × Option Cb))
deriving Repr, DecidableEq

def step (m : TimerManager Cb) : Op Cb → Except Fault (Seen Cb × TimerManager Cb)
  | .addTimer now ms callback recurring addr =>
    let (h, notified, m) := m.addTimer now ms callback recurring addr
    .ok (.added h notified, m)
  | .cancel h => do
    let (ok, m) ← m.cancel h
    .ok (.cancelled h ok, m)
  | .refresh h now => do
    let (ok, m) ← m.refresh h now
    .ok (.refreshed h ok, m)
  | .reset h ms fromNow now => do
    let (ok, notified, m) ← m.reset h ms fromNow now
    .ok (.reset h ok notified, m)
  | .getNextTimeout now => do
    let (ms, m) ← m.getNextTimeout now
    .ok (.timeout ms, m)
  | .listExpiredCallbacks now addr => do
    let (callbacks, m) ← m.listExpiredCallbacks now addr
    .ok (.expired callbacks, m)

/-- A method is called on an existing timer. A new timer has a callback, and its
address is not that of a timer the set keeps alive. -/
def Admissible (m : TimerManager Cb) : Op Cb → Prop
  | .addTimer _ _ callback _ addr => callback.isSome = true ∧
      ∀ k ∈ m.timers, ∀ x, m.heap[k]? = some x → x.addr ≠ addr
  | .cancel h => h < m.heap.length
  | .refresh h _ => h < m.heap.length
  | .reset h _ _ _ => h < m.heap.length
  | .getNextTimeout _ => True
  | .listExpiredCallbacks _ _ => True

/-- Times the callback of `h` is handed out. -/
def Seen.handedOut (h : ℕ) : Seen Cb → ℕ
  | .expired callbacks => (callbacks.map Prod.fst).count h
  | _ => 0

/-- Successful cancels of `h`. -/
def Seen.cancels (h : ℕ) : Seen Cb → ℕ
  | .cancelled k ok => if k = h ∧ ok = true then 1 else 0
  | _ => 0

/-- The timers an output gives away. -/
def Seen.given : Seen Cb → List ℕ
  | .cancelled k ok => if ok then [k] else []
  | .expired callbacks => callbacks.map Prod.fst
  | _ => []

theorem Seen.count_given (h : ℕ) (o : Seen Cb) :
    o.given.count h = o.handedOut h + o.cancels h := by
  cases o with
  | cancelled k ok => cases ok <;> simp [given, handedOut, cancels, List.count_singleton]
  | _ => rfl

theorem step_spec (op : Op Cb) (hm : Holds m []) (hop : m.Admissible op) :
    ∃ o m', m.step op = .ok (o, m') ∧ Holds m' [] ∧ Pays m m' o.given := by
  have hget : ∀ h, h < m.heap.length → ∃ t, m.heap[h]? = some t := fun h hlt =>
    ⟨_,List.getElem?_eq_getElem hlt⟩
  cases op with
  | addTimer now ms callback recurring addr =>
    obtain ⟨hholds,hpays⟩ := addTimer_spec now ms recurring hm hop.1 hop.2
    exact ⟨_,_,rfl,hholds,hpays⟩
  | cancel h =>
    obtain ⟨t,ht⟩ := hget h hop
    obtain ⟨m',hrun,hholds,hpays⟩ := cancel_spec hm ht
    exact ⟨.cancelled h t.callback.isSome,m',by simp only [step, hrun, bind, Except.bind],hholds,hpays⟩
  | refresh h now =>
    obtain ⟨t,ht⟩ := hget h hop
    obtain ⟨m',hrun,hholds,hpays⟩ := refresh_spec now hm ht
    exact ⟨.refreshed h t.callback.isSome,m',by simp only [step, hrun, bind, Except.bind],hholds,hpays⟩
  | reset h ms fromNow now =>
    obtain ⟨t,ht⟩ := hget h hop
    obtain ⟨notified,m',hrun,hholds,hpays⟩ := reset_spec ms fromNow now hm ht
    exact ⟨.reset h (t.callback.isSome || (ms == t.ms && !fromNow)) notified,m',
      by simp only [step, hrun, bind, Except.bind],hholds,hpays⟩
  | getNextTimeout now =>
    obtain ⟨ms,m',hrun,hholds,hpays⟩ := getNextTimeout_spec now hm
    exact ⟨.timeout ms,m',by simp only [step, hrun, bind, Except.bind],hholds,hpays⟩
  | listExpiredCallbacks now addr =>
    obtain ⟨callbacks,m',hrun,hholds,hpays⟩ := listExpiredCallbacks_spec now addr hm
    exact ⟨.expired callbacks,m',by simp only [step, hrun, bind, Except.bind],hholds,hpays⟩

theorem run_spec (ops : List (Op Cb)) (hm : Holds m [])
    (hok : StepSystem.Along step Admissible ops m) :
    ∃ seen m', StepSystem.run step ops m = .ok (seen, m') ∧ Holds m' [] ∧
      Pays m m' (seen.flatMap Seen.given) := by
  induction ops generalizing m with
  | nil => exact ⟨[],m,rfl,hm,Pays.of_heap_eq rfl⟩
  | cons op ops ih =>
    obtain ⟨o,m₁,hstep,hm₁,hpay⟩ := step_spec op hm hok.1
    obtain ⟨seen,m',hrun,hm',hrest⟩ := ih hm₁ (hok.2 o m₁ hstep)
    refine ⟨o :: seen,m',by simp only [StepSystem.run, hstep, hrun],hm',?_⟩
    exact hpay.trans hrest

theorem count_given_sum (h : ℕ) (seen : List (Seen Cb)) :
    (seen.flatMap Seen.given).count h =
      (seen.map (Seen.handedOut h)).sum + (seen.map (Seen.cancels h)).sum := by
  induction seen with
  | nil => rfl
  | cons o os ih =>
    simp only [List.flatMap_cons, List.count_append, List.map_cons, List.sum_cons, ih,
      o.count_given]
    omega

/-- `timers_` in strictly increasing order of `(next_, address)`. -/
def StrictlySorted (m : TimerManager Cb) : Prop :=
  m.timers.Pairwise fun a b => ∃ x y, m.heap[a]? = some x ∧ m.heap[b]? = some y ∧
    (x.next < y.next ∨ x.next = y.next ∧ x.addr < y.addr)

theorem Holds.strictlySorted (hm : Holds m ps) : m.StrictlySorted := by
  refine List.Pairwise.imp_of_mem ?_ hm.sorted
  intro a b ha hb hab
  obtain ⟨x,hx,_⟩ := hm.heap_of_mem (List.mem_append_left ps ha)
  obtain ⟨y,hy,_⟩ := hm.heap_of_mem (List.mem_append_left ps hb)
  refine ⟨x,y,hx,hy,?_⟩
  simp only [less, hx, hy, Timer.comparator] at hab
  grind

/-- In every reachable state the set is strictly sorted and holds each timer once
or not at all, as its callback says. No call faults on the way, and a one-shot
timer is handed out or cancelled at most once. -/
theorem timer_life_cycle (now : UInt64) (ops : List (Op Cb))
    (hok : StepSystem.Along step Admissible ops (new now)) :
    ∃ seen m, StepSystem.run step ops (new now) = .ok (seen, m) ∧ m.StrictlySorted ∧
      (∀ h t, m.heap[h]? = some t →
        m.timers.count h = if t.callback.isSome then 1 else 0) ∧
      (∀ h ∈ m.timers, h < m.heap.length) ∧
      ∀ h t, m.heap[h]? = some t → t.recurring = false →
        (seen.map (Seen.handedOut h)).sum + (seen.map (Seen.cancels h)).sum ≤ 1 := by
  obtain ⟨seen,m,hrun,hm,hpay⟩ := run_spec ops (new_holds now) hok
  refine ⟨seen,m,hrun,hm.strictlySorted,?_,?_,?_⟩
  · intro h t ht
    have hnodup : m.timers.Nodup := by simpa using hm.nodup
    have hmem : h ∈ m.timers ↔ t.callback.isSome = true := by
      simpa [Armed, ht] using hm.armed h
    rw [hnodup.count]
    simp only [hmem]
  · intro h hh
    obtain ⟨t,ht,_⟩ := hm.heap_of_mem (List.mem_append_left [] hh)
    exact (List.getElem?_eq_some_iff.mp ht).1
  · intro h t ht hr
    have hone : m.OneShot h := by
      intro x hx
      rw [ht] at hx
      cases hx
      exact hr
    have hbound := hpay.credit h hone
    rw [count_given_sum] at hbound
    have hstart : (new now : TimerManager Cb).credit h = 1 := by simp [TimerManager.credit, new]
    omega

theorem timer_life_cycle_cancelled :
    ∃ seen m, StepSystem.run step [.addTimer 10 5 (some ()) false 100,
        .addTimer 10 3 (some ()) true 96, .listExpiredCallbacks 13 104, .cancel 0] (new 0) =
        .ok (seen, m) ∧ m.timers.count 0 = 0 ∧
      (seen.map (Seen.handedOut 0)).sum + (seen.map (Seen.cancels 0)).sum ≤ 1 := by
  have hok : StepSystem.Along step Admissible [.addTimer 10 5 (some ()) false 100,
      .addTimer 10 3 (some ()) true 96, .listExpiredCallbacks 13 104, .cancel 0] (new 0) := by
    refine StepSystem.Along.cons ⟨rfl,by simp [new]⟩ rfl ?_
    refine StepSystem.Along.cons ⟨rfl,?_⟩ rfl ?_
    · intro k hk x hx
      have hk0 : k = 0 := List.mem_singleton.mp hk
      subst hk0
      cases hx
      decide
    · refine StepSystem.Along.cons trivial rfl (StepSystem.Along.cons ?_ rfl trivial)
      change 0 < 2
      decide
  obtain ⟨seen,m,hrun,_,hcount,_,hone⟩ := timer_life_cycle 0 _ hok
  refine ⟨seen,m,hrun,?_,?_⟩
  · cases hrun
    exact hcount 0 _ rfl
  · cases hrun
    exact hone 0 _ rfl rfl

end Gudov.TimerManager
