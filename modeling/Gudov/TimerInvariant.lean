import Mathlib.Data.List.Nodup
import Gudov.TimerManager

/-!
# The set of timers and the callbacks stay in step

The key of the ordered set is a field of the stored objects. Every method
therefore takes a timer out before it writes the key, and the invariant is
stated with a list of pending timers: those that are armed but out of the set at
the moment. Taking out, writing, putting back and disarming each have one rule,
and the methods are chains of these rules.
-/
namespace Gudov.TimerManager
open OrderedList
open scoped List
variable {Cb : Type} {m m' : TimerManager Cb} {h : ℕ} {t t' : Timer Cb} {ps : List ℕ}

theorem comparator_strict :
    Strict (Timer.comparator : Option (Timer Cb) → Option (Timer Cb) → Bool) where
  irrefl a := by
    cases a with
    | none => rfl
    | some x => simp [Timer.comparator]
  trans a b c := by
    cases a <;> cases b <;> cases c <;> simp only [Timer.comparator] <;> try simp
    intro hab hbc
    grind

theorem less_strict (m : TimerManager Cb) : Strict m.less where
  irrefl _ := comparator_strict.irrefl _
  trans _ _ _ := comparator_strict.trans _ _ _

/-- Timers at different addresses are comparable. -/
theorem less_total {a b : ℕ} {x y : Timer Cb} (ha : m.heap[a]? = some x)
    (hb : m.heap[b]? = some y) (hne : x.addr ≠ y.addr) :
    m.less a b = true ∨ m.less b a = true := by
  simp only [less, ha, hb, Timer.comparator]
  grind

def Armed (m : TimerManager Cb) (h : ℕ) : Prop :=
  ∃ t, m.heap[h]? = some t ∧ t.callback.isSome = true

/-- What holds with `pending` timers out of the set. A timer made with an empty callback is
in the set as well, but no method finds it. -/
structure Kept (m : TimerManager Cb) (pending : List ℕ) : Prop where
  sorted : Sorted m.less m.timers
  nodup : (m.timers ++ pending).Nodup
  known : ∀ h ∈ m.timers ++ pending, ∃ t, m.heap[h]? = some t
  complete : ∀ h, m.Armed h → h ∈ m.timers ++ pending
  distinct : ∀ a ∈ m.timers ++ pending, ∀ b ∈ m.timers ++ pending, ∀ x y,
    m.heap[a]? = some x → m.heap[b]? = some y → x.addr = y.addr → a = b

/-- The invariant with `pending` armed timers out of the set. -/
structure Holds (m : TimerManager Cb) (pending : List ℕ) : Prop where
  sorted : Sorted m.less m.timers
  nodup : (m.timers ++ pending).Nodup
  armed : ∀ h, h ∈ m.timers ++ pending ↔ m.Armed h
  distinct : ∀ a ∈ m.timers ++ pending, ∀ b ∈ m.timers ++ pending, ∀ x y,
    m.heap[a]? = some x → m.heap[b]? = some y → x.addr = y.addr → a = b

theorem Holds.kept (hm : Holds m ps) : Kept m ps where
  sorted := hm.sorted
  nodup := hm.nodup
  known h hh := by
    obtain ⟨t,ht,-⟩ := (hm.armed h).mp hh
    exact ⟨t,ht⟩
  complete h := (hm.armed h).mpr
  distinct := hm.distinct

/-- Where every timer has a callback, the two agree. -/
theorem Kept.holds (hm : Kept m ps) (harmed : ∀ h ∈ m.timers ++ ps, m.Armed h) : Holds m ps where
  sorted := hm.sorted
  nodup := hm.nodup
  armed h := ⟨harmed h,hm.complete h⟩
  distinct := hm.distinct

theorem new_kept (now : UInt64) : Kept (new now : TimerManager Cb) [] where
  sorted := List.Pairwise.nil
  nodup := List.nodup_nil
  known h hh := by simp [new] at hh
  complete h hh := by simp [new, Armed] at hh
  distinct a ha := by simp [new] at ha

theorem new_holds (now : UInt64) : Holds (new now : TimerManager Cb) [] :=
  (new_kept now).holds fun h hh => by simp [new] at hh

/-- Moving timers between the set and the pending list. -/
theorem Kept.rearrange {l qs : List ℕ} (hm : Kept m ps) (hl : Sorted m.less l)
    (hp : (m.timers ++ ps).Perm (l ++ qs)) : Kept { m with timers := l } qs where
  sorted := hl
  nodup := hp.nodup_iff.mp hm.nodup
  known h hh := hm.known h (hp.mem_iff.mpr hh)
  complete h hh := hp.mem_iff.mp (hm.complete h hh)
  distinct a ha b hb := hm.distinct a (hp.mem_iff.mpr ha) b (hp.mem_iff.mpr hb)

theorem Holds.rearrange {l qs : List ℕ} (hm : Holds m ps) (hl : Sorted m.less l)
    (hp : (m.timers ++ ps).Perm (l ++ qs)) : Holds { m with timers := l } qs :=
  (hm.kept.rearrange hl hp).holds fun h hh => (hm.armed h).mp (hp.mem_iff.mpr hh)

/-- A timer taken out of the set is pending. -/
theorem Kept.take_out (hm : Kept m ps) (hh : h ∈ m.timers) :
    ∃ l, m.erase h = some { m with timers := l } ∧ Sorted m.less l ∧
      (m.timers ++ ps).Perm (l ++ h :: ps) := by
  obtain ⟨l,hl,hperm,hsorted⟩ := erase_of_mem m.less_strict hm.sorted hh
  refine ⟨l,?_,hsorted,?_⟩
  · simp only [erase, hl, Option.map_some]
  · calc m.timers ++ ps
      _ ~ (h :: l) ++ ps := hperm.append_right ps
      _ ~ l ++ h :: ps := List.perm_middle.symm

theorem Holds.take_out (hm : Holds m ps) (hh : h ∈ m.timers) :
    ∃ l, m.erase h = some { m with timers := l } ∧ Holds { m with timers := l } (h :: ps) := by
  obtain ⟨l,he,hsorted,hperm⟩ := hm.kept.take_out hh
  exact ⟨l,he,hm.rearrange hsorted hperm⟩

theorem Holds.heap_of_mem (hm : Holds m ps) (hh : h ∈ m.timers ++ ps) :
    ∃ t, m.heap[h]? = some t ∧ t.callback.isSome = true := (hm.armed h).mp hh

/-- A pending timer is not in the set. -/
theorem Kept.ne_pending (hm : Kept m (h :: ps)) {k : ℕ} (hk : k ∈ m.timers) : k ≠ h := by
  rintro rfl
  exact (List.disjoint_of_nodup_append hm.nodup) hk (by simp)

theorem Kept.put_back (hm : Kept m (h :: ps)) :
    Kept (m.insert h) ps ∧ ((m.insert h).timers ++ ps).Perm (m.timers ++ h :: ps) := by
  have hfresh : ∀ y ∈ m.timers, m.less y h = true ∨ m.less h y = true := by
    intro y hy
    have hyl : y ∈ m.timers ++ h :: ps := List.mem_append_left _ hy
    have hhl : h ∈ m.timers ++ h :: ps := by simp
    obtain ⟨x,hx⟩ := hm.known y hyl
    obtain ⟨z,hz⟩ := hm.known h hhl
    apply less_total hx hz
    intro haddr
    exact hm.ne_pending hy (hm.distinct y hyl h hhl x z hx hz haddr)
  have hperm : (m.timers ++ h :: ps).Perm ((m.insert h).timers ++ ps) :=
    calc m.timers ++ h :: ps
      _ ~ (h :: m.timers) ++ ps := List.perm_middle
      _ ~ OrderedList.insert m.less h m.timers ++ ps := (insert_perm hfresh).symm.append_right ps
  exact ⟨hm.rearrange (insert_sorted m.less_strict hm.sorted hfresh) hperm,hperm.symm⟩

theorem Holds.put_back (hm : Holds m (h :: ps)) : Holds (m.insert h) ps :=
  hm.kept.put_back.1.holds fun k hk => (hm.armed k).mp (hm.kept.put_back.2.mem_iff.mp hk)

theorem write_other {k : ℕ} (hk : k ≠ h) : (m.write h t').heap[k]? = m.heap[k]? := by
  simp [write, List.getElem?_set_ne (Ne.symm hk)]

theorem write_self (ht : m.heap[h]? = some t) : (m.write h t').heap[h]? = some t' := by
  obtain ⟨hlt,_⟩ := List.getElem?_eq_some_iff.mp ht
  simp [write, hlt]

/-- Writing a timer changes what is armed at this timer only. -/
theorem armed_write_iff {k : ℕ} (ht : m.heap[h]? = some t) :
    (m.write h t').Armed k ↔ if k = h then t'.callback.isSome = true else m.Armed k := by
  by_cases hk : k = h
  · subst hk
    simp [Armed, write_self ht]
  · simp only [Armed, write_other hk, if_neg hk]

/-- A pending timer may be written as long as it stays at its address and is not armed anew. -/
theorem Kept.write (t' : Timer Cb) (hm : Kept m (h :: ps)) (ht : m.heap[h]? = some t)
    (ha : t'.addr = t.addr) : Kept (m.write h t') (h :: ps) where
  sorted := by
    refine hm.sorted.congr ?_
    intro a hah b hbh
    simp only [less, write_other (hm.ne_pending hah), write_other (hm.ne_pending hbh)]
  nodup := hm.nodup
  known k hk := by
    by_cases hkh : k = h
    · subst hkh
      exact ⟨t',write_self ht⟩
    · rw [write_other hkh]
      exact hm.known k hk
  complete k hk := by
    by_cases hkh : k = h
    · subst hkh
      exact List.mem_append_right _ List.mem_cons_self
    · rw [armed_write_iff ht, if_neg hkh] at hk
      exact hm.complete k hk
  distinct := by
    have hkeep : ∀ (k : ℕ) (x : Timer Cb), (m.write h t').heap[k]? = some x →
        ∃ x' : Timer Cb, m.heap[k]? = some x' ∧ x'.addr = x.addr := by
      intro k x hx
      by_cases hk : k = h
      · subst hk
        rw [write_self ht] at hx
        cases hx
        exact ⟨t,ht,ha.symm⟩
      · rw [write_other hk] at hx
        exact ⟨x,hx,rfl⟩
    intro a hal b hbl x y hx hy hxy
    obtain ⟨x',hx',hxa⟩ := hkeep a x hx
    obtain ⟨y',hy',hya⟩ := hkeep b y hy
    exact hm.distinct a hal b hbl x' y' hx' hy' (by rw [hxa, hya, hxy])

theorem Holds.write (t' : Timer Cb) (hm : Holds m (h :: ps)) (ht : m.heap[h]? = some t)
    (hc : t'.callback.isSome = t.callback.isSome) (ha : t'.addr = t.addr) :
    Holds (m.write h t') (h :: ps) := by
  refine (hm.kept.write t' ht ha).holds ?_
  intro k hk
  rw [armed_write_iff ht]
  split
  · obtain ⟨x,hx,hxc⟩ := hm.heap_of_mem (h := h) (by simp)
    rw [ht] at hx
    cases hx
    rw [hc, hxc]
  · exact (hm.armed k).mp hk

theorem Kept.pending_out (hm : Kept m (h :: ps)) :
    (m.timers ++ ps).Nodup ∧ (∀ k ∈ m.timers ++ ps, k ≠ h) ∧
      ∀ k ∈ m.timers ++ ps, k ∈ m.timers ++ h :: ps := by
  have hnodup : (h :: (m.timers ++ ps)).Nodup := List.perm_middle.nodup_iff.mp hm.nodup
  refine ⟨(List.nodup_cons.mp hnodup).2,?_,?_⟩
  · rintro k hk rfl
    exact (List.nodup_cons.mp hnodup).1 hk
  · intro k hk
    exact List.perm_middle.mem_iff.mpr (List.mem_cons_of_mem h hk)

/-- Forgetting the callback of a pending timer ends it. -/
theorem Kept.disarm (hm : Kept m (h :: ps)) (ht : m.heap[h]? = some t) :
    Kept (m.write h { t with callback := none }) ps := by
  obtain ⟨hnodup,hout,hin⟩ := hm.pending_out
  constructor
  · refine hm.sorted.congr ?_
    intro a ha b hb
    simp only [less, write_other (hout a (List.mem_append_left _ ha)),
      write_other (hout b (List.mem_append_left _ hb))]
  · exact hnodup
  · intro k hk
    rw [write_other (hout k hk)]
    exact hm.known k (hin k hk)
  · intro k hk
    rw [armed_write_iff ht] at hk
    split at hk
    · cases hk
    · next hkh =>
      have hmem := List.perm_middle.mem_iff.mp (hm.complete k hk)
      exact (List.mem_cons.mp hmem).resolve_left hkh
  · intro a ha b hb x y hx hy
    rw [write_other (hout a ha)] at hx
    rw [write_other (hout b hb)] at hy
    exact hm.distinct a (hin a ha) b (hin b hb) x y hx hy

theorem Holds.disarm (hm : Holds m (h :: ps)) (ht : m.heap[h]? = some t) :
    Holds (m.write h { t with callback := none }) ps := by
  obtain ⟨-,hout,hin⟩ := hm.kept.pending_out
  refine (hm.kept.disarm ht).holds ?_
  intro k hk
  rw [armed_write_iff ht, if_neg (hout k hk)]
  exact (hm.armed k).mp (hin k hk)

/-- A new timer at a fresh address is pending. -/
theorem Kept.allocate (hm : Kept m [])
    (hfresh : ∀ k ∈ m.timers, ∀ x, m.heap[k]? = some x → x.addr ≠ t.addr) :
    Kept { m with heap := m.heap ++ [t] } [m.heap.length] := by
  have hlt : ∀ k ∈ m.timers, k < m.heap.length := by
    intro k hk
    obtain ⟨x,hx⟩ := hm.known k (List.mem_append_left [] hk)
    exact (List.getElem?_eq_some_iff.mp hx).1
  have hold : ∀ k ∈ m.timers, (m.heap ++ [t])[k]? = m.heap[k]? := fun k hk =>
    List.getElem?_append_left (hlt k hk)
  have hnew : (m.heap ++ [t])[m.heap.length]? = some t := by simp
  constructor
  · refine hm.sorted.congr ?_
    intro a ha b hb
    simp only [less, hold a ha, hold b hb]
  · have hn : m.timers.Nodup := by simpa using hm.nodup
    apply List.Nodup.append hn (by simp)
    intro k hk hk'
    have := hlt k hk
    simp only [List.mem_singleton] at hk'
    omega
  · intro k hk
    simp only [List.mem_append, List.mem_singleton] at hk
    rcases hk with hk | rfl
    · rw [hold k hk]
      exact hm.known k (List.mem_append_left [] hk)
    · exact ⟨t,hnew⟩
  · rintro k ⟨x,hx,hc⟩
    have hk : k < m.heap.length + 1 := by
      simpa using (List.getElem?_eq_some_iff.mp hx).1
    rcases Nat.lt_succ_iff_lt_or_eq.mp hk with hk | rfl
    · rw [List.getElem?_append_left hk] at hx
      have hmem := hm.complete k ⟨x,hx,hc⟩
      rw [List.append_nil] at hmem
      exact List.mem_append_left _ hmem
    · simp
  · intro a ha b hb x y hx hy hxy
    simp only [List.mem_append, List.mem_singleton] at ha hb
    rcases ha with ha | rfl <;> rcases hb with hb | rfl
    · rw [hold a ha] at hx
      rw [hold b hb] at hy
      exact hm.distinct a (by simpa using ha) b (by simpa using hb) x y hx hy hxy
    · rw [hold a ha] at hx
      rw [hnew] at hy
      cases hy
      exact absurd hxy (hfresh a ha x hx)
    · rw [hold b hb] at hy
      rw [hnew] at hx
      cases hx
      exact absurd hxy.symm (hfresh b hb y hy)
    · rfl

theorem Holds.allocate (hm : Holds m []) (hc : t.callback.isSome = true)
    (hfresh : ∀ k ∈ m.timers, ∀ x, m.heap[k]? = some x → x.addr ≠ t.addr) :
    Holds { m with heap := m.heap ++ [t] } [m.heap.length] := by
  refine (hm.kept.allocate hfresh).holds ?_
  intro k hk
  simp only [List.mem_append, List.mem_singleton] at hk
  rcases hk with hk | rfl
  · obtain ⟨x,hx,hxc⟩ := hm.heap_of_mem (List.mem_append_left [] hk)
    have hlt := (List.getElem?_eq_some_iff.mp hx).1
    exact ⟨x,by rw [List.getElem?_append_left hlt, hx],hxc⟩
  · exact ⟨t,by simp,hc⟩

end Gudov.TimerManager
