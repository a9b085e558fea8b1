import Gudov.IOManagerInvariant

/-!
# Growing the descriptor table from several threads

`AddEvent` reads the size of the table under the read lock and resizes it under
the write lock. Between the two another thread may have resized it, and the new
size is computed from the caller's descriptor alone. The steps here are the two
halves of `AddEvent` and the lookup the other calls start with. What a call does
with its context afterwards does not touch the table.
-/
namespace Gudov
open IOManager

/-- The manager, the descriptor each thread waits for the write lock with, and the
contexts used by `AddEvent` so far. -/
structure Growing (Sched Fib Cb : Type) where
  io : IOManager Sched Fib Cb
  waiting : List (Option ℕ)
  used : List (ℕ × ℕ)
deriving Repr, DecidableEq

namespace Growing
variable {Sched Fib Cb : Type} {s t : Growing Sched Fib Cb}

def start (threads : ℕ) : Growing Sched Fib Cb :=
  { io := new, waiting := List.replicate threads none, used := [] }

/-- `check` and `grow` are the two halves of `AddEvent`; `find` is the lookup of
`DelEvent`, `CancelEvent` and `CancelAll`. -/
inductive Op
  | check (thread fd : ℕ)
  | grow (thread : ℕ)
  | find (fd : ℕ)
deriving Repr, DecidableEq

/-- The descriptor a step got an answer for, and the context it reached. -/
inductive Seen
  | nothing
  | reached (fd : ℕ) (p : Option ℕ)
deriving Repr, DecidableEq

def size (s : Growing Sched Fib Cb) : ℕ := s.io.fdContexts.length

/-- A thread checks when it is not waiting, and grows when it is. -/
def step (s : Growing Sched Fib Cb) : Op → Except Fault (Seen × Growing Sched Fib Cb)
  | .check thread fd =>
    match s.waiting[thread]? with
    | some none =>
      if (fd : ℤ) < s.io.intSize then do
        let p ← s.io.slot fd
        .ok (.reached fd (some p), { s with used := s.used ++ [(fd, p)] })
      else .ok (.nothing, { s with waiting := s.waiting.set thread (some fd) })
    | _ => .ok (.nothing, s)
  | .grow thread =>
    match s.waiting[thread]? with
    | some (some fd) => do
      let (p, io) ← s.io.growFor fd
      .ok (.reached fd (some p),
        { io := io, waiting := s.waiting.set thread none, used := s.used ++ [(fd, p)] })
    | _ => .ok (.nothing, s)
  | .find fd => do
    let p ← s.io.lookup fd
    .ok (.reached fd p, s)

def Admissible (_ : Growing Sched Fib Cb) : Op → Prop
  | .check _ fd => fd < 2 ^ 31
  | .grow _ => True
  | .find fd => fd < 2 ^ 31

/-- The table does not shrink, and a descriptor some `AddEvent` has used leads to
the same context again. -/
def Keeps (s : Growing Sched Fib Cb) (op : Op) : Prop :=
  match s.step op with
  | .error _ => True
  | .ok (o, t) => s.size ≤ t.size ∧
      ∀ use ∈ s.used, ∀ p, o = .reached use.1 p → p = some use.2

/-- The condition: a resize is not to a smaller size. -/
def Meets (s : Growing Sched Fib Cb) : Op → Prop
  | .grow thread =>
    match s.waiting[thread]? with
    | some (some fd) => s.size ≤ fd * 3 / 2
    | _ => True
  | _ => True

/-- Used contexts are where the table says, and waiting descriptors are ints that
were once beyond the table. -/
structure Stable (s : Growing Sched Fib Cb) : Prop where
  size_ge : 32 ≤ s.size
  size_lt : s.size < 2 ^ 31
  used : ∀ use ∈ s.used, s.io.fdContexts[use.1]? = some use.2
  waiting : ∀ fd, some fd ∈ s.waiting → 32 ≤ fd ∧ fd < 2 ^ 31

section Table
variable {m : IOManager Sched Fib Cb} {n fd : ℕ}

theorem contextResize_length (n : ℕ) (m : IOManager Sched Fib Cb) :
    (m.contextResize n).fdContexts.length = n := by
  simp only [contextResize, List.length_append, List.length_take, List.length_map,
    List.length_range]
  omega

/-- Growing keeps every pointer in its slot. -/
theorem contextResize_keeps {p : ℕ} (hle : m.fdContexts.length ≤ n)
    (hp : m.fdContexts[fd]? = some p) : (m.contextResize n).fdContexts[fd]? = some p := by
  obtain ⟨hlt,_⟩ := List.getElem?_eq_some_iff.mp hp
  simp only [contextResize, List.take_of_length_le hle]
  rw [List.getElem?_append_left hlt, hp]

theorem intSize_of_lt (h : m.fdContexts.length < 2 ^ 31) :
    m.intSize = m.fdContexts.length := by
  unfold intSize
  exact bmod_of_lt h

theorem slot_of_some {p : ℕ} (hp : m.fdContexts[fd]? = some p) : m.slot fd = .ok p := by
  simp only [slot, hp]

theorem growFor_ok (hfd : 32 ≤ fd) (hn : fd * 3 / 2 < 2 ^ 31) :
    ∃ p, m.growFor fd = .ok (p, m.contextResize (fd * 3 / 2)) ∧
      (m.contextResize (fd * 3 / 2)).fdContexts[fd]? = some p := by
  have hlen := contextResize_length (fd * 3 / 2) m
  obtain ⟨p,hp⟩ : ∃ p, (m.contextResize (fd * 3 / 2)).fdContexts[fd]? = some p :=
    ⟨_,List.getElem?_eq_getElem (by omega)⟩
  have hint : (fd : ℤ) < (m.contextResize (fd * 3 / 2)).intSize := by
    rw [intSize_of_lt (by omega), hlen]
    omega
  refine ⟨p,?_,hp⟩
  rw [growFor, if_pos hint, bind_ok (slot_of_some hp)]

theorem growFor_fails (hfd : fd < 2 ^ 31) (hn : 2 ^ 31 ≤ fd * 3 / 2) :
    m.growFor fd = .error .assertion := by
  have hint : (m.contextResize (fd * 3 / 2)).intSize = (fd * 3 / 2 : ℕ) - 2 ^ 32 := by
    unfold intSize
    rw [contextResize_length]
    exact bmod_of_ge hn (by omega)
  rw [growFor, if_neg]
  rw [hint]
  omega

end Table

theorem start_stable (threads : ℕ) : Stable (start threads : Growing Sched Fib Cb) := by
  have hlen : (start threads : Growing Sched Fib Cb).size = 32 :=
    contextResize_length 32 _
  constructor
  · exact hlen.ge
  · rw [hlen]
    decide
  · intro use huse
    cases huse
  · intro fd hfd
    cases List.eq_of_mem_replicate hfd

theorem Stable.slot_eq (hs : Stable s) {fd : ℕ} (hlt : (fd : ℤ) < s.io.intSize) :
    ∃ p, s.io.slot fd = .ok p ∧ s.io.fdContexts[fd]? = some p := by
  rw [intSize_of_lt hs.size_lt] at hlt
  obtain ⟨p,hp⟩ : ∃ p, s.io.fdContexts[fd]? = some p := ⟨_,List.getElem?_eq_getElem (by omega)⟩
  exact ⟨p,slot_of_some hp,hp⟩

/-- A descriptor in use is looked up in its own slot. -/
theorem Stable.used_eq (hs : Stable s) {use : ℕ × ℕ} {p : ℕ} (huse : use ∈ s.used)
    (hp : s.io.fdContexts[use.1]? = some p) : p = use.2 := by
  have := hs.used use huse
  rw [hp] at this
  exact Option.some.inj this

theorem Stable.used_lt (hs : Stable s) {use : ℕ × ℕ} (huse : use ∈ s.used) :
    (use.1 : ℤ) < s.io.intSize := by
  have := (List.getElem?_eq_some_iff.mp (hs.used use huse)).1
  rw [intSize_of_lt hs.size_lt]
  omega

/-- Using one more context keeps the invariant. -/
theorem Stable.use (hs : Stable s) {fd p : ℕ} (hp : s.io.fdContexts[fd]? = some p) :
    Stable { s with used := s.used ++ [(fd, p)] } := by
  refine ⟨hs.size_ge,hs.size_lt,?_,hs.waiting⟩
  intro use huse
  rcases List.mem_append.mp huse with hold | hnew
  · exact hs.used use hold
  · rw [List.mem_singleton.mp hnew]
    exact hp

/-- What a step may do: keep the table and answer for used descriptors rightly. -/
structure Fine (s : Growing Sched Fib Cb) (op : Op) (o : Seen) (t : Growing Sched Fib Cb) :
    Prop where
  runs : s.step op = .ok (o, t)
  size_le : s.size ≤ t.size
  answer : ∀ use ∈ s.used, ∀ p, o = .reached use.1 p → p = some use.2
  stable : Stable t

theorem Fine.keeps {op : Op} {o : Seen} (h : Fine s op o t) : Keeps s op := by
  unfold Keeps
  rw [h.runs]
  exact ⟨h.size_le,h.answer⟩

theorem Fine.of_nothing {op : Op} (h : s.step op = .ok (.nothing, s)) (hs : Stable s) :
    Fine s op .nothing s := ⟨h,le_rfl,by simp,hs⟩

theorem check_fine (thread : ℕ) {fd : ℕ} (hs : Stable s) (hfd : fd < 2 ^ 31) :
    ∃ o t, Fine s (.check thread fd) o t := by
  rcases hw : s.waiting[thread]? with _ | _ | fd'
  · exact ⟨.nothing,s,Fine.of_nothing (by simp only [step, hw]) hs⟩
  · by_cases hlt : (fd : ℤ) < s.io.intSize
    · obtain ⟨p,hslot,hp⟩ := hs.slot_eq hlt
      refine ⟨.reached fd (some p),{ s with used := s.used ++ [(fd, p)] },?_,le_rfl,?_,hs.use hp⟩
      · simp only [step, hw]
        rw [if_pos hlt, bind_ok hslot]
      · intro use huse q hq
        cases hq
        rw [hs.used_eq huse hp]
    · refine ⟨.nothing,{ s with waiting := s.waiting.set thread (some fd) },?_,le_rfl,by simp,
        hs.size_ge,hs.size_lt,hs.used,?_⟩
      · simp only [step, hw]
        rw [if_neg hlt]
      · intro k hk
        rcases List.mem_or_eq_of_mem_set hk with hold | hnew
        · exact hs.waiting k hold
        · cases hnew
          rw [intSize_of_lt hs.size_lt] at hlt
          have hge : 32 ≤ s.io.fdContexts.length := hs.size_ge
          exact ⟨by omega,hfd⟩
  · exact ⟨.nothing,s,Fine.of_nothing (by simp only [step, hw]) hs⟩

theorem find_fine (fd : ℕ) (hs : Stable s) : ∃ o t, Fine s (.find fd) o t := by
  by_cases hle : s.io.intSize ≤ (fd : ℤ)
  · have hlook : s.io.lookup fd = .ok none := by rw [lookup, if_pos hle]
    refine ⟨.reached fd none,s,?_,le_rfl,?_,hs⟩
    · rw [step, bind_ok hlook]
    · intro use huse q hq
      have hlt := hs.used_lt huse
      cases hq
      omega
  · obtain ⟨p,hslot,hp⟩ := hs.slot_eq (not_le.mp hle)
    have hlook : s.io.lookup fd = .ok (some p) := by rw [lookup, if_neg hle, bind_ok hslot]
    refine ⟨.reached fd (some p),s,?_,le_rfl,?_,hs⟩
    · rw [step, bind_ok hlook]
    · intro use huse q hq
      cases hq
      rw [hs.used_eq huse hp]

/-- A waiting thread that resizes to no smaller size. -/
theorem grow_fine {thread fd : ℕ} (hs : Stable s) (hw : s.waiting[thread]? = some (some fd))
    (hn : fd * 3 / 2 < 2 ^ 31) (hle : s.size ≤ fd * 3 / 2) :
    ∃ o t, Fine s (.grow thread) o t := by
  obtain ⟨hfd,_⟩ := hs.waiting fd (List.mem_of_getElem? hw)
  obtain ⟨p,hgrow,hp⟩ := growFor_ok (m := s.io) hfd hn
  have hlen := contextResize_length (fd * 3 / 2) s.io
  have hkept : ∀ use ∈ s.used,
      (s.io.contextResize (fd * 3 / 2)).fdContexts[use.1]? = some use.2 :=
    fun use huse => contextResize_keeps hle (hs.used use huse)
  have hstable : Stable { s with io := s.io.contextResize (fd * 3 / 2) } := by
    refine ⟨?_,?_,hkept,hs.waiting⟩
    · exact hs.size_ge.trans (hle.trans hlen.ge)
    · exact hlen.le.trans_lt hn
  refine ⟨.reached fd (some p),⟨s.io.contextResize (fd * 3 / 2),s.waiting.set thread none,
    s.used ++ [(fd, p)]⟩,?_,hle.trans hlen.ge,?_,?_⟩
  · simp only [step, hw]
    rw [bind_ok hgrow]
  · rintro ⟨k,q'⟩ huse q hq
    cases hq
    have hat := hkept _ huse
    rw [hp] at hat
    exact hat
  · have huse := hstable.use hp
    refine ⟨huse.size_ge,huse.size_lt,huse.used,?_⟩
    intro k hk
    rcases List.mem_or_eq_of_mem_set hk with hold | hnew
    · exact hs.waiting k hold
    · cases hnew

/-- The table after a step of a waiting thread has exactly the size it asked for. -/
theorem grow_iff {thread : ℕ} (hs : Stable s) :
    Keeps s (.grow thread) ↔ Meets s (.grow thread) := by
  rcases hw : s.waiting[thread]? with _ | _ | fd
  · have hfine : Fine s (.grow thread) .nothing s :=
      Fine.of_nothing (by simp only [step, hw]) hs
    simp only [hfine.keeps, Meets, hw]
  · have hfine : Fine s (.grow thread) .nothing s :=
      Fine.of_nothing (by simp only [step, hw]) hs
    simp only [hfine.keeps, Meets, hw]
  · obtain ⟨hge,hlt⟩ := hs.waiting fd (List.mem_of_getElem? hw)
    have hmeets : Meets s (.grow thread) ↔ s.size ≤ fd * 3 / 2 := by simp only [Meets, hw]
    rw [hmeets]
    by_cases hn : fd * 3 / 2 < 2 ^ 31
    · constructor
      · intro hkeeps
        obtain ⟨p,hgrow,_⟩ := growFor_ok (m := s.io) hge hn
        have hrun : s.step (.grow thread) = .ok (.reached fd (some p),
            ⟨s.io.contextResize (fd * 3 / 2),s.waiting.set thread none,s.used ++ [(fd, p)]⟩) := by
          simp only [step, hw]
          rw [bind_ok hgrow]
        unfold Keeps at hkeeps
        rw [hrun] at hkeeps
        exact hkeeps.1.trans (contextResize_length _ s.io).le
      · intro hle
        obtain ⟨o,t,hfine⟩ := grow_fine hs hw hn hle
        exact hfine.keeps
    · have hfails := growFor_fails (m := s.io) hlt (Nat.le_of_not_lt hn)
      have hsize := hs.size_lt
      constructor
      · intro _
        omega
      · intro _
        have hrun : s.step (.grow thread) = .error .assertion := by
          simp only [step, hw, hfails]
          rfl
        unfold Keeps
        rw [hrun]
        trivial

theorem step_stable {op : Op} {o : Seen} (hs : Stable s) (hop : s.Admissible op)
    (hmeets : s.Meets op) (hstep : s.step op = .ok (o, t)) : Stable t := by
  have hfrom : ∀ {o' t'}, Fine s op o' t' → Stable t := by
    intro o' t' hfine
    rw [hfine.runs] at hstep
    cases hstep
    exact hfine.stable
  cases op with
  | check thread fd =>
    obtain ⟨o',t',hfine⟩ := check_fine thread hs hop
    exact hfrom hfine
  | find fd =>
    obtain ⟨o',t',hfine⟩ := find_fine fd hs
    exact hfrom hfine
  | grow thread =>
    rcases hw : s.waiting[thread]? with _ | _ | fd
    · exact hfrom (Fine.of_nothing (by simp only [step, hw]) hs)
    · exact hfrom (Fine.of_nothing (by simp only [step, hw]) hs)
    · have hle : s.size ≤ fd * 3 / 2 := by simpa only [Meets, hw] using hmeets
      by_cases hn : fd * 3 / 2 < 2 ^ 31
      · obtain ⟨o',t',hfine⟩ := grow_fine hs hw hn hle
        exact hfrom hfine
      · obtain ⟨_,hlt⟩ := hs.waiting fd (List.mem_of_getElem? hw)
        simp only [step, hw, growFor_fails (m := s.io) hlt (Nat.le_of_not_lt hn)] at hstep
        cases hstep

/-- In every interleaving the table only grows and used contexts stay where they
are exactly when no thread resizes the table to less than it already has. -/
theorem table_grows_iff (threads : ℕ) (ops : List Op)
    (hok : StepSystem.Along step Admissible ops (start threads : Growing Sched Fib Cb)) :
    StepSystem.Along step Keeps ops (start threads : Growing Sched Fib Cb) ↔
      StepSystem.Along step Meets ops (start threads : Growing Sched Fib Cb) := by
  refine StepSystem.along_iff (fun s op o t => step_stable) ?_ ops _ (start_stable threads) hok
  intro s op hs hop
  cases op with
  | check thread fd =>
    obtain ⟨o,t,hfine⟩ := check_fine thread hs hop
    exact iff_of_true hfine.keeps trivial
  | grow thread => exact grow_iff hs
  | find fd =>
    obtain ⟨o,t,hfine⟩ := find_fine fd hs
    exact iff_of_true hfine.keeps trivial

section Evaluation

instance Admissible.decidable (s : Growing Sched Fib Cb) : ∀ op, Decidable (s.Admissible op)
  | .check _ fd => inferInstanceAs (Decidable (fd < 2 ^ 31))
  | .grow _ => isTrue trivial
  | .find fd => inferInstanceAs (Decidable (fd < 2 ^ 31))

instance Meets.decidable (s : Growing Sched Fib Cb) : ∀ op, Decidable (s.Meets op)
  | .check _ _ => isTrue trivial
  | .find _ => isTrue trivial
  | .grow thread =>
    match h : s.waiting[thread]? with
    | none => isTrue (by simp [Meets, h])
    | some none => isTrue (by simp [Meets, h])
    | some (some fd) => decidable_of_iff (s.size ≤ fd * 3 / 2) (by simp [Meets, h])

instance Keeps.decidable (s : Growing Sched Fib Cb) (op : Op) : Decidable (s.Keeps op) :=
  match h : s.step op with
  | .error _ => isTrue (by simp [Keeps, h])
  | .ok (o, t) =>
    match o with
    | .nothing => decidable_of_iff (s.size ≤ t.size) (by simp [Keeps, h])
    | .reached fd p =>
      decidable_of_iff (s.size ≤ t.size ∧ ∀ use ∈ s.used, fd = use.1 → p = some use.2) (by
        simp only [Keeps, h, Seen.reached.injEq, and_imp]
        exact and_congr_right fun _ => forall₂_congr fun use _ =>
          ⟨fun h q hfd hq => hq ▸ h hfd,fun h hfd => h p hfd rfl⟩)

end Evaluation

/-- Two threads see the initial table. The one with the smaller descriptor gets
the write lock last and cuts off the context the other has just used. -/
theorem table_shrinks :
    ¬ ∀ ops : List Op,
      StepSystem.Along step Admissible ops (start 2 : Growing Unit Unit Unit) →
      StepSystem.Along step Keeps ops (start 2 : Growing Unit Unit Unit) := by
  intro h
  have hnot : ¬ StepSystem.Along step Keeps [.check 0 100, .check 1 40, .grow 0, .grow 1]
      (start 2 : Growing Unit Unit Unit) := by decide +kernel
  exact hnot (h _ (by decide +kernel))

theorem table_grows_iff_ordered :
    StepSystem.Along step Keeps [.check 0 100, .check 1 40, .grow 1, .grow 0, .find 40]
      (start 2 : Growing Unit Unit Unit) := by
  have hok : StepSystem.Along step Admissible
      [.check 0 100, .check 1 40, .grow 1, .grow 0, .find 40]
      (start 2 : Growing Unit Unit Unit) := by decide +kernel
  exact (table_grows_iff 2 _ hok).mpr (by decide +kernel)

end Growing

end Gudov
