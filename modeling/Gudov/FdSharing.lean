import Mathlib.Tactic.NormNum
import Gudov.FdManager
import Gudov.StepSystem

/-!
# One context for each descriptor

`FdManager::Get` looks a context up under the read lock and makes a missing one under the
write lock, without looking again. Several threads call it and change the contexts they get.
A context is an object of its own here: the table holds handles, and `used` records the
handles that calls have answered with.
-/
namespace Gudov

/-- `SO_RCVTIMEO` -/
def soRcvtimeo : Int32 := 20

namespace FdCtx

def setTimeout (type : Int32) (v : UInt64) (c : FdCtx) : FdCtx :=
  if type = soRcvtimeo then { c with recvTimeout := v } else { c with sendTimeout := v }

def setUserNonblock (v : Bool) (c : FdCtx) : FdCtx := { c with userNonblock := v }

end FdCtx

/-- `heap` lists every context ever made, and `waiting` the descriptor with which each thread
is about to take the write lock. -/
structure SharedFds where
  kernel : Kernel
  heap : List FdCtx
  data : List (Option ℕ)
  waiting : List (Option ℕ)
  used : List (ℕ × ℕ)

namespace SharedFds

def start (threads : ℕ) (kernel : Kernel) : SharedFds where
  kernel := kernel
  heap := []
  data := List.replicate 64 none
  waiting := List.replicate threads none
  used := []

/-- `static_cast<int>(data_.size())` -/
def intSize (data : List (Option ℕ)) : ℤ := Int.bmod data.length (2 ^ 32)

/-- `data_.resize(size)` -/
def resize (size : ℕ) (data : List (Option ℕ)) : List (Option ℕ) :=
  data.take size ++ List.replicate (size - data.length) none

/-- `while (fd >= static_cast<int>(data_.size())) data_.resize(fd * 1.5)` -/
def growLoop (fd : ℕ) : ℕ → List (Option ℕ) → Except Fault (List (Option ℕ))
  | 0, _ => .error .outOfFuel
  | fuel + 1, data =>
    if (fd : ℤ) ≥ intSize data then growLoop fd fuel (resize (fd * 3 / 2) data) else .ok data

/-- The steps of `Get` under the read lock and under the write lock, the two settings made
through a context, and whatever else changes the kernel's files. -/
inductive Op
  | check (thread : ℕ) (fd : Int32) (autoCreate : Bool)
  | create (thread : ℕ)
  | setTimeout (p : ℕ) (type : Int32) (v : UInt64)
  | setUserNonblock (p : ℕ) (v : Bool)
  | systemCall (kernel : Kernel)

/-- The answer of a call for a descriptor. -/
inductive Seen
  | nothing
  | answered (fd : Int32) (p : Option ℕ)
  | made (fd p : ℕ)
deriving Repr, DecidableEq

/-- `Get` up to the end of the read lock. -/
def check (thread : ℕ) (fd : Int32) (autoCreate : Bool) (s : SharedFds) : Seen × SharedFds :=
  if fd < 0 then (.answered fd none, s)
  else
    match s.data[fd.toInt.toNat]? with
    | some (some p) => (.answered fd (some p), { s with used := s.used ++ [(fd.toInt.toNat, p)] })
    | _ =>
      if autoCreate then
        (.nothing, { s with waiting := s.waiting.set thread (some fd.toInt.toNat) })
      else (.answered fd none, s)

/-- `Get` under the write lock. -/
def create (thread fd : ℕ) (s : SharedFds) : Except Fault (Seen × SharedFds) := do
  let (ctx, kernel) := FdCtx.new fd s.kernel
  let data ← growLoop fd 2 s.data
  let p := s.heap.length
  .ok (.made fd p,
    { kernel := kernel
      heap := s.heap ++ [ctx]
      data := data.set fd (some p)
      waiting := s.waiting.set thread none
      used := s.used ++ [(fd, p)] })

def set (p : ℕ) (change : FdCtx → FdCtx) (s : SharedFds) : SharedFds :=
  match s.heap[p]? with
  | none => s
  | some c => { s with heap := s.heap.set p (change c) }

/-- A thread checks when it is not waiting, and creates when it is. -/
def step (s : SharedFds) : Op → Except Fault (Seen × SharedFds)
  | .check thread fd autoCreate =>
    match s.waiting[thread]? with
    | some none => .ok (s.check thread fd autoCreate)
    | _ => .ok (.nothing, s)
  | .create thread =>
    match s.waiting[thread]? with
    | some (some fd) => s.create thread fd
    | _ => .ok (.nothing, s)
  | .setTimeout p type v => .ok (.nothing, s.set p (FdCtx.setTimeout type v))
  | .setUserNonblock p v => .ok (.nothing, s.set p (FdCtx.setUserNonblock v))
  | .systemCall kernel => .ok (.nothing, { s with kernel := kernel })

/-- All calls that answered for a descriptor answered with one object, and it is the one in
the table, so that a setting made through it is found by the next call. -/
structure OneContext (s : SharedFds) : Prop where
  same : ∀ fd p q, (fd, p) ∈ s.used → (fd, q) ∈ s.used → p = q
  kept : ∀ fd p, (fd, p) ∈ s.used → s.data[fd]? = some (some p)

/-- The step leaves one context for each descriptor. -/
def Good (s : SharedFds) (op : Op) : Prop := ∀ o t, s.step op = .ok (o, t) → t.OneContext

/-- A thread that makes a context finds that there is still none. -/
def Meets (s : SharedFds) : Op → Prop
  | .create thread => ∀ fd, s.waiting[thread]? = some (some fd) → ∀ p, s.data[fd]? ≠ some (some p)
  | _ => True

/-! ## The table -/

variable {s t : SharedFds} {fd p : ℕ} {data data' : List (Option ℕ)}

theorem intSize_of_lt (h : data.length < 2 ^ 31) : intSize data = data.length := by
  unfold intSize
  rw [Int.bmod_def]
  omega

theorem resize_length (size : ℕ) (data : List (Option ℕ)) : (resize size data).length = size := by
  simp only [resize, List.length_append, List.length_take, List.length_replicate]
  omega

/-- A larger table has the same contexts. -/
theorem resize_get {size : ℕ} (hle : data.length ≤ size) (k p : ℕ) :
    (resize size data)[k]? = some (some p) ↔ data[k]? = some (some p) := by
  rw [resize, List.take_of_length_le hle]
  by_cases hk : k < data.length
  · rw [List.getElem?_append_left hk]
  · rw [List.getElem?_append_right (by omega), List.getElem?_eq_none (by omega : data.length ≤ k),
      List.getElem?_replicate]
    split <;> simp

/-- What the loop leaves where it ends. -/
theorem growLoop_spec (hlt : data.length < 2 ^ 31) (hfd : fd < 2 ^ 31)
    (h : growLoop fd 2 data = .ok data') :
    fd < data'.length ∧ data.length ≤ data'.length ∧ data'.length < 2 ^ 31 ∧
      ∀ k p : ℕ, data'[k]? = some (some p) ↔ data[k]? = some (some p) := by
  simp only [growLoop, intSize_of_lt hlt] at h
  split at h
  next hge =>
    have hlen := resize_length (fd * 3 / 2) data
    split at h
    · cases h
    next hsmall =>
      cases h
      have hsize : fd * 3 / 2 < 2 ^ 31 := by
        have hbound : fd * 3 / 2 < 2 ^ 32 := by omega
        unfold intSize at hsmall
        rw [hlen, Int.bmod_def] at hsmall
        generalize fd * 3 / 2 = size at hsmall hbound
        split at hsmall <;> omega
      rw [intSize_of_lt (by omega), hlen] at hsmall
      exact ⟨by omega,by omega,by omega,resize_get (by omega)⟩
  next hsmall =>
    cases h
    exact ⟨by omega,Nat.le_refl _,hlt,fun _ _ => Iff.rfl⟩

theorem growLoop_of_lt (hlt : data.length < 2 ^ 31) (hfd : fd < data.length) :
    growLoop fd 2 data = .ok data := by
  rw [growLoop, intSize_of_lt hlt, if_neg (by omega)]

/-! ## Runs -/

/-- What holds as long as no thread makes a second context. -/
structure Shared (s : SharedFds) : Prop where
  size_lt : s.data.length < 2 ^ 31
  waiting : ∀ fd, some fd ∈ s.waiting → fd < 2 ^ 31
  used : ∀ fd p, (fd, p) ∈ s.used ↔ s.data[fd]? = some (some p)
  known : ∀ fd p : ℕ, s.data[fd]? = some (some p) → p < s.heap.length

theorem Shared.oneContext (hs : s.Shared) : s.OneContext where
  same fd p q hp hq := by
    rw [hs.used] at hp hq
    rw [hp] at hq
    cases hq
    rfl
  kept fd p := (hs.used fd p).mp

theorem start_shared (threads : ℕ) (kernel : Kernel) : (start threads kernel).Shared where
  size_lt := by simp [start]
  waiting fd h := by simp [start] at h
  used fd p := by
    simp only [start, List.not_mem_nil, List.getElem?_replicate, false_iff]
    split <;> simp
  known fd p h := by
    simp only [start, List.getElem?_replicate] at h
    split at h <;> cases h

theorem Shared.checked (hs : s.Shared) (thread : ℕ) (fd : Int32) (autoCreate : Bool) :
    (s.check thread fd autoCreate).2.Shared := by
  unfold check
  split
  · exact hs
  next hneg =>
    split
    next p hp =>
      -- The context was answered before, when it was made.
      refine ⟨hs.size_lt,hs.waiting,?_,hs.known⟩
      intro k q
      rw [List.mem_append, hs.used, List.mem_singleton]
      constructor
      · rintro (h | h)
        · exact h
        · cases h
          exact hp
      · exact Or.inl
    · split
      · refine ⟨hs.size_lt,?_,hs.used,hs.known⟩
        intro k hk
        rcases List.mem_or_eq_of_mem_set hk with hold | hnew
        · exact hs.waiting k hold
        · cases hnew
          have hlt := fd.toInt_lt
          omega
      · exact hs

theorem Shared.created {thread : ℕ} {o : Seen} (hs : s.Shared) (hfd : fd < 2 ^ 31)
    (hfree : ∀ p, s.data[fd]? ≠ some (some p)) (h : s.create thread fd = .ok (o, t)) :
    t.Shared := by
  obtain ⟨data',hgrow,h⟩ := exists_of_bind_eq_ok h
  cases h
  obtain ⟨hin,-,hsize,hsame⟩ := growLoop_spec hs.size_lt hfd hgrow
  -- The new entry is the one for the descriptor, and the others are as before.
  have hentry : ∀ k q, (data'.set fd (some s.heap.length))[k]? = some (some q) ↔
      (k = fd ∧ q = s.heap.length) ∨ (k ≠ fd ∧ s.data[k]? = some (some q)) := by
    intro k q
    by_cases hk : k = fd
    · subst hk
      simp [hin, eq_comm]
    · rw [List.getElem?_set_ne (Ne.symm hk), hsame]
      simp [hk]
  constructor
  · simpa using hsize
  · intro k hk
    rcases List.mem_or_eq_of_mem_set hk with hold | hnew
    · exact hs.waiting k hold
    · cases hnew
  · intro k q
    rw [hentry, List.mem_append, List.mem_singleton, hs.used, Prod.mk.injEq]
    constructor
    · rintro (hold | hnew)
      · refine Or.inr ⟨?_,hold⟩
        rintro rfl
        exact hfree q hold
      · exact Or.inl hnew
    · rintro (hnew | hold)
      · exact Or.inr hnew
      · exact Or.inl hold.2
  · intro k q hk
    rw [List.length_append]
    rcases (hentry k q).mp hk with hnew | hold
    · rw [hnew.2, List.length_singleton]
      omega
    · have hlt := hs.known k q hold.2
      omega

theorem Shared.changed (hs : s.Shared) (p : ℕ) (change : FdCtx → FdCtx) :
    (s.set p change).Shared := by
  unfold set
  split
  · exact hs
  · refine ⟨hs.size_lt,hs.waiting,hs.used,?_⟩
    intro fd q hq
    rw [List.length_set]
    exact hs.known fd q hq

theorem step_shared {op : Op} {o : Seen} (hs : s.Shared) (hmeets : s.Meets op)
    (h : s.step op = .ok (o, t)) : t.Shared := by
  cases op with
  | check thread fd autoCreate =>
    simp only [step] at h
    split at h
    · have hchecked := hs.checked thread fd autoCreate
      rw [Except.ok.inj h] at hchecked
      exact hchecked
    · cases h
      exact hs
  | create thread =>
    simp only [step] at h
    split at h
    next fd hw =>
      exact hs.created (hs.waiting fd (List.mem_of_getElem? hw)) (hmeets fd hw) h
    · cases h
      exact hs
  | setTimeout p type v =>
    cases h
    exact hs.changed p _
  | setUserNonblock p v =>
    cases h
    exact hs.changed p _
  | systemCall kernel =>
    cases h
    exact ⟨hs.size_lt,hs.waiting,hs.used,hs.known⟩

/-- A thread that makes a context though there is one answers with another object than the
calls before. -/
theorem step_second {op : Op} (hs : s.Shared) (hnot : ¬ s.Meets op) : ¬ s.Good op := by
  intro hgood
  cases op with
  | create thread =>
    simp only [Meets, not_forall, ne_eq, not_not] at hnot
    obtain ⟨fd,hw,p,hp⟩ := hnot
    have hin : fd < s.data.length := (List.getElem?_eq_some_iff.mp hp).1
    have hstep : ∃ t, s.step (.create thread) = .ok (.made fd s.heap.length, t) ∧
        t.used = s.used ++ [(fd, s.heap.length)] := by
      simp only [step, hw]
      exact ⟨_,bind_ok (growLoop_of_lt hs.size_lt hin),rfl⟩
    obtain ⟨t,ht,hused⟩ := hstep
    have hsame := (hgood _ t ht).same fd p s.heap.length
      (by rw [hused]; exact List.mem_append_left _ ((hs.used fd p).mpr hp)) (by simp [hused])
    have hlt := hs.known fd p hp
    omega
  | _ => exact hnot trivial

/-- For every interleaving of the calls of any number of threads: all calls answer with one
object for each descriptor, along the run, exactly when every thread that makes a context
finds that there is still none. -/
theorem one_context_iff (threads : ℕ) (kernel : Kernel) (ops : List Op) :
    StepSystem.Along step Good ops (start threads kernel) ↔
      StepSystem.Along step Meets ops (start threads kernel) := by
  refine StepSystem.along_iff (fun _ _ _ _ hs _ hmeets h => step_shared hs hmeets h) ?_ ops _
    (start_shared threads kernel) (StepSystem.Along.of_forall (fun _ _ => trivial) ops _)
  intro s op hs _
  constructor
  · intro hgood
    by_contra hnot
    exact step_second hs hnot hgood
  · intro hmeets o t h
    exact (step_shared hs hmeets h).oneContext

/-- Nothing is open. -/
def noFiles : Kernel := fun _ => none

/-- Two threads miss the context of descriptor 5. The first one makes it and sets a timeout;
the second one makes another, and the timeout is gone. -/
theorem second_context :
    ¬ StepSystem.Along step Good [.check 0 5 true, .check 1 5 true, .create 0,
        .setTimeout 0 20 1000, .create 1] (start 2 noFiles) ∧
      ∃ seen s, StepSystem.run step [.check 0 5 true, .check 1 5 true, .create 0,
          .setTimeout 0 20 1000, .create 1, .check 0 5 false] (start 2 noFiles) =
          .ok (seen, s) ∧
        seen = [.nothing, .nothing, .made 5 0, .nothing, .made 5 1, .answered 5 (some 1)] ∧
        s.heap.map FdCtx.recvTimeout = [1000, ~~~0] := by
  refine ⟨?_,_,_,rfl,rfl,rfl⟩
  intro hall
  have hend := StepSystem.Along.ends OneContext (fun _ _ o t _ hgood h => hgood o t h)
    (start_shared 2 noFiles).oneContext hall rfl
  have hsame := hend.same 5 0 1 List.mem_cons_self (List.mem_cons_of_mem _ List.mem_cons_self)
  cases hsame

end SharedFds

end Gudov
