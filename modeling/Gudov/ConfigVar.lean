import Mathlib.Data.List.Basic
import Gudov.StepSystem

/-!
# `ConfigVar`

`SetValue` compares, runs the listeners and then stores, in two blocks under the read
lock. Readers do not exclude each other, so the blocks of several calls interleave. A
listener that copies the new value into a cache sees the calls in the order of their
first blocks, and the variable keeps the value of the last second block.
-/
namespace Gudov

/-- The value, and the listeners in the order of their keys. A listener acts on a state of
type `σ`. -/
structure ConfigVar (T σ : Type) where
  value : T
  callbacks : List (T → T → σ → Except Fault σ)

namespace ConfigVar
variable {T σ : Type}

/-- The first block of `SetValue`; nothing is returned when the values are equal. -/
def notify (equal : T → T → Bool) (v : T) (var : ConfigVar T σ) (env : σ) :
    Except Fault (Option σ) :=
  if equal v var.value then .ok none
  else
    let call (env : σ) (callback : T → T → σ → Except Fault σ) := callback var.value v env
    (var.callbacks.foldlM call env).map some

/-- The second block. -/
def store (v : T) (var : ConfigVar T σ) : ConfigVar T σ := { var with value := v }

/-- A call that no other one interrupts. -/
def setValue (equal : T → T → Bool) (v : T) (var : ConfigVar T σ) (env : σ) :
    Except Fault (ConfigVar T σ × σ) := do
  match ← var.notify equal v env with
  | none => .ok (var, env)
  | some env => .ok (var.store v, env)

end ConfigVar

section Concurrent
variable {T : Type} [DecidableEq T]

/-- A listener that copies, as those of the buffer sizes and of the connect timeout. -/
def copyValue : T → T → T → Except Fault T := fun _ new _ => .ok new

/-- A variable whose only listener copies, the copy, and the calls between their two blocks
in the order of the first ones. -/
structure ConfigCache (T : Type) where
  value : T
  cached : T
  pending : List (ℕ × T) := []
deriving Repr, DecidableEq

/-- A thread runs the first or the second block of a call. -/
inductive ConfigMove (T : Type)
  | notify (thread : ℕ) (v : T)
  | store (thread : ℕ)
deriving Repr, DecidableEq

namespace ConfigCache

def var (s : ConfigCache T) : ConfigVar T T := { value := s.value, callbacks := [copyValue] }

/-- A thread is in one call at a time. -/
def step (s : ConfigCache T) : ConfigMove T → Except Fault (Unit × ConfigCache T)
  | .notify thread v =>
    if s.pending.any fun call => call.1 = thread then .error .assertion
    else do
      match ← s.var.notify (fun a b => a = b) v s.cached with
      | none => .ok ((), s)
      | some cached => .ok ((), { s with cached := cached, pending := s.pending ++ [(thread, v)] })
  | .store thread =>
    match s.pending.find? fun call => call.1 = thread with
    | none => .error .assertion
    | some call =>
      .ok ((), { s with
        value := (s.var.store call.2).value
        pending := s.pending.filter fun call => call.1 ≠ thread })

/-- The call that notified last does not store while another one is under way. -/
def InOrder (s : ConfigCache T) : ConfigMove T → Prop
  | .notify _ _ => True
  | .store thread => ∀ call ∈ s.pending.getLast?, call.1 = thread → s.pending.length = 1

instance (s : ConfigCache T) (move : ConfigMove T) : Decidable (s.InOrder move) :=
  match move with
  | .notify _ _ => isTrue trivial
  | .store thread =>
    inferInstanceAs (Decidable (∀ call ∈ s.pending.getLast?, call.1 = thread →
      s.pending.length = 1))

/-- The copy is the value of the call that notified last, or that of the variable. -/
structure InStep (s : ConfigCache T) : Prop where
  nodup : (s.pending.map Prod.fst).Nodup
  last : ∀ call ∈ s.pending.getLast?, call.2 = s.cached
  quiet : s.pending = [] → s.cached = s.value

variable {s t : ConfigCache T} {thread : ℕ} {v : T} {u : Unit}

/-- The first block of a call that changes something. -/
theorem step_notify (h : s.step (.notify thread v) = .ok (u, t)) :
    (∀ call ∈ s.pending, call.1 ≠ thread) ∧
      (t = s ∨ t = { s with cached := v, pending := s.pending ++ [(thread, v)] }) := by
  simp only [step] at h
  split at h
  next => cases h
  next hfree =>
    refine ⟨?_,?_⟩
    · intro call hcall heq
      exact hfree (List.any_eq_true.mpr ⟨call,hcall,decide_eq_true heq⟩)
    by_cases hv : v = s.value
    · simp only [ConfigVar.notify, var, hv, decide_true, if_true] at h
      cases h
      exact .inl rfl
    · simp only [ConfigVar.notify, var, hv, decide_false, Bool.false_eq_true, if_false] at h
      cases h
      exact .inr rfl

theorem step_store (h : s.step (.store thread) = .ok (u, t)) :
    ∃ call ∈ s.pending, call.1 = thread ∧
      t = { s with value := call.2, pending := s.pending.filter fun d => d.1 ≠ thread } := by
  simp only [step] at h
  split at h
  next => cases h
  next call hfind =>
    cases h
    have hid := List.find?_some hfind
    exact ⟨call,List.mem_of_find?_eq_some hfind,by simpa using hid,rfl⟩

theorem InStep.notify (hs : s.InStep) (h : s.step (.notify thread v) = .ok (u, t)) : t.InStep := by
  obtain ⟨hfree,rfl | rfl⟩ := step_notify h
  · exact hs
  · exact {
      nodup := by
        rw [List.map_append, List.nodup_append]
        refine ⟨hs.nodup,by simp,?_⟩
        intro i hi j hj
        obtain ⟨call,hcall,rfl⟩ := List.mem_map.mp hi
        rw [show j = thread by simpa using hj]
        exact hfree call hcall
      last := by simp
      quiet := by simp }

/-- The call that stores is alone, or another one notified after it. -/
theorem InStep.store (hs : s.InStep) (horder : s.InOrder (.store thread))
    (h : s.step (.store thread) = .ok (u, t)) : t.InStep := by
  obtain ⟨call,hcall,rfl,rfl⟩ := step_store h
  obtain ⟨front,last,hpending⟩ : ∃ front last, s.pending = front ++ [last] :=
    ⟨s.pending.dropLast,s.pending.getLast (List.ne_nil_of_mem hcall),
      (List.dropLast_append_getLast _).symm⟩
  have hlast : last ∈ s.pending.getLast? := by rw [hpending]; simp
  by_cases hid : last.1 = call.1
  · have hone := horder last hlast hid
    obtain rfl : front = [] := by
      rw [hpending, List.length_append] at hone
      exact List.length_eq_zero_iff.mp (by simpa using hone)
    obtain rfl : call = last := by simpa [hpending] using hcall
    have hnone : s.pending.filter (fun d => d.1 ≠ call.1) = [] := by simp [hpending]
    exact {
      nodup := hs.nodup.sublist (List.filter_sublist.map Prod.fst)
      last := by
        intro d hd
        dsimp only at hd
        rw [hnone] at hd
        cases hd
      quiet := fun _ => (hs.last call hlast).symm }
  · have hkeep : s.pending.filter (fun d => d.1 ≠ call.1) =
        front.filter (fun d => d.1 ≠ call.1) ++ [last] := by
      rw [hpending, List.filter_append]
      simp [hid]
    exact {
      nodup := hs.nodup.sublist (List.filter_sublist.map Prod.fst)
      last := by
        intro d hd
        dsimp only at hd
        rw [hkeep, List.getLast?_concat] at hd
        cases hd
        exact hs.last last hlast
      quiet := by
        intro hnil
        dsimp only at hnil
        rw [hkeep] at hnil
        simp at hnil }

/-- Once all calls have returned, the copy is the value, if the calls end in order. -/
theorem cache_follows {moves : List (ConfigMove T)} {us : List Unit} {v : T}
    (horder : StepSystem.Along step InOrder moves { value := v, cached := v })
    (hrun : StepSystem.run step moves { value := v, cached := v } = .ok (us, s))
    (hquiet : s.pending = []) : s.cached = s.value := by
  have hstart : InStep ({ value := v, cached := v } : ConfigCache T) :=
    ⟨by simp,by simp,fun _ => rfl⟩
  have hstep : ∀ (s : ConfigCache T) move u t, s.InStep → s.InOrder move →
      s.step move = .ok (u, t) → t.InStep := by
    intro s move u t hs hmove h
    cases move with
    | notify thread v => exact hs.notify h
    | store thread => exact hs.store hmove h
  exact (horder.ends InStep hstep hstart hrun).quiet hquiet

/-- Two overlapping calls that store in the order in which they notified. -/
theorem cache_follows_overlap : ∃ us, ∃ t : ConfigCache ℕ,
    StepSystem.run step [.notify 0 1, .notify 1 2, .store 0, .store 1]
      { value := 0, cached := 0 } = .ok (us, t) ∧
    t.pending = [] ∧ t.value = 2 ∧ t.cached = t.value := by
  have hrun : StepSystem.run step [.notify 0 1, .notify 1 2, .store 0, .store 1]
      ({ value := 0, cached := 0 } : ConfigCache ℕ) =
        .ok ([(), (), (), ()], { value := 2, cached := 2 }) := by
    decide
  exact ⟨_,_,hrun,rfl,rfl,cache_follows (by decide) hrun rfl⟩

/-- The call that notified first stores last. -/
theorem cache_out_of_step :
    ¬ ∀ (moves : List (ConfigMove ℕ)) (us : List Unit) (v : ℕ) (s : ConfigCache ℕ),
      StepSystem.run step moves { value := v, cached := v } = .ok (us, s) → s.pending = [] →
        s.cached = s.value := by
  intro hall
  have hrun : StepSystem.run step [.notify 0 1, .notify 1 2, .store 1, .store 0]
      ({ value := 0, cached := 0 } : ConfigCache ℕ) =
        .ok ([(), (), (), ()], { value := 1, cached := 2 }) := by
    decide
  cases hall _ _ _ _ hrun rfl

end ConfigCache

end Concurrent

end Gudov
