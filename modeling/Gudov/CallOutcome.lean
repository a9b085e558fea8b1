import Mathlib.Data.List.Basic

/-!
# Outcomes of stateful calls

A call on an object ends in one of three ways. It returns a value, it throws an
exception that leaves the object usable, or it leaves the defined behaviour of
the language: a null dereference, an access outside an allocation, a shift
by the width of its operand, a failed assertion. Only the first two have a state afterwards.

Nothing here mentions a particular program. The rules for `bind` are the ones
used to run a call symbolically: a computed prefix is replaced by its outcome.
-/
namespace Gudov

/-- Ways of leaving the defined behaviour. `outOfFuel` marks a loop that was
not shown to terminate within its bound. -/
inductive Fault
  | nullDereference
  | outOfBounds
  | indeterminate
  | invalidIterator
  | invalidShift
  | assertion
  | outOfFuel
deriving Repr, DecidableEq

inductive Outcome (σ α : Type)
  | value (a : α) (s : σ)
  | thrown (what : String) (s : σ)
  | fault (f : Fault)
deriving Repr, DecidableEq

/-- The same rule for functions that only return or fault. -/
theorem bind_ok {α β : Type} {x : Except Fault α} {f : α → Except Fault β} {a : α}
    (h : x = .ok a) : (x >>= f) = f a := by
  rw [h]
  rfl

theorem ok_bind {ε α β : Type} (a : α) (f : α → Except ε β) : (Except.ok a >>= f) = f a := rfl

/-- A sequence that returned has returned at its first step. -/
theorem exists_of_bind_eq_ok {ε α β : Type} {x : Except ε α} {f : α → Except ε β} {b : β}
    (h : (x >>= f) = .ok b) : ∃ a, x = .ok a ∧ f a = .ok b := by
  cases x with
  | error e => cases h
  | ok a => exact ⟨a,rfl,h⟩

theorem exists_of_map_eq_ok {ε α β : Type} {x : Except ε α} {f : α → β} {b : β}
    (h : x.map f = .ok b) : ∃ a, x = .ok a ∧ f a = b := by
  cases x with
  | error e => cases h
  | ok a => exact ⟨a,rfl,Except.ok.inj h⟩

/-- A method on an object of type `σ`. -/
def Call (σ α : Type) := σ → Outcome σ α

namespace Call
variable {σ α β γ : Type}

def ret (a : α) : Call σ α := fun s => .value a s

def throw (what : String) : Call σ α := fun s => .thrown what s

def fail (f : Fault) : Call σ α := fun _ => .fault f

def bind (x : Call σ α) (f : α → Call σ β) : Call σ β := fun s =>
  match x s with
  | .value a t => f a t
  | .thrown w t => .thrown w t
  | .fault e => .fault e

instance : Monad (Call σ) where
  pure := ret
  bind := bind

/-- A prefix that returns is replaced by its value and its final state. -/
theorem bind_value {x : Call σ α} {f : α → Call σ β} {s t : σ} {a : α}
    (h : x s = .value a t) : (x >>= f) s = f a t := by
  change bind x f s = f a t
  simp only [bind, h]

theorem bind_thrown {x : Call σ α} {f : α → Call σ β} {s t : σ} {what : String}
    (h : x s = .thrown what t) : (x >>= f) s = .thrown what t := by
  change bind x f s = _
  simp only [bind, h]

theorem bind_fault {x : Call σ α} {f : α → Call σ β} {s : σ} {e : Fault}
    (h : x s = .fault e) : (x >>= f) s = .fault e := by
  change bind x f s = _
  simp only [bind, h]

end Call

end Gudov
