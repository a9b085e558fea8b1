import Gudov.RowMemory
import Mathlib.Data.List.TakeDrop

/-!
# A flat buffer with a position

The abstract object behind every growing byte array: a finite content and a
position inside it. Writing at the position overwrites and, past the end,
appends; there is no capacity, no node and no base size.
-/
namespace Gudov.FlatBuffer
open RowMemory

structure Flat (α : Type) where
  content : List α
  position : ℕ
  position_le : position ≤ content.length

namespace Flat
variable {α : Type}

def empty : Flat α := ⟨[],0,le_rfl⟩

theorem length_splice_ge {mem src : List α} {k : ℕ} (h : k ≤ mem.length) :
    k + src.length ≤ (splice mem k src).length := by
  simp only [splice, List.length_append, List.length_take, List.length_drop]
  omega

def write (f : Flat α) (buf : List α) : Flat α :=
  ⟨splice f.content f.position buf,f.position + buf.length,length_splice_ge f.position_le⟩

/-- The next `n` elements, when there are as many. -/
def read (f : Flat α) (n : ℕ) : Option (List α × Flat α) :=
  if h : f.position + n ≤ f.content.length then
    some (window f.content f.position n, ⟨f.content,f.position + n,h⟩)
  else none

def toEnd (f : Flat α) : List α := f.content.drop f.position

def seek (f : Flat α) (v : ℕ) : Option (Flat α) :=
  if h : v ≤ f.content.length then some ⟨f.content,v,h⟩ else none

theorem ext_iff' {f g : Flat α} : f = g ↔ f.content = g.content ∧ f.position = g.position := by
  cases f
  cases g
  simp

end Flat

/-- A window of the used part is a window of the memory. -/
theorem window_take {α : Type} {mem : List α} {s k n : ℕ} (h : k + n ≤ s) :
    window (mem.take s) k n = window mem k n := by
  unfold window
  rw [List.drop_take, List.take_take, min_eq_left (by omega)]

/-- Writing into a memory and then cutting it at the used size is writing into
the used part. -/
theorem take_splice {α : Type} {mem src : List α} {s k : ℕ} (hk : k ≤ s)
    (hsrc : k + src.length ≤ mem.length) :
    (splice mem k src).take (max s (k + src.length)) = splice (mem.take s) k src := by
  have hlen : (mem.take k ++ src).length = k + src.length := by
    rw [List.length_append, List.length_take]
    omega
  unfold splice
  rw [List.take_append, hlen, List.take_of_length_le (by omega), List.take_take,
    min_eq_left hk, List.drop_take]
  congr 2
  omega

end Gudov.FlatBuffer
