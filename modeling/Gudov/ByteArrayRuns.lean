import Gudov.ByteArrayOps
import Gudov.StepSystem

/-!
# Runs of the byte array

A run is a sequence of public calls on a fresh array; its caller catches the
exceptions and goes on. The double cursor stays in step along every run, for
every base size, and no call meets a null node.
-/
namespace Gudov.ByteArray
open RowMemory StepSystem

inductive Op
  | write (buf : List Cell)
  | read (n : ℕ)
  | toString
  | setPosition (v : ℕ)
  | clear
  | getWriteBuffers (iovs : List Iovec) (len : ℕ)
deriving Repr, DecidableEq

/-- What the caller of an operation gets back. -/
inductive Seen
  | done
  | bytes (buf : List Cell)
  | buffers (len : ℕ) (iovs : List Iovec)
  | exception (what : String)
deriving Repr, DecidableEq

/-- The caller's view of an outcome; the state survives an exception. -/
def observe {α : Type} (f : α → Seen) : Outcome ByteArray α → Except Fault (Seen × ByteArray)
  | .value a b => .ok (f a, b)
  | .thrown w b => .ok (.exception w, b)
  | .fault e => .error e

def step (b : ByteArray) : Op → Except Fault (Seen × ByteArray)
  | .write buf => observe (fun _ => .done) (write buf b)
  | .read n => observe .bytes (read n b)
  | .toString => observe .bytes (toString b)
  | .setPosition v => observe (fun _ => .done) (setPosition v b)
  | .clear => observe (fun _ => .done) (clear b)
  | .getWriteBuffers iovs len =>
    observe (fun r => .buffers r.1 r.2) (getWriteBuffers iovs len b)

/-- `Read` of zero bytes dereferences `cur_` before it looks at the length. -/
def Op.Admissible : Op → Prop
  | .read n => 1 ≤ n
  | _ => True

theorem step_consistent (base : ℕ) (b : ByteArray) (op : Op)
    (h : Consistent b ∧ b.baseSize = base) (hop : op.Admissible) :
    ∃ o b', step b op = .ok (o, b') ∧ Consistent b' ∧ b'.baseSize = base := by
  obtain ⟨h,hb⟩ := h
  cases op with
  | write buf =>
    obtain ⟨b',hw,hc,-,-,hbase,-⟩ := write_spec h buf
    exact ⟨_,b',congrArg (observe fun _ => .done) hw,hc,hbase.trans hb⟩
  | read n =>
    by_cases hn : n ≤ b.getReadSize
    · obtain ⟨hr,hc⟩ := read_spec h hop hn
      exact ⟨_,_,congrArg (observe .bytes) hr,hc,hb⟩
    · have hr := read_throws (Nat.lt_of_not_le hn)
      exact ⟨_,b,congrArg (observe .bytes) hr,h,hb⟩
  | toString => exact ⟨_,b,congrArg (observe .bytes) (toString_spec h),h,hb⟩
  | setPosition v =>
    by_cases hv : v ≤ b.capacity
    · obtain ⟨hs,hc⟩ := setPosition_spec h hv
      exact ⟨_,_,congrArg (observe fun _ => .done) hs,hc,hb⟩
    · have hs := setPosition_throws (Nat.lt_of_not_le hv)
      exact ⟨_,b,congrArg (observe fun _ => .done) hs,h,hb⟩
  | clear =>
    obtain ⟨hc,-⟩ := clear_spec h
    exact ⟨_,_,rfl,hc,hb⟩
  | getWriteBuffers iovs len =>
    obtain ⟨more,hw,-,hc,hbase⟩ := getWriteBuffers_spec h iovs len
    exact ⟨_,_,congrArg (observe fun r : ℕ × List Iovec => Seen.buffers r.1 r.2) hw,hc,hbase.trans hb⟩

/-- Every reachable array is consistent. -/
theorem run_consistent {base : ℕ} (hb : 1 ≤ base) (ops : List Op)
    (hops : ∀ op ∈ ops, op.Admissible) :
    ∃ os b, run step ops (new base) = .ok (os, b) ∧ Consistent b ∧ b.baseSize = base :=
  run_invariant (step_consistent base) ops (new base) ⟨new_consistent hb,rfl⟩ hops

theorem Consistent.root_length {b : ByteArray} (h : Consistent b) :
    b.root.length = b.capacity / b.baseSize := by
  rw [h.capacity_eq, Nat.mul_div_cancel _ h.base_pos]

theorem Consistent.cur_null_iff {b : ByteArray} (h : Consistent b) :
    b.cur = none ↔ b.position = b.capacity := by
  rw [h.cur_eq, cursor_eq_none, ← h.capacity_eq]
  have := h.position_le.trans h.size_le
  omega

/-- Position and node pointer never drift apart, whatever calls were made and
whichever of them threw. -/
theorem double_cursor_in_step (base : ℕ) (hb : 1 ≤ base) (ops : List Op)
    (hops : ∀ op ∈ ops, op.Admissible) :
    ∃ os b, run step ops (new base) = .ok (os, b) ∧ b.baseSize = base ∧
      b.root.length * base = b.capacity ∧ b.root.length = b.capacity / base ∧
      (∀ n ∈ b.root, n.length = base) ∧
      b.position ≤ b.size ∧ b.size ≤ b.capacity ∧
      (b.position < b.capacity → b.cur = some (b.position / base)) ∧
      (b.cur = none ↔ b.position = b.capacity) := by
  obtain ⟨os,b,hr,hc,rfl⟩ := run_consistent hb ops hops
  refine ⟨os,b,hr,rfl,hc.capacity_eq.symm,hc.root_length,hc.uniform,hc.position_le,hc.size_le,
    ?_,hc.cur_null_iff⟩
  intro hlt
  rw [hc.cur_eq]
  exact cursor_of_lt (hc.capacity_eq ▸ hlt)

theorem double_cursor_in_step_two :
    (1 ≤ 2 ∧ ∀ op ∈ [Op.write [some 7, some 8], .setPosition 9, .read 1], op.Admissible) ∧
      ∃ os b, run step [Op.write [some 7, some 8], .setPosition 9, .read 1] (new 2) =
        .ok (os, b) ∧ b.baseSize = 2 ∧
        b.root.length * 2 = b.capacity ∧ b.root.length = b.capacity / 2 ∧
        (∀ n ∈ b.root, n.length = 2) ∧ b.position ≤ b.size ∧ b.size ≤ b.capacity ∧
        (b.position < b.capacity → b.cur = some (b.position / 2)) ∧
        (b.cur = none ↔ b.position = b.capacity) := by
  have hops : ∀ op ∈ [Op.write [some 7, some 8], .setPosition 9, .read 1], op.Admissible := by
    simp [Op.Admissible]
  exact ⟨⟨by decide,hops⟩,double_cursor_in_step 2 (by decide) _ hops⟩

end Gudov.ByteArray
