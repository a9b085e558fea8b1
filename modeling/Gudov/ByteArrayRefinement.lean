import Gudov.ByteArrayRuns
import Gudov.FlatBuffer

/-!
# The byte array refines a flat buffer

`flat` forgets nodes, capacity and base size. Writes, reads, `ToString` and
seeks inside the size commute with it, so a caller that uses only these cannot
tell two base sizes apart. Bytes of the capacity behind `size_` never reach
such a caller.
-/
namespace Gudov.ByteArray
open RowMemory StepSystem FlatBuffer

/-- The abstract buffer of a consistent array. -/
def flat (b : ByteArray) (h : Consistent b) : Flat Cell where
  content := b.mem.take b.size
  position := b.position
  position_le := by
    have := h.mem_length
    have := h.size_le
    have := h.position_le
    rw [List.length_take]
    omega

/-- The calls a flat buffer can answer. -/
def specStep (f : Flat Cell) : Op → Except Fault (Seen × Flat Cell)
  | .write buf => .ok (.done, f.write buf)
  | .read n => match f.read n with
    | some (bs, g) => .ok (.bytes bs, g)
    | none => .ok (.exception "not enough len", f)
  | .toString => .ok (.bytes f.toEnd, f)
  | .setPosition v => match f.seek v with
    | some g => .ok (.done, g)
    | none => .error .outOfBounds
  | _ => .error .outOfBounds

/-- Writes, non-empty reads, `ToString` and seeks that stay inside the size. -/
def BufferCall (b : ByteArray) : Op → Prop
  | .write _ => True
  | .read n => 1 ≤ n
  | .toString => True
  | .setPosition v => v ≤ b.size
  | .clear => False
  | .getWriteBuffers _ _ => False

def Represents (b : ByteArray) (f : Flat Cell) : Prop := ∃ h : Consistent b, f = b.flat h

theorem flat_length {b : ByteArray} (h : Consistent b) : (b.flat h).content.length = b.size := by
  have := h.mem_length
  have := h.size_le
  simp only [flat, List.length_take]
  omega

theorem write_refines {b b' : ByteArray} (h : Consistent b) (h' : Consistent b')
    {buf : List Cell} {k : ℕ} (hp : b'.position = b.position + buf.length)
    (hs : b'.size = max b.size (b.position + buf.length))
    (hk : b.position + buf.length ≤ b.mem.length + k)
    (hm : b'.mem = splice (b.mem ++ List.replicate k none) b.position buf) :
    (b.flat h).write buf = b'.flat h' := by
  have hml := h.mem_length
  have hsl := h.size_le
  rw [Flat.ext_iff']
  refine ⟨?_,hp.symm⟩
  change splice (b.mem.take b.size) b.position buf = b'.mem.take b'.size
  rw [hm, hs, take_splice h.position_le
    (by rw [List.length_append, List.length_replicate]; exact hk),
    List.take_append_of_le_length (by omega)]

theorem flat_read {b : ByteArray} (h : Consistent b) {n : ℕ} (hpos : 0 < n)
    (hn : n ≤ b.getReadSize) :
    (b.flat h).read n =
      some (window b.mem b.position n, (b.advance n).flat (read_spec h hpos hn).2) := by
  have hle := h.position_le
  have hrs : b.getReadSize = b.size - b.position := rfl
  have hin : (b.flat h).position + n ≤ (b.flat h).content.length := by
    rw [flat_length]
    change b.position + n ≤ b.size
    omega
  rw [Flat.read, dif_pos hin]
  have hw : window (b.mem.take b.size) b.position n = window b.mem b.position n :=
    window_take (by omega)
  congr 2

theorem step_refines (b : ByteArray) (f : Flat Cell) (op : Op) (hrep : Represents b f)
    (hop : BufferCall b op) :
    ∃ o b' f', step b op = .ok (o, b') ∧ specStep f op = .ok (o, f') ∧ Represents b' f' := by
  obtain ⟨h,rfl⟩ := hrep
  have hrs : b.getReadSize = b.size - b.position := rfl
  cases op with
  | write buf =>
    obtain ⟨b',hw,hc,hp,hs,-,-,k,hk,hm⟩ := write_spec h buf
    exact ⟨.done,b',_,congrArg (observe fun _ => .done) hw,rfl,hc,
      write_refines h hc hp hs hk hm⟩
  | read n =>
    by_cases hn : n ≤ b.getReadSize
    · obtain ⟨hr,hc⟩ := read_spec h hop hn
      refine ⟨_,_,_,congrArg (observe .bytes) hr,?_,hc,rfl⟩
      simp only [specStep, flat_read h hop hn]
    · have hr := read_throws (Nat.lt_of_not_le hn)
      refine ⟨_,b,b.flat h,congrArg (observe .bytes) hr,?_,h,rfl⟩
      have hle := h.position_le
      have hout : ¬ (b.flat h).position + n ≤ (b.flat h).content.length := by
        rw [flat_length]
        change ¬ b.position + n ≤ b.size
        omega
      simp only [specStep, Flat.read, dif_neg hout]
  | toString =>
    refine ⟨_,b,b.flat h,congrArg (observe .bytes) (toString_spec h),?_,h,rfl⟩
    change Except.ok (Seen.bytes ((b.mem.take b.size).drop b.position), _) = _
    rw [List.drop_take]
    rfl
  | setPosition v =>
    have hv : v ≤ b.size := hop
    obtain ⟨hs,hc⟩ := setPosition_spec h (hv.trans h.size_le)
    have hin : v ≤ (b.flat h).content.length := by rwa [flat_length]
    refine ⟨_,_,_,congrArg (observe fun _ => .done) hs,?_,hc,rfl⟩
    have hf : ⟨(b.flat h).content,v,hin⟩ = (b.seek v).flat hc := by
      rw [Flat.ext_iff']
      refine ⟨?_,rfl⟩
      change b.mem.take b.size = b.mem.take (b.seek v).size
      rw [seek_size hv]
    simp only [specStep, Flat.seek, dif_pos hin, hf]
  | clear => exact hop.elim
  | getWriteBuffers iovs len => exact hop.elim

theorem new_represents {base : ℕ} (hb : 1 ≤ base) : Represents (new base) Flat.empty := by
  refine ⟨new_consistent hb,?_⟩
  rw [Flat.ext_iff']
  simp [flat, Flat.empty, new]

/-- Two arrays, possibly of different base sizes, with the same abstract buffer. -/
def SameBuffer (b c : ByteArray) : Prop := ∃ f, Represents b f ∧ Represents c f

theorem SameBuffer.bufferCall {b c : ByteArray} (h : SameBuffer b c) {op : Op}
    (hop : BufferCall b op) : BufferCall c op := by
  obtain ⟨f,⟨hb,rfl⟩,hc,he⟩ := h
  have hlen : b.size = c.size := by
    rw [← flat_length hb, ← flat_length hc, he]
  cases op with
  | setPosition v =>
    change v ≤ c.size
    rw [← hlen]
    exact hop
  | _ => exact hop

theorem step_sameBuffer (b c : ByteArray) (op : Op) (h : SameBuffer b c)
    (hop : BufferCall b op) :
    ∃ o b' c', step b op = .ok (o, b') ∧ step c op = .ok (o, c') ∧ SameBuffer b' c' := by
  have hop' := h.bufferCall hop
  obtain ⟨f,hb,hc⟩ := h
  obtain ⟨o,b',f',hs,hf,hrep⟩ := step_refines b f op hb hop
  obtain ⟨o₂,c',f₂,hs₂,hf₂,hrep₂⟩ := step_refines c f op hc hop'
  obtain ⟨rfl,rfl⟩ : o = o₂ ∧ f' = f₂ := by
    rw [hf] at hf₂
    simpa using hf₂
  exact ⟨o,b',c',hs,hs₂,f',hrep,hrep₂⟩

/-- The outputs of a run of buffer calls do not depend on the base size. -/
theorem run_base_independent {base base' : ℕ} (hb : 1 ≤ base) (hb' : 1 ≤ base')
    (ops : List Op) (hops : Along step BufferCall ops (new base)) :
    ∃ os b b', run step ops (new base) = .ok (os, b) ∧
      run step ops (new base') = .ok (os, b') ∧ SameBuffer b b' :=
  run_simulates step_sameBuffer ops (new base) (new base')
    ⟨Flat.empty,new_represents hb,new_represents hb'⟩ hops

/-- `Write` at the level of single addresses. -/
def WritesExactly (b : ByteArray) (buf : List Cell) (b' : ByteArray) : Prop :=
  ∃ k, b'.mem.length = b.mem.length + k ∧
    (∀ i, b'.mem[i]? =
      if b.position ≤ i ∧ i < b.position + buf.length then buf[i - b.position]?
      else (b.mem ++ List.replicate k none)[i]?) ∧
    b'.position = b.position + buf.length ∧ b'.size = max b.size (b.position + buf.length)

theorem write_exactly {b : ByteArray} (h : Consistent b) (buf : List Cell) :
    ∃ b', write buf b = .value () b' ∧ WritesExactly b buf b' := by
  obtain ⟨b',hw,-,hp,hs,-,-,k,hk,hm⟩ := write_spec h buf
  have hk' : b.position + buf.length ≤ (b.mem ++ List.replicate k (none : Cell)).length := by
    simpa using hk
  refine ⟨b',hw,k,?_,?_,hp,hs⟩
  · rw [hm, splice_length hk', List.length_append, List.length_replicate]
  · intro i
    rw [hm, getElem?_splice hk']

/-- In every reachable state the operations act on the concatenated node
buffers as on one flat memory, and the base size is invisible. -/
theorem refines_flat_buffer (base : ℕ) (hb : 1 ≤ base) (ops : List Op)
    (hops : ∀ op ∈ ops, op.Admissible) (os : List Seen) (b : ByteArray)
    (hrun : run step ops (new base) = .ok (os, b)) :
    (∀ buf, ∃ b', write buf b = .value () b' ∧ WritesExactly b buf b') ∧
    (∀ n, 1 ≤ n → n ≤ b.size - b.position →
      ∃ cur, read n b = .value (window b.mem b.position n)
        { b with position := b.position + n, cur := cur }) ∧
    (∀ n, b.size - b.position < n → read n b = .thrown "not enough len" b) ∧
    toString b = .value (window b.mem b.position (b.size - b.position)) b ∧
    (∀ base', 1 ≤ base' → ∀ calls, Along step BufferCall calls (new base) →
      ∃ seen c c', run step calls (new base) = .ok (seen, c) ∧
        run step calls (new base') = .ok (seen, c')) := by
  obtain ⟨os',b',hrun',h,-⟩ := run_consistent hb ops hops
  obtain ⟨-,rfl⟩ : os' = os ∧ b' = b := by
    rw [hrun] at hrun'
    simpa [eq_comm] using hrun'
  refine ⟨write_exactly h,?_,fun n hn => read_throws hn,toString_spec h,?_⟩
  · intro n hpos hn
    exact ⟨_,(read_spec h hpos hn).1⟩
  · intro base' hb' calls hcalls
    obtain ⟨seen,c,c',h₁,h₂,-⟩ := run_base_independent hb hb' calls hcalls
    exact ⟨seen,c,c',h₁,h₂⟩

/-- Three bytes over nodes of one byte: the third read crosses two boundaries. -/
theorem refines_flat_buffer_one :
    ∃ os b, run step [.write [some 1, some 2, some 3], .setPosition 1] (new 1) = .ok (os, b) ∧
      (∀ n, 1 ≤ n → n ≤ b.size - b.position →
        ∃ cur, read n b = .value (window b.mem b.position n)
          { b with position := b.position + n, cur := cur }) ∧
      ∃ seen c c', run step [.write [some 9], .setPosition 0, .read 1] (new 1) =
          .ok (seen, c) ∧
        run step [.write [some 9], .setPosition 0, .read 1] (new 7) = .ok (seen, c') := by
  have hops : ∀ op ∈ [Op.write [some 1, some 2, some 3], .setPosition 1], op.Admissible := by
    simp [Op.Admissible]
  obtain ⟨os,b,hrun,-⟩ := run_consistent (le_refl 1) _ hops
  have h := refines_flat_buffer 1 (le_refl 1) _ hops os b hrun
  have hcalls : Along step BufferCall [.write [some 9], .setPosition 0, .read 1] (new 1) :=
    ⟨trivial,fun _ _ _ => ⟨Nat.zero_le _,fun _ _ _ => ⟨le_refl 1,fun _ _ _ => trivial⟩⟩⟩
  exact ⟨os,b,hrun,h.2.1,h.2.2.2.2 7 (by decide) _ hcalls⟩

end Gudov.ByteArray
