import Gudov.ByteArrayUnread
import Gudov.Stream

/-!
# A byte array in a file

`WriteToFile` writes the rest of the content node by node. The length of a piece is the rest, cut
at the size of a node, less the offset in the node: inside a node the rest has to fill a node,
else the offset is taken off a length that did not contain it. `ReadFromFile` reads pieces of the
size of a node until one of them is short.

The file stores and returns what is written. It can be opened.
-/
namespace Gudov.ByteArray
open RowMemory StepSystem

section Model

/-- The bytes of `ofs.write(cur->ptr + diff, len)`; all of them have to be in the node. -/
def piece (n : Node) (diff len : ℤ) : Except Fault (List Cell) :=
  if 0 ≤ diff ∧ 0 ≤ len ∧ diff + len ≤ n.length then .ok (window n diff.toNat len.toNat)
  else .error .outOfBounds

/-- The loop of `WriteToFile`. Every round goes to the next node, so one round per node and a
last one are enough. -/
def writeToFileLoop (nodes : List Node) (baseSize : ℕ) :
    ℕ → (readSize : ℤ) → (pos : ℕ) → Option ℕ → List Cell → Except Fault (List Cell)
  | 0, _, _, _, _ => .error .outOfFuel
  | fuel + 1, readSize, pos, cur, file =>
    if readSize > 0 then do
      let diff := Stream.toInt (pos % baseSize)
      let len := (if readSize > baseSize then (baseSize : ℤ) else readSize) - diff
      let n ← deref nodes cur
      let out ← piece n diff len
      writeToFileLoop nodes baseSize fuel (readSize - len) (pos + len.toNat) (next nodes cur)
        (file ++ out)
    else .ok file

/-- The returned list is what the file contains afterwards. -/
def writeToFile : Call ByteArray (List Cell) := fun b =>
  liftFault (writeToFileLoop b.root b.baseSize (b.root.length + 1) b.getReadSize b.position b.cur
    []) fun file => .value file b

/-- The loop of `ReadFromFile`, with the rest of the file. The end of the file is only noticed by
a read that gets less than it asked for. -/
def readFromFileLoop (baseSize : ℕ) : ℕ → List Cell → Call ByteArray Unit
  | 0, _ => Call.fail .outOfFuel
  | fuel + 1, rest => do
    write (rest.take baseSize)
    if rest.length < baseSize then pure () else readFromFileLoop baseSize fuel (rest.drop baseSize)

def readFromFile (file : List Cell) : Call ByteArray Unit := fun b =>
  readFromFileLoop b.baseSize (file.length + 1) file b

end Model

section WriteToFile
variable {base : ℕ} {nodes : List Node}

theorem piece_eq {n : Node} {d len : ℕ} (h : d + len ≤ n.length) :
    piece n d len = .ok (window n d len) := by
  rw [piece, if_pos (by omega), Int.toNat_natCast, Int.toNat_natCast]

/-- One round inside the node of `p`. -/
theorem writeToFileLoop_round (hu : Uniform base nodes) {fuel p r len : ℕ}
    {file : List Cell} (hr : 0 < r) (hlt : p < nodes.length * base) (hsmall : p % base < 2 ^ 31)
    (hlen : min r base = p % base + len) :
    writeToFileLoop nodes base (fuel + 1) r p (cursor nodes.length base p) file =
      writeToFileLoop nodes base fuel ((r : ℤ) - len) (p + len)
        (next nodes (cursor nodes.length base p)) (file ++ window nodes.flatten p len) := by
  obtain ⟨n,hd,hn,hnode⟩ := deref_uniform hu (div_lt_count hlt)
  have hin : p % base + len ≤ base := by omega
  have hlenInt : (if (r : ℤ) > base then (base : ℤ) else r) - (p % base : ℕ) = len := by
    split <;> omega
  have hwindow : window nodes.flatten p len = window n (p % base) len := by
    rw [← window_flatten hu hn hin, Nat.mul_comm, Nat.div_add_mod]
  have hpiece : piece n (p % base : ℕ) len = .ok (window n (p % base) len) :=
    piece_eq (by omega)
  rw [writeToFileLoop, if_pos (by omega)]
  simp only [Stream.toInt_eq hsmall, hlenInt, cursor_of_lt hlt, hd, ok_bind, hpiece,
    Int.toNat_natCast, hwindow]

theorem writeToFileLoop_done {fuel pos : ℕ} {cur : Option ℕ} {file : List Cell} (h : 0 < fuel) :
    writeToFileLoop nodes base fuel 0 pos cur file = .ok file := by
  cases fuel with
  | zero => omega
  | succ fuel => rw [writeToFileLoop, if_neg (by omega)]

/-- From the start of a node, or with a rest that fills one, the rest is written. -/
theorem writeToFileLoop_eq (hb : 0 < base) (hu : Uniform base nodes) {fuel p r : ℕ}
    {file : List Cell} (hcap : p + r ≤ nodes.length * base) (hsmall : p % base < 2 ^ 31)
    (hserves : p % base = 0 ∨ base ≤ r) (hfuel : nodes.length < p / base + fuel) (hpos : 0 < fuel) :
    writeToFileLoop nodes base fuel r p (cursor nodes.length base p) file =
      .ok (file ++ window nodes.flatten p r) := by
  induction fuel generalizing p r file with
  | zero => omega
  | succ fuel ih =>
    rcases Nat.eq_zero_or_pos r with rfl | hr
    · rw [Nat.cast_zero, writeToFileLoop_done hpos, window_zero, List.append_nil]
    have hmod : p % base < base := Nat.mod_lt _ hb
    have hlt : p < nodes.length * base := by omega
    have hnode := div_lt_count hlt
    by_cases hfull : base ≤ r
    · -- The rest of the node, and then whole nodes.
      obtain ⟨len,hlen⟩ : ∃ len, p % base + len = base := ⟨base - p % base,by omega⟩
      have hcut : min r base = p % base + len := by omega
      have hrest : (r : ℤ) - len = (r - len : ℕ) := by omega
      have hboundary := div_add_boundary hlen
      have hzero : (p + len) % base = 0 := by rw [hboundary, Nat.mul_mod_right]
      have hdiv : (p + len) / base = p / base + 1 := by
        rw [hboundary, Nat.mul_div_cancel_left _ hb]
      rw [writeToFileLoop_round hu hr hlt hsmall hcut, hrest, cursor_of_lt hlt,
        next_boundary hb hlen, ih (by omega) (by omega) (.inl hzero) (by omega) (by omega),
        List.append_assoc, ← window_add, Nat.add_sub_cancel' (by omega)]
    · -- The last piece is shorter than a node.
      have hzero : p % base = 0 := hserves.resolve_right hfull
      have hcut : min r base = p % base + r := by omega
      rw [writeToFileLoop_round hu hr hlt hsmall hcut, Int.sub_self,
        writeToFileLoop_done (by omega)]

/-- A rest that is shorter than the offset has a piece of negative length. -/
theorem writeToFileLoop_negative {fuel pos r : ℕ} {cur : Option ℕ} {file out : List Cell}
    (hr : 0 < r) (hbase : r ≤ base) (hsmall : pos % base < 2 ^ 31) (hlt : r < pos % base) :
    writeToFileLoop nodes base fuel r pos cur file ≠ .ok out := by
  intro h
  cases fuel with
  | zero => cases h
  | succ fuel =>
    rw [writeToFileLoop, if_pos (by omega)] at h
    obtain ⟨n,_,h⟩ := exists_of_bind_eq_ok h
    obtain ⟨bytes,hpiece,_⟩ := exists_of_bind_eq_ok h
    rw [Stream.toInt_eq hsmall, if_neg (by omega), piece, if_neg (by omega)] at hpiece
    cases hpiece

/-- A rest as long as the offset is never begun: the walk goes on to the end of the nodes. -/
theorem writeToFileLoop_empty {fuel pos r : ℕ} {cur : Option ℕ} {file out : List Cell}
    (hr : 0 < r) (hbase : r ≤ base) (hsmall : pos % base < 2 ^ 31) (heq : pos % base = r) :
    writeToFileLoop nodes base fuel r pos cur file ≠ .ok out := by
  induction fuel generalizing cur file with
  | zero =>
    intro h
    cases h
  | succ fuel ih =>
    intro h
    rw [writeToFileLoop, if_pos (by omega)] at h
    obtain ⟨n,_,h⟩ := exists_of_bind_eq_ok h
    obtain ⟨bytes,_,h⟩ := exists_of_bind_eq_ok h
    rw [Stream.toInt_eq hsmall, if_neg (by omega), heq, Int.sub_self, Int.sub_zero,
      Int.toNat_zero, Nat.add_zero] at h
    exact ih h

/-- Inside a node, with a rest that does not fill one, no file is written to its end. -/
theorem writeToFileLoop_inside (hbase : base ≤ 2 ^ 31) (hu : Uniform base nodes) {fuel p r : ℕ}
    {file out : List Cell} (hr : 0 < r) (hrest : r < base) (hoffset : p % base ≠ 0)
    (hlt : p < nodes.length * base) :
    writeToFileLoop nodes base fuel r p (cursor nodes.length base p) file ≠ .ok out := by
  have hmod : p % base < base := Nat.mod_lt _ (by omega)
  rcases Nat.lt_trichotomy r (p % base) with hshort | heq | hlong
  · exact writeToFileLoop_negative hr hrest.le (by omega) hshort
  · exact writeToFileLoop_empty hr hrest.le (by omega) heq.symm
  · cases fuel with
    | zero =>
      intro h
      cases h
    | succ fuel =>
      -- The first piece ends inside the node, the next one is looked for in the node behind.
      obtain ⟨len,hlen⟩ : ∃ len, r = p % base + len := ⟨r - p % base,by omega⟩
      have hcut : min r base = p % base + len := by omega
      have hleft : (r : ℤ) - len = (p % base : ℕ) := by omega
      have hnext : (p + len) % base = r := by
        rw [Nat.add_mod, Nat.mod_eq_of_lt (a := len) (by omega), ← hlen, Nat.mod_eq_of_lt hrest]
      rw [writeToFileLoop_round hu hr hlt (by omega) hcut, hleft]
      exact writeToFileLoop_negative (by omega) hmod.le (by omega) (by omega)

end WriteToFile

section ReadFromFile
variable {b : ByteArray}

/-- Writing at the end appends. -/
theorem write_appends (h : Consistent b) (hend : b.position = b.size) (buf : List Cell) :
    ∃ b', write buf b = .value () b' ∧ Consistent b' ∧ b'.position = b'.size ∧
      b'.baseSize = b.baseSize ∧ b'.mem.take b'.size = b.mem.take b.size ++ buf := by
  obtain ⟨b',hw,hc,hp,hs,hbase,-,k,hk,hm⟩ := write_spec h buf
  have hlen := h.mem_length
  have hsize := h.size_le
  have hsize' : b'.size = b.size + buf.length := by omega
  have hfront : (b.mem ++ List.replicate k none).take b.size = b.mem.take b.size :=
    List.take_append_of_le_length (by omega)
  refine ⟨b',hw,hc,by omega,hbase,?_⟩
  rw [hm, hsize', hend, splice, hfront, List.take_left' (by
    rw [List.length_append, List.length_take]
    omega)]

/-- The pieces are appended until one is short. -/
theorem readFromFileLoop_eq (h : Consistent b) (hend : b.position = b.size) {fuel : ℕ}
    {rest : List Cell} (hfuel : rest.length < fuel) :
    ∃ b', readFromFileLoop b.baseSize fuel rest b = .value () b' ∧
      b'.mem.take b'.size = b.mem.take b.size ++ rest := by
  induction fuel generalizing b rest with
  | zero => omega
  | succ fuel ih =>
    obtain ⟨b₁,hw,hc,hp,hbase,hcontent⟩ := write_appends h hend (rest.take b.baseSize)
    have hb := h.base_pos
    rw [readFromFileLoop, Call.bind_value hw]
    split
    next hshort =>
      rw [List.take_of_length_le hshort.le] at hcontent
      exact ⟨b₁,rfl,hcontent⟩
    next hfull =>
      have hdrop : (rest.drop b.baseSize).length < fuel := by
        rw [List.length_drop]
        omega
      obtain ⟨b₂,hloop,hrest⟩ := ih hc hp hdrop
      rw [hbase] at hloop
      refine ⟨b₂,hloop,?_⟩
      rw [hrest, hcontent, List.append_assoc, List.take_append_drop]

theorem readFromFile_new (file : List Cell) {base : ℕ} (hb : 1 ≤ base) :
    ∃ b', readFromFile file (new base) = .value () b' ∧ b'.mem.take b'.size = file := by
  have hend : (new base).position = (new base).size := rfl
  obtain ⟨b',hloop,hcontent⟩ := readFromFileLoop_eq (new_consistent hb) hend
    (Nat.lt_succ_self file.length)
  refine ⟨b',hloop,?_⟩
  rw [hcontent]
  rfl

end ReadFromFile

section Dump
variable {b : ByteArray}

/-- The file holds the rest of the content, which is what `ToString` returns, and an array read
from it has that content. -/
def DumpsFaithfully (b : ByteArray) : Prop :=
  writeToFile b = .value b.unread b ∧ toString b = .value b.unread b ∧
    ∀ base, 1 ≤ base → ∃ c, readFromFile b.unread (new base) = .value () c ∧
      c.mem.take c.size = b.unread

/-- The position is at the start of a node or the rest fills one, and the offset in the node is
an `int`. -/
def PieceLengthRight (b : ByteArray) : Prop :=
  b.getReadSize = 0 ∨
    b.position % b.baseSize < 2 ^ 31 ∧
      (b.position % b.baseSize = 0 ∨ b.baseSize ≤ b.getReadSize)

theorem writeToFile_of_right (h : Consistent b) (hright : PieceLengthRight b) :
    writeToFile b = .value b.unread b := by
  have hsize := h.size_le
  have hpos := h.position_le
  have hrest : b.getReadSize = b.size - b.position := rfl
  rcases hright with hzero | ⟨hsmall,hserves⟩
  · rw [writeToFile, hzero, Nat.cast_zero, writeToFileLoop_done (Nat.succ_pos _), unread, hzero,
      window_zero]
    rfl
  · have hcap : b.position + b.getReadSize ≤ b.root.length * b.baseSize := by
      rw [← h.capacity_eq]
      omega
    rw [writeToFile, h.cur_eq, writeToFileLoop_eq h.base_pos h.uniform hcap hsmall hserves
      (Nat.lt_add_left _ (Nat.lt_succ_self _)) (Nat.succ_pos _)]
    rfl

theorem right_of_writeToFile (h : Consistent b) (hbase : b.baseSize ≤ 2 ^ 31)
    (hfile : writeToFile b = .value b.unread b) : PieceLengthRight b := by
  have hsize := h.size_le
  have hrest : b.getReadSize = b.size - b.position := rfl
  have hmod : b.position % b.baseSize < b.baseSize := Nat.mod_lt _ h.base_pos
  by_contra hwrong
  rw [PieceLengthRight, not_or] at hwrong
  obtain ⟨hne,hwrong⟩ := hwrong
  have hlt : b.position < b.root.length * b.baseSize := by
    rw [← h.capacity_eq]
    omega
  cases hloop : writeToFileLoop b.root b.baseSize (b.root.length + 1) b.getReadSize b.position
      b.cur [] with
  | error e =>
    rw [writeToFile, hloop] at hfile
    cases hfile
  | ok file =>
    rw [h.cur_eq] at hloop
    exact writeToFileLoop_inside hbase h.uniform (by omega) (by omega) (by omega) hlt hloop

end Dump

/-- In every reachable array: the file is right where the lengths of the pieces are. With nodes
of at most 2^31 bytes, whose offsets are all an `int`, it is right nowhere else. -/
theorem file_dump_faithful {b : ByteArray} (h : Reachable b) :
    (PieceLengthRight b → DumpsFaithfully b) ∧
      (b.baseSize ≤ 2 ^ 31 → DumpsFaithfully b → PieceLengthRight b) := by
  have hc := h.consistent
  constructor
  · intro hright
    exact ⟨writeToFile_of_right hc hright,toString_spec hc,
      fun base hb => readFromFile_new b.unread hb⟩
  · intro hbase hdump
    exact right_of_writeToFile hc hbase hdump.1

/-- Five bytes in three nodes, from the second one on: the pieces are one byte, two and one. -/
theorem file_dump_faithful_two : ∃ b : ByteArray, Reachable b ∧ b.baseSize = 2 ∧
    b.position = 1 ∧ b.root.length = 3 ∧ b.unread = [some 2, some 3, some 4, some 5] ∧
    DumpsFaithfully b := by
  have h₀ : Reachable (new 2) := .new (by decide)
  have h₁ : Reachable ⟨2,5,6,5,.little,
      [[some 1, some 2], [some 3, some 4], [some 5, none]],some 2⟩ :=
    h₀.call (by decide : step (new 2) (.write [some 1, some 2, some 3, some 4, some 5]) =
      .ok (.done, _))
  have h₂ : Reachable ⟨2,1,6,5,.little,
      [[some 1, some 2], [some 3, some 4], [some 5, none]],some 0⟩ :=
    h₁.call (by decide : step _ (.setPosition 1) = .ok (.done, _))
  exact ⟨_,h₂,rfl,rfl,rfl,by decide,(file_dump_faithful h₂).1 (.inr (by decide))⟩

/-- Two bytes from the second one of a node on: one is written, the other one is looked for in
the next node. -/
theorem file_dump_inside_node : ∃ b : ByteArray, Reachable b ∧ b.baseSize = 4 ∧ b.position = 1 ∧
    b.size = 3 ∧ writeToFile b = .fault .nullDereference := by
  have h₀ : Reachable (new 4) := .new (by decide)
  have h₁ : Reachable ⟨4,3,4,3,.little,[[some 1, some 2, some 3, none]],some 0⟩ :=
    h₀.call (by decide : step (new 4) (.write [some 1, some 2, some 3]) = .ok (.done, _))
  have h₂ : Reachable ⟨4,1,4,3,.little,[[some 1, some 2, some 3, none]],some 0⟩ :=
    h₁.call (by decide : step _ (.setPosition 1) = .ok (.done, _))
  exact ⟨_,h₂,rfl,rfl,rfl,by decide⟩

end Gudov.ByteArray
