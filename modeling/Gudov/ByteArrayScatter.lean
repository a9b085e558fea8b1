import Gudov.ByteArrayRuns
import Gudov.ByteArrayTyped

/-!
# Scattered input and gathered output

`SocketStream` hands the iovecs of a byte array to the socket. The kernel fills or
reads them in order, and the caller then moves the position by the number of bytes
transferred. On the concatenated node buffers this is one write or one read, and the
result differs from that of `Write` only by nodes grown in advance.
-/
namespace Gudov.ByteArray
open RowMemory StepSystem

/-- Storing bytes into the iovecs in order, as `readv` does. -/
def scatter : List Iovec → List Cell → List Node → Except Fault (List Node)
  | [], _, nodes => .ok nodes
  | iov :: iovs, d, nodes => do
    let n ← deref nodes iov.node
    if iov.npos + iov.len ≤ n.length then
      let n' := splice n iov.npos (d.take iov.len)
      scatter iovs (d.drop iov.len) (nodes.set (iov.node.getD 0) n')
    else .error .outOfBounds

/-- The bytes the iovecs expose, as `writev` sends them. -/
def gather (nodes : List Node) : List Iovec → Except Fault (List Cell)
  | [] => .ok []
  | iov :: iovs => do
    let n ← deref nodes iov.node
    if iov.npos + iov.len ≤ n.length then
      let rest ← gather nodes iovs
      .ok (window n iov.npos iov.len ++ rest)
    else .error .outOfBounds

/-- `GetWriteBuffers`, after which the holder of the iovecs stores `d`. -/
def fill (len : ℕ) (d : List Cell) : Call ByteArray Unit := fun b =>
  match getWriteBuffers [] len b with
  | .value (_, iovs) b =>
    liftFault (scatter iovs d b.root) fun nodes => .value () { b with root := nodes }
  | .thrown w b => .thrown w b
  | .fault f => .fault f

/-- `SetPosition(GetPosition() + rt)` -/
def moveBy (rt : ℕ) : Call ByteArray Unit := fun b => setPosition (b.position + rt) b

/-- `SocketStream::read(ba, len)` when the socket delivers `d`. -/
def receive (len : ℕ) (d : List Cell) : Call ByteArray Unit := do
  fill len d
  moveBy d.length

section Covered
variable {base p len : ℕ} {nodes : List Node} {iov : Iovec} {iovs : List Iovec}

/-- The first of the iovecs lies inside one node. -/
theorem Covers.first (hu : Uniform base nodes) (hiovs : Covers base p len (iov :: iovs))
    (hcap : p + len ≤ nodes.length * base) :
    ∃ n, deref nodes iov.node = .ok n ∧ nodes[p / base]? = some n ∧ n.length = base ∧
      p / base * base + iov.npos = p ∧ iov.npos + iov.len ≤ base := by
  obtain ⟨hnode,hnpos,hpos,hin,hle,-⟩ := hiovs
  have hlt : p < nodes.length * base := by omega
  obtain ⟨n,hd,hn,hlen⟩ := deref_uniform hu (div_lt_count hlt)
  refine ⟨n,by rw [hnode, hd],hn,hlen,?_,by omega⟩
  rw [hnpos, Nat.mul_comm]
  exact Nat.div_add_mod p base

/-- Storing `d` in two pieces, the second one possibly empty, is storing `d`. -/
theorem splice_take_drop {mem d : List Cell} {p k : ℕ} (h : p + d.length ≤ mem.length) :
    splice (splice mem p (d.take k)) (p + k) (d.drop k) = splice mem p d := by
  by_cases hk : k ≤ d.length
  · have htake : (d.take k).length = k := List.length_take_of_le hk
    have hdrop : (d.drop k).length = d.length - k := List.length_drop
    have hadj : splice (splice mem p (d.take k)) (p + (d.take k).length) (d.drop k) =
        splice mem p (d.take k ++ d.drop k) := splice_splice (by omega)
    rwa [htake, List.take_append_drop] at hadj
  · rw [List.take_of_length_le (by omega), List.drop_of_length_le (by omega), splice_nil]

theorem scatter_spec {d : List Cell} (hu : Uniform base nodes)
    (hiovs : Covers base p len iovs) (hcap : p + len ≤ nodes.length * base)
    (hd : d.length ≤ len) :
    ∃ nodes', scatter iovs d nodes = .ok nodes' ∧ Uniform base nodes' ∧
      nodes'.length = nodes.length ∧ nodes'.flatten = splice nodes.flatten p d := by
  induction iovs generalizing p len d nodes with
  | nil =>
    have hlen : len = 0 := hiovs
    obtain rfl : d = [] := List.eq_nil_of_length_eq_zero (by omega)
    exact ⟨nodes,rfl,hu,rfl,by simp⟩
  | cons iov iovs ih =>
    obtain ⟨n,hderef,hn,hlen,hp,hin⟩ := Covers.first hu hiovs hcap
    obtain ⟨hnode,-,-,-,hle,hrest⟩ := hiovs
    have htake : iov.npos + (d.take iov.len).length ≤ base := by
      have := List.length_take_le iov.len d
      omega
    have hfit : iov.npos + (d.take iov.len).length ≤ n.length := hlen ▸ htake
    have hu' : Uniform base (nodes.set (p / base) (splice n iov.npos (d.take iov.len))) :=
      hu.set (by rw [splice_length hfit, hlen])
    have hcount : (nodes.set (p / base) (splice n iov.npos (d.take iov.len))).length =
        nodes.length := List.length_set
    obtain ⟨nodes',hscatter,hu'',hcount',hflat⟩ := ih hu' hrest (d := d.drop iov.len)
      (by rw [hcount]; omega) (by rw [List.length_drop]; omega)
    refine ⟨nodes',?_,hu'',hcount'.trans hcount,?_⟩
    · have hroom : iov.npos + iov.len ≤ n.length := hlen ▸ hin
      simp only [scatter, hderef, bind, Except.bind, if_pos hroom]
      rw [hnode]
      exact hscatter
    · have hflen := hu.flatten_length
      rw [hflat, flatten_set_splice hu hn htake, hp]
      exact splice_take_drop (by omega)

theorem gather_spec (hu : Uniform base nodes) (hiovs : Covers base p len iovs)
    (hcap : p + len ≤ nodes.length * base) :
    gather nodes iovs = .ok (window nodes.flatten p len) := by
  induction iovs generalizing p len with
  | nil =>
    have hlen : len = 0 := hiovs
    subst hlen
    simp [gather]
  | cons iov iovs ih =>
    obtain ⟨n,hderef,hn,hlen,hp,hin⟩ := Covers.first hu hiovs hcap
    obtain ⟨-,-,-,-,hle,hrest⟩ := hiovs
    have hroom : iov.npos + iov.len ≤ n.length := hlen ▸ hin
    have hhead : window nodes.flatten p iov.len = window n iov.npos iov.len := by
      rw [← window_flatten hu hn hin, hp]
    have hsplit : len = iov.len + (len - iov.len) := by omega
    simp only [gather, hderef, bind, Except.bind, if_pos hroom, ih hrest (by omega)]
    rw [← hhead, ← window_add, ← hsplit]

end Covered

section Transfers
variable {b b' : ByteArray} {len : ℕ} {d : List Cell}

/-- The nodes change, and the bytes only at the addresses that `d` takes. -/
theorem fill_spec (h : Consistent b) (hd : d.length ≤ len) :
    ∃ b', fill len d b = .value () b' ∧ Consistent b' ∧ b'.position = b.position ∧
      b'.size = b.size ∧ b'.baseSize = b.baseSize ∧ b'.endian = b.endian ∧
      b'.capacity = (b.addCapacity len).capacity ∧
      ∃ k, b.position + d.length ≤ b.mem.length + k ∧
        b'.mem = splice (b.mem ++ List.replicate k none) b.position d := by
  obtain ⟨hg,hcap,hpos,hsize,hbase,hend,k,hmem⟩ := addCapacity_spec h len
  obtain ⟨iovs,hiovs,hcovers,-,-⟩ := getWriteBuffers_spec h [] len
  have hroom : b.position + len ≤ (b.addCapacity len).root.length * b.baseSize := by
    rw [← hbase, ← hg.capacity_eq]
    exact hcap
  obtain ⟨nodes,hscatter,hu,hcount,hflat⟩ := scatter_spec (hbase ▸ hg.uniform) hcovers hroom hd
  refine ⟨{ b.addCapacity len with root := nodes },?_,?_,hpos,hsize,hbase,hend,rfl,k,?_,?_⟩
  · simp only [fill, hiovs, List.nil_append, hscatter, liftFault]
  · refine ⟨hg.base_pos,hcount ▸ hg.root_pos,hbase.symm ▸ hu,?_,hg.position_le,hg.size_le,?_⟩
    · rw [hg.capacity_eq, hcount]
    · rw [hg.cur_eq, hcount]
  · have hml := hg.mem_length
    rw [hmem, List.length_append, List.length_replicate] at hml
    omega
  · rw [← hmem]
    exact hflat

theorem receive_spec (h : Consistent b) (hd : d.length ≤ len) :
    ∃ b', receive len d b = .value () b' ∧ Consistent b' ∧
      b'.position = b.position + d.length ∧
      b'.size = max b.size (b.position + d.length) ∧
      b'.baseSize = b.baseSize ∧ b'.endian = b.endian ∧
      b'.capacity = (b.addCapacity len).capacity ∧
      ∃ k, b.position + d.length ≤ b.mem.length + k ∧
        b'.mem = splice (b.mem ++ List.replicate k none) b.position d := by
  obtain ⟨c,hfill,hc,hpos,hsize,hbase,hend,hcap,hmem⟩ := fill_spec h hd
  have hroom : c.position + d.length ≤ c.capacity := by
    obtain ⟨-,hge,-⟩ := addCapacity_spec h len
    omega
  obtain ⟨hseek,hcons⟩ := setPosition_spec hc hroom
  refine ⟨c.seek (c.position + d.length),?_,hcons,?_,?_,hbase,hend,hcap,hmem⟩
  · rw [receive, Call.bind_value hfill]
    exact hseek
  · rw [← hpos]
    rfl
  · rw [← hpos, ← hsize]
    dsimp only [seek]
    split_ifs <;> omega

theorem write_capacity (hw : write d b = .value () b') :
    b'.capacity = (b.addCapacity d.length).capacity := by
  unfold write at hw
  split_ifs at hw with hz
  · cases hw
    rw [hz]
    rfl
  · dsimp only at hw
    cases hcopy : copy store (b.addCapacity d.length) d (b.addCapacity d.length).position
        d.length with
    | error f =>
      rw [hcopy] at hw
      cases hw
    | ok r =>
      rw [hcopy] at hw
      cases hw
      rfl

theorem addCapacity_capacity (h : Consistent b) (size : ℕ) :
    (b.addCapacity size).capacity =
      b.capacity + (size - b.getCapacity + b.baseSize - 1) / b.baseSize * b.baseSize := by
  by_cases hroom : size ≤ b.getCapacity
  · have hb := h.base_pos
    rw [addCapacity_of_le hroom, Nat.sub_eq_zero_of_le hroom, Nat.zero_add,
      Nat.div_eq_of_lt (by omega), Nat.zero_mul, Nat.add_zero]
  · rw [addCapacity, if_neg (by omega), if_neg hroom]

theorem addCapacity_mono (h : Consistent b) {m n : ℕ} (hmn : m ≤ n) :
    (b.addCapacity m).capacity ≤ (b.addCapacity n).capacity := by
  rw [addCapacity_capacity h, addCapacity_capacity h]
  have hdiv : (m - b.getCapacity + b.baseSize - 1) / b.baseSize ≤
      (n - b.getCapacity + b.baseSize - 1) / b.baseSize := Nat.div_le_div_right (by omega)
  exact Nat.add_le_add_left (Nat.mul_le_mul_right _ hdiv) _

/-- Reading nothing moves nothing, as long as there is a node to dereference. -/
theorem read_zero (h : Consistent b) (hlt : b.position < b.capacity) :
    read 0 b = .value [] b := by
  rw [h.capacity_eq] at hlt
  obtain ⟨n,hd,-,-⟩ := deref_uniform h.uniform (div_lt_count hlt)
  have hcur : b.cur = some (b.position / b.baseSize) := h.cur_eq.trans (cursor_of_lt hlt)
  rw [← hcur] at hd
  simp [read, copy, hd, bind, Except.bind, copyLoop, pure, Except.pure, liftFault]

theorem seek_position (h : Consistent b) : b.seek b.position = b := by
  have hsize : (b.seek b.position).size = b.size := seek_size h.position_le
  cases b
  simp only [seek] at hsize ⊢
  rw [hsize, ← h.cur_eq]

theorem seek_eq_advance {n : ℕ} (h : b.position + n ≤ b.size) :
    b.seek (b.position + n) = b.advance n := by
  have hsize := seek_size h
  simp only [seek, advance] at hsize ⊢
  rw [hsize]

/-- A seek behind the first `r` readable bytes ends where `Read` of them ends. -/
theorem moveBy_eq_read (h : Consistent b) {r : ℕ} (hlt : b.position < b.size)
    (hr : r ≤ b.getReadSize) :
    ∃ out b', moveBy r b = .value () b' ∧ read r b = .value out b' := by
  have hsz := h.size_le
  have hrs : b.getReadSize = b.size - b.position := rfl
  have hseek := (setPosition_spec h (v := b.position + r) (by omega)).1
  rcases Nat.eq_zero_or_pos r with rfl | hpos
  · refine ⟨[],b,?_,read_zero h (by omega)⟩
    rw [moveBy, hseek, Nat.add_zero, seek_position h]
  · refine ⟨_,_,?_,(read_spec h hpos hr).1⟩
    rw [moveBy, hseek, seek_eq_advance (by omega)]

/-- `c` is `b` with nodes grown in advance: nothing but the capacity differs, and the node
pointer where `b` has no node left for it. -/
structure GrownFrom (b c : ByteArray) : Prop where
  position_eq : c.position = b.position
  size_eq : c.size = b.size
  baseSize_eq : c.baseSize = b.baseSize
  endian_eq : c.endian = b.endian
  content_eq : c.mem.take c.size = b.mem.take b.size
  mem_eq : ∃ k, c.mem = b.mem ++ List.replicate k none
  cur_eq : c.cur = b.cur ∨ b.cur = none ∧ b.position = b.capacity

theorem receive_grown_from_write (h : Consistent b) (hd : d.length ≤ len) :
    ∃ c b', receive len d b = .value () c ∧ write d b = .value () b' ∧ GrownFrom b' c := by
  obtain ⟨c,hreceive,hc,hpos,hsize,hbase,hend,hcap,j,hj,hmem⟩ := receive_spec h hd
  obtain ⟨b',hwrite,hb',hpos',hsize',hbase',hend',k,hk,hmem'⟩ := write_spec h d
  have hclen : c.mem.length = b.mem.length + j := by
    rw [hmem, splice_length] <;> simp only [List.length_append, List.length_replicate]
    exact hj
  have hblen : b'.mem.length = b.mem.length + k := by
    rw [hmem', splice_length] <;> simp only [List.length_append, List.length_replicate]
    exact hk
  have hmono := addCapacity_mono h hd
  rw [← hcap, ← write_capacity hwrite, ← hc.mem_length, ← hb'.mem_length] at hmono
  have hgrow : c.mem = b'.mem ++ List.replicate (j - k) none := by
    have hrep : List.replicate j (none : Cell) =
        List.replicate k none ++ List.replicate (j - k) none := by
      rw [← List.replicate_add]
      congr 1
      omega
    rw [hmem, hmem', hrep, ← List.append_assoc]
    exact splice_append_right (by rw [List.length_append, List.length_replicate]; exact hk) _
  have hfit : b'.size ≤ b'.mem.length := hb'.mem_length ▸ hb'.size_le
  refine ⟨c,b',hreceive,hwrite,hpos.trans hpos'.symm,hsize.trans hsize'.symm,
    hbase.trans hbase'.symm,hend.trans hend'.symm,?_,⟨_,hgrow⟩,?_⟩
  · rw [hsize, ← hsize', hgrow, List.take_append_of_le_length hfit]
  · by_cases hfull : b'.position = b'.capacity
    · exact Or.inr ⟨hb'.cur_null_iff.mpr hfull,hfull⟩
    · have hle := hb'.position_le.trans hb'.size_le
      have hlt : b'.position < b'.root.length * b'.baseSize := by
        rw [← hb'.capacity_eq]
        omega
      have hlt' : c.position < c.root.length * c.baseSize := by
        rw [← hc.capacity_eq, ← hc.mem_length]
        have := hb'.mem_length
        omega
      left
      rw [hb'.cur_eq, hc.cur_eq, cursor_of_lt hlt, cursor_of_lt hlt', hpos, hpos', hbase, hbase']

end Transfers

/-- The states of an array on which public calls are made, with iovecs filled by the
kernel or by a caller. A run ends at a fault. -/
inductive Reachable : ByteArray → Prop
  | new {base : ℕ} (hb : 1 ≤ base) : Reachable (new base)
  | call {b b' : ByteArray} {op : Op} {o : Seen} (h : Reachable b)
      (hstep : step b op = .ok (o, b')) : Reachable b'
  | setIsLittleEndian {b b' : ByteArray} {val : Bool} (h : Reachable b)
      (hset : setIsLittleEndian val b = .value () b') : Reachable b'
  | fill {b b' : ByteArray} {len : ℕ} {d : List Cell} (h : Reachable b) (hd : d.length ≤ len)
      (hfill : fill len d b = .value () b') : Reachable b'

/-- A read of no bytes faults or changes nothing. -/
theorem step_read_zero {b b' : ByteArray} {o : Seen} (hstep : step b (.read 0) = .ok (o, b')) :
    b' = b := by
  simp only [step, read, if_neg (Nat.not_lt_zero _), copy] at hstep
  cases hd : deref b.root b.cur with
  | error f =>
    rw [hd] at hstep
    cases hstep
  | ok n =>
    rw [hd] at hstep
    cases hstep
    rfl

theorem Reachable.consistent {b : ByteArray} (h : Reachable b) : Consistent b := by
  induction h with
  | new hb => exact new_consistent hb
  | @call b b' op o _ hstep ih =>
    by_cases hop : op.Admissible
    · obtain ⟨o',c,hc,hcons,-⟩ := step_consistent b.baseSize b op ⟨ih,rfl⟩ hop
      rw [hstep] at hc
      cases hc
      exact hcons
    · cases op with
      | read n =>
        obtain rfl : n = 0 := by
          simp only [Op.Admissible] at hop
          omega
        rw [step_read_zero hstep]
        exact ih
      | _ => exact absurd trivial hop
  | setIsLittleEndian _ hset ih =>
    cases hset
    exact ⟨ih.base_pos,ih.root_pos,ih.uniform,ih.capacity_eq,ih.position_le,ih.size_le,ih.cur_eq⟩
  | fill _ hd hfill ih =>
    obtain ⟨c,hc,hcons,-⟩ := fill_spec ih hd
    rw [hfill] at hc
    cases hc
    exact hcons

/-- Scatter and gather against copies, in every reachable state: a receive of at most
`len` bytes ends as the write of these bytes does; the iovecs for a send expose what a read
returns; and a position moved by the `r` bytes sent is the position after a read of them. -/
theorem scatter_gather_refines_copy {b : ByteArray} (h : Reachable b) {len : ℕ} (hlen : 1 ≤ len) :
    (∀ d : List Cell, d.length ≤ len →
      ∃ c b', receive len d b = .value () c ∧ write d b = .value () b' ∧ GrownFrom b' c) ∧
    (len ≤ b.getReadSize →
      (∃ iovs bytes b', getReadBuffers [] len b = .value (len, iovs) b ∧
        gather b.root iovs = .ok bytes ∧ read len b = .value bytes b') ∧
      ∀ r ≤ len, ∃ out b', moveBy r b = .value () b' ∧ read r b = .value out b') := by
  have hc := h.consistent
  refine ⟨fun d hd => receive_grown_from_write hc hd,?_⟩
  intro hle
  have hsz := hc.size_le
  have hrs : b.getReadSize = b.size - b.position := rfl
  constructor
  · obtain ⟨iovs,hiovs,hcovers⟩ := getReadBuffers_spec hc [] hlen hle
    have hroom : b.position + len ≤ b.root.length * b.baseSize := by
      rw [← hc.capacity_eq]
      omega
    exact ⟨iovs,_,_,hiovs,gather_spec hc.uniform hcovers hroom,(read_spec hc hlen hle).1⟩
  · intro r hr
    exact moveBy_eq_read hc (by omega) (hr.trans hle)

theorem scatter_gather_refines_copy_two :
    ∃ b : ByteArray, (Reachable b ∧ 1 ≤ 2 ∧ 2 ≤ b.getReadSize) ∧
      (∀ d : List Cell, d.length ≤ 2 →
        ∃ c b', receive 2 d b = .value () c ∧ write d b = .value () b' ∧ GrownFrom b' c) ∧
      (∃ iovs bytes b', getReadBuffers [] 2 b = .value (2, iovs) b ∧
        gather b.root iovs = .ok bytes ∧ read 2 b = .value bytes b') ∧
      ∀ r ≤ 2, ∃ out b', moveBy r b = .value () b' ∧ read r b = .value out b' := by
  have h₀ : Reachable (new 2) := .new (by decide)
  have h₁ : Reachable ⟨2,3,4,3,.little,[[some 1, some 2], [some 3, none]],some 1⟩ :=
    h₀.call (by decide : step (new 2) (.write [some 1, some 2, some 3]) = .ok (.done, _))
  have h₂ : Reachable ⟨2,1,4,3,.little,[[some 1, some 2], [some 3, none]],some 0⟩ :=
    h₁.call (by decide : step _ (.setPosition 1) = .ok (.done, _))
  have hle : 2 ≤ getReadSize ⟨2,1,4,3,.little,[[some 1, some 2], [some 3, none]],some 0⟩ := by
    decide
  have hrefines := scatter_gather_refines_copy h₂ (by decide : 1 ≤ 2)
  exact ⟨_,⟨h₂,by decide,hle⟩,hrefines.1,hrefines.2 hle⟩

end Gudov.ByteArray
