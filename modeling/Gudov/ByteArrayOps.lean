import Gudov.ByteArrayCursor

/-!
# What each operation of the byte array does

`Consistent` is the representation invariant: equal nodes, a capacity that
counts them, and the double cursor in step. Each public operation gets one
specification over `mem`, the concatenation of all node buffers. The callers
below use these and never look at the loops again.
-/
namespace Gudov.ByteArray
open RowMemory

structure Consistent (b : ByteArray) : Prop where
  base_pos : 0 < b.baseSize
  root_pos : 0 < b.root.length
  uniform : Uniform b.baseSize b.root
  capacity_eq : b.capacity = b.root.length * b.baseSize
  position_le : b.position ≤ b.size
  size_le : b.size ≤ b.capacity
  cur_eq : b.cur = cursor b.root.length b.baseSize b.position

def mem (b : ByteArray) : List Cell := b.root.flatten

theorem Consistent.mem_length {b : ByteArray} (h : Consistent b) :
    b.mem.length = b.capacity := by
  rw [mem, h.uniform.flatten_length, h.capacity_eq]

theorem new_consistent {base : ℕ} (hb : 0 < base) : Consistent (new base) where
  base_pos := hb
  root_pos := Nat.one_pos
  uniform := by simp [Uniform, new, Node.new]
  capacity_eq := by simp [new]
  position_le := le_rfl
  size_le := Nat.zero_le _
  cur_eq := by simp [new, cursor, hb]

/-! ## The two directions of the copy -/

theorem inBounds_eq {n : Node} {buf : List Cell} {npos bpos len : ℕ}
    (h₁ : npos + len ≤ n.length) (h₂ : bpos + len ≤ buf.length) :
    inBounds n buf npos bpos len = true := by
  simp [inBounds, h₁, h₂]

theorem copy_eq {b : ByteArray} (h : Consistent b) (memcpy : Memcpy) (buf : List Cell)
    {size : ℕ} (hlt : b.position < b.capacity) :
    copy memcpy b buf b.position size =
      copyLoop memcpy (size + 1) ⟨b.root,buf⟩ (cursor b.root.length b.baseSize b.position)
        b.position (b.position % b.baseSize) (b.baseSize - b.position % b.baseSize) 0 size := by
  rw [h.capacity_eq] at hlt
  obtain ⟨n,hd,-,hn⟩ := deref_uniform h.uniform (div_lt_count hlt)
  have hcur : b.cur = some (b.position / b.baseSize) := h.cur_eq.trans (cursor_of_lt hlt)
  unfold copy
  rw [← h.cur_eq, hcur, hd]
  simp only [bind, Except.bind, hn]

theorem copy_store {b : ByteArray} (h : Consistent b) {buf : List Cell}
    (hlen : 0 < buf.length) (hcap : b.position + buf.length ≤ b.capacity) :
    ∃ nodes, copy store b buf b.position buf.length =
        .ok (⟨nodes,buf⟩, cursor b.root.length b.baseSize (b.position + buf.length),
          b.position + buf.length) ∧
      Uniform b.baseSize nodes ∧ nodes.length = b.root.length ∧
      nodes.flatten = splice b.mem b.position buf := by
  let R : ℕ → Transfer → Prop := fun k t => t.buf = buf ∧ Uniform b.baseSize t.nodes ∧
    t.nodes.length = b.root.length ∧ t.nodes.flatten = splice b.mem b.position (buf.take k)
  have hlay : KeepsLayout b.baseSize b.root.length R := fun k t hR => ⟨hR.2.1,hR.2.2.1⟩
  have hcopy : CopiesChunks store b.baseSize b.position buf.length R := by
    rintro t k len ⟨hbuf,hu,hc,hmem⟩ hpos hin htot
    have hlt : b.position + k < b.root.length * b.baseSize := by
      rw [← h.capacity_eq]
      omega
    obtain ⟨n,hd,hn,hl⟩ := deref_uniform hu (hc ▸ div_lt_count hlt)
    have hw : (window buf k len).length = len := window_length htot
    refine ⟨⟨t.nodes.set ((b.position + k) / b.baseSize)
        (splice n ((b.position + k) % b.baseSize) (window buf k len)),t.buf⟩,
      ?_,hbuf,?_,?_,?_⟩
    · unfold store
      simp only [hd, bind, Except.bind]
      rw [if_pos (inBounds_eq (by omega) (by rw [hbuf]; exact htot)), hbuf]
      rfl
    · exact hu.set (by rw [splice_length (by omega), hl])
    · rw [List.length_set, hc]
    · have hsplit : buf.take (k + len) = buf.take k ++ window buf k len := List.take_add
      have hk : (buf.take k).length = k := by
        rw [List.length_take]
        omega
      have hm := h.mem_length
      rw [flatten_set_splice hu hn (by omega), hmem, Nat.mul_comm, Nat.div_add_mod, hsplit]
      have hadj : splice (splice b.mem b.position (buf.take k))
          (b.position + (buf.take k).length) (window buf k len) =
            splice b.mem b.position (buf.take k ++ window buf k len) :=
        splice_splice (by omega)
      rwa [hk] at hadj
  have h₀ : R 0 ⟨b.root,buf⟩ := ⟨rfl,h.uniform,rfl,by simp [mem]⟩
  obtain ⟨t,ht,hb,hu,hc,hm⟩ := copyLoop_spec h.base_pos (h.capacity_eq ▸ hcap) hcopy hlay
    (buf.length + 1) ⟨b.root,buf⟩ 0 buf.length h₀ (Nat.zero_add _) hlen (Nat.lt_succ_self _)
  refine ⟨t.nodes,?_,hu,hc,by simpa using hm⟩
  rw [copy_eq h store buf (by omega), ← hb]
  rw [← hb] at ht
  exact ht

theorem copy_fetch {b : ByteArray} (h : Consistent b) {size : ℕ} (hpos : 0 < size)
    (hcap : b.position + size ≤ b.capacity) :
    copy fetch b (List.replicate size none) b.position size =
      .ok (⟨b.root,window b.mem b.position size⟩,
        cursor b.root.length b.baseSize (b.position + size), b.position + size) := by
  let R : ℕ → Transfer → Prop := fun k t => t.nodes = b.root ∧
    t.buf = window b.mem b.position k ++ List.replicate (size - k) none
  have hlay : KeepsLayout b.baseSize b.root.length R := by
    rintro k t ⟨hn,-⟩
    rw [hn]
    exact ⟨h.uniform,rfl⟩
  have hm := h.mem_length
  have hcopy : CopiesChunks fetch b.baseSize b.position size R := by
    rintro t k len ⟨hnodes,hbuf⟩ hlen hin htot
    have hlt : b.position + k < b.root.length * b.baseSize := by
      rw [← h.capacity_eq]
      omega
    obtain ⟨n,hd,hn,hl⟩ := deref_uniform h.uniform (div_lt_count hlt)
    have hk : (window b.mem b.position k).length = k := window_length (by omega)
    have hw : window n ((b.position + k) % b.baseSize) len =
        window b.mem (b.position + k) len := by
      rw [← window_flatten h.uniform hn hin, Nat.mul_comm, Nat.div_add_mod, mem]
    refine ⟨⟨t.nodes,splice t.buf k (window b.mem (b.position + k) len)⟩,?_,hnodes,?_⟩
    · unfold fetch
      rw [hnodes]
      simp only [hd, bind, Except.bind]
      rw [if_pos (inBounds_eq (by omega) (by
        rw [hbuf, List.length_append, hk, List.length_replicate]
        omega)), hw]
      rfl
    · have hwl : (window b.mem (b.position + k) len).length = len := window_length (by omega)
      have hdrop : List.drop (k + len)
          (window b.mem b.position k ++ List.replicate (size - k) (none : Cell)) =
            List.replicate (size - (k + len)) none := by
        rw [List.drop_append, hk, List.drop_of_length_le (by omega), List.nil_append,
          List.drop_replicate]
        congr 1
        omega
      simp only [hbuf, splice, hwl, hdrop, window_add]
      rw [List.take_append_of_le_length (by omega), List.take_of_length_le (by omega)]
  have h₀ : R 0 ⟨b.root,List.replicate size none⟩ := ⟨rfl,by simp⟩
  obtain ⟨⟨nodes,buf⟩,ht,hnodes,hbuf⟩ := copyLoop_spec h.base_pos (h.capacity_eq ▸ hcap) hcopy
    hlay (size + 1) ⟨b.root,List.replicate size none⟩ 0 size h₀ (Nat.zero_add _) hpos
    (Nat.lt_succ_self _)
  simp only [Nat.sub_self, List.replicate_zero, List.append_nil] at hbuf hnodes
  subst hnodes hbuf
  rw [copy_eq h fetch _ (by omega)]
  exact ht

/-! ## Growth -/

/-- The integer ceiling covers the missing bytes. -/
theorem ceil_mul_ge {n base : ℕ} (hb : 0 < base) : n ≤ (n + base - 1) / base * base := by
  have h := Nat.div_add_mod (n + base - 1) base
  have hm := Nat.mod_lt (n + base - 1) hb
  rw [Nat.mul_comm]
  omega

theorem flatten_replicate_new (k base : ℕ) :
    (List.replicate k (Node.new base)).flatten = List.replicate (k * base) none := by
  simp only [Node.new, List.flatten_replicate_replicate]

theorem addCapacity_of_le {b : ByteArray} {size : ℕ} (h : size ≤ b.getCapacity) :
    b.addCapacity size = b := by
  unfold addCapacity
  split_ifs with h₀
  · rfl
  · exact if_pos h

/-- Old bytes and the cursor's meaning survive; a null pointer is repaired. -/
theorem addCapacity_spec {b : ByteArray} (h : Consistent b) (size : ℕ) :
    Consistent (b.addCapacity size) ∧ b.position + size ≤ (b.addCapacity size).capacity ∧
      (b.addCapacity size).position = b.position ∧ (b.addCapacity size).size = b.size ∧
      (b.addCapacity size).baseSize = b.baseSize ∧
      (b.addCapacity size).endian = b.endian ∧
      ∃ k, (b.addCapacity size).mem = b.mem ++ List.replicate k none := by
  have hp := h.position_le.trans h.size_le
  have hgc : b.getCapacity = b.capacity - b.position := rfl
  by_cases hroom : size ≤ b.getCapacity
  · rw [addCapacity_of_le hroom]
    exact ⟨h,by omega,rfl,rfl,rfl,rfl,0,by simp⟩
  · unfold addCapacity
    dsimp only
    rw [if_neg (by omega), if_neg hroom, hgc]
    generalize hn : (size - (b.capacity - b.position) + b.baseSize - 1) / b.baseSize = count
    have hge : size - (b.capacity - b.position) ≤ count * b.baseSize :=
      hn ▸ ceil_mul_ge h.base_pos
    have hcount : count ≠ 0 := by
      rintro rfl
      rw [Nat.zero_mul] at hge
      omega
    refine ⟨⟨h.base_pos,?_,?_,?_,h.position_le,?_,?_⟩,?_,rfl,rfl,rfl,rfl,count * b.baseSize,?_⟩
    · have := h.root_pos
      rw [List.length_append]
      omega
    · intro n hmem
      rcases List.mem_append.mp hmem with hmem | hmem
      · exact h.uniform n hmem
      · rw [List.eq_of_mem_replicate hmem, Node.new, List.length_replicate]
    · simp only [List.length_append, List.length_replicate, Nat.add_mul, h.capacity_eq]
    · have := h.size_le
      dsimp only
      omega
    · simp only [List.length_append, List.length_replicate, if_neg hcount]
      have hgrow : b.position < (b.root.length + count) * b.baseSize := by
        rw [Nat.add_mul, ← h.capacity_eq]
        omega
      rw [cursor_of_lt hgrow]
      by_cases hfull : b.capacity - b.position = 0
      · have hpos : b.position = b.root.length * b.baseSize := by
          rw [← h.capacity_eq]
          omega
        rw [if_pos hfull, hpos, Nat.mul_div_cancel _ h.base_pos]
      · rw [if_neg hfull, h.cur_eq]
        exact cursor_of_lt (by rw [← h.capacity_eq]; omega)
    · dsimp only
      omega
    · simp only [mem, List.flatten_append, flatten_replicate_new]

/-! ## The public operations -/

/-- The state after the copy of a write into sufficient capacity. -/
def stored (b : ByteArray) (nodes : List Node) (n : ℕ) : ByteArray :=
  { b with
    root := nodes
    cur := cursor b.root.length b.baseSize (b.position + n)
    position := b.position + n
    size := if b.position + n > b.size then b.position + n else b.size }

theorem write_spec {b : ByteArray} (h : Consistent b) (buf : List Cell) :
    ∃ b', write buf b = .value () b' ∧ Consistent b' ∧
      b'.position = b.position + buf.length ∧
      b'.size = max b.size (b.position + buf.length) ∧
      b'.baseSize = b.baseSize ∧ b'.endian = b.endian ∧
      ∃ k, b.position + buf.length ≤ b.mem.length + k ∧
        b'.mem = splice (b.mem ++ List.replicate k none) b.position buf := by
  have hle := h.position_le
  have hsz := h.size_le
  have hml := h.mem_length
  by_cases hz : buf.length = 0
  · obtain rfl := List.eq_nil_of_length_eq_zero hz
    refine ⟨b,by simp [write],h,rfl,?_,rfl,rfl,0,?_,by simp⟩
    · simpa using hle
    · simp only [List.length_nil]
      omega
  · obtain ⟨hg,hcap,hpos,hsize,hbase,hend,k,hmem⟩ := addCapacity_spec h buf.length
    rw [← hpos] at hcap
    obtain ⟨nodes,hc,hu,hlen,hfl⟩ := copy_store hg (by omega) hcap
    have hgsz := hg.size_le
    have hgp := hg.position_le
    have hgl := hg.mem_length
    rw [hmem, List.length_append, List.length_replicate] at hgl
    refine ⟨(b.addCapacity buf.length).stored nodes buf.length,?_,
      ⟨hg.base_pos,hlen ▸ hg.root_pos,hu,?_,?_,?_,?_⟩,?_,?_,hbase,hend,k,by omega,?_⟩
    · rw [write, if_neg hz]
      dsimp only
      rw [hc]
      rfl
    · dsimp only [stored]
      rw [hg.capacity_eq, hlen]
    · dsimp only [stored]
      split_ifs <;> omega
    · dsimp only [stored]
      split_ifs <;> omega
    · dsimp only [stored]
      rw [hlen]
    · dsimp only [stored]
      rw [hpos]
    · dsimp only [stored]
      rw [hpos, hsize]
      split_ifs <;> omega
    · change nodes.flatten = _
      rw [hfl, hpos, hmem]

/-- The state after a successful read: only the double cursor has moved. -/
def advance (b : ByteArray) (n : ℕ) : ByteArray :=
  { b with
    position := b.position + n
    cur := cursor b.root.length b.baseSize (b.position + n) }

theorem read_spec {b : ByteArray} (h : Consistent b) {n : ℕ} (hpos : 0 < n)
    (hn : n ≤ b.getReadSize) :
    read n b = .value (window b.mem b.position n) (b.advance n) ∧
      Consistent (b.advance n) := by
  have hle := h.position_le
  have hsz := h.size_le
  unfold getReadSize at hn
  constructor
  · rw [read, if_neg (by unfold getReadSize; omega), copy_fetch h hpos (by omega)]
    rfl
  · exact ⟨h.base_pos,h.root_pos,h.uniform,h.capacity_eq,by dsimp only [advance]; omega,h.size_le,rfl⟩

theorem read_throws {b : ByteArray} {n : ℕ} (hn : b.getReadSize < n) :
    read n b = .thrown "not enough len" b := by
  rw [read, if_pos hn]

theorem toString_spec {b : ByteArray} (h : Consistent b) :
    toString b = .value (window b.mem b.position b.getReadSize) b := by
  have hle := h.position_le
  have hsz := h.size_le
  have hrs : b.getReadSize = b.size - b.position := rfl
  unfold toString
  split_ifs with hz
  · simp [hz]
  · rw [readAt, sizeSub, if_pos hle, if_neg (by omega),
      copy_fetch h (Nat.pos_of_ne_zero hz) (by omega)]
    rfl

/-- The seek loop, started at node `i` with the rest `v` of the position. -/
theorem seekLoop_spec {base : ℕ} {nodes : List Node} (hb : 0 < base) (hu : Uniform base nodes)
    (fuel i v : ℕ) (hi : i < nodes.length) (hv : i * base + v ≤ nodes.length * base)
    (hfuel : nodes.length < i + fuel) :
    seekLoop nodes fuel (some i) v = .ok (cursor nodes.length base (i * base + v)) := by
  induction fuel generalizing i v with
  | zero => omega
  | succ fuel ih =>
    obtain ⟨n,hd,-,hn⟩ := deref_uniform hu hi
    simp only [seekLoop, hd, bind, Except.bind, hn]
    have hdiv : i * base / base = i := Nat.mul_div_cancel _ hb
    by_cases hgt : v > base
    · have hmul : (i + 1) * base = i * base + base := by ring
      have hi' : i + 1 < nodes.length := by
        by_contra hno
        have : nodes.length * base ≤ (i + 1) * base := Nat.mul_le_mul_right _ (by omega)
        omega
      rw [if_pos hgt]
      simp only [next, if_pos hi']
      rw [ih (i + 1) (v - base) hi' (by omega) (by omega)]
      congr 2
      omega
    · rw [if_neg hgt]
      by_cases heq : v = base
      · subst heq
        have hedge : i * v % v + v = v := by rw [Nat.mul_mod_left, Nat.zero_add]
        have hnext : next nodes (some i) = cursor nodes.length v (i * v + v) := by
          rw [← next_boundary hb hedge, hdiv]
        simp only [if_true, hnext]
        rfl
      · have hin : i * base % base + v < base := by
          rw [Nat.mul_mod_left]
          omega
        have hq := div_add_within hin
        rw [if_neg heq, cursor_of_lt, hq, hdiv]
        · rfl
        · have : (i + 1) * base ≤ nodes.length * base := Nat.mul_le_mul_right _ hi
          have hmul : (i + 1) * base = i * base + base := by ring
          omega

/-- The state after a seek inside the capacity. -/
def seek (b : ByteArray) (v : ℕ) : ByteArray :=
  { b with
    position := v
    size := if v > b.size then v else b.size
    cur := cursor b.root.length b.baseSize v }

theorem seek_size {b : ByteArray} {v : ℕ} (h : v ≤ b.size) : (b.seek v).size = b.size :=
  if_neg (Nat.not_lt.mpr h)

theorem setPosition_spec {b : ByteArray} (h : Consistent b) {v : ℕ} (hv : v ≤ b.capacity) :
    setPosition v b = .value () (b.seek v) ∧ Consistent (b.seek v) := by
  have hsz := h.size_le
  constructor
  · rw [setPosition, if_neg (by omega),
      seekLoop_spec h.base_pos h.uniform _ 0 v h.root_pos (by
        rw [Nat.zero_mul, Nat.zero_add, ← h.capacity_eq]
        exact hv) (by omega), Nat.zero_mul, Nat.zero_add]
    rfl
  · refine ⟨h.base_pos,h.root_pos,h.uniform,h.capacity_eq,?_,?_,rfl⟩
    · dsimp only [seek]
      split_ifs <;> omega
    · dsimp only [seek]
      split_ifs <;> omega

theorem setPosition_throws {b : ByteArray} {v : ℕ} (hv : b.capacity < v) :
    setPosition v b = .thrown "set_position out of range" b := by
  rw [setPosition, if_pos hv]

/-- The state after `Clear`: the first node keeps its bytes. -/
def cleared (b : ByteArray) : ByteArray :=
  { b with
    position := 0
    size := 0
    capacity := b.baseSize
    root := b.root.take 1
    cur := some 0 }

theorem clear_spec {b : ByteArray} (h : Consistent b) :
    Consistent b.cleared ∧ clear b = .value () b.cleared := by
  have hlen : (b.root.take 1).length = 1 := by
    have := h.root_pos
    rw [List.length_take]
    omega
  refine ⟨⟨h.base_pos,?_,?_,?_,le_rfl,Nat.zero_le _,?_⟩,rfl⟩
  · dsimp only [cleared]
    omega
  · exact fun n hn => h.uniform n (List.mem_of_mem_take hn)
  · dsimp only [cleared]
    rw [hlen, Nat.one_mul]
  · dsimp only [cleared]
    rw [hlen, cursor_of_lt (by rw [Nat.one_mul]; exact h.base_pos), Nat.zero_div]

/-- The iovecs are the ranges of the nodes that make up the addresses `[p, p + len)`. -/
def Covers (base : ℕ) : ℕ → ℕ → List Iovec → Prop
  | _, len, [] => len = 0
  | p, len, iov :: iovs => iov.node = some (p / base) ∧ iov.npos = p % base ∧ 0 < iov.len ∧
      p % base + iov.len ≤ base ∧ iov.len ≤ len ∧ Covers base (p + iov.len) (len - iov.len) iovs

/-- The iovec loop meets no null node and covers `len` bytes. -/
theorem iovecLoop_spec {base : ℕ} {nodes : List Node} (hb : 0 < base)
    (hu : Uniform base nodes) (fuel p len : ℕ) (buffers : List Iovec)
    (hcap : p + len ≤ nodes.length * base) (hlen : 0 < len) (hfuel : len < fuel) :
    ∃ iovs, iovecLoop nodes fuel (cursor nodes.length base p) (p % base) (base - p % base) len
      buffers = .ok (buffers ++ iovs) ∧ Covers base p len iovs := by
  induction fuel generalizing p len buffers with
  | zero => omega
  | succ fuel ih =>
    have hmod : p % base < base := Nat.mod_lt _ hb
    have hlt : p < nodes.length * base := by omega
    simp only [iovecLoop, if_pos hlen]
    by_cases hn : base - p % base ≥ len
    · rw [if_pos hn]
      cases fuel with
      | zero => omega
      | succ fuel =>
        refine ⟨[⟨some (p / base),p % base,len⟩],?_,rfl,rfl,hlen,by dsimp only; omega,
          le_rfl,by simp [Covers]⟩
        rw [cursor_of_lt hlt]
        simp [iovecLoop]
        rfl
    · rw [if_neg hn]
      have hedge : p % base + (base - p % base) = base := by omega
      have hlt' : p + (base - p % base) < nodes.length * base := by omega
      obtain ⟨n,hd,-,hl⟩ := deref_uniform hu (div_lt_count hlt')
      have hz : (p + (base - p % base)) % base = 0 := by
        rw [div_add_boundary hedge, Nat.mul_mod_right]
      obtain ⟨iovs,hrec,hcovers⟩ := ih (p + (base - p % base)) (len - (base - p % base))
        (buffers ++ [⟨some (p / base),p % base,base - p % base⟩]) (by omega) (by omega) (by omega)
      refine ⟨⟨some (p / base),p % base,base - p % base⟩ :: iovs,?_,rfl,rfl,?_,?_,?_,hcovers⟩
      rotate_left
      · dsimp only
        omega
      · dsimp only
        omega
      · dsimp only
        omega
      rw [cursor_of_lt hlt, next_boundary hb hedge, cursor_of_lt hlt']
      simp only [hd, bind, Except.bind, hl]
      rwa [hz, Nat.sub_zero, cursor_of_lt hlt', List.append_assoc] at hrec

/-- The common part of the two iovec calls, from the node of the cursor on. -/
theorem iovecs_spec {b : ByteArray} (h : Consistent b) (buffers : List Iovec) {len : ℕ}
    (hlen : 0 < len) (hcap : b.position + len ≤ b.capacity) :
    ∃ n iovs, deref b.root b.cur = .ok n ∧
      iovecLoop b.root (len + 1) b.cur (b.position % b.baseSize)
        (n.length - b.position % b.baseSize) len buffers = .ok (buffers ++ iovs) ∧
      Covers b.baseSize b.position len iovs := by
  rw [h.capacity_eq] at hcap
  have hlt : b.position < b.root.length * b.baseSize := by omega
  obtain ⟨n,hd,-,hn⟩ := deref_uniform h.uniform (div_lt_count hlt)
  obtain ⟨iovs,hout,hcovers⟩ := iovecLoop_spec h.base_pos h.uniform (len + 1) b.position len
    buffers hcap hlen (Nat.lt_succ_self _)
  rw [← h.cur_eq] at hout
  refine ⟨n,iovs,?_,?_,hcovers⟩
  · rw [h.cur_eq, cursor_of_lt hlt, hd]
  · rw [hn, hout]

/-- Only the capacity changes. -/
theorem getWriteBuffers_spec {b : ByteArray} (h : Consistent b) (buffers : List Iovec)
    (len : ℕ) :
    ∃ iovs, getWriteBuffers buffers len b = .value (len, buffers ++ iovs) (b.addCapacity len) ∧
      Covers b.baseSize b.position len iovs ∧
      Consistent (b.addCapacity len) ∧ (b.addCapacity len).baseSize = b.baseSize := by
  obtain ⟨hg,hcap,hpos,-,hbase,-,-⟩ := addCapacity_spec h len
  unfold getWriteBuffers
  by_cases hz : len = 0
  · subst hz
    refine ⟨[],?_,rfl,hg,hbase⟩
    rw [if_pos rfl, List.append_nil]
    rfl
  · rw [← hpos] at hcap
    obtain ⟨n,iovs,hd,hout,hcovers⟩ := iovecs_spec hg buffers (Nat.pos_of_ne_zero hz) hcap
    rw [hbase, hpos] at hcovers
    refine ⟨iovs,?_,hcovers,hg,hbase⟩
    rw [if_neg hz]
    dsimp only
    rw [hd]
    simp only [liftFault, hout]

theorem getReadBuffers_spec {b : ByteArray} (h : Consistent b) (buffers : List Iovec) {len : ℕ}
    (hlen : 0 < len) (hle : len ≤ b.getReadSize) :
    ∃ iovs, getReadBuffers buffers len b = .value (len, buffers ++ iovs) b ∧
      Covers b.baseSize b.position len iovs := by
  have hsz := h.size_le
  have hp := h.position_le
  have hrs : b.getReadSize = b.size - b.position := rfl
  obtain ⟨n,iovs,hd,hout,hcovers⟩ := iovecs_spec h buffers hlen (by omega)
  refine ⟨iovs,?_,hcovers⟩
  unfold getReadBuffers
  dsimp only
  rw [if_neg (Nat.not_lt.mpr hle), if_neg (by omega), hd]
  simp only [liftFault, hout]

end Gudov.ByteArray
