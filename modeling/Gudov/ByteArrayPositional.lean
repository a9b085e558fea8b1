import Gudov.ByteArrayScatter

/-!
# Reads at a position

The overloads that take a position mix it with the cursor. `Read` walks from the node of the
cursor, whatever node the position is in, and its bound check wraps for a position behind the
content. `GetReadBuffers` walks from the root, but cuts the length at the rest behind the cursor.
-/
namespace Gudov.ByteArray
open RowMemory StepSystem

section CopyLoop
variable {b : ByteArray}

/-- The position is carried along and decides nothing. -/
theorem copyLoop_position (memcpy : Memcpy) (fuel : ℕ) (t : Transfer) (cur : Option ℕ)
    (p q npos ncap bpos size : ℕ) :
    (copyLoop memcpy fuel t cur p npos ncap bpos size).map (·.1) =
      (copyLoop memcpy fuel t cur q npos ncap bpos size).map (·.1) := by
  induction fuel generalizing t cur p q npos ncap bpos size with
  | zero => rfl
  | succ fuel ih =>
    simp only [copyLoop]
    split
    · split
      · cases memcpy t cur npos bpos size with
        | error e => rfl
        | ok t' =>
          simp only [ok_bind]
          cases deref t'.nodes cur with
          | error e => rfl
          | ok n => exact ih _ _ _ _ _ _ _ _
      · cases memcpy t cur npos bpos ncap with
        | error e => rfl
        | ok t' =>
          simp only [ok_bind]
          cases deref t'.nodes (next t'.nodes cur) with
          | error e => rfl
          | ok n => exact ih _ _ _ _ _ _ _ _
    · rfl

theorem fetch_nodes {t t' : Transfer} {cur : Option ℕ} {npos bpos len : ℕ}
    (h : fetch t cur npos bpos len = .ok t') : t'.nodes = t.nodes := by
  obtain ⟨n,_,hrest⟩ := exists_of_bind_eq_ok h
  split at hrest
  · cases hrest
    rfl
  · cases hrest

/-- A walk for more bytes than there are behind its start does not return. -/
theorem copyLoop_overrun {base : ℕ} (hb : 0 < base) (fuel p bpos : ℕ) {t : Transfer} {q size : ℕ}
    (hu : Uniform base t.nodes) (hlt : q < t.nodes.length * base)
    (hover : t.nodes.length * base < q + size) {r : Transfer × Option ℕ × ℕ} :
    copyLoop fetch fuel t (some (q / base)) p (q % base) (base - q % base) bpos size ≠ .ok r := by
  induction fuel generalizing p bpos t q size with
  | zero =>
    intro h
    cases h
  | succ fuel ih =>
    have hmod : q % base < base := Nat.mod_lt _ hb
    have hedge : q % base + (base - q % base) = base := by omega
    have hboundary := div_add_boundary hedge
    have hle : q + (base - q % base) ≤ t.nodes.length * base := by
      rw [hboundary, Nat.mul_comm]
      exact Nat.mul_le_mul_right _ (div_lt_count hlt)
    intro h
    rw [copyLoop, if_pos (by omega), if_neg (by omega)] at h
    obtain ⟨t',ht',h⟩ := exists_of_bind_eq_ok h
    have hnodes := fetch_nodes ht'
    obtain ⟨n,hn,h⟩ := exists_of_bind_eq_ok h
    rw [next_boundary hb hedge, hnodes] at hn h
    by_cases hend : q + (base - q % base) < t.nodes.length * base
    · rw [cursor_of_lt hend] at hn h
      obtain ⟨n',hd,-,hlen⟩ := deref_uniform hu (div_lt_count hend)
      rw [hd] at hn
      cases hn
      have hzero : (q + (base - q % base)) % base = 0 := by rw [hboundary, Nat.mul_mod_right]
      have hover' : t'.nodes.length * base <
          q + (base - q % base) + (size - (base - q % base)) := by
        rw [hnodes]
        omega
      refine ih (p + (base - q % base)) (bpos + (base - q % base)) (hnodes ▸ hu)
        (hnodes ▸ hend) hover' ?_
      rw [hlen] at h
      rw [hzero, Nat.sub_zero]
      exact h
    · rw [cursor_eq_none.mpr (Nat.not_lt.mp hend)] at hn
      cases hn

end CopyLoop

section Read
variable {b : ByteArray}

/-- Where a read at position `p` begins: at the offset of `p` in the node of the cursor. -/
def readStart (b : ByteArray) (p : ℕ) : ℕ := b.position / b.baseSize * b.baseSize + p % b.baseSize

theorem readStart_mod (h : Consistent b) (p : ℕ) :
    b.readStart p % b.baseSize = p % b.baseSize ∧
      b.readStart p / b.baseSize = b.position / b.baseSize := by
  have hmod : p % b.baseSize < b.baseSize := Nat.mod_lt _ h.base_pos
  rw [readStart, Nat.mul_comm, Nat.mul_add_mod, Nat.mod_mod, Nat.mul_add_div h.base_pos,
    Nat.div_eq_of_lt hmod, Nat.add_zero]
  exact ⟨rfl,rfl⟩

theorem readStart_same {p : ℕ} (h : p / b.baseSize = b.position / b.baseSize) :
    b.readStart p = p := by
  rw [readStart, ← h, Nat.mul_comm, Nat.div_add_mod]

theorem readStart_lt (h : Consistent b) (hlt : b.position < b.capacity) (p : ℕ) :
    b.readStart p < b.capacity := by
  have hmod : p % b.baseSize < b.baseSize := Nat.mod_lt _ h.base_pos
  rw [h.capacity_eq] at hlt ⊢
  have hnode := Nat.mul_le_mul_right b.baseSize (Nat.succ_le_of_lt (div_lt_count hlt))
  rw [Nat.succ_mul] at hnode
  rw [readStart]
  omega

/-- What passes the bound check is read from there. -/
theorem copy_at (h : Consistent b) (hlt : b.position < b.capacity) (buf : List Cell) (n p : ℕ) :
    copy fetch b buf p n = copyLoop fetch (n + 1) ⟨b.root,buf⟩
      (some (b.readStart p / b.baseSize)) p (b.readStart p % b.baseSize)
      (b.baseSize - b.readStart p % b.baseSize) 0 n := by
  obtain ⟨hmod,hdiv⟩ := readStart_mod h p
  rw [h.capacity_eq] at hlt
  obtain ⟨node,hd,-,hlen⟩ := deref_uniform h.uniform (div_lt_count hlt)
  have hcur : b.cur = some (b.position / b.baseSize) := h.cur_eq.trans (cursor_of_lt hlt)
  rw [copy, hcur, hd, ok_bind, hmod, hdiv, hlen]

theorem copy_at_inside (h : Consistent b) (hlt : b.position < b.capacity) {n p : ℕ} (hn : 0 < n)
    (hle : b.readStart p + n ≤ b.capacity) :
    ∃ r, copy fetch b (List.replicate n none) p n = .ok r ∧
      r.1.buf = window b.mem (b.readStart p) n := by
  have hstart := readStart_lt h hlt p
  obtain ⟨-,hc⟩ := setPosition_spec h (v := b.readStart p) hstart.le
  have hcursor : cursor b.root.length b.baseSize (b.readStart p) =
      some (b.readStart p / b.baseSize) := cursor_of_lt (h.capacity_eq ▸ hstart)
  obtain ⟨out,hloop⟩ : ∃ out, copyLoop fetch (n + 1) ⟨b.root,List.replicate n none⟩
      (some (b.readStart p / b.baseSize)) (b.readStart p) (b.readStart p % b.baseSize)
      (b.baseSize - b.readStart p % b.baseSize) 0 n =
        .ok (⟨b.root,window b.mem (b.readStart p) n⟩, out) := by
    rw [← hcursor]
    exact ⟨_,(copy_eq hc fetch (List.replicate n none) hstart).symm.trans (copy_fetch hc hn hle)⟩
  have hsame := copyLoop_position fetch (n + 1) ⟨b.root,List.replicate n none⟩
    (some (b.readStart p / b.baseSize)) p (b.readStart p) (b.readStart p % b.baseSize)
    (b.baseSize - b.readStart p % b.baseSize) 0 n
  rw [hloop] at hsame
  rw [copy_at h hlt]
  cases hcopy : copyLoop fetch (n + 1) ⟨b.root,List.replicate n none⟩
      (some (b.readStart p / b.baseSize)) p (b.readStart p % b.baseSize)
      (b.baseSize - b.readStart p % b.baseSize) 0 n with
  | error e =>
    rw [hcopy] at hsame
    cases hsame
  | ok r =>
    rw [hcopy] at hsame
    have hfirst : r.1 = ⟨b.root,window b.mem (b.readStart p) n⟩ := Except.ok.inj hsame
    exact ⟨r,rfl,by rw [hfirst]⟩

theorem copy_at_overrun (h : Consistent b) (hlt : b.position < b.capacity) {n p : ℕ}
    (hover : b.capacity < b.readStart p + n) (r : Transfer × Option ℕ × ℕ) :
    copy fetch b (List.replicate n none) p n ≠ .ok r := by
  have hstart := readStart_lt h hlt p
  rw [h.capacity_eq] at hstart hover
  rw [copy_at h hlt]
  exact copyLoop_overrun h.base_pos _ _ _ h.uniform hstart hover

/-- The positional read as the claim of its signature: the bytes at `p`, or an exception. -/
def ReadsExactly (b : ByteArray) (n p : ℕ) : Prop :=
  if p + n ≤ b.size then readAt n p b = .value (window b.mem p n) b
  else readAt n p b = .thrown "not enough len" b

/-- The cursor is in the node of `p`, or the bytes behind its own node happen to be the same. -/
def CursorServes (b : ByteArray) (n p : ℕ) : Prop :=
  b.position < b.capacity ∧
    (p / b.baseSize = b.position / b.baseSize ∨
      b.readStart p + n ≤ b.capacity ∧ window b.mem (b.readStart p) n = window b.mem p n)

/-- The bound check does not wrap, or wraps to less than `n`. -/
def CheckHolds (b : ByteArray) (n p : ℕ) : Prop := p ≤ b.size ∨ b.size + 2 ^ 64 < p + n

variable {n p : ℕ}

theorem readAt_of_error {f : Fault} (hle : n ≤ sizeSub b.size p)
    (hcopy : copy fetch b (List.replicate n none) p n = .error f) : readAt n p b = .fault f := by
  rw [readAt, if_neg (Nat.not_lt.mpr hle), hcopy]
  rfl

theorem readAt_of_ok {r : Transfer × Option ℕ × ℕ} (hle : n ≤ sizeSub b.size p)
    (hcopy : copy fetch b (List.replicate n none) p n = .ok r) :
    readAt n p b = .value r.1.buf b := by
  rw [readAt, if_neg (Nat.not_lt.mpr hle), hcopy]
  rfl

theorem readAt_inside_iff (h : Consistent b) (hn : 1 ≤ n) (hin : p + n ≤ b.size) :
    readAt n p b = .value (window b.mem p n) b ↔ CursorServes b n p := by
  have hcheck : n ≤ sizeSub b.size p := by
    rw [sizeSub, if_pos (by omega)]
    omega
  have hsize := h.size_le
  by_cases hlt : b.position < b.capacity
  · rw [CursorServes, and_iff_right hlt]
    by_cases hle : b.readStart p + n ≤ b.capacity
    · obtain ⟨r,hcopy,hbuf⟩ := copy_at_inside h hlt hn hle
      rw [readAt_of_ok hcheck hcopy, hbuf, and_iff_right hle]
      constructor
      · intro heq
        exact .inr (Outcome.value.inj heq).1
      · rintro (hnode | heq)
        · rw [readStart_same hnode]
        · rw [heq]
    · refine iff_of_false ?_ ?_
      · cases hcopy : copy fetch b (List.replicate n none) p n with
        | error f =>
          rw [readAt_of_error hcheck hcopy]
          simp
        | ok r => exact absurd hcopy (copy_at_overrun h hlt (Nat.not_le.mp hle) r)
      · rintro (hnode | ⟨hroom,-⟩)
        · rw [readStart_same hnode] at hle
          omega
        · exact hle hroom
  · have hnull : b.cur = none := by
      rw [h.cur_null_iff]
      have := h.position_le
      omega
    have hcopy : copy fetch b (List.replicate n none) p n = .error .nullDereference := by
      rw [copy, hnull]
      rfl
    refine iff_of_false ?_ fun hserves => hlt hserves.1
    rw [readAt_of_error hcheck hcopy]
    simp

theorem readAt_outside_iff (hn : 1 ≤ n) (hout : b.size < p + n) :
    readAt n p b = .thrown "not enough len" b ↔ CheckHolds b n p := by
  have hsub : n > sizeSub b.size p ↔ CheckHolds b n p := by
    rw [sizeSub, CheckHolds]
    split_ifs with hp
    · exact iff_of_true (by omega) (.inl hp)
    · rw [or_iff_right hp]
      omega
  rw [← hsub]
  constructor
  · intro hthrown
    by_contra hle
    rw [not_lt] at hle
    cases hcopy : copy fetch b (List.replicate n none) p n with
    | error f =>
      rw [readAt_of_error hle hcopy] at hthrown
      cases hthrown
    | ok r =>
      rw [readAt_of_ok hle hcopy] at hthrown
      cases hthrown
  · intro hgt
    rw [readAt, if_pos hgt]

end Read

/-- In every reachable array: a read at `p` does what it should exactly when the cursor serves
it or, outside of the content, when its bound check holds. -/
theorem positional_read_iff {b : ByteArray} (h : Reachable b) (n p : ℕ) (hn : 1 ≤ n) :
    ReadsExactly b n p ↔ if p + n ≤ b.size then CursorServes b n p else CheckHolds b n p := by
  rw [ReadsExactly]
  split
  next hin => exact readAt_inside_iff h.consistent hn hin
  next hout => exact readAt_outside_iff hn (Nat.not_le.mp hout)

/-- Three bytes over nodes of two, the cursor at the start. -/
def threeBytes : ByteArray := ⟨2,0,4,3,.little,[[some 1, some 2], [some 3, none]],some 0⟩

theorem threeBytes_reachable : Reachable threeBytes := by
  have h₀ : Reachable (new 2) := .new (by decide)
  have h₁ : Reachable ⟨2,3,4,3,.little,[[some 1, some 2], [some 3, none]],some 1⟩ :=
    h₀.call (by decide : step (new 2) (.write [some 1, some 2, some 3]) = .ok (.done, _))
  exact h₁.call (by decide : step _ (.setPosition 0) = .ok (.done, threeBytes))

theorem positional_read_same_node : Reachable threeBytes ∧ ReadsExactly threeBytes 2 1 := by
  refine ⟨threeBytes_reachable,(positional_read_iff threeBytes_reachable 2 1 (by decide)).mpr ?_⟩
  rw [if_pos (by decide)]
  exact ⟨by decide,.inl (by decide)⟩

/-- The third byte is looked for in the first node, and a position behind the content passes the
bound check. -/
theorem positional_read_wrong :
    Reachable threeBytes ∧ readAt 1 2 threeBytes = .value [some 1] threeBytes ∧
      ¬ReadsExactly threeBytes 1 2 ∧ readAt 1 4 threeBytes = .value [some 1] threeBytes ∧
      ¬ReadsExactly threeBytes 1 4 := by
  have hinside : readAt 1 2 threeBytes = .value [some 1] threeBytes := by decide
  have houtside : readAt 1 4 threeBytes = .value [some 1] threeBytes := by decide
  refine ⟨threeBytes_reachable,hinside,?_,houtside,?_⟩
  · rw [ReadsExactly, if_pos (by decide), hinside]
    decide
  · rw [ReadsExactly, if_neg (by decide), houtside]
    decide

section Buffers
variable {b : ByteArray}

theorem skipNodes_eq {nodes : List Node} {count i : ℕ} (h : i + count < nodes.length) :
    skipNodes nodes count (some i) = .ok (some (i + count)) := by
  induction count generalizing i with
  | zero => rfl
  | succ count ih =>
    have hnode : deref nodes (some i) = .ok (nodes.get ⟨i,by omega⟩) := by
      simp [deref, show i < nodes.length by omega]
    have hnext : next nodes (some i) = some (i + 1) := if_pos (by omega)
    rw [skipNodes, hnode, ok_bind, hnext, ih (by omega), Nat.add_assoc, Nat.add_comm 1]

/-- The iovecs for `len` bytes from `p` on are appended. -/
theorem getReadBuffersAt_spec (h : Consistent b) (buffers : List Iovec) {len p : ℕ}
    (hlen : 0 < min len b.getReadSize) (hroom : p + min len b.getReadSize ≤ b.capacity) :
    ∃ iovs, getReadBuffersAt buffers len p b =
        .value (min len b.getReadSize, buffers ++ iovs) b ∧
      Covers b.baseSize p (min len b.getReadSize) iovs := by
  have hcut : (if len > b.getReadSize then b.getReadSize else len) = min len b.getReadSize := by
    split <;> omega
  rw [h.capacity_eq] at hroom
  have hlt : p < b.root.length * b.baseSize := by omega
  obtain ⟨n,hd,-,hn⟩ := deref_uniform h.uniform (div_lt_count hlt)
  obtain ⟨iovs,hout,hcovers⟩ := iovecLoop_spec h.base_pos h.uniform
    (min len b.getReadSize + 1) p (min len b.getReadSize) buffers hroom hlen (Nat.lt_succ_self _)
  rw [cursor_of_lt hlt] at hout
  have hskip : skipNodes b.root (p / b.baseSize) (some 0) = .ok (some (p / b.baseSize)) := by
    rw [skipNodes_eq (by rw [Nat.zero_add]; exact div_lt_count hlt), Nat.zero_add]
  refine ⟨iovs,?_,hcovers⟩
  rw [getReadBuffersAt]
  simp only [hcut, if_neg (Nat.pos_iff_ne_zero.mp hlen), hskip, liftFault, hd, hn, hout]

/-- `min(len, size - p)` bytes from `p` on are exposed. -/
def ExposesFrom (b : ByteArray) (buffers : List Iovec) (len p : ℕ) : Prop :=
  ∃ iovs, getReadBuffersAt buffers len p b =
      .value (min len (b.size - p), buffers ++ iovs) b ∧
    gather b.root iovs = .ok (window b.mem p (min len (b.size - p)))

/-- The length that is returned is cut at the rest behind the cursor. -/
theorem getReadBuffersAt_length {buffers out : List Iovec} {len p m : ℕ} {b' : ByteArray}
    (hcall : getReadBuffersAt buffers len p b = .value (m, out) b') :
    m = min len b.getReadSize := by
  have hcut : (if len > b.getReadSize then b.getReadSize else len) = min len b.getReadSize := by
    split <;> omega
  simp only [getReadBuffersAt, hcut] at hcall
  split at hcall
  next hzero =>
    cases hcall
    exact hzero.symm
  next =>
    cases hskip : skipNodes b.root (p / b.baseSize) (some 0) with
    | error e =>
      rw [hskip] at hcall
      cases hcall
    | ok cur =>
      simp only [hskip, liftFault] at hcall
      cases hd : deref b.root cur with
      | error e =>
        rw [hd] at hcall
        cases hcall
      | ok n =>
        simp only [hd] at hcall
        split at hcall
        · cases hcall
          rfl
        · cases hcall

theorem exposesFrom_iff (h : Consistent b) (buffers : List Iovec) {len p : ℕ} (hp : p ≤ b.size) :
    ExposesFrom b buffers len p ↔ min len (b.size - b.position) = min len (b.size - p) := by
  have hsize := h.size_le
  have hrest : b.getReadSize = b.size - b.position := rfl
  constructor
  · rintro ⟨iovs,hcall,-⟩
    exact (getReadBuffersAt_length hcall).symm
  · intro heq
    rw [ExposesFrom, ← heq, ← hrest]
    rcases Nat.eq_zero_or_pos (min len b.getReadSize) with hzero | hpos
    · have hcut : (if len > b.getReadSize then b.getReadSize else len) = 0 := by
        split <;> omega
      refine ⟨[],?_,?_⟩
      · simp only [getReadBuffersAt, hcut, if_true, hzero, List.append_nil]
      · rw [hzero, window_zero]
        rfl
    · have hroom : p + min len b.getReadSize ≤ b.capacity := by omega
      obtain ⟨iovs,hcall,hcovers⟩ := getReadBuffersAt_spec h buffers hpos hroom
      exact ⟨iovs,hcall,gather_spec h.uniform hcovers (h.capacity_eq ▸ hroom)⟩

end Buffers

/-- In every reachable array: the iovecs for a position expose what they should exactly when the
rests behind it and behind the cursor cut the length alike. -/
theorem positional_buffers_iff {b : ByteArray} (h : Reachable b) (buffers : List Iovec)
    (len p : ℕ) (hp : p ≤ b.size) :
    ExposesFrom b buffers len p ↔ min len (b.size - b.position) = min len (b.size - p) :=
  exposesFrom_iff h.consistent buffers hp

theorem positional_buffers_short :
    (Reachable threeBytes ∧ 1 ≤ threeBytes.size) ∧ ExposesFrom threeBytes [] 2 1 := by
  have hp : 1 ≤ threeBytes.size := by decide
  exact ⟨⟨threeBytes_reachable,hp⟩,
    (positional_buffers_iff threeBytes_reachable [] 2 1 hp).mpr (by decide)⟩

/-- All three bytes are asked for from the second one on: the last iovec ends behind the
content. -/
theorem positional_buffers_wrong : Reachable threeBytes ∧ 1 ≤ threeBytes.size ∧
    getReadBuffersAt [] 3 1 threeBytes = .value (3, [⟨some 0,1,1⟩, ⟨some 1,0,2⟩]) threeBytes ∧
    ¬ExposesFrom threeBytes [] 3 1 := by
  refine ⟨threeBytes_reachable,by decide,by decide,?_⟩
  rw [exposesFrom_iff threeBytes_reachable.consistent [] (by decide)]
  decide

end Gudov.ByteArray
