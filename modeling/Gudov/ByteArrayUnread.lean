import Gudov.ByteArrayRoundTrip
import Gudov.ByteArrayScatter

/-!
# The unread cells of the byte array

A read only depends on the cells between the position and the end of the content. Each typed
reader gets one specification over this list: what it returns and how many cells it uses. A
writer followed by a seek back puts its bytes at the front of the list.
-/
namespace Gudov.ByteArray
open RowMemory StepSystem FlatBuffer ByteCodec

section Unread
variable {b : ByteArray}

def unread (b : ByteArray) : List Cell := window b.mem b.position b.getReadSize

theorem unread_length (h : Consistent b) : b.unread.length = b.getReadSize := by
  have hml := h.mem_length
  have hsz := h.size_le
  have hle := h.position_le
  apply window_length
  unfold getReadSize
  omega

theorem unread_advance (b : ByteArray) (n : ℕ) : (b.advance n).unread = b.unread.drop n := by
  have hrest : (b.advance n).getReadSize = b.getReadSize - n := Nat.sub_add_eq _ _ _
  rw [unread, hrest, unread, window, window, List.drop_take, List.drop_drop]
  rfl

theorem advance_consistent (h : Consistent b) {n : ℕ} (hn : n ≤ b.unread.length) :
    Consistent (b.advance n) := by
  rw [unread_length h] at hn
  rcases Nat.eq_zero_or_pos n with rfl | hpos
  · exact ⟨h.base_pos,h.root_pos,h.uniform,h.capacity_eq,h.position_le,h.size_le,rfl⟩
  · exact (read_spec h hpos hn).2

theorem advance_advance (b : ByteArray) (m n : ℕ) :
    (b.advance m).advance n = b.advance (m + n) := by
  simp only [advance, Nat.add_assoc]

/-- What a read of some cells does. -/
theorem read_unread (h : Consistent b) {n : ℕ} (hpos : 0 < n) : read n b =
    if n ≤ b.unread.length then .value (b.unread.take n) (b.advance n)
    else .thrown "not enough len" b := by
  rw [unread_length h]
  split
  next hn =>
    rw [(read_spec h hpos hn).1, unread, window, window, List.take_take, Nat.min_eq_left hn]
  next hn => exact read_throws (Nat.lt_of_not_le hn)

/-- Even a read of no cells looks at the node of the cursor. -/
theorem read_nothing (h : Consistent b) : read 0 b =
    if b.position < b.capacity then .value [] b else .fault .nullDereference := by
  split
  next hlt => exact read_zero h hlt
  next hend =>
    have hcur : b.cur = none := by
      rw [h.cur_null_iff]
      have := h.position_le.trans h.size_le
      omega
    simp [read, copy, hcur, deref, bind, Except.bind, liftFault]

theorem readBytes_unread (h : Consistent b) {n : ℕ} (hpos : 0 < n) : readBytes n b =
    if n ≤ b.unread.length then
      match determinate (b.unread.take n) with
      | some bs => .value bs (b.advance n)
      | none => .fault .indeterminate
    else .thrown "not enough len" b := by
  have hread := read_unread h hpos
  split at hread
  next hn =>
    rw [readBytes, Call.bind_value hread, if_pos hn]
    cases determinate (b.unread.take n) <;> rfl
  next hn =>
    rw [readBytes, if_neg hn, Call.bind_thrown hread]

theorem readFuint8_unread (h : Consistent b) : readFuint8 b =
    match b.unread with
    | [] => .thrown "not enough len" b
    | none :: _ => .fault .indeterminate
    | some x :: _ => .value x (b.advance 1) := by
  have hread := readBytes_unread h Nat.one_pos
  cases hu : b.unread with
  | nil =>
    rw [hu] at hread
    exact Call.bind_thrown hread
  | cons c cs =>
    rw [hu] at hread
    cases c with
    | none => exact Call.bind_fault hread
    | some x => exact Call.bind_value hread

end Unread

section Fixed
variable {b : ByteArray} (host : Endian)

/-- The memory of a word in an array of byte order `e`. -/
def fixedBytes (e : Endian) (k : ℕ) (v : BitVec (8 * k)) : List Byte :=
  toMemory host k (if e ≠ host then byteSwap v else v)

def fixedValue (e : Endian) (k : ℕ) (bs : List Byte) : BitVec (8 * k) :=
  if e = host then ofMemory host k bs else byteSwap (ofMemory host k bs)

theorem fixedBytes_length (e : Endian) (k : ℕ) (v : BitVec (8 * k)) :
    (fixedBytes host e k v).length = k := toMemory_length host k _

theorem fixedValue_fixedBytes (e : Endian) (k : ℕ) (v : BitVec (8 * k)) :
    fixedValue host e k (fixedBytes host e k v) = v := by
  rw [fixedValue, fixedBytes, ofMemory_toMemory]
  by_cases h : e = host
  · rw [if_pos h, if_neg (not_not.mpr h)]
  · rw [if_neg h, if_pos h, byteSwap_byteSwap]

theorem readFixed_unread (h : Consistent b) {k : ℕ} (hk : 0 < k) : readFixed host k b =
    if k ≤ b.unread.length then
      match determinate (b.unread.take k) with
      | some bs => .value (fixedValue host b.endian k bs) (b.advance k)
      | none => .fault .indeterminate
    else .thrown "not enough len" b := by
  have hread := readBytes_unread h hk
  split at hread
  next hn =>
    rw [if_pos hn]
    cases hd : determinate (b.unread.take k) with
    | none =>
      rw [hd] at hread
      exact Call.bind_fault hread
    | some bs =>
      rw [hd] at hread
      have hend : getEndian (b.advance k) = .value b.endian (b.advance k) := rfl
      rw [readFixed, Call.bind_value hread, Call.bind_value hend]
      simp only [fixedValue]
      split <;> rfl
  next hn =>
    rw [if_neg hn]
    exact Call.bind_thrown hread

end Fixed

section Varint
variable {b : ByteArray}

/-- The number in the first group encoding of at most `m` bytes, and the length of that. -/
def varint : ℕ → List Cell → Option (ℕ × ℕ)
  | 0, _ => none
  | _ + 1, [] => none
  | _ + 1, none :: _ => none
  | m + 1, some x :: cs =>
    if x.toNat < 128 then some (x.toNat, 1)
    else (varint m cs).map fun r => (x.toNat - 128 + 128 * r.1, r.2 + 1)

theorem varint_groups {enc : List Byte} {n : ℕ} (hg : Groups enc n) {m : ℕ}
    (hm : enc.length ≤ m) (rest : List Cell) :
    varint m (enc.map some ++ rest) = some (n, enc.length) := by
  induction hg generalizing m with
  | last x hx =>
    obtain ⟨m,rfl⟩ : ∃ k, m = k + 1 := ⟨m - 1,by simp at hm; omega⟩
    simp [varint, hx]
  | more x hx _ ih =>
    rw [List.length_cons] at hm
    obtain ⟨m,rfl⟩ : ∃ k, m = k + 1 := ⟨m - 1,by omega⟩
    simp [varint, Nat.not_lt.mpr hx, ih (Nat.le_of_succ_le_succ hm)]

theorem varint_length {m n k : ℕ} {cs : List Cell} (h : varint m cs = some (n, k)) :
    0 < k ∧ k ≤ m ∧ k ≤ cs.length := by
  induction m, cs using varint.induct generalizing n k with
  | case1 => cases h
  | case2 => cases h
  | case3 => cases h
  | case4 m x cs hx =>
    rw [varint, if_pos hx] at h
    cases h
    simp
  | case5 m x cs hx ih =>
    rw [varint, if_neg hx, Option.map_eq_some_iff] at h
    obtain ⟨⟨n',k'⟩,hrest,heq⟩ := h
    cases heq
    have := ih hrest
    simp only [List.length_cons]
    omega

/-- A group is shifted in 32 bits and merged into a 64-bit word. -/
theorem merge_group_64 {r : BitVec 64} {g : Byte} {i : ℕ} (hi : i < 32) (hr : r.toNat < 2 ^ i) :
    (r ||| (g.setWidth 32 <<< i).setWidth 64).toNat =
      (r.toNat + g.toNat * 2 ^ i) % 2 ^ 32 := by
  have hs : (g.setWidth 32).toNat = g.toNat := BitVec.toNat_setWidth_of_le (by decide)
  have hpow : 2 ^ 32 = 2 ^ (32 - i) * 2 ^ i := by
    rw [← Nat.pow_add, Nat.sub_add_cancel hi.le]
  have hmod : g.toNat * 2 ^ i % 2 ^ 32 = g.toNat % 2 ^ (32 - i) * 2 ^ i := by
    rw [hpow, Nat.mul_mod_mul_right]
  have hlt : g.toNat % 2 ^ (32 - i) < 2 ^ (32 - i) := Nat.mod_lt _ (Nat.two_pow_pos _)
  have hsum : r.toNat + g.toNat % 2 ^ (32 - i) * 2 ^ i < 2 ^ 32 := by
    have hle := Nat.mul_le_mul_right (2 ^ i) (Nat.succ_le_of_lt hlt)
    rw [Nat.succ_mul, ← hpow] at hle
    omega
  rw [BitVec.toNat_or, BitVec.toNat_setWidth_of_le (by decide), BitVec.toNat_shiftLeft, hs,
    Nat.shiftLeft_eq, hmod, ← Nat.shiftLeft_eq, or_shiftLeft_eq hr, ← Nat.mod_eq_of_lt hsum,
    ← hmod, Nat.add_mod_mod]

theorem low_bits {x : Byte} (hx : ¬x.toNat < 128) : (x &&& 0x7F).toNat = x.toNat - 128 := by
  have hlt : x.toNat < 256 := x.isLt
  rw [BitVec.toNat_and]
  change x.toNat &&& 127 = _
  rw [and_low_seven]
  omega

/-- The 64-bit reader in front of an encoding of at most `m` groups whose shifts stay below 32.
What does not fit into 32 bits is lost. -/
theorem readUint64Loop_varint (h : Consistent b) {m i n k : ℕ} {r : BitVec 64} {l : List ℕ}
    (hi : i + 7 * m < 39) (hr : r.toNat < 2 ^ i) (hv : varint m b.unread = some (n, k)) :
    readUint64Loop (shifts m i ++ l) r b =
      .value (BitVec.ofNat 64 ((r.toNat + n * 2 ^ i) % 2 ^ 32)) (b.advance k) := by
  induction m generalizing i n k r b with
  | zero => cases hv
  | succ m ih =>
    have hread := readFuint8_unread h
    have hsmall : i < 32 := by omega
    have hpow : 2 ^ (i + 7) = 2 ^ i * 128 := Nat.pow_add 2 i 7
    have hunread := unread_advance b 1
    cases hu : b.unread with
    | nil =>
      rw [hu] at hv
      cases hv
    | cons c cs =>
      rw [hu] at hread hv hunread
      cases c with
      | none => cases hv
      | some x =>
        have hshift : ∀ g : Byte, shiftUint32 g i (b.advance 1) =
            .value (g.setWidth 32 <<< i) (b.advance 1) := by
          intro g
          rw [shiftUint32, if_pos hsmall]
          rfl
        rw [shifts, List.cons_append, readUint64Loop, Call.bind_value hread]
        by_cases hx : x.toNat < 128
        · rw [varint, if_pos hx] at hv
          cases hv
          rw [if_pos (BitVec.lt_def.mpr hx), Call.bind_value (hshift x)]
          have hmerge := merge_group_64 (g := x) hsmall hr
          have hvalue : r ||| (x.setWidth 32 <<< i).setWidth 64 =
              BitVec.ofNat 64 ((r.toNat + x.toNat * 2 ^ i) % 2 ^ 32) := by
            rw [← hmerge, BitVec.ofNat_toNat, BitVec.setWidth_eq]
          rw [hvalue]
          rfl
        · rw [varint, if_neg hx, Option.map_eq_some_iff] at hv
          obtain ⟨⟨n',k'⟩,hrest,heq⟩ := hv
          cases heq
          have hmerge := merge_group_64 (g := x &&& 0x7F) hsmall hr
          have hlow := low_bits hx
          have hlt : x.toNat < 256 := x.isLt
          have hbound : (x.toNat - 128) * 2 ^ i ≤ 127 * 2 ^ i := Nat.mul_le_mul_right _ (by omega)
          have hsum : r.toNat + (x.toNat - 128) * 2 ^ i + n' * 2 ^ (i + 7) =
              r.toNat + (x.toNat - 128 + 128 * n') * 2 ^ i := by
            rw [hpow]
            ring
          rw [hlow] at hmerge
          rw [if_neg (by rwa [BitVec.lt_def]), Call.bind_value (hshift _),
            ih (advance_consistent h (by rw [hu]; simp)) (by omega) (by
              rw [hmerge, hpow]
              exact lt_of_le_of_lt (Nat.mod_le _ _) (by omega)) (by rw [hunread]; exact hrest),
            hmerge, advance_advance, Nat.mod_add_mod, hsum, Nat.add_comm 1 k']

/-- The call has not returned. If it threw, the position is `p` or behind it. -/
def FailsFrom {α : Type} (p : ℕ) : Outcome ByteArray α → Prop
  | .value _ _ => False
  | .thrown _ b' => p ≤ b'.position
  | .fault _ => True

theorem FailsFrom.le {α : Type} {p q : ℕ} {o : Outcome ByteArray α} (h : FailsFrom q o)
    (hle : p ≤ q) : FailsFrom p o := by
  cases o with
  | value a b' => exact h
  | thrown what b' => exact hle.trans h
  | fault e => trivial

/-- A reader of groups that failed: at once where there was nothing to read, else behind the
first group. -/
def Stuck {α : Type} (b : ByteArray) (o : Outcome ByteArray α) : Prop :=
  if b.unread = [] then o = .thrown "not enough len" b else FailsFrom (b.position + 1) o

theorem Stuck.step {α : Type} {o : Outcome ByteArray α} (h : Stuck (b.advance 1) o) :
    FailsFrom (b.position + 1) o := by
  rw [Stuck] at h
  split at h
  · rw [h]
    exact le_rfl
  · exact h.le (Nat.le_succ _)

theorem Stuck.not_value {α : Type} {v : α} {b' : ByteArray} : ¬Stuck b (.value v b') := by
  rw [Stuck]
  split
  · simp
  · exact id

/-- Without a last group among the first `m`, the 64-bit reader comes to a shift by 32 or more. -/
theorem readUint64Loop_stuck (h : Consistent b) {m i j : ℕ} {r : BitVec 64} {l : List ℕ}
    (hj : 32 ≤ j) (hv : varint m b.unread = none) :
    Stuck b (readUint64Loop (shifts m i ++ j :: l) r b) := by
  have hfault : ∀ {c : ByteArray} {i : ℕ} (g : Byte), ¬i < 32 →
      shiftUint32 g i c = .fault .invalidShift := by
    intro c i g hi
    rw [shiftUint32, if_neg hi]
    rfl
  induction m generalizing i r b with
  | zero =>
    have hread := readFuint8_unread h
    rw [shifts, List.nil_append, readUint64Loop, Stuck]
    cases hu : b.unread with
    | nil =>
      rw [hu] at hread
      rw [Call.bind_thrown hread, if_pos rfl]
    | cons c cs =>
      rw [hu] at hread
      rw [if_neg (List.cons_ne_nil _ _)]
      cases c with
      | none =>
        rw [Call.bind_fault hread]
        trivial
      | some x =>
        rw [Call.bind_value hread]
        split
        · rw [Call.bind_fault (hfault x (Nat.not_lt.mpr hj))]
          trivial
        · rw [Call.bind_fault (hfault _ (Nat.not_lt.mpr hj))]
          trivial
  | succ m ih =>
    have hread := readFuint8_unread h
    have hunread := unread_advance b 1
    rw [shifts, List.cons_append, readUint64Loop, Stuck]
    cases hu : b.unread with
    | nil =>
      rw [hu] at hread
      rw [Call.bind_thrown hread, if_pos rfl]
    | cons c cs =>
      rw [hu] at hread hv hunread
      rw [if_neg (List.cons_ne_nil _ _)]
      cases c with
      | none =>
        rw [Call.bind_fault hread]
        trivial
      | some x =>
        by_cases hx : x.toNat < 128
        · rw [varint, if_pos hx] at hv
          cases hv
        · rw [varint, if_neg hx, Option.map_eq_none_iff] at hv
          have hlt : ¬x < 0x80 := by rwa [BitVec.lt_def]
          rw [Call.bind_value hread, if_neg hlt]
          by_cases hi : i < 32
          · have hshift : shiftUint32 (x &&& 0x7F) i (b.advance 1) =
                .value ((x &&& 0x7F).setWidth 32 <<< i) (b.advance 1) := by
              rw [shiftUint32, if_pos hi]
              rfl
            rw [Call.bind_value hshift]
            exact (ih (advance_consistent h (by rw [hu]; simp)) (by rw [hunread]; exact hv)).step
          · rw [Call.bind_fault (hfault _ hi)]
            trivial

/-- Groups that all ask for another one. -/
def continues : ℕ → List Cell → Bool
  | 0, _ => true
  | _ + 1, [] => false
  | _ + 1, none :: _ => false
  | m + 1, some x :: cs => !decide (x.toNat < 128) && continues m cs

/-- The 32-bit reader returns after a last group, and also after `m` groups without one. -/
theorem readUint32Loop_outcome (h : Consistent b) {m i : ℕ} {r : BitVec 32} :
    if (varint m b.unread).isSome ∨ continues m b.unread
    then ∃ v b', readUint32Loop (shifts m i) r b = .value v b'
    else Stuck b (readUint32Loop (shifts m i) r b) := by
  induction m generalizing i r b with
  | zero =>
    rw [if_pos (.inr rfl)]
    exact ⟨r,b,rfl⟩
  | succ m ih =>
    have hread := readFuint8_unread h
    have hunread := unread_advance b 1
    rw [shifts, readUint32Loop, Stuck]
    cases hu : b.unread with
    | nil =>
      rw [hu] at hread
      rw [Call.bind_thrown hread, if_neg (by simp [varint, continues]), if_pos rfl]
    | cons c cs =>
      rw [hu] at hread hunread
      rw [if_neg (List.cons_ne_nil c cs)]
      cases c with
      | none =>
        rw [Call.bind_fault hread, if_neg (by simp [varint, continues])]
        trivial
      | some x =>
        rw [Call.bind_value hread]
        by_cases hx : x.toNat < 128
        · rw [if_pos (by simp [varint, hx]), if_pos (BitVec.lt_def.mpr hx)]
          exact ⟨_,_,rfl⟩
        · have hrest := ih (advance_consistent h (n := 1) (by rw [hu]; simp)) (i := i + 7)
            (r := r ||| (x &&& 0x7F).setWidth 32 <<< i)
          have hcond : ((varint (m + 1) (some x :: cs)).isSome ∨ continues (m + 1) (some x :: cs)) ↔
              ((varint m cs).isSome ∨ continues m cs) := by
            simp [varint, continues, hx]
          have hlt : ¬x < 0x80 := by rwa [BitVec.lt_def]
          rw [hunread, List.drop_one, List.tail_cons] at hrest
          rw [if_neg hlt]
          by_cases hyes : (varint m cs).isSome ∨ continues m cs
          · rw [if_pos (hcond.mpr hyes)]
            rwa [if_pos hyes] at hrest
          · rw [if_neg (mt hcond.mp hyes)]
            rw [if_neg hyes] at hrest
            exact hrest.step

theorem readUint64_varint (h : Consistent b) {n k : ℕ} (hv : varint 5 b.unread = some (n, k)) :
    readUint64 b = .value (BitVec.ofNat 64 (n % 2 ^ 32)) (b.advance k) := by
  have hloop := readUint64Loop_varint (i := 0) (r := 0) (l := [35, 42, 49, 56, 63]) h (by decide)
    (by decide) hv
  have hnumber : (0 : BitVec 64).toNat + n * 2 ^ 0 = n := by simp
  rw [hnumber] at hloop
  exact hloop

theorem readUint64_stuck (h : Consistent b) (hv : varint 5 b.unread = none) :
    Stuck b (readUint64 b) :=
  readUint64Loop_stuck (i := 0) h (by decide) hv

end Varint

section Written
variable {b b' c : ByteArray} {xs ys : List Byte} {p : ℕ}

/-- The bytes `xs` are the content at addresses `[p, p + xs.length)`. -/
structure Holds (b : ByteArray) (p : ℕ) (xs : List Byte) : Prop where
  inside : p + xs.length ≤ b.size
  cells : window b.mem p xs.length = xs.map some

theorem Holds.append (hx : Holds b p xs) (hy : Holds b (p + xs.length) ys) :
    Holds b p (xs ++ ys) where
  inside := by
    have := hy.inside
    simp only [List.length_append]
    omega
  cells := by
    rw [List.length_append, window_add, hx.cells, hy.cells, List.map_append]

/-- The array `b'` is `b` with `xs` written at its position. -/
structure Written (b : ByteArray) (xs : List Byte) (b' : ByteArray) : Prop where
  consistent : Consistent b'
  position_eq : b'.position = b.position + xs.length
  endian_eq : b'.endian = b.endian
  baseSize_eq : b'.baseSize = b.baseSize
  holds : Holds b' b.position xs
  before : ∀ {q ys}, q + ys.length ≤ b.position → Holds b q ys → Holds b' q ys

theorem writeBytes_written (h : Consistent b) (xs : List Byte) :
    ∃ b', writeBytes xs b = .value () b' ∧ Written b xs b' ∧
      b'.capacity = (b.addCapacity xs.length).capacity := by
  obtain ⟨b',hw,hc,hp,hs,hbase,hend,k,hk,hm⟩ := write_spec h (xs.map some)
  have hcap := write_capacity hw
  rw [List.length_map] at hp hs hk hcap
  have hroom : b.position + (xs.map some).length ≤
      (b.mem ++ List.replicate k (none : Cell)).length := by
    simpa using hk
  have hmem := h.mem_length
  have hsize := h.size_le
  refine ⟨b',hw,⟨hc,hp,hend,hbase,⟨by omega,?_⟩,?_⟩,hcap⟩
  · rw [hm, window, splice, List.append_assoc, List.drop_left' (by
      rw [List.length_take, List.length_append, List.length_replicate]
      omega), List.take_left' (by rw [List.length_map])]
  · intro q ys hq hy
    have hin := hy.inside
    refine ⟨by omega,?_⟩
    have htake : b'.mem.take b.position = b.mem.take b.position := by
      have hpos := h.position_le
      rw [hm, splice, List.append_assoc, List.take_append_of_le_length (by
        rw [List.length_take, List.length_append, List.length_replicate]
        omega), List.take_take, Nat.min_self, List.take_append_of_le_length (by omega)]
    rw [← hy.cells, ← window_take hq, htake, window_take hq]

theorem Written.trans (h : Written b xs b') (h' : Written b' ys c) : Written b (xs ++ ys) c where
  consistent := h'.consistent
  position_eq := by
    rw [h'.position_eq, h.position_eq, List.length_append, Nat.add_assoc]
  endian_eq := h'.endian_eq.trans h.endian_eq
  baseSize_eq := h'.baseSize_eq.trans h.baseSize_eq
  holds := by
    have hys := h'.holds
    rw [h.position_eq] at hys
    exact (h'.before h.position_eq.ge h.holds).append hys
  before := by
    intro q zs hq hz
    have hpos := h.position_eq
    exact h'.before (by omega) (h.before hq hz)

/-- After a seek to their start the bytes are the first unread ones. -/
theorem Written.unread_seek (h : Written b xs b') :
    setPosition b.position b' = .value () (b'.seek b.position) ∧
      Consistent (b'.seek b.position) ∧
      ∃ rest, (b'.seek b.position).unread = xs.map some ++ rest := by
  have hin := h.holds.inside
  have hle := h.consistent.size_le
  obtain ⟨hset,hc⟩ := setPosition_spec h.consistent (v := b.position) (by omega)
  refine ⟨hset,hc,(b'.seek b.position).unread.drop xs.length,?_⟩
  have hsize : (b'.seek b.position).getReadSize = b'.size - b.position := by
    rw [getReadSize, seek_size (by omega)]
    rfl
  have htake : (b'.seek b.position).unread.take xs.length = xs.map some := by
    rw [unread, hsize, window, List.take_take, Nat.min_eq_left (by omega)]
    exact h.holds.cells
  rw [← htake, List.take_append_drop]

end Written

end Gudov.ByteArray
