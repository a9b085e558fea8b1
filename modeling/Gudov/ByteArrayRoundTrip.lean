import Gudov.ByteArrayRefinement
import Gudov.ByteArrayTyped

/-!
# Typed values survive a round trip

Every typed writer appends some byte string, and the matching reader, placed
in front of that string, returns the value and stops behind it. `Codes` states
this for one value; lists of values follow by induction, whatever the base
size, the host and the byte order of the array.
-/
namespace Gudov.ByteArray
open RowMemory StepSystem FlatBuffer ByteCodec

/-- The content is `bs`, all determinate, and the position is `n`. -/
def At (b : ByteArray) (bs : List Byte) (n : ℕ) : Prop :=
  ∃ h : Consistent b, (b.flat h).content = bs.map some ∧ b.position = n

theorem At.size_eq {b : ByteArray} {bs : List Byte} {n : ℕ} (h : At b bs n) :
    b.size = bs.length := by
  obtain ⟨hc,he,-⟩ := h
  rw [← flat_length hc, he, List.length_map]

theorem determinate_map_some (bs : List Byte) : determinate (bs.map some) = some bs := by
  induction bs with
  | nil => rfl
  | cons x bs ih => simp [determinate, ih]

/-- Writing at the end appends. -/
theorem writeBytes_at {b : ByteArray} {bs : List Byte} (h : At b bs bs.length)
    (xs : List Byte) :
    ∃ b', writeBytes xs b = .value () b' ∧ At b' (bs ++ xs) (bs ++ xs).length ∧
      b'.endian = b.endian := by
  obtain ⟨hc,he,hp⟩ := h
  obtain ⟨b',hw,hc',hp',hs,-,hend,k,hk,hm⟩ := write_spec hc (xs.map some)
  refine ⟨b',hw,⟨hc',?_,?_⟩,hend⟩
  · rw [← write_refines hc hc' hp' hs hk hm]
    have hpos : (b.flat hc).position = bs.length := hp
    simp only [Flat.write, splice, he, hpos, List.map_append, List.take_of_length_le,
      List.length_map, le_refl]
    rw [List.drop_of_length_le (by rw [List.length_map]; omega), List.append_nil]
  · rw [hp', hp, List.length_map, List.length_append]

/-- Reading in front of `xs` returns `xs`. -/
theorem readBytes_at {b : ByteArray} {pre xs post : List Byte} (hx : xs ≠ [])
    (h : At b (pre ++ xs ++ post) pre.length) :
    ∃ b', readBytes xs.length b = .value xs b' ∧
      At b' (pre ++ xs ++ post) (pre.length + xs.length) ∧ b'.endian = b.endian := by
  have hsz := h.size_eq
  obtain ⟨hc,he,hp⟩ := h
  have hpos : 0 < xs.length := List.length_pos_iff.mpr hx
  have hlen : pre.length + xs.length ≤ b.size := by
    rw [hsz, List.length_append, List.length_append]
    omega
  have hn : xs.length ≤ b.getReadSize := by
    unfold getReadSize
    omega
  obtain ⟨hr,hc'⟩ := read_spec hc hpos hn
  have hw : window b.mem b.position xs.length = xs.map some := by
    have he' : b.mem.take b.size = (pre ++ xs ++ post).map some := he
    rw [← window_take (by omega : b.position + xs.length ≤ b.size), he', hp, window,
      List.map_append, List.map_append, List.append_assoc,
      List.drop_left' (by rw [List.length_map]), List.take_left' (by rw [List.length_map])]
  refine ⟨b.advance xs.length,?_,⟨hc',he,?_⟩,rfl⟩
  · unfold readBytes
    rw [Call.bind_value hr, hw, determinate_map_some]
    rfl
  · change b.position + xs.length = _
    rw [hp]

/-- One value in an array of byte order `e`: what is written for it is read back. -/
def Codes {w : ℕ} (e : Endian) (writer : BitVec w → Call ByteArray Unit)
    (reader : Call ByteArray (BitVec w)) (v : BitVec w) : Prop :=
  ∃ enc, (∀ b, b.endian = e → writer v b = writeBytes enc b) ∧
    ∀ b pre post, b.endian = e → At b (pre ++ enc ++ post) pre.length →
      ∃ b', reader b = .value v b' ∧ At b' (pre ++ enc ++ post) (pre.length + enc.length) ∧
        b'.endian = e

/-! ## Fixed width -/

theorem toMemory_length (host : Endian) (k : ℕ) (v : BitVec (8 * k)) :
    (toMemory host k v).length = k := by
  cases host <;> simp [toMemory]

theorem ofMemory_toMemory (host : Endian) (k : ℕ) (v : BitVec (8 * k)) :
    ofMemory host k (toMemory host k v) = v := by
  cases host <;> simp [ofMemory, toMemory, word_digits]

theorem byteSwap_byteSwap {k : ℕ} (v : BitVec (8 * k)) : byteSwap (byteSwap v) = v := by
  unfold byteSwap
  rw [digits_word _ (by simp), List.reverse_reverse, word_digits]

theorem codes_fixed (host e : Endian) {k : ℕ} (hk : 0 < k) (v : BitVec (8 * k)) :
    Codes e (writeFixed host k) (readFixed host k) v := by
  refine ⟨toMemory host k (if e ≠ host then byteSwap v else v),?_,?_⟩
  · intro b hb
    subst hb
    rfl
  · intro b pre post hb hat
    generalize hu : (if e ≠ host then byteSwap v else v) = u at hat ⊢
    have hlen := toMemory_length host k u
    have hne : toMemory host k u ≠ [] := by
      intro h
      rw [h] at hlen
      simp at hlen
      omega
    obtain ⟨b',hr,hat',hend⟩ := readBytes_at hne hat
    rw [hlen] at hr
    refine ⟨b',?_,hat',hend.trans hb⟩
    unfold readFixed
    rw [Call.bind_value hr]
    have he : getEndian b' = .value e b' := by
      rw [getEndian, hend, hb]
    rw [Call.bind_value he, ofMemory_toMemory]
    by_cases heq : e = host
    · rw [if_neg (not_not.mpr heq)] at hu
      rw [if_pos heq, hu]
      rfl
    · rw [if_pos heq] at hu
      rw [if_neg heq, ← hu, byteSwap_byteSwap]
      rfl

theorem readFuint8_at {b : ByteArray} {pre post : List Byte} {x : Byte}
    (h : At b (pre ++ [x] ++ post) pre.length) :
    ∃ b', readFuint8 b = .value x b' ∧ At b' (pre ++ [x] ++ post) (pre.length + 1) ∧
      b'.endian = b.endian := by
  obtain ⟨b',hr,hat,hend⟩ := readBytes_at (List.cons_ne_nil x []) h
  have hr' : readBytes 1 b = .value [x] b' := hr
  refine ⟨b',?_,hat,hend⟩
  unfold readFuint8
  rw [Call.bind_value hr']
  rfl

theorem codes_byte (e : Endian) (v : BitVec 8) :
    Codes e (fun x => writeBytes [x]) readFuint8 v := by
  refine ⟨[v],fun b _ => rfl,?_⟩
  intro b pre post hb hat
  obtain ⟨b',hr,hat',hend⟩ := readFuint8_at hat
  exact ⟨b',hr,hat',hend.trans hb⟩

/-! ## Variable width -/

theorem pushByte_ok {limit : ℕ} {tmp : List Byte} (h : tmp.length < limit) (x : Byte) :
    pushByte limit tmp x = .ok (tmp ++ [x]) := if_pos h

/-- `128` as a literal of a wide enough type. -/
theorem toNat_literal {w n : ℕ} (hw : 8 ≤ w) (hn : n < 256) : (BitVec.ofNat w n).toNat = n := by
  rw [BitVec.toNat_ofNat]
  apply Nat.mod_eq_of_lt
  calc n < 2 ^ 8 := hn
    _ ≤ 2 ^ w := Nat.pow_le_pow_right (by decide) hw

theorem group_byte {w : ℕ} (hw : 8 ≤ w) (v : BitVec w) :
    (((v &&& 0x7F) ||| 0x80).setWidth 8).toNat = v.toNat % 128 + 128 := by
  have h₁ : (0x7F : BitVec w).toNat = 127 := toNat_literal hw (by decide)
  have h₂ : (0x80 : BitVec w).toNat = 128 := toNat_literal hw (by decide)
  rw [BitVec.toNat_setWidth, BitVec.toNat_or, BitVec.toNat_and, h₁, h₂, and_low_seven,
    or_continuation (Nat.mod_lt _ (by decide))]
  omega

/-- The writer loop: `k + 1` slots or more are left for fewer than `7 * (k + 1)` bits. -/
theorem groupLoop_spec {w limit : ℕ} (hw : 8 ≤ w) (k fuel : ℕ) (v : BitVec w)
    (tmp : List Byte) (hlim : tmp.length + k + 1 ≤ limit) (hv : v.toNat < 128 ^ (k + 1))
    (hfuel : k < fuel) :
    ∃ enc, groupLoop limit fuel v tmp = .ok (tmp ++ enc) ∧ enc.length ≤ k + 1 ∧
      Groups enc v.toNat := by
  induction k generalizing fuel v tmp with
  | zero =>
    obtain ⟨fuel,rfl⟩ : ∃ f, fuel = f + 1 := ⟨fuel - 1,by omega⟩
    have hlt : ¬ v ≥ 0x80 := by
      rw [ge_iff_le, BitVec.le_def, show (0x80 : BitVec w).toNat = 128 from
        toNat_literal hw (by decide)]
      omega
    have hb : (v.setWidth 8).toNat = v.toNat := by
      rw [BitVec.toNat_setWidth]
      omega
    refine ⟨[v.setWidth 8],?_,le_rfl,?_⟩
    · rw [groupLoop, if_neg hlt, pushByte_ok (by omega)]
    · rw [← hb]
      exact .last _ (by omega)
  | succ k ih =>
    obtain ⟨fuel,rfl⟩ : ∃ f, fuel = f + 1 := ⟨fuel - 1,by omega⟩
    have h80 : (0x80 : BitVec w).toNat = 128 := toNat_literal hw (by decide)
    by_cases hge : v ≥ 0x80
    · have hsh : (v >>> 7).toNat = v.toNat / 128 := by
        rw [BitVec.toNat_ushiftRight, Nat.shiftRight_eq_div_pow]
      obtain ⟨enc,he,hl,hg⟩ := ih fuel (v >>> 7)
        (tmp ++ [((v &&& 0x7F) ||| 0x80).setWidth 8]) (by
          rw [List.length_append, List.length_singleton]
          omega) (by
          rw [hsh, Nat.div_lt_iff_lt_mul (by decide), ← Nat.pow_succ]
          exact hv) (by omega)
      have hbyte := group_byte hw v
      refine ⟨((v &&& 0x7F) ||| 0x80).setWidth 8 :: enc,?_,?_,?_⟩
      · rw [groupLoop, if_pos hge, pushByte_ok (by omega)]
        simp only [he, List.append_assoc, List.singleton_append]
      · rw [List.length_cons]
        omega
      · have hmore := Groups.more (((v &&& 0x7F) ||| 0x80).setWidth 8) (by omega) hg
        rw [hbyte, hsh] at hmore
        have hval : v.toNat % 128 + 128 - 128 + 128 * (v.toNat / 128) = v.toNat := by omega
        rwa [hval] at hmore
    · have hlt : v.toNat < 128 := by
        rw [ge_iff_le, BitVec.le_def, h80] at hge
        omega
      have hb : (v.setWidth 8).toNat = v.toNat := by
        rw [BitVec.toNat_setWidth]
        omega
      refine ⟨[v.setWidth 8],?_,by simp,?_⟩
      · rw [groupLoop, if_neg hge, pushByte_ok (by omega)]
      · rw [← hb]
        exact .last _ (by omega)

/-- Five slots are enough for 32 bits. -/
theorem groupLoop_32 (v : BitVec 32) :
    ∃ enc, groupLoop 5 33 v [] = .ok enc ∧ enc.length ≤ 5 ∧ Groups enc v.toNat :=
  groupLoop_spec (by decide) 4 33 v [] le_rfl (lt_of_lt_of_le v.isLt (by decide)) (by decide)

/-- Ten slots are enough for 64 bits. -/
theorem groupLoop_64 (v : BitVec 64) :
    ∃ enc, groupLoop 10 65 v [] = .ok enc ∧ enc.length ≤ 10 ∧ Groups enc v.toNat :=
  groupLoop_spec (by decide) 9 65 v [] le_rfl (lt_of_lt_of_le v.isLt (by decide)) (by decide)

/-- The values of `i` from `i` on, `m` of them. -/
def shifts : ℕ → ℕ → List ℕ
  | 0, _ => []
  | m + 1, i => i :: shifts m (i + 7)

theorem merge_group {r : BitVec 32} {g : Byte} {i : ℕ} (hr : r.toNat < 2 ^ i)
    (hg : g.toNat * 2 ^ i < 2 ^ 32) :
    (r ||| g.setWidth 32 <<< i).toNat = r.toNat + g.toNat * 2 ^ i := by
  have hs : (g.setWidth 32).toNat = g.toNat := BitVec.toNat_setWidth_of_le (by decide)
  have hsh : g.toNat <<< i % 2 ^ 32 = g.toNat <<< i := by
    rw [Nat.shiftLeft_eq]
    exact Nat.mod_eq_of_lt hg
  rw [BitVec.toNat_or, BitVec.toNat_shiftLeft, hs, hsh, or_shiftLeft_eq hr]

/-- The reader loop in front of a group encoding of `n`, with `result` collected
from the lower `i` bits. -/
theorem readUint32Loop_at {enc : List Byte} {n : ℕ} (hg : Groups enc n) (m i : ℕ)
    (result : BitVec 32) (b : ByteArray) (pre post : List Byte) (hm : enc.length ≤ m)
    (hr : result.toNat < 2 ^ i) (hfit : result.toNat + n * 2 ^ i < 2 ^ 32)
    (hat : At b (pre ++ enc ++ post) pre.length) :
    ∃ b', readUint32Loop (shifts m i) result b =
        .value (BitVec.ofNat 32 (result.toNat + n * 2 ^ i)) b' ∧
      At b' (pre ++ enc ++ post) (pre.length + enc.length) ∧ b'.endian = b.endian := by
  induction hg generalizing m i result b pre with
  | last x hx =>
    obtain ⟨m,rfl⟩ : ∃ k, m = k + 1 := ⟨m - 1,by simp at hm; omega⟩
    obtain ⟨b',hread,hat',hend⟩ := readFuint8_at hat
    refine ⟨b',?_,hat',hend⟩
    have hlt : x < 0x80 := BitVec.lt_def.mpr hx
    have hv : result ||| x.setWidth 32 <<< i =
        BitVec.ofNat 32 (result.toNat + x.toNat * 2 ^ i) := by
      apply BitVec.eq_of_toNat_eq
      rw [merge_group hr (by omega), BitVec.toNat_ofNat, Nat.mod_eq_of_lt hfit]
    simp only [shifts, readUint32Loop]
    rw [Call.bind_value hread, if_pos hlt, hv]
    rfl
  | @more x bs n hx hg ih =>
    obtain ⟨m,rfl⟩ : ∃ k, m = k + 1 := ⟨m - 1,by simp at hm; omega⟩
    have hsplit : pre ++ x :: bs ++ post = pre ++ [x] ++ (bs ++ post) := by simp
    rw [hsplit] at hat ⊢
    obtain ⟨b',hread,hat',hend⟩ := readFuint8_at hat
    have hlt : ¬ x < 0x80 := by
      rw [BitVec.lt_def]
      exact Nat.not_lt.mpr hx
    have hx8 : x.toNat < 256 := x.isLt
    have hlow : (x &&& 0x7F).toNat = x.toNat - 128 := by
      rw [BitVec.toNat_and]
      change x.toNat &&& 127 = _
      rw [and_low_seven]
      omega
    have hsum : x.toNat - 128 + 128 * n = (x &&& 0x7F).toNat + 128 * n := by rw [hlow]
    have hpow : 2 ^ (i + 7) = 2 ^ i * 128 := Nat.pow_add 2 i 7
    have hmul : ((x &&& 0x7F).toNat + 128 * n) * 2 ^ i =
        (x &&& 0x7F).toNat * 2 ^ i + n * 2 ^ (i + 7) := by
      rw [hpow]
      ring
    rw [hsum, hmul] at hfit
    have hmerge := merge_group hr (g := x &&& 0x7F) (by omega)
    have hle : (x &&& 0x7F).toNat * 2 ^ i ≤ 127 * 2 ^ i := Nat.mul_le_mul_right _ (by omega)
    obtain ⟨b'',hloop,hat'',hend'⟩ := ih m (i + 7) (result ||| (x &&& 0x7F).setWidth 32 <<< i)
      b' (pre ++ [x]) (by simp at hm; omega) (by rw [hmerge, hpow]; omega)
      (by rw [hmerge]; omega) (by simpa using hat')
    refine ⟨b'',?_,?_,hend'.trans hend⟩
    · simp only [shifts, readUint32Loop]
      rw [Call.bind_value hread, if_neg hlt, hloop, hmerge, hsum, hmul, Nat.add_assoc]
    · have hlen : pre.length + (x :: bs).length = (pre ++ [x]).length + bs.length := by
        simp only [List.length_cons, List.length_append, List.length_nil]
        omega
      rw [hlen]
      simpa using hat''

theorem codes_uint32 (e : Endian) (v : BitVec 32) : Codes e writeUint32 readUint32 v := by
  obtain ⟨enc,henc,hlen,hg⟩ := groupLoop_32 v
  refine ⟨enc,?_,?_⟩
  · intro b _
    simp only [writeUint32, writeGroups, henc, liftFault]
  · intro b pre post hb hat
    have hv : v.toNat < 2 ^ 32 := v.isLt
    obtain ⟨b',hread,hat',hend⟩ := readUint32Loop_at hg 5 0 0 b pre post hlen (by simp)
      (by simpa using hv) hat
    refine ⟨b',?_,hat',hend.trans hb⟩
    have hz : BitVec.ofNat 32 ((0 : BitVec 32).toNat + v.toNat * 2 ^ 0) = v := by simp
    rw [hz] at hread
    exact hread

theorem codes_int32 (e : Endian) (v : BitVec 32) : Codes e writeInt32 readInt32 v := by
  obtain ⟨enc,hw,hr⟩ := codes_uint32 e (encodeZigzag32 v)
  refine ⟨enc,hw,?_⟩
  intro b pre post hb hat
  obtain ⟨b',hread,hat',hend⟩ := hr b pre post hb hat
  refine ⟨b',?_,hat',hend⟩
  unfold readInt32
  rw [Call.bind_value hread, decodeZigzag32, encodeZigzag32, unzigzag_zigzag (by decide)]
  rfl

/-! ## Lists of values -/

theorem codes_kind (host e : Endian) (v : Typed) :
    Codes e (writeKind host v.1) (readKind host v.1) v.2 := by
  obtain ⟨k,v⟩ := v
  cases k with
  | fint8 => exact codes_byte e v
  | fuint8 => exact codes_byte e v
  | fint16 => exact codes_fixed host e (k := 2) (by decide) v
  | fuint16 => exact codes_fixed host e (k := 2) (by decide) v
  | fint32 => exact codes_fixed host e (k := 4) (by decide) v
  | fuint32 => exact codes_fixed host e (k := 4) (by decide) v
  | fint64 => exact codes_fixed host e (k := 8) (by decide) v
  | fuint64 => exact codes_fixed host e (k := 8) (by decide) v
  | float => exact codes_fixed host e (k := 4) (by decide) v
  | double => exact codes_fixed host e (k := 8) (by decide) v
  | int32 => exact codes_int32 e v
  | uint32 => exact codes_uint32 e v

/-- All values are appended, and a reader in front of them gets them back,
whatever has been or will be written around them. -/
theorem writeAll_at (host e : Endian) (vs : List Typed) (b : ByteArray) (bs : List Byte)
    (hb : b.endian = e) (hat : At b bs bs.length) :
    ∃ enc b', writeAll host vs b = .value () b' ∧
      At b' (bs ++ enc) (bs ++ enc).length ∧ b'.endian = e ∧
      ∀ c pre post, c.endian = e → At c (pre ++ enc ++ post) pre.length →
        ∃ c', readAll host (vs.map (·.1)) c = .value vs c' ∧
          At c' (pre ++ enc ++ post) (pre.length + enc.length) := by
  induction vs generalizing b bs with
  | nil => exact ⟨[],b,rfl,by simpa using hat,hb,fun c pre post _ h => ⟨c,rfl,h⟩⟩
  | cons v vs ih =>
    obtain ⟨x,hw,hr⟩ := codes_kind host e v
    obtain ⟨b₁,hw₁,hat₁,hend₁⟩ := writeBytes_at hat x
    obtain ⟨enc,b₂,hw₂,hat₂,hend₂,hread⟩ := ih b₁ (bs ++ x) (hend₁.trans hb) hat₁
    refine ⟨x ++ enc,b₂,?_,by simpa using hat₂,hend₂,?_⟩
    · unfold writeAll
      rw [Call.bind_value ((hw b hb).trans hw₁)]
      exact hw₂
    · intro c pre post hc hcat
      obtain ⟨c₁,hr₁,hcat₁,hcend⟩ := hr c pre (enc ++ post) hc (by simpa using hcat)
      obtain ⟨c₂,hr₂,hcat₂⟩ := hread c₁ (pre ++ x) post hcend (by simpa using hcat₁)
      refine ⟨c₂,?_,?_⟩
      · simp only [List.map_cons, readAll]
        rw [Call.bind_value hr₁, Call.bind_value hr₂]
        rfl
      · rw [List.length_append, ← Nat.add_assoc, ← List.length_append]
        simpa using hcat₂

theorem setPosition_at {b : ByteArray} {bs : List Byte} {n : ℕ} (h : At b bs n) :
    ∃ b', setPosition 0 b = .value () b' ∧ At b' bs 0 ∧ b'.endian = b.endian := by
  obtain ⟨hc,he,-⟩ := h
  obtain ⟨hs,hc'⟩ := setPosition_spec hc (Nat.zero_le _)
  refine ⟨_,hs,⟨hc',?_,rfl⟩,rfl⟩
  change b.mem.take (b.seek 0).size = _
  rw [seek_size (Nat.zero_le _)]
  exact he

theorem setIsLittleEndian_new {base : ℕ} (hb : 1 ≤ base) (val : Bool) :
    ∃ b, setIsLittleEndian val (new base) = .value () b ∧ At b [] 0 := by
  obtain ⟨h₁,h₂,h₃,h₄,h₅,h₆,h₇⟩ := new_consistent hb
  exact ⟨_,rfl,⟨h₁,h₂,h₃,h₄,h₅,h₆,h₇⟩,by simp [flat, new],rfl⟩

/-- Write a list, seek to the start, read it back. -/
def roundTrip (host : Endian) (val : Bool) (vs : List Typed) : Call ByteArray (List Typed) := do
  setIsLittleEndian val
  writeAll host vs
  setPosition 0
  readAll host (vs.map (·.1))

/-- Nothing throws or faults, the values come back and the array is used up;
the local arrays of the group writers are never overrun. -/
theorem typed_round_trip (base : ℕ) (hb : 1 ≤ base) (host : Endian) (val : Bool)
    (vs : List Typed) :
    (∃ b, roundTrip host val vs (new base) = .value vs b ∧ b.position = b.size) ∧
      (∀ v : BitVec 32, ∃ tmp, groupLoop 5 33 v [] = .ok tmp) ∧
      (∀ v : BitVec 64, ∃ tmp, groupLoop 10 65 v [] = .ok tmp) := by
  refine ⟨?_,fun v => ?_,fun v => ?_⟩
  · obtain ⟨b₀,hset,hat₀⟩ := setIsLittleEndian_new hb val
    obtain ⟨enc,b₁,hw,hat₁,hend,hread⟩ := writeAll_at host b₀.endian vs b₀ [] rfl hat₀
    obtain ⟨b₂,hs,hat₂,hend₂⟩ := setPosition_at hat₁
    obtain ⟨b₃,hr,hat₃⟩ := hread b₂ [] [] (hend₂.trans hend) (by simpa using hat₂)
    refine ⟨b₃,?_,?_⟩
    · unfold roundTrip
      rw [Call.bind_value hset, Call.bind_value hw, Call.bind_value hs]
      exact hr
    · rw [hat₃.size_eq]
      obtain ⟨-,-,hp⟩ := hat₃
      rw [hp]
      simp
  · obtain ⟨tmp,h,-,-⟩ := groupLoop_32 v
    exact ⟨tmp,h⟩
  · obtain ⟨tmp,h,-,-⟩ := groupLoop_64 v
    exact ⟨tmp,h⟩

/-- Big-endian values over nodes of three bytes, the smallest `int32` among them. -/
theorem typed_round_trip_three :
    1 ≤ 3 ∧ ∃ b, roundTrip .little false [⟨.int32,0x80000000⟩, ⟨.fuint64,1⟩] (new 3) =
      .value [⟨.int32,0x80000000⟩, ⟨.fuint64,1⟩] b ∧ b.position = b.size :=
  ⟨by decide,(typed_round_trip 3 (by decide) .little false _).1⟩

end Gudov.ByteArray
