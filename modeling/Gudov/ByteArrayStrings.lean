import Gudov.ByteArrayVarint

/-!
# Strings behind their length

Each writer puts the length in front of the bytes, each reader takes it from there. A string
whose length fits the prefix is read back. The empty string is not where its prefix ends at the
capacity: the reader then looks at the node behind the last one.
-/
namespace Gudov.ByteArray
open RowMemory StepSystem ByteCodec

inductive StringKind
  | f16
  | f32
  | f64
  | vint
deriving Repr, DecidableEq

namespace StringKind

/-- The lengths that are written and read back. -/
def limit : StringKind → ℕ
  | .f16 => 2 ^ 16
  | _ => 2 ^ 32

/-- The length of the prefix of the empty string. -/
def emptySize : StringKind → ℕ
  | .f16 => 2
  | .f32 => 4
  | .f64 => 8
  | .vint => 1

end StringKind

section Calls
variable (host : Endian) (room : ℕ → Bool)

def writeStringKind : StringKind → List Byte → Call ByteArray Unit
  | .f16 => writeStringF16 host
  | .f32 => writeStringF32 host
  | .f64 => writeStringF64 host
  | .vint => writeStringVint

def readStringKind : StringKind → Call ByteArray (List Cell)
  | .f16 => readStringF16 host room
  | .f32 => readStringF32 host room
  | .f64 => readStringF64 host room
  | .vint => readStringVint room

/-- Write a string and a number, seek back and read both. -/
def echoString (k : StringKind) (s : List Byte) (w : BitVec 32) :
    Call ByteArray (List Cell × BitVec 32) := do
  let start ← getPosition
  writeStringKind host k s
  writeFuint32 host w
  setPosition start
  let s ← readStringKind host room k
  let w ← readFuint32 host
  pure (s, w)

/-- Write a string, seek back and read it. -/
def echoLastString (k : StringKind) (s : List Byte) : Call ByteArray (List Cell) := do
  let start ← getPosition
  writeStringKind host k s
  setPosition start
  readStringKind host room k

end Calls

section Determinate

theorem determinate_prefix (bs : List Byte) (rest : List Cell) :
    determinate ((bs.map some ++ rest).take bs.length) = some bs := by
  rw [List.take_left' (List.length_map _), determinate_map_some]

end Determinate

section Reading
variable {b : ByteArray} {host : Endian} {room : ℕ → Bool}

/-- A fixed-width reader in front of its bytes. -/
theorem readFixed_front (h : Consistent b) {k : ℕ} (hk : 0 < k) {v : BitVec (8 * k)}
    {rest : List Cell} (hu : b.unread = (fixedBytes host b.endian k v).map some ++ rest) :
    readFixed host k b = .value v (b.advance k) := by
  have hlen := fixedBytes_length host b.endian k v
  have hdet := determinate_prefix (fixedBytes host b.endian k v) rest
  rw [hlen] at hdet
  rw [readFixed_unread host h hk, hu, if_pos (by
    rw [List.length_append, List.length_map, hlen]
    omega), hdet]
  simp only [fixedValue_fixedBytes]

theorem resize_ok {len : ℕ} (hlen : len ≤ maxSize) (hroom : room len = true) :
    resize room len b = .value () b := by
  rw [resize, if_neg (Nat.not_lt.mpr hlen), if_pos hroom]
  rfl

/-- The payload in front of other cells. -/
theorem readString_front (h : Consistent b) {s : List Byte} {rest : List Cell}
    (hu : b.unread = s.map some ++ rest) (hlen : s.length ≤ maxSize)
    (hroom : room s.length = true) (hnode : s ≠ [] ∨ b.position < b.capacity) :
    ∃ c, readString room s.length b = .value (s.map some) c ∧ Consistent c ∧ c.unread = rest ∧
      c.endian = b.endian := by
  rw [readString, Call.bind_value (resize_ok hlen hroom)]
  by_cases hs : s = []
  · subst hs
    have hlt := hnode.resolve_left (by simp)
    refine ⟨b,?_,h,by simpa using hu,rfl⟩
    rw [List.length_nil, read_nothing h, if_pos hlt]
    rfl
  · have hle : s.length ≤ b.unread.length := by
      rw [hu, List.length_append, List.length_map]
      omega
    refine ⟨b.advance s.length,?_,advance_consistent h hle,?_,rfl⟩
    · rw [read_unread h (List.length_pos_of_ne_nil hs), if_pos hle, hu,
        List.take_left' (List.length_map _)]
    · rw [unread_advance, hu, List.drop_left' (List.length_map _)]

end Reading

section Prefix
variable {b : ByteArray} (host : Endian) (room : ℕ → Bool)

/-- What the writer of a kind puts in front of a string, and what the reader makes of it. -/
structure PrefixOf (e : Endian) (k : StringKind) (s pre : List Byte) : Prop where
  writes : ∀ b, b.endian = e → writeStringKind host k s b =
    (do
      writeBytes pre
      writeBytes s : Call ByteArray Unit) b
  reads : ∀ c rest, Consistent c → c.endian = e → c.unread = pre.map some ++ rest →
    readStringKind host room k c = readString room s.length (c.advance pre.length)
  nonempty : pre ≠ []
  empty : s = [] → pre.length = k.emptySize

variable {host room} {k : StringKind} {s : List Byte}

/-- The prefixes of fixed width. -/
theorem prefix_fixed {n : ℕ} (hn : 0 < n) (hlen : s.length < 2 ^ (8 * n))
    (hwrite : writeStringKind host k s = do
      writeFixed host n (BitVec.ofNat (8 * n) s.length)
      writeBytes s)
    (hread : readStringKind host room k = do
      let len ← readFixed host n
      readString room len.toNat)
    (hempty : k.emptySize = n) (e : Endian) :
    PrefixOf host room e k s (fixedBytes host e n (BitVec.ofNat (8 * n) s.length)) where
  writes := by
    rintro b rfl
    rw [hwrite]
    rfl
  reads := by
    rintro c rest hc rfl hu
    rw [hread, Call.bind_value (readFixed_front hc hn hu), BitVec.toNat_ofNat,
      Nat.mod_eq_of_lt hlen, fixedBytes_length]
  nonempty := by
    intro hnil
    have hlength := fixedBytes_length host e n (BitVec.ofNat (8 * n) s.length)
    rw [hnil, List.length_nil] at hlength
    omega
  empty := fun _ => by rw [fixedBytes_length, hempty]

theorem prefix_vint (hlen : s.length < 2 ^ 32) (e : Endian) :
    ∃ pre, PrefixOf host room e .vint s pre := by
  have hvalue : (BitVec.ofNat 64 s.length).toNat = s.length := by
    rw [BitVec.toNat_ofNat]
    exact Nat.mod_eq_of_lt (hlen.trans (by decide))
  obtain ⟨enc,henc,hshort,hg⟩ : ∃ enc, groupLoop 10 65 (BitVec.ofNat 64 s.length) [] =
      .ok ([] ++ enc) ∧ enc.length ≤ 5 ∧ Groups enc (BitVec.ofNat 64 s.length).toNat :=
    groupLoop_spec (by decide) 4 65 _ [] (by decide) (by
      rw [hvalue]
      exact hlen.trans (by decide)) (by decide)
  rw [List.nil_append] at henc
  refine ⟨enc,?_,?_,?_,?_⟩
  · intro b _
    have hwrite : writeUint64 (BitVec.ofNat 64 s.length) = writeBytes enc := by
      funext b
      simp only [writeUint64, writeGroups, henc, liftFault]
    rw [writeStringKind, writeStringVint, hwrite]
    rfl
  · intro c rest hc _ hu
    have hvarint := varint_groups hg hshort rest
    rw [← hu, hvalue] at hvarint
    rw [readStringKind, readStringVint, Call.bind_value (readUint64_varint hc hvarint),
      Nat.mod_eq_of_lt hlen, hvalue]
  · rintro rfl
    cases hg
  · rintro rfl
    have hzero : groupLoop 10 65 (BitVec.ofNat 64 0) [] = .ok [0] := by decide
    rw [List.length_nil, hzero] at henc
    cases henc
    rfl

variable (host room) in
theorem exists_prefix (hs : s.length < k.limit) (e : Endian) :
    ∃ pre, PrefixOf host room e k s pre := by
  cases k with
  | f16 => exact ⟨_,prefix_fixed (n := 2) (by decide) hs rfl rfl rfl e⟩
  | f32 => exact ⟨_,prefix_fixed (n := 4) (by decide) hs rfl rfl rfl e⟩
  | f64 => exact ⟨_,prefix_fixed (n := 8) (by decide) (hs.trans (by decide)) rfl rfl rfl e⟩
  | vint => exact prefix_vint hs e

/-- A string behind its prefix. -/
theorem PrefixOf.written {pre : List Byte} (hpre : PrefixOf host room b.endian k s pre)
    (h : Consistent b) : ∃ b', writeStringKind host k s b = .value () b' ∧
      Written b (pre ++ s) b' ∧ (s = [] → b'.capacity = (b.addCapacity k.emptySize).capacity) := by
  obtain ⟨b₁,hw₁,hwritten₁,hcap⟩ := writeBytes_written h pre
  obtain ⟨b₂,hw₂,hwritten₂,-⟩ := writeBytes_written hwritten₁.consistent s
  refine ⟨b₂,?_,hwritten₁.trans hwritten₂,?_⟩
  · rw [hpre.writes b rfl, Call.bind_value hw₁, hw₂]
  · rintro rfl
    have hnothing : writeBytes [] b₁ = .value () b₁ := rfl
    rw [hnothing] at hw₂
    cases hw₂
    rw [hcap, hpre.empty rfl]

/-- The reader of a kind in front of a prefix, a string and other cells. -/
theorem PrefixOf.read {pre : List Byte} {e : Endian} (hpre : PrefixOf host room e k s pre)
    {c : ByteArray} (hc : Consistent c) (he : c.endian = e) {rest : List Cell}
    (hu : c.unread = (pre ++ s).map some ++ rest) (hlen : s.length ≤ maxSize)
    (hroom : room s.length = true) (hnode : s ≠ [] ∨ c.position + pre.length < c.capacity) :
    ∃ d, readStringKind host room k c = .value (s.map some) d ∧ Consistent d ∧ d.unread = rest ∧
      d.endian = e := by
  rw [List.map_append, List.append_assoc] at hu
  have hle : pre.length ≤ c.unread.length := by
    rw [hu, List.length_append, List.length_map]
    omega
  have hafter : (c.advance pre.length).unread = s.map some ++ rest := by
    rw [unread_advance, hu, List.drop_left' (List.length_map _)]
  obtain ⟨d,hd,hcons,hrest,hend⟩ := readString_front (advance_consistent hc hle) hafter hlen hroom
    hnode
  refine ⟨d,?_,hcons,hrest,hend.trans he⟩
  rw [hpre.reads c _ hc he hu, hd]

end Prefix

section Echo
variable {b : ByteArray} {host : Endian} {room : ℕ → Bool} {k : StringKind} {s : List Byte}

theorem limit_le (hs : s.length < k.limit) : s.length ≤ maxSize := by
  cases k <;> simp only [StringKind.limit] at hs <;> unfold maxSize <;> omega

/-- A string with a number behind it is always read back. -/
theorem echoString_eq (h : Consistent b) (hs : s.length < k.limit) (hroom : room s.length = true)
    (w : BitVec 32) : ∃ b', echoString host room k s w b = .value (s.map some, w) b' := by
  obtain ⟨pre,hpre⟩ := exists_prefix host room hs b.endian
  obtain ⟨b₁,hw₁,hwritten₁,-⟩ := hpre.written h
  obtain ⟨b₂,hw₂,hwritten₂,-⟩ := writeBytes_written hwritten₁.consistent
    (fixedBytes host b₁.endian 4 w)
  have hwritten := hwritten₁.trans hwritten₂
  obtain ⟨hseek,hc,rest,hu⟩ := hwritten.unread_seek
  rw [List.map_append, List.append_assoc] at hu
  -- The number keeps the string from being the last thing in the array.
  have hnode : s ≠ [] ∨ (b₂.seek b.position).position + pre.length <
      (b₂.seek b.position).capacity := by
    right
    have hsize := hwritten.consistent.size_le
    have hinside := hwritten.holds.inside
    rw [List.length_append, List.length_append, fixedBytes_length] at hinside
    show b.position + pre.length < b₂.capacity
    omega
  obtain ⟨d,hread,hd,hrest,hend⟩ := hpre.read hc hwritten.endian_eq hu (limit_le hs) hroom hnode
  rw [hwritten₁.endian_eq, ← hend] at hrest
  have hnumber : readFuint32 host d = .value w (d.advance 4) :=
    readFixed_front hd (by decide) hrest
  have hstart : getPosition b = .value b.position b := rfl
  have hsecond : writeFuint32 host w b₁ = .value () b₂ := hw₂
  refine ⟨d.advance 4,?_⟩
  rw [echoString, Call.bind_value hstart, Call.bind_value hw₁, Call.bind_value hsecond,
    Call.bind_value hseek, Call.bind_value hread, Call.bind_value hnumber]
  rfl

theorem lt_ceil_mul_iff {base : ℕ} (hb : 0 < base) (n : ℕ) :
    n < (n + base - 1) / base * base ↔ n % base ≠ 0 := by
  obtain ⟨q,r,hr,rfl⟩ : ∃ q r, r < base ∧ n = base * q + r :=
    ⟨n / base,n % base,Nat.mod_lt _ hb,(Nat.div_add_mod n base).symm⟩
  rw [Nat.mul_add_mod, Nat.mod_eq_of_lt hr]
  by_cases hzero : r = 0
  · have hq : (base * q + r + base - 1) / base = q := by
      rw [hzero, Nat.add_zero, Nat.add_sub_assoc hb, Nat.mul_add_div hb,
        Nat.div_eq_of_lt (by omega), Nat.add_zero]
    rw [hq, Nat.mul_comm q]
    omega
  · have hsum : base * q + r + base - 1 = base * q + (base + (r - 1)) := by omega
    have hq : (base * q + r + base - 1) / base = q + 1 := by
      rw [hsum, Nat.mul_add_div hb, Nat.add_div_left _ hb, Nat.div_eq_of_lt (by omega)]
    rw [hq, Nat.succ_mul, Nat.mul_comm q]
    omega

/-- Behind `n` new bytes there is a node, except where the last one is just filled. -/
theorem grown_capacity (h : Consistent b) (n : ℕ) :
    b.position + n < (b.addCapacity n).capacity ↔
      b.position + n < b.capacity ∨ (b.position + n) % b.baseSize ≠ 0 := by
  have hp := h.position_le.trans h.size_le
  have hgc : b.getCapacity = b.capacity - b.position := rfl
  by_cases hroom : n ≤ b.getCapacity
  · rw [addCapacity_of_le hroom]
    refine ⟨.inl,?_⟩
    rintro (hlt | hmod)
    · exact hlt
    · by_contra hge
      have heq : b.position + n = b.capacity := by omega
      rw [heq, h.capacity_eq, Nat.mul_mod_left] at hmod
      exact hmod rfl
  · have hsum : b.position + n = b.root.length * b.baseSize + (n - b.getCapacity) := by
      rw [← h.capacity_eq]
      omega
    have hmod : (b.position + n) % b.baseSize = (n - b.getCapacity) % b.baseSize := by
      rw [hsum, Nat.mul_comm, Nat.mul_add_mod]
    have hceil := lt_ceil_mul_iff h.base_pos (n - b.getCapacity)
    rw [addCapacity_capacity h, hmod, ← hceil]
    omega

/-- There is a node where the empty string is read. -/
def NodeBehindPrefix (b : ByteArray) (k : StringKind) : Prop :=
  b.position + k.emptySize < b.capacity ∨ (b.position + k.emptySize) % b.baseSize ≠ 0

/-- A string at the end is read back unless it is empty and its prefix ends at the capacity. -/
theorem echoLastString_iff (h : Consistent b) (hs : s.length < k.limit)
    (hroom : room s.length = true) :
    (∃ b', echoLastString host room k s b = .value (s.map some) b') ↔
      s ≠ [] ∨ NodeBehindPrefix b k := by
  obtain ⟨pre,hpre⟩ := exists_prefix host room hs b.endian
  obtain ⟨b₁,hw,hwritten,hcap⟩ := hpre.written h
  obtain ⟨hseek,hc,rest,hu⟩ := hwritten.unread_seek
  have hstart : getPosition b = .value b.position b := rfl
  have hrun : echoLastString host room k s b = readStringKind host room k (b₁.seek b.position) := by
    rw [echoLastString, Call.bind_value hstart, Call.bind_value hw, Call.bind_value hseek]
  have hnode : s = [] → (NodeBehindPrefix b k ↔ b.position + pre.length < b₁.capacity) := by
    intro hnil
    rw [NodeBehindPrefix, ← grown_capacity h, hcap hnil, hpre.empty hnil]
  rw [hrun]
  constructor
  · rintro ⟨d,hd⟩
    by_contra hno
    rw [not_or, not_not] at hno
    obtain ⟨rfl,hno⟩ := hno
    rw [hnode rfl] at hno
    have hread : read 0 ((b₁.seek b.position).advance pre.length) = .fault .nullDereference := by
      rw [List.map_append, List.append_assoc] at hu
      have hle : pre.length ≤ (b₁.seek b.position).unread.length := by
        rw [hu, List.length_append, List.length_map]
        omega
      have hend : ¬((b₁.seek b.position).advance pre.length).position <
          ((b₁.seek b.position).advance pre.length).capacity := hno
      rw [read_nothing (advance_consistent hc hle), if_neg hend]
    rw [List.append_nil] at hu
    rw [hpre.reads _ _ hc hwritten.endian_eq hu, readString,
      Call.bind_value (resize_ok (limit_le hs) hroom), List.length_nil, hread] at hd
    cases hd
  · intro hyes
    have hafter : s ≠ [] ∨ (b₁.seek b.position).position + pre.length <
        (b₁.seek b.position).capacity := by
      by_cases hnil : s = []
      · exact .inr ((hnode hnil).mp (hyes.resolve_left (not_not.mpr hnil)))
      · exact .inl hnil
    obtain ⟨d,hread,-⟩ := hpre.read hc hwritten.endian_eq hu (limit_le hs) hroom hafter
    exact ⟨d,hread⟩

end Echo

/-- In every reachable array a string is read back, with a number behind it or as the last thing
in the array, exactly when it is not empty or there is a node behind its prefix. -/
theorem strings_read_back {b : ByteArray} (h : Reachable b) (host : Endian) (room : ℕ → Bool)
    (k : StringKind) (s : List Byte) (w : BitVec 32) (hs : s.length < k.limit)
    (hroom : room s.length = true) :
    ((∃ b', echoString host room k s w b = .value (s.map some, w) b') ∧
      ∃ b', echoLastString host room k s b = .value (s.map some) b') ↔
      s ≠ [] ∨ NodeBehindPrefix b k := by
  have hc := h.consistent
  rw [and_iff_right (echoString_eq hc hs hroom w)]
  exact echoLastString_iff hc hs hroom

/-- A string in the node of its length and in the next one, and the empty string. -/
theorem strings_read_back_three :
    Reachable (new 3) ∧
      (∃ b', echoLastString .little (fun _ => true) .f16 [104, 105] (new 3) =
        .value [some 104, some 105] b') ∧
      ∃ b', echoLastString .little (fun _ => true) .f16 [] (new 3) = .value [] b' := by
  have hnew : Reachable (new 3) := .new (by decide)
  have hback := strings_read_back hnew .little (fun _ => true) .f16 [104, 105] 7 (by decide) rfl
  have hempty := strings_read_back hnew .little (fun _ => true) .f16 [] 7 (by decide) rfl
  exact ⟨hnew,(hback.mpr (.inl (by decide))).2,(hempty.mpr (.inr (.inl (by decide)))).2⟩

/-- The prefix of two bytes fills a node of two bytes. -/
theorem empty_string_at_capacity :
    Reachable (new 2) ∧
      echoLastString .little (fun _ => true) .f16 [] (new 2) = .fault .nullDereference := by
  refine ⟨.new (by decide),?_⟩
  decide

section Agreement
variable {b : ByteArray} {host : Endian} {s : List Byte}

/-- The stored length is the number of bytes behind it, or nothing was written. -/
def PrefixAgrees {w : ℕ} (write : Call ByteArray Unit) (readLength : Call ByteArray (BitVec w))
    (b : ByteArray) : Prop :=
  match write b with
  | .value _ b' => ∃ c c' len, setPosition b.position b' = .value () c ∧
      readLength c = .value len c' ∧ c'.position + len.toNat = b'.position
  | .thrown _ b' => b' = b
  | .fault _ => False

/-- A length that is narrowed to `n` bytes agrees when it fits into them. -/
theorem prefixAgrees_fixed (h : Consistent b) {n : ℕ} (hn : 0 < n) :
    PrefixAgrees (do
      writeFixed host n (BitVec.ofNat (8 * n) s.length)
      writeStringWithoutLength s) (readFixed host n) b ↔ s.length < 2 ^ (8 * n) := by
  obtain ⟨b₁,hw₁,hwritten₁,-⟩ := writeBytes_written h
    (fixedBytes host b.endian n (BitVec.ofNat (8 * n) s.length))
  obtain ⟨b₂,hw₂,hwritten₂,-⟩ := writeBytes_written hwritten₁.consistent s
  have hwritten := hwritten₁.trans hwritten₂
  obtain ⟨hseek,hc,rest,hu⟩ := hwritten.unread_seek
  have hwrite : (do
      writeFixed host n (BitVec.ofNat (8 * n) s.length)
      writeStringWithoutLength s : Call ByteArray Unit) b = .value () b₂ := by
    have hfirst : writeFixed host n (BitVec.ofNat (8 * n) s.length) b = .value () b₁ := hw₁
    rw [Call.bind_value hfirst]
    exact hw₂
  have hend : (b₂.seek b.position).endian = b.endian := hwritten.endian_eq
  rw [List.map_append, List.append_assoc, ← hend] at hu
  have hread := readFixed_front hc hn hu
  have hpos : b₂.position = b.position + n + s.length := by
    rw [hwritten.position_eq, List.length_append, fixedBytes_length, Nat.add_assoc]
  simp only [PrefixAgrees, hwrite, hseek]
  constructor
  · rintro ⟨c,c',len,hd,hlen,hagree⟩
    cases hd
    rw [hread] at hlen
    cases hlen
    have hstored : b.position + n + s.length % 2 ^ (8 * n) = b₂.position := by
      rw [← hagree, BitVec.toNat_ofNat]
      rfl
    have hmod : s.length % 2 ^ (8 * n) = s.length := by omega
    rw [← hmod]
    exact Nat.mod_lt _ (Nat.two_pow_pos _)
  · intro hlt
    refine ⟨_,_,_,rfl,hread,?_⟩
    rw [BitVec.toNat_ofNat, Nat.mod_eq_of_lt hlt, hpos]
    rfl

end Agreement

/-- In every reachable array the stored length is that of the payload exactly when it fits. -/
theorem prefix_agrees {b : ByteArray} (h : Reachable b) (host : Endian) (s : List Byte) :
    (PrefixAgrees (writeStringF16 host s) (readFuint16 host) b ↔ s.length < 2 ^ 16) ∧
      (PrefixAgrees (writeStringF32 host s) (readFuint32 host) b ↔ s.length < 2 ^ 32) := by
  have hc := h.consistent
  exact ⟨prefixAgrees_fixed hc (n := 2) (by decide),prefixAgrees_fixed hc (n := 4) (by decide)⟩

theorem prefix_agrees_five :
    Reachable (new 5) ∧ PrefixAgrees (writeStringF16 .little [1, 2, 3]) (readFuint16 .little)
      (new 5) := by
  have hnew : Reachable (new 5) := .new (by decide)
  exact ⟨hnew,(prefix_agrees hnew .little [1, 2, 3]).1.mpr (by decide)⟩

/-- The length of 65536 bytes is stored as 0. -/
theorem prefix_disagrees : Reachable (new 8) ∧
    ¬PrefixAgrees (writeStringF16 .little (List.replicate 65536 7)) (readFuint16 .little)
      (new 8) := by
  have hnew : Reachable (new 8) := .new (by decide)
  have hno : ∀ s : List Byte, s.length = 65536 →
      ¬PrefixAgrees (writeStringF16 .little s) (readFuint16 .little) (new 8) := by
    intro s hs hagrees
    have hlt := (prefixAgrees_fixed hnew.consistent (n := 2) (by decide)).mp hagrees
    omega
  exact ⟨hnew,hno _ List.length_replicate⟩

end Gudov.ByteArray
