import Gudov.ByteArrayUnread

/-!
# 64-bit integers of variable length

`WriteUint64` writes groups of seven bits of any 64-bit value. `ReadUint64` widens each group
to 32 bits before it shifts it, so that it loses what is above bit 31 of the fifth group and
shifts by more than 32 for a sixth one. The values below 2^32 are read back, and no others.
-/
namespace Gudov.ByteArray
open RowMemory StepSystem ByteCodec

section ReadBack
variable {α : Type} {b : ByteArray}

/-- Write, seek back to the start and read. With the value come the positions behind what was
written and behind what was read. -/
def writeSeekRead (write : Call ByteArray Unit) (read : Call ByteArray α) :
    Call ByteArray (α × ℕ × ℕ) := do
  let start ← getPosition
  write
  let stop ← getPosition
  setPosition start
  let v ← read
  let reached ← getPosition
  pure (v, stop, reached)

/-- The value is returned, and the bytes read are those written. -/
def ReadsBack (write : Call ByteArray Unit) (read : Call ByteArray α) (v : α) (b : ByteArray) :
    Prop :=
  ∃ stop b', writeSeekRead write read b = .value (v, stop, stop) b'

theorem writeSeekRead_eq {write : Call ByteArray Unit} {read : Call ByteArray α}
    {b' : ByteArray} {xs : List Byte} (hwrite : write b = .value () b') (hw : Written b xs b') :
    writeSeekRead write read b =
      (do
        let v ← read
        let reached ← getPosition
        pure (v, b.position + xs.length, reached) : Call ByteArray (α × ℕ × ℕ))
        (b'.seek b.position) := by
  have hstart : getPosition b = .value b.position b := rfl
  have hstop : getPosition b' = .value (b.position + xs.length) b' := by
    rw [getPosition, hw.position_eq]
  rw [writeSeekRead, Call.bind_value hstart, Call.bind_value hwrite, Call.bind_value hstop,
    Call.bind_value hw.unread_seek.1]

/-- What is read after the seek decides. -/
theorem readsBack_iff {write : Call ByteArray Unit} {read : Call ByteArray α} {v : α}
    {b' : ByteArray} {xs : List Byte} (hwrite : write b = .value () b') (hw : Written b xs b') :
    ReadsBack write read v b ↔
      ∃ c, read (b'.seek b.position) = .value v c ∧ c.position = b.position + xs.length := by
  have heq := @writeSeekRead_eq _ _ _ read _ _ hwrite hw
  rw [ReadsBack]
  cases hread : read (b'.seek b.position) with
  | value u c =>
    have hall : writeSeekRead write read b =
        .value (u, b.position + xs.length, c.position) c := by
      have hreached : getPosition c = .value c.position c := rfl
      rw [heq, Call.bind_value hread, Call.bind_value hreached]
      rfl
    simp only [hall, Outcome.value.injEq, Prod.mk.injEq]
    constructor
    · rintro ⟨stop,d,⟨hu,hstop,hreached⟩,-⟩
      exact ⟨c,⟨hu,rfl⟩,hreached.trans hstop.symm⟩
    · rintro ⟨d,⟨hu,rfl⟩,hpos⟩
      exact ⟨_,c,⟨hu,rfl,hpos⟩,rfl⟩
  | thrown what c =>
    rw [heq, Call.bind_thrown hread]
    simp
  | fault e =>
    rw [heq, Call.bind_fault hread]
    simp

end ReadBack

section Wide
variable {b : ByteArray}

/-- The groups of a 64-bit value, at most five of them below 2^32. -/
theorem writeUint64_written (h : Consistent b) (v : BitVec 64) :
    ∃ enc b', writeUint64 v b = .value () b' ∧ Written b enc b' ∧ Groups enc v.toNat ∧
      (v.toNat < 2 ^ 32 → enc.length ≤ 5) := by
  obtain ⟨enc,henc,_,hg⟩ := groupLoop_64 v
  obtain ⟨b',hw,hwritten,-⟩ := writeBytes_written h enc
  refine ⟨enc,b',?_,hwritten,hg,?_⟩
  · simp only [writeUint64, writeGroups, henc, liftFault, hw]
  · intro hv
    obtain ⟨short,hshort,hlen,-⟩ : ∃ short, groupLoop 10 65 v [] = .ok ([] ++ short) ∧
        short.length ≤ 5 ∧ Groups short v.toNat :=
      groupLoop_spec (by decide) 4 65 v [] (by decide) (lt_of_lt_of_le hv (by decide)) (by decide)
    rw [henc] at hshort
    cases hshort
    exact hlen

/-- The 64-bit reader only returns values below 2^32. -/
theorem readUint64_lt (h : Consistent b) {v : BitVec 64} {b' : ByteArray}
    (hread : readUint64 b = .value v b') : v.toNat < 2 ^ 32 := by
  cases hv : varint 5 b.unread with
  | none =>
    have hstuck := readUint64_stuck h hv
    rw [hread] at hstuck
    exact hstuck.not_value.elim
  | some r =>
    obtain ⟨n,k⟩ := r
    rw [readUint64_varint h hv] at hread
    cases hread
    rw [BitVec.toNat_ofNat]
    exact lt_of_le_of_lt (Nat.mod_le _ _) (Nat.mod_lt _ (by decide))

/-- A value below 2^32 is read behind what was written for it. -/
theorem readUint64_of_lt {b' : ByteArray} {v : BitVec 64} {enc : List Byte}
    (hw : Written b enc b') (hg : Groups enc v.toNat) (hlen : enc.length ≤ 5)
    (hv : v.toNat < 2 ^ 32) :
    readUint64 (b'.seek b.position) =
      .value v ((b'.seek b.position).advance enc.length) := by
  obtain ⟨-,hc,rest,hunread⟩ := hw.unread_seek
  have hvarint := varint_groups hg hlen rest
  rw [← hunread] at hvarint
  rw [readUint64_varint hc hvarint, Nat.mod_eq_of_lt hv, BitVec.ofNat_toNat, BitVec.setWidth_eq]

theorem readUint64_readsBack (h : Consistent b) (v : BitVec 64) :
    ReadsBack (writeUint64 v) readUint64 v b ↔ v.toNat < 2 ^ 32 := by
  obtain ⟨enc,b',hwrite,hw,hg,hshort⟩ := writeUint64_written h v
  rw [readsBack_iff hwrite hw]
  constructor
  · rintro ⟨c,hread,-⟩
    exact readUint64_lt hw.unread_seek.2.1 hread
  · intro hv
    exact ⟨_,readUint64_of_lt hw hg (hshort hv) hv,rfl⟩

theorem readInt64_eq {v : BitVec 64} {b' : ByteArray} : readInt64 b = .value v b' ↔
    ∃ u, readUint64 b = .value u b' ∧ decodeZigzag64 u = v := by
  cases hread : readUint64 b with
  | value u c =>
    have hint : readInt64 b = .value (decodeZigzag64 u) c := by
      rw [readInt64, Call.bind_value hread]
      rfl
    simp only [hint, Outcome.value.injEq]
    constructor
    · rintro ⟨hu,rfl⟩
      exact ⟨u,⟨rfl,rfl⟩,hu⟩
    · rintro ⟨u',⟨rfl,rfl⟩,hu⟩
      exact ⟨hu,rfl⟩
  | thrown what c =>
    rw [readInt64, Call.bind_thrown hread]
    simp
  | fault e =>
    rw [readInt64, Call.bind_fault hread]
    simp

theorem readInt64_readsBack (h : Consistent b) (v : BitVec 64) :
    ReadsBack (writeInt64 v) readInt64 v b ↔ -2 ^ 31 ≤ v.toInt ∧ v.toInt < 2 ^ 31 := by
  obtain ⟨enc,b',hwrite,hw,hg,hshort⟩ := writeUint64_written h (encodeZigzag64 v)
  have hv : v.toNat < 2 ^ 64 := v.isLt
  rw [writeInt64, readsBack_iff hwrite hw, BitVec.toInt_eq_toNat_cond]
  constructor
  · rintro ⟨c,hread,-⟩
    obtain ⟨u,hu,rfl⟩ := readInt64_eq.mp hread
    have hlt := readUint64_lt hw.unread_seek.2.1 hu
    have hdecode : (decodeZigzag64 u).toNat =
        if u.toNat % 2 = 0 then u.toNat / 2 else 2 ^ 64 - 1 - u.toNat / 2 :=
      unzigzag_toNat (by decide) u
    rw [hdecode]
    split_ifs <;> omega
  · intro hrange
    have hencode : (encodeZigzag64 v).toNat =
        if v.toNat < 2 ^ 63 then 2 * v.toNat else 2 * (2 ^ 64 - v.toNat) - 1 :=
      zigzag_toNat (by decide) v
    have hlt : (encodeZigzag64 v).toNat < 2 ^ 32 := by
      rw [hencode]
      split_ifs at hrange ⊢ <;> omega
    exact ⟨_,readInt64_eq.mpr ⟨_,readUint64_of_lt hw hg (hshort hlt) hlt,
      unzigzag_zigzag (by decide) v⟩,rfl⟩

end Wide

/-- In every reachable array, the unsigned values that are read back are those below 2^32, the
signed ones those of 32 bits. -/
theorem wide_integers_read_back {b : ByteArray} (h : Reachable b) :
    (∀ v : BitVec 64, ReadsBack (writeUint64 v) readUint64 v b ↔ v.toNat < 2 ^ 32) ∧
      ∀ v : BitVec 64, ReadsBack (writeInt64 v) readInt64 v b ↔
        -2 ^ 31 ≤ v.toInt ∧ v.toInt < 2 ^ 31 := by
  have hc := h.consistent
  exact ⟨readUint64_readsBack hc,readInt64_readsBack hc⟩

theorem wide_integers_read_back_three :
    Reachable (new 3) ∧ ReadsBack (writeUint64 0xFFFFFFFF) readUint64 0xFFFFFFFF (new 3) ∧
      ReadsBack (writeInt64 (-5)) readInt64 (-5) (new 3) := by
  have hnew : Reachable (new 3) := .new (by decide)
  obtain ⟨hunsigned,hsigned⟩ := wide_integers_read_back hnew
  exact ⟨hnew,(hunsigned 0xFFFFFFFF).mpr (by decide),(hsigned (-5)).mpr (by decide)⟩

/-- The fifth group of 2^32 is lost, and the sixth one of 2^35 is shifted by 35. -/
theorem wide_integers_lost :
    Reachable (new 8) ∧ ¬ReadsBack (writeUint64 0x100000000) readUint64 0x100000000 (new 8) ∧
      ¬ReadsBack (writeInt64 0x80000000) readInt64 0x80000000 (new 8) ∧
      writeSeekRead (writeUint64 0x800000000) readUint64 (new 8) = .fault .invalidShift := by
  have hnew : Reachable (new 8) := .new (by decide)
  refine ⟨hnew,?_,?_,by decide +kernel⟩
  · rw [readUint64_readsBack hnew.consistent]
    decide
  · rw [readInt64_readsBack hnew.consistent]
    decide

end Gudov.ByteArray
