import Gudov.ByteArrayStrings

/-!
# Typed reads that fail

A read of several parts moves the cursor after each of them. When a later part is missing the
exception comes too late: a truncated integer is left behind its first groups, a truncated
string behind its length. Where the reads fail with nothing moved is said by the unread cells.
-/
namespace Gudov.ByteArray
open RowMemory StepSystem ByteCodec

section Atomic
variable {α β : Type} {b : ByteArray}

/-- A call that fails throws `std::out_of_range` and leaves the cursor where it was. -/
def Atomic (call : Call ByteArray α) (b : ByteArray) : Prop :=
  match call b with
  | .value _ _ => True
  | .thrown what b' => what = "not enough len" ∧ b'.position = b.position ∧ b'.cur = b.cur
  | .fault _ => False

theorem atomic_of_value {call : Call ByteArray α} {v : α} {b' : ByteArray}
    (h : call b = .value v b') : Atomic call b := by
  simp only [Atomic, h]

theorem atomic_of_throw {call : Call ByteArray α} (h : call b = .thrown "not enough len" b) :
    Atomic call b := by
  simp only [Atomic, h, and_self]

theorem not_atomic_of_fault {call : Call ByteArray α} {e : Fault} (h : call b = .fault e) :
    ¬Atomic call b := by
  simp only [Atomic, h, not_false_eq_true]

/-- A failure behind the position is not atomic. -/
theorem not_atomic_of_moved {call : Call ByteArray α} {p : ℕ} (h : FailsFrom p (call b))
    (hp : b.position < p) : ¬Atomic call b := by
  rw [Atomic]
  split
  next hcall =>
    rw [hcall] at h
    exact h.elim
  next what b' hcall =>
    rw [hcall] at h
    have hle : p ≤ b'.position := h
    rintro ⟨-,hpos,-⟩
    omega
  next => exact id

theorem atomic_of_stuck {call : Call ByteArray α} (h : Stuck b (call b)) :
    Atomic call b ↔ b.unread = [] := by
  rw [Stuck] at h
  split at h
  next hu => exact iff_of_true (atomic_of_throw h) hu
  next hu => exact iff_of_false (not_atomic_of_moved h (Nat.lt_succ_self _)) hu

/-- What is done with the value cannot fail. -/
theorem atomic_map {call : Call ByteArray α} {f : α → β} :
    Atomic (do
      let v ← call
      pure (f v)) b ↔ Atomic call b := by
  cases hcall : call b with
  | value v b' =>
    refine iff_of_true (@atomic_of_value _ _ _ (f v) b' ?_) (atomic_of_value hcall)
    rw [Call.bind_value hcall]
    rfl
  | thrown what b' => simp only [Atomic, Call.bind_thrown hcall, hcall]
  | fault e =>
    exact iff_of_false (not_atomic_of_fault (Call.bind_fault hcall)) (not_atomic_of_fault hcall)

end Atomic

section Integers
variable {b : ByteArray}

theorem readUint32_atomic (h : Consistent b) : Atomic readUint32 b ↔
    b.unread = [] ∨ (varint 5 b.unread).isSome ∨ continues 5 b.unread := by
  have hloop : if (varint 5 b.unread).isSome ∨ continues 5 b.unread
      then ∃ v b', readUint32 b = .value v b' else Stuck b (readUint32 b) :=
    readUint32Loop_outcome h
  split at hloop
  next hends =>
    obtain ⟨v,b',hvalue⟩ := hloop
    exact iff_of_true (atomic_of_value hvalue) (.inr hends)
  next hends =>
    rw [atomic_of_stuck hloop]
    exact ⟨.inl,fun hor => hor.resolve_right hends⟩

theorem readUint64_atomic (h : Consistent b) : Atomic readUint64 b ↔
    b.unread = [] ∨ (varint 5 b.unread).isSome := by
  cases hv : varint 5 b.unread with
  | none =>
    rw [atomic_of_stuck (readUint64_stuck h hv)]
    simp
  | some r => exact iff_of_true (atomic_of_value (readUint64_varint h hv)) (.inr rfl)

end Integers

section Strings
variable {b : ByteArray} {host : Endian} {room : ℕ → Bool}

/-- The payload is allocated and there, and there is a node to look at. -/
def PayloadRead (room : ℕ → Bool) (c : ByteArray) (len : ℕ) : Prop :=
  (len ≤ maxSize ∧ room len = true) ∧ len ≤ c.unread.length ∧
    (len = 0 → c.position < c.capacity)

theorem readString_outcome (h : Consistent b) (len : ℕ) :
    (PayloadRead room b len → ∃ v b', readString room len b = .value v b') ∧
      (¬PayloadRead room b len → FailsFrom b.position (readString room len b)) := by
  by_cases hroom : len ≤ maxSize ∧ room len = true
  · have hresize : readString room len b = read len b := by
      rw [readString, Call.bind_value (resize_ok hroom.1 hroom.2)]
    rw [hresize, PayloadRead, and_iff_right hroom]
    rcases Nat.eq_zero_or_pos len with rfl | hpos
    · rw [read_nothing h]
      constructor
      · rintro ⟨-,hnode⟩
        exact ⟨[],b,if_pos (hnode rfl)⟩
      · intro hno
        rw [if_neg]
        · trivial
        · intro hlt
          exact hno ⟨Nat.zero_le _,fun _ => hlt⟩
    · rw [read_unread h hpos]
      constructor
      · rintro ⟨hle,-⟩
        exact ⟨_,_,if_pos hle⟩
      · intro hno
        rw [if_neg]
        · exact le_rfl
        · intro hle
          exact hno ⟨hle,fun hzero => absurd hzero (Nat.pos_iff_ne_zero.mp hpos)⟩
  · refine ⟨fun hread => absurd hread.1 hroom,fun _ => ?_⟩
    obtain ⟨what,hthrow⟩ : ∃ what, resize room len b = .thrown what b := by
      rw [resize]
      split_ifs with hmax hfull
      · exact ⟨_,rfl⟩
      · exact absurd ⟨Nat.not_lt.mp hmax,hfull⟩ hroom
      · exact ⟨_,rfl⟩
    rw [readString, Call.bind_thrown hthrow]
    exact le_rfl

/-- A string reader whose length has been read. -/
theorem atomic_of_length (h : Consistent b) {call : Call ByteArray (List Cell)} {n len : ℕ}
    (hn : 0 < n) (hle : n ≤ b.unread.length)
    (hcall : call b = readString room len (b.advance n)) :
    Atomic call b ↔ PayloadRead room (b.advance n) len := by
  have houtcome := @readString_outcome _ room (advance_consistent h hle) len
  obtain ⟨hyes,hno⟩ := houtcome
  by_cases hread : PayloadRead room (b.advance n) len
  · obtain ⟨v,b',hvalue⟩ := hyes hread
    exact iff_of_true (atomic_of_value (hcall.trans hvalue)) hread
  · have hfails := hno hread
    rw [← hcall] at hfails
    exact iff_of_false (not_atomic_of_moved hfails (Nat.lt_add_of_pos_right hn)) hread

/-- The length in a prefix of `n` bytes, and `n`. -/
def fixedLength (host e : Endian) (n : ℕ) (cs : List Cell) : Option (ℕ × ℕ) :=
  if n ≤ cs.length then
    (determinate (cs.take n)).map fun bs => ((fixedValue host e n bs).toNat, n)
  else none

/-- The length in front of the cells, and how long its prefix is. -/
def storedLength (host e : Endian) : StringKind → List Cell → Option (ℕ × ℕ)
  | .f16, cs => fixedLength host e 2 cs
  | .f32, cs => fixedLength host e 4 cs
  | .f64, cs => fixedLength host e 8 cs
  | .vint, cs => (varint 5 cs).map fun r => (r.1 % 2 ^ 32, r.2)

/-- There is too little to begin with a prefix. -/
def NoPrefix : StringKind → List Cell → Prop
  | .vint, cs => cs = []
  | k, cs => cs.length < k.emptySize

/-- The payload that the stored length announces is read. -/
def AnnouncedRead (host : Endian) (room : ℕ → Bool) (k : StringKind) (b : ByteArray) : Prop :=
  ∃ len n, storedLength host b.endian k b.unread = some (len, n) ∧
    PayloadRead room (b.advance n) len

theorem fixedString_atomic (h : Consistent b) {n : ℕ} (hn : 0 < n) :
    Atomic (do
      let len ← readFixed host n
      readString room len.toNat) b ↔
      b.unread.length < n ∨ ∃ len m, fixedLength host b.endian n b.unread = some (len, m) ∧
        PayloadRead room (b.advance m) len := by
  have hread := readFixed_unread host h hn
  rw [fixedLength]
  split at hread
  next hle =>
    rw [or_iff_right (Nat.not_lt.mpr hle), if_pos hle]
    cases hdet : determinate (b.unread.take n) with
    | none =>
      rw [hdet] at hread
      refine iff_of_false (not_atomic_of_fault (Call.bind_fault hread)) ?_
      simp
    | some bs =>
      rw [hdet] at hread
      have hcall := Call.bind_value (f := fun len => readString room len.toNat) hread
      rw [atomic_of_length h hn hle hcall]
      simp
  next hle =>
    exact iff_of_true (atomic_of_throw (Call.bind_thrown hread)) (.inl (Nat.not_le.mp hle))

theorem vintString_atomic (h : Consistent b) : Atomic (readStringVint room) b ↔
    b.unread = [] ∨ AnnouncedRead host room .vint b := by
  rw [AnnouncedRead, storedLength]
  cases hv : varint 5 b.unread with
  | none =>
    have hstuck : Stuck b (readStringVint room b) := by
      have hprefix := readUint64_stuck h hv
      rw [Stuck] at hprefix ⊢
      split at hprefix
      next hu =>
        rw [if_pos hu]
        exact Call.bind_thrown hprefix
      next hu =>
        rw [if_neg hu]
        cases hread : readUint64 b with
        | value v b' =>
          rw [hread] at hprefix
          exact hprefix.elim
        | thrown what b' =>
          rw [hread] at hprefix
          rw [readStringVint, Call.bind_thrown hread]
          exact hprefix
        | fault e =>
          rw [readStringVint, Call.bind_fault hread]
          trivial
    rw [atomic_of_stuck hstuck]
    simp
  | some r =>
    obtain ⟨n,k⟩ := r
    obtain ⟨hpos,-,hle⟩ := varint_length hv
    have hvalue : (BitVec.ofNat 64 (n % 2 ^ 32)).toNat = n % 2 ^ 32 := by
      rw [BitVec.toNat_ofNat]
      exact Nat.mod_eq_of_lt ((Nat.mod_lt _ (by decide)).trans (by decide))
    have hcall := Call.bind_value (f := fun len => readString room len.toNat)
      (readUint64_varint h hv)
    rw [hvalue] at hcall
    have hne : b.unread ≠ [] := by
      intro hnil
      rw [hnil, List.length_nil] at hle
      omega
    rw [or_iff_right hne, readStringVint, atomic_of_length h hpos hle hcall]
    simp

theorem readStringKind_atomic (h : Consistent b) (k : StringKind) :
    Atomic (readStringKind host room k) b ↔
      NoPrefix k b.unread ∨ AnnouncedRead host room k b := by
  cases k with
  | f16 => exact fixedString_atomic h (by decide)
  | f32 => exact fixedString_atomic h (by decide)
  | f64 => exact fixedString_atomic h (by decide)
  | vint => exact vintString_atomic h

end Strings

inductive TypedRead
  | uint32
  | uint64
  | int32
  | int64
  | string (k : StringKind)
deriving Repr, DecidableEq

namespace TypedRead
variable (host : Endian) (room : ℕ → Bool) (b : ByteArray)

def IsAtomic : TypedRead → Prop
  | .uint32 => Atomic readUint32 b
  | .uint64 => Atomic readUint64 b
  | .int32 => Atomic readInt32 b
  | .int64 => Atomic readInt64 b
  | .string k => Atomic (readStringKind host room k) b

/-- Nothing of the value is there, or all of it. -/
def AllOrNothing : TypedRead → Prop
  | .uint32 | .int32 => b.unread = [] ∨ (varint 5 b.unread).isSome ∨ continues 5 b.unread
  | .uint64 | .int64 => b.unread = [] ∨ (varint 5 b.unread).isSome
  | .string k => NoPrefix k b.unread ∨ AnnouncedRead host room k b

end TypedRead

/-- In every reachable array and for every typed read: a failure throws `std::out_of_range` and
moves nothing, exactly when nothing of the value is there or all of it. -/
theorem typed_read_atomic_iff {b : ByteArray} (h : Reachable b) (host : Endian) (room : ℕ → Bool)
    (r : TypedRead) : r.IsAtomic host room b ↔ r.AllOrNothing host room b := by
  have hc := h.consistent
  cases r with
  | uint32 => exact readUint32_atomic hc
  | uint64 => exact readUint64_atomic hc
  | int32 => exact atomic_map.trans (readUint32_atomic hc)
  | int64 => exact atomic_map.trans (readUint64_atomic hc)
  | string k => exact readStringKind_atomic hc k

/-- Three of the four bytes of a length, in two nodes. -/
theorem typed_read_atomic_prefix : ∃ b : ByteArray, Reachable b ∧ b.position = 0 ∧
    b.unread.length = 3 ∧ readStringKind .little (fun _ => true) .f32 b =
      .thrown "not enough len" b ∧ TypedRead.IsAtomic .little (fun _ => true) b (.string .f32) := by
  have h₀ : Reachable (new 2) := .new (by decide)
  have h₁ : Reachable ⟨2,3,4,3,.little,[[some 5, some 0], [some 0, none]],some 1⟩ :=
    h₀.call (by decide : step (new 2) (.write [some 5, some 0, some 0]) = .ok (.done, _))
  have h₂ : Reachable ⟨2,0,4,3,.little,[[some 5, some 0], [some 0, none]],some 0⟩ :=
    h₁.call (by decide : step _ (.setPosition 0) = .ok (.done, _))
  have hshort : ByteArray.unread ⟨2,0,4,3,.little,[[some 5, some 0], [some 0, none]],some 0⟩ =
      [some 5, some 0, some 0] := by
    decide
  refine ⟨_,h₂,rfl,by decide,by decide,?_⟩
  refine (typed_read_atomic_iff h₂ .little (fun _ => true) (.string .f32)).mpr (.inl ?_)
  rw [hshort]
  exact Nat.lt_succ_self 3

/-- One byte that announces another one: it is read before the next is missed. -/
theorem truncated_read_moves : ∃ b c : ByteArray, Reachable b ∧ b.position = 0 ∧
    readUint32 b = .thrown "not enough len" c ∧ c.position = 1 ∧ ¬Atomic readUint32 b := by
  have h₀ : Reachable (new 4) := .new (by decide)
  have h₁ : Reachable ⟨4,1,4,1,.little,[[some 0x80, none, none, none]],some 0⟩ :=
    h₀.call (by decide : step (new 4) (.write [some 0x80]) = .ok (.done, _))
  have h₂ : Reachable ⟨4,0,4,1,.little,[[some 0x80, none, none, none]],some 0⟩ :=
    h₁.call (by decide : step _ (.setPosition 0) = .ok (.done, _))
  have hread : readUint32 ⟨4,0,4,1,.little,[[some 0x80, none, none, none]],some 0⟩ =
      .thrown "not enough len" ⟨4,1,4,1,.little,[[some 0x80, none, none, none]],some 0⟩ := by
    decide
  refine ⟨_,_,h₂,rfl,hread,rfl,not_atomic_of_moved (p := 1) ?_ (by decide)⟩
  rw [hread]
  exact le_rfl

end Gudov.ByteArray
