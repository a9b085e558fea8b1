import Gudov.IPAddresses

/-!
# The order of addresses

Addresses of four families with storage of different sizes. They are compared as byte strings:
`memcmp` on the length of the shorter one, and then the shorter one first. This is the
lexicographic order of the views, so that it is a strict total order, and `operator==` is the
equality of the views. No byte outside of the storage is read, since the length of an address is
at most the size of its storage.
-/
namespace Gudov
open ByteCodec

/-! ## Memory -/

/-- Only the sign of the result counts. -/
def memcmp : ℕ → List Byte → List Byte → Except Undefined ℤ
  | 0, _, _ => .ok 0
  | n + 1, x :: xs, y :: ys => if x = y then memcmp n xs ys else .ok (x.toNat - y.toNat)
  | _ + 1, _, _ => .error .outOfBounds

theorem memcmp_spec {n : ℕ} {xs ys : List Byte} (hx : n ≤ xs.length) (hy : n ≤ ys.length) :
    ∃ d, memcmp n xs ys = .ok d ∧ (d < 0 ↔ xs.take n < ys.take n) ∧
      (0 < d ↔ ys.take n < xs.take n) := by
  induction n generalizing xs ys with
  | zero => exact ⟨0,rfl,by simp⟩
  | succ n ih =>
    cases xs with
    | nil => simp at hx
    | cons x xs =>
      cases ys with
      | nil => simp at hy
      | cons y ys =>
        simp only [List.take_succ_cons, List.cons_lt_cons_iff]
        by_cases hxy : x = y
        · subst hxy
          obtain ⟨d,hd,hneg,hpos⟩ := ih (Nat.le_of_succ_le_succ hx) (Nat.le_of_succ_le_succ hy)
          refine ⟨d,?_,?_,?_⟩
          · rw [memcmp, if_pos rfl, hd]
          · rw [hneg]
            simp [BitVec.lt_irrefl]
          · rw [hpos]
            simp [BitVec.lt_irrefl]
        · refine ⟨x.toNat - y.toNat,by rw [memcmp, if_neg hxy],?_,?_⟩
          · rw [or_iff_left (by simp [hxy]), BitVec.lt_def]
            omega
          · rw [or_iff_left (by simp [Ne.symm hxy]), BitVec.lt_def]
            omega

/-- The lexicographic order by a common part of the length of the shorter one. -/
theorem lt_iff_take (xs ys : List Byte) : xs < ys ↔
    xs.take (min xs.length ys.length) < ys.take (min xs.length ys.length) ∨
      xs.take (min xs.length ys.length) = ys.take (min xs.length ys.length) ∧
        xs.length < ys.length := by
  induction xs generalizing ys with
  | nil => cases ys with
    | nil => simp
    | cons y ys => simp
  | cons x xs ih =>
    cases ys with
    | nil => simp
    | cons y ys =>
      simp only [List.length_cons, Nat.add_min_add_right, List.take_succ_cons,
        List.cons_lt_cons_iff, List.cons.injEq, Nat.add_lt_add_iff_right, ih]
      tauto

/-! ## Addresses -/

def afUnix : UInt16 := 1

structure SockaddrUn where
  sunFamily : UInt16
  sunPath : Vector UInt8 108
deriving Repr, DecidableEq

structure Sockaddr where
  saFamily : UInt16
  saData : Vector UInt8 14
deriving Repr, DecidableEq

/-- `length_` counts the family and the used bytes of the path. -/
structure UnixAddress where
  addr : SockaddrUn
  length : ℕ
  length_le : length ≤ 110
deriving Repr, DecidableEq

structure UnknownAddress where
  addr : Sockaddr
deriving Repr, DecidableEq

namespace UnixAddress

/-- `MAX_PATH_LEN` is the size of the path less one. -/
def empty : UnixAddress where
  addr := { sunFamily := afUnix, sunPath := Vector.replicate 108 0 }
  length := 2 + 107
  length_le := by decide

/-- The length that the system reports for the storage of the address. -/
def setAddrLen (a : UnixAddress) (v : ℕ) (h : v ≤ 110) : UnixAddress :=
  { a with length := v, length_le := h }

end UnixAddress

def UnknownAddress.ofFamily (family : UInt16) : UnknownAddress :=
  ⟨{ saFamily := family, saData := Vector.replicate 14 0 }⟩

inductive Address
  | ipv4 (a : IPv4Address)
  | ipv6 (a : IPv6Address)
  | unix (a : UnixAddress)
  | unknown (a : UnknownAddress)
deriving Repr, DecidableEq

namespace Address
variable (endian : Endian)

/-- The storage behind the pointer, field by field. -/
def getAddr : Address → List Byte
  | ipv4 a => ByteArray.toMemory endian 2 a.addr.sinFamily.toBitVec ++
      ByteArray.toMemory endian 2 a.addr.sinPort ++ ByteArray.toMemory endian 4 a.addr.sAddr ++
      ByteArray.toMemory endian 8 a.addr.sinZero
  | ipv6 a => ByteArray.toMemory endian 2 a.addr.sin6Family.toBitVec ++
      ByteArray.toMemory endian 2 a.addr.sin6Port ++
      ByteArray.toMemory endian 4 a.addr.sin6Flowinfo ++
      a.addr.s6Addr.toList.map UInt8.toBitVec ++ ByteArray.toMemory endian 4 a.addr.sin6ScopeId
  | unix a => ByteArray.toMemory endian 2 a.addr.sunFamily.toBitVec ++
      a.addr.sunPath.toList.map UInt8.toBitVec
  | unknown a => ByteArray.toMemory endian 2 a.addr.saFamily.toBitVec ++
      a.addr.saData.toList.map UInt8.toBitVec

def getAddrLen : Address → ℕ
  | ipv4 _ => 16
  | ipv6 _ => 28
  | unix a => a.length
  | unknown _ => 16

/-- `operator<` -/
def lt (lhs rhs : Address) : Except Undefined Bool := do
  let minLen := min lhs.getAddrLen rhs.getAddrLen
  let result ← memcmp minLen (lhs.getAddr endian) (rhs.getAddr endian)
  if result < 0 then .ok true
  else if 0 < result then .ok false
  else if lhs.getAddrLen < rhs.getAddrLen then .ok true
  else .ok false

/-- `operator==` -/
def eq (lhs rhs : Address) : Except Undefined Bool :=
  if lhs.getAddrLen = rhs.getAddrLen then do
    let result ← memcmp lhs.getAddrLen (lhs.getAddr endian) (rhs.getAddr endian)
    .ok (decide (result = 0))
  else .ok false

/-- `operator!=` -/
def ne (lhs rhs : Address) : Except Undefined Bool := do
  let equal ← lhs.eq endian rhs
  .ok (!equal)

/-! ## Views -/

/-- The bytes `GetAddr()[0, GetAddrLen())`. -/
def view (a : Address) : List Byte := (a.getAddr endian).take a.getAddrLen

theorem getAddrLen_le (a : Address) : a.getAddrLen ≤ (a.getAddr endian).length := by
  cases a with
  | ipv4 a => simp [getAddr, getAddrLen, ByteArray.toMemory_length]
  | ipv6 a => simp [getAddr, getAddrLen, ByteArray.toMemory_length]
  | unix a =>
    have h := a.length_le
    simp only [getAddr, getAddrLen, List.length_append, ByteArray.toMemory_length,
      List.length_map, Vector.length_toList]
    omega
  | unknown a => simp [getAddr, getAddrLen, ByteArray.toMemory_length]

theorem view_length (a : Address) : (a.view endian).length = a.getAddrLen := by
  rw [view, List.length_take]
  exact Nat.min_eq_left (a.getAddrLen_le endian)

/-- `memcmp` on a part of both views. -/
theorem memcmp_view {n : ℕ} {a b : Address} (ha : n ≤ a.getAddrLen) (hb : n ≤ b.getAddrLen) :
    ∃ d, memcmp n (a.getAddr endian) (b.getAddr endian) = .ok d ∧
      (d < 0 ↔ (a.view endian).take n < (b.view endian).take n) ∧
      (0 < d ↔ (b.view endian).take n < (a.view endian).take n) := by
  rw [view, view, List.take_take, List.take_take, Nat.min_eq_left ha, Nat.min_eq_left hb]
  exact memcmp_spec (ha.trans (a.getAddrLen_le endian)) (hb.trans (b.getAddrLen_le endian))

theorem eq_of_not_lt {xs ys : List Byte} (h : ¬ xs < ys) (h' : ¬ ys < xs) : xs = ys :=
  List.le_antisymm h' h

/-- The order of addresses is the lexicographic order of the views. -/
theorem lt_spec (a b : Address) :
    a.lt endian b = .ok (decide (a.view endian < b.view endian)) := by
  obtain ⟨d,hd,hneg,hpos⟩ := memcmp_view endian (a := a) (b := b)
    (Nat.min_le_left a.getAddrLen b.getAddrLen) (Nat.min_le_right a.getAddrLen b.getAddrLen)
  have hiff := lt_iff_take (a.view endian) (b.view endian)
  rw [view_length, view_length] at hiff
  rw [lt, hd]
  by_cases hlt : d < 0
  · have hview := hiff.mpr (.inl (hneg.mp hlt))
    simp only [bind, Except.bind, if_pos hlt, decide_eq_true hview]
  · by_cases hgt : 0 < d
    · have hview : ¬ a.view endian < b.view endian := by
        intro h
        rcases hiff.mp h with h | ⟨h,_⟩
        · exact hlt (hneg.mpr h)
        · rw [h] at hpos
          exact List.lt_irrefl _ (hpos.mp hgt)
      simp only [bind, Except.bind, if_neg hlt, if_pos hgt, decide_eq_false hview]
    · -- the views agree on the shorter length
      have hsame := eq_of_not_lt (mt hneg.mpr hlt) (mt hpos.mpr hgt)
      have hview : a.view endian < b.view endian ↔ a.getAddrLen < b.getAddrLen := by
        rw [hiff, hsame]
        simp [List.lt_irrefl]
      simp only [bind, Except.bind, if_neg hlt, if_neg hgt, hview]
      by_cases hlen : a.getAddrLen < b.getAddrLen
      · rw [if_pos hlen, decide_eq_true hlen]
      · rw [if_neg hlen, decide_eq_false hlen]

theorem eq_spec (a b : Address) :
    a.eq endian b = .ok (decide (a.view endian = b.view endian)) := by
  by_cases hlen : a.getAddrLen = b.getAddrLen
  · obtain ⟨d,hd,hneg,hpos⟩ := memcmp_view endian (a := a) (b := b) (Nat.le_refl a.getAddrLen)
      (Nat.le_of_eq hlen)
    rw [List.take_of_length_le (Nat.le_of_eq (a.view_length endian)),
      List.take_of_length_le (by rw [view_length, hlen])] at hneg hpos
    rw [eq, if_pos hlen, hd]
    have hview : d = 0 ↔ a.view endian = b.view endian := by
      constructor
      · intro h
        exact eq_of_not_lt (by rw [← hneg]; omega) (by rw [← hpos]; omega)
      · intro h
        rw [h, iff_false_right (List.lt_irrefl _)] at hneg hpos
        omega
    simp only [bind, Except.bind, hview]
  · have hview : a.view endian ≠ b.view endian := by
      intro h
      rw [← a.view_length endian, ← b.view_length endian, h] at hlen
      exact hlen rfl
    rw [eq, if_neg hlen, decide_eq_false hview]

theorem ne_spec (a b : Address) :
    a.ne endian b = .ok (decide (a.view endian ≠ b.view endian)) := by
  rw [ne, eq_spec, decide_not]
  rfl

end Address

/-- `operator<` is irreflexive and transitive, and of two addresses either one is the smaller
one or they are equal; `operator==` is the equality of the views and `operator!=` its
negation. -/
theorem address_order (endian : Endian) :
    (∀ a : Address, a.lt endian a = .ok false) ∧
    (∀ a b c : Address, a.lt endian b = .ok true → b.lt endian c = .ok true →
      a.lt endian c = .ok true) ∧
    (∀ a b : Address,
      (a.lt endian b = .ok true ∧ b.lt endian a = .ok false ∧ a.eq endian b = .ok false) ∨
      (a.lt endian b = .ok false ∧ b.lt endian a = .ok true ∧ a.eq endian b = .ok false) ∨
      (a.lt endian b = .ok false ∧ b.lt endian a = .ok false ∧ a.eq endian b = .ok true)) ∧
    ∀ a b : Address, a.eq endian b = .ok (decide (a.view endian = b.view endian)) ∧
      a.ne endian b = .ok (decide (a.view endian ≠ b.view endian)) := by
  refine ⟨?_,?_,?_,fun a b => ⟨a.eq_spec endian b,a.ne_spec endian b⟩⟩
  · intro a
    rw [Address.lt_spec, decide_eq_false (List.lt_irrefl _)]
  · intro a b c
    simp only [Address.lt_spec, Except.ok.injEq, decide_eq_true_eq]
    exact List.lt_trans
  · intro a b
    simp only [Address.lt_spec, Address.eq_spec, Except.ok.injEq, decide_eq_true_eq,
      decide_eq_false_iff_not]
    by_cases hlt : a.view endian < b.view endian
    · refine .inl ⟨hlt,List.lt_asymm hlt,?_⟩
      intro h
      rw [h] at hlt
      exact List.lt_irrefl _ hlt
    · by_cases hgt : b.view endian < a.view endian
      · refine .inr (.inl ⟨hlt,hgt,?_⟩)
        intro h
        rw [h] at hgt
        exact List.lt_irrefl _ hgt
      · exact .inr (.inr ⟨hlt,hgt,Address.eq_of_not_lt hlt hgt⟩)

/-- An IPv4 address, the empty path and an IPv6 address. -/
theorem address_order_families :
    (Address.unix .empty).lt .little (.ipv6 (.ofBytes .little (Vector.replicate 16 0) 80)) =
      .ok true := by
  refine (address_order .little).2.1 _ (.ipv4 (.ofNumber .little 0x7F000001 80)) _ ?_ ?_
  · decide
  · decide

end Gudov
