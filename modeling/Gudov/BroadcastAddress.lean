import Gudov.NetworkAddress

/-!
# Broadcast addresses and subnet masks

Here the mask of the last bits is the right one: the broadcast address takes the union with it
and the subnet mask is its complement. What is left are the ends of the range of lengths. The
mask of an IPv4 address cannot be made for the lengths 0 and 1, where the shift is by the width
of `int` and the difference is outside of `int`. The mask of an IPv6 address always exists, but
for the length 128 it is written to the byte behind the address.
-/
namespace Gudov
open ByteCodec

/-- The first `p` bits are kept and the others up to `n` are set. -/
structure Raises (n p : ℕ) (a r : ℕ → Bool) : Prop where
  first : ∀ i < p, r i = a i
  rest : ∀ i, p ≤ i → i < n → r i = true

namespace IPv4Address
variable (endian : Endian)

def HasBroadcast (p : ℕ) (a : IPv4Address) : Prop :=
  ∃ r, a.broadcastAddress endian p = .ok (some r) ∧
    (∃ sAddr, r.addr = { a.addr with sAddr := sAddr }) ∧ Raises 32 p (a.bit endian) (r.bit endian)

def HasSubnet (p : ℕ) : Prop :=
  ∃ r, subnetAddress endian p = .ok r ∧ ∀ i < 32, r.bit endian i = decide (i < p)

variable {endian} {p : ℕ}

theorem broadcastAddress_bounds {a r : IPv4Address}
    (h : a.broadcastAddress endian p = .ok (some r)) : 2 ≤ p ∧ p ≤ 32 := by
  have hle : p ≤ 32 := by
    by_contra hgt
    rw [broadcastAddress, if_pos (by omega)] at h
    cases h
  refine ⟨?_,hle⟩
  by_contra hlt
  have hcases : p = 0 ∨ p = 1 := by omega
  rcases hcases with rfl | rfl
  · cases h
  · cases h

variable (endian) in
theorem broadcastAddress_spec (a : IPv4Address) (hp : 2 ≤ p) (hp' : p ≤ 32) :
    a.HasBroadcast endian p := by
  have hbits : ∀ i < 32, (byteSwapOnLittleEndian endian (k := 4) (a.addr.sAddr |||
      byteSwapOnLittleEndian endian (k := 4) (BitVec.ofNat 32 (2 ^ (32 - p) - 1)))).getMsbD i =
        (a.bit endian i || decide (p ≤ i)) := by
    intro i hi
    rw [swap_or, byteSwapOnLittleEndian_twice, BitVec.getMsbD_or, mask_getMsbD hi]
    rfl
  refine ⟨_,?_,⟨a.addr.sAddr ||| byteSwapOnLittleEndian endian (k := 4)
    (BitVec.ofNat 32 (2 ^ (32 - p) - 1)),rfl⟩,?_,?_⟩
  · rw [broadcastAddress, if_neg (by omega), createMask_ok hp' (by omega)]
    rfl
  · intro i hi
    rw [bit, number, hbits i (by omega), decide_eq_false (by omega), Bool.or_false]
  · intro i hi hi'
    rw [bit, number, hbits i hi', decide_eq_true hi, Bool.or_true]

variable (endian) in
theorem subnetAddress_spec (hp : 2 ≤ p) (hp' : p ≤ 32) : HasSubnet endian p := by
  refine ⟨⟨{ sinFamily := afInet
             sinPort := 0
             sAddr := ~~~byteSwapOnLittleEndian endian (k := 4)
               (BitVec.ofNat 32 (2 ^ (32 - p) - 1))
             sinZero := 0 }⟩,?_,?_⟩
  · rw [subnetAddress, createMask_ok hp' (by omega)]
    rfl
  · intro i hi
    rw [bit, number, swap_not, byteSwapOnLittleEndian_twice, BitVec.getMsbD_not, mask_getMsbD hi,
      decide_eq_true hi, Bool.true_and, ← decide_not]
    exact decide_eq_decide.mpr Nat.not_le

end IPv4Address

namespace IPv6Address

def HasBroadcast (p : ℕ) (a : IPv6Address) : Prop :=
  ∃ r, a.broadcastAddress p = .ok r ∧
    (∃ s6Addr, r.addr = { a.addr with s6Addr := s6Addr }) ∧ Raises 128 p a.bit r.bit

def HasSubnet (p : ℕ) : Prop :=
  ∃ r, subnetAddress p = .ok r ∧ ∀ i < 128, r.bit i = decide (i < p)

theorem fillTo_get {v : UInt8} {bs : Vector UInt8 16} (i j : ℕ) (hj : j < 16) :
    (fillTo v i bs)[j]? = if j < i then some v else bs[j]? := by
  rw [fillTo, foldl_set_get _ j hj]
  simp only [List.mem_range]

variable {p : ℕ}

theorem broadcastAddress_bounds {a r : IPv6Address} (h : a.broadcastAddress p = .ok r) :
    p < 128 := by
  by_contra hge
  rw [broadcastAddress, createMask_byte] at h
  have hindex : ¬ p / 8 < 16 := by omega
  simp only [bind, Except.bind, hindex, dif_neg, not_false_eq_true] at h
  cases h

/-- In the byte where the prefix ends the last bits are set, and all bits behind it. -/
theorem broadcastAddress_spec (a : IPv6Address) (hp : p < 128) : a.HasBroadcast p := by
  have hindex : p / 8 < 16 := by omega
  have hcall : a.broadcastAddress p = .ok ⟨{ a.addr with
      s6Addr := fillFrom 0xff (p / 8 + 1) (a.addr.s6Addr.set (p / 8)
        (a.addr.s6Addr[p / 8] ||| ⟨BitVec.ofNat 8 (2 ^ (8 - p % 8) - 1)⟩)) }⟩ := by
    rw [broadcastAddress, createMask_byte]
    simp only [bind, Except.bind, hindex, dif_pos]
  have hbits : ∀ j m, j < 16 → m < 8 → bit ⟨{ a.addr with
      s6Addr := fillFrom 0xff (p / 8 + 1) (a.addr.s6Addr.set (p / 8)
        (a.addr.s6Addr[p / 8] ||| ⟨BitVec.ofNat 8 (2 ^ (8 - p % 8) - 1)⟩)) }⟩ (8 * j + m) =
          (a.bit (8 * j + m) || decide (p ≤ 8 * j + m)) := by
    intro j m hj hm
    have hdiv : (8 * j + m) / 8 = j := by omega
    have hmod : (8 * j + m) % 8 = m := by omega
    rw [bit_at a hj hm, bit, hdiv, hmod, fillFrom_get _ _ hj, Vector.getElem?_set]
    rcases Nat.lt_trichotomy j (p / 8) with hlt | rfl | hgt
    · rw [if_neg (by omega), if_neg (by omega), Vector.getElem?_eq_getElem hj,
        decide_eq_false (by omega), Bool.or_false]
      rfl
    · rw [if_neg (by omega), if_pos rfl, Option.getD_some, UInt8.toBitVec_or, BitVec.getMsbD_or,
        mask_getMsbD hm]
      congr 1
      rw [decide_eq_decide]
      omega
    · rw [if_pos (by omega), decide_eq_true (by omega), Bool.or_true, Option.getD_some]
      have hones : (0xff : UInt8).toBitVec = BitVec.allOnes 8 := rfl
      rw [hones, BitVec.getMsbD_allOnes, decide_eq_true hm]
  refine ⟨_,hcall,⟨_,rfl⟩,?_,?_⟩
  · intro i hi
    obtain ⟨j,m,rfl,hm⟩ : ∃ j m, i = 8 * j + m ∧ m < 8 := ⟨i / 8,i % 8,by omega,by omega⟩
    rw [hbits j m (by omega) hm, decide_eq_false (by omega), Bool.or_false]
  · intro i hi hi'
    obtain ⟨j,m,rfl,hm⟩ : ∃ j m, i = 8 * j + m ∧ m < 8 := ⟨i / 8,i % 8,by omega,by omega⟩
    rw [hbits j m (by omega) hm, decide_eq_true hi, Bool.or_true]

theorem subnetAddress_spec (hp : p < 128) : HasSubnet p := by
  have hindex : p / 8 < 16 := by omega
  refine ⟨⟨{ sin6Family := afInet6
             sin6Port := 0
             sin6Flowinfo := 0
             s6Addr := fillTo 0xff (p / 8) ((Vector.replicate 16 0x00).set (p / 8)
               (~~~⟨BitVec.ofNat 8 (2 ^ (8 - p % 8) - 1)⟩))
             sin6ScopeId := 0 }⟩,?_,?_⟩
  · rw [subnetAddress, createMask_byte]
    simp only [bind, Except.bind, hindex, dif_pos]
  · intro i hi
    have hj : i / 8 < 16 := by omega
    have hm : i % 8 < 8 := by omega
    rw [bit, fillTo_get _ _ hj, Vector.getElem?_set]
    rcases Nat.lt_trichotomy (i / 8) (p / 8) with hlt | heq | hgt
    · have hones : (0xff : UInt8).toBitVec = BitVec.allOnes 8 := rfl
      rw [if_pos hlt, Option.getD_some, hones, BitVec.getMsbD_allOnes, decide_eq_true hm,
        decide_eq_true (by omega)]
    · rw [if_neg (by omega), if_pos heq.symm, Option.getD_some, UInt8.toBitVec_not,
        BitVec.getMsbD_not, mask_getMsbD hm, decide_eq_true hm, Bool.true_and, ← decide_not,
        decide_eq_decide]
      omega
    · rw [if_neg (by omega), if_neg (by omega), decide_eq_false (by omega),
        Vector.getElem?_eq_getElem hj, Vector.getElem_replicate]
      exact BitVec.getMsbD_zero

end IPv6Address

/-- For every address and length: the broadcast address and the subnet mask of an IPv4 address
are as they should be exactly when the length is at least 2 and at most 32, those of an IPv6
address exactly when it is below 128. -/
theorem broadcast_subnet_iff (endian : Endian) :
    (∀ (a : IPv4Address) p,
      a.HasBroadcast endian p ∧ IPv4Address.HasSubnet endian p ↔ 2 ≤ p ∧ p ≤ 32) ∧
    ∀ (a : IPv6Address) p, a.HasBroadcast p ∧ IPv6Address.HasSubnet p ↔ p < 128 := by
  constructor
  · intro a p
    constructor
    · rintro ⟨⟨r,hr,_⟩,_⟩
      exact IPv4Address.broadcastAddress_bounds hr
    · rintro ⟨hp,hp'⟩
      exact ⟨IPv4Address.broadcastAddress_spec endian a hp hp',
        IPv4Address.subnetAddress_spec endian hp hp'⟩
  · intro a p
    constructor
    · rintro ⟨⟨r,hr,_⟩,_⟩
      exact IPv6Address.broadcastAddress_bounds hr
    · intro hp
      exact ⟨IPv6Address.broadcastAddress_spec a hp,IPv6Address.subnetAddress_spec hp⟩

/-- The lengths 0 and 1 for 192.168.1.1, and 128 for `fe80::1`. -/
theorem no_broadcastAddress :
    (IPv4Address.ofNumber .little 0xC0A80101 0).broadcastAddress .little 0 = .error .shift ∧
    (IPv4Address.ofNumber .little 0xC0A80101 0).broadcastAddress .little 1 = .error .overflow ∧
    IPv4Address.subnetAddress .little 0 = .error .shift ∧
    (linkLocal 1).broadcastAddress 128 = .error .outOfBounds ∧
    IPv6Address.subnetAddress 128 = .error .outOfBounds ∧
    ¬ (IPv4Address.ofNumber .little 0xC0A80101 0).HasBroadcast .little 0 ∧
    ¬ IPv6Address.HasSubnet 128 := by
  refine ⟨by decide,by decide,by decide,by decide,by decide,?_,?_⟩
  · rintro ⟨r,hr,_⟩
    cases hr
  · rintro ⟨r,hr,_⟩
    cases hr

end Gudov
