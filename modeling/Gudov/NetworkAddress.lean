import Gudov.IPAddresses

/-!
# Network addresses

The network address of a prefix length keeps the first bits of an address and clears the others.
`CreateMask` makes the mask of the others, and both functions take the intersection with it. So
the IPv4 address keeps its last bits. In an IPv6 address this is done to the one byte in which
the prefix ends; the bytes in front of it are kept and those behind it cleared.
-/
namespace Gudov
open ByteCodec

/-! ## Strings of bits -/

/-- The first `p` bits are kept and the others up to `n` are cleared. -/
structure Keeps (n p : ℕ) (a r : ℕ → Bool) : Prop where
  first : ∀ i < p, r i = a i
  rest : ∀ i, p ≤ i → i < n → r i = false

section Bits
variable {n p : ℕ} {a b r s : ℕ → Bool}

theorem Keeps.again (h : Keeps n p a r) : Keeps n p r r := ⟨fun _ _ => rfl,h.rest⟩

theorem Keeps.unique (h : Keeps n p a r) (h' : Keeps n p a s) : ∀ i < n, r i = s i := by
  intro i hi
  by_cases hp : i < p
  · rw [h.first i hp, h'.first i hp]
  · rw [h.rest i (Nat.le_of_not_lt hp) hi, h'.rest i (Nat.le_of_not_lt hp) hi]

theorem Keeps.eq_iff (h : Keeps n p a r) (h' : Keeps n p b s) (hp : p ≤ n) :
    (∀ i < n, r i = s i) ↔ ∀ i < p, a i = b i := by
  constructor
  · intro heq i hi
    rw [← h.first i hi, ← h'.first i hi, heq i (Nat.lt_of_lt_of_le hi hp)]
  · intro heq
    refine Keeps.unique h ⟨?_,h'.rest⟩
    intro i hi
    rw [h'.first i hi, heq i hi]

end Bits

section Words

theorem number_testBit (ds : List (BitVec 8)) (i : ℕ) :
    (number ds).testBit i = ((ds[i / 8]?).getD 0).getLsbD (i % 8) := by
  induction ds generalizing i with
  | nil => simp [number]
  | cons d ds ih =>
    have hsum : number (d :: ds) = 2 ^ 8 * number ds + d.toNat := by
      rw [number]
      omega
    rw [hsum, Nat.testBit_two_pow_mul_add _ d.isLt]
    by_cases hi : i < 8
    · rw [if_pos hi, Nat.div_eq_of_lt hi, Nat.mod_eq_of_lt hi]
      rfl
    · obtain ⟨j,rfl⟩ : ∃ j, i = j + 8 := ⟨i - 8,by omega⟩
      rw [if_neg hi, Nat.add_sub_cancel, ih, Nat.add_div_right j (by decide), Nat.add_mod_right]
      rfl

theorem word_getLsbD {k : ℕ} {ds : List (BitVec 8)} {i : ℕ} (hi : i < 8 * k) :
    (word k ds).getLsbD i = ((ds[i / 8]?).getD 0).getLsbD (i % 8) := by
  rw [word, BitVec.getLsbD_ofNat, number_testBit]
  simp [hi]

/-- Each bit moves with its byte. -/
theorem byteSwap_getLsbD {k : ℕ} (v : BitVec (8 * k)) {i : ℕ} (hi : i < 8 * k) :
    (ByteArray.byteSwap v).getLsbD i = v.getLsbD (8 * (k - 1 - i / 8) + i % 8) := by
  have hj : 8 * (k - 1 - i / 8) + i % 8 < 8 * k := by omega
  have hdiv : (8 * (k - 1 - i / 8) + i % 8) / 8 = k - 1 - i / 8 := by omega
  have hmod : (8 * (k - 1 - i / 8) + i % 8) % 8 = i % 8 := by omega
  conv_rhs => rw [← word_digits v]
  rw [ByteArray.byteSwap, word_getLsbD hi, word_getLsbD hj, hdiv, hmod,
    List.getElem?_reverse (by rw [digits_length]; omega), digits_length]

/-- Where a bit of the swapped word was. -/
def swapIndex (endian : Endian) (k i : ℕ) : ℕ :=
  match endian with
  | .little => 8 * (k - 1 - i / 8) + i % 8
  | .big => i

theorem swapIndex_lt (endian : Endian) {k i : ℕ} (hi : i < 8 * k) :
    swapIndex endian k i < 8 * k := by
  cases endian with
  | little =>
    rw [swapIndex]
    omega
  | big => exact hi

theorem swap_getLsbD (endian : Endian) {k : ℕ} (v : BitVec (8 * k)) {i : ℕ} (hi : i < 8 * k) :
    (byteSwapOnLittleEndian endian v).getLsbD i = v.getLsbD (swapIndex endian k i) := by
  cases endian with
  | little => exact byteSwap_getLsbD v hi
  | big => rfl

theorem swap_and (endian : Endian) {k : ℕ} (v w : BitVec (8 * k)) :
    byteSwapOnLittleEndian endian (v &&& w) =
      byteSwapOnLittleEndian endian v &&& byteSwapOnLittleEndian endian w := by
  apply BitVec.eq_of_getLsbD_eq
  intro i hi
  simp only [BitVec.getLsbD_and, swap_getLsbD endian _ hi]

theorem swap_or (endian : Endian) {k : ℕ} (v w : BitVec (8 * k)) :
    byteSwapOnLittleEndian endian (v ||| w) =
      byteSwapOnLittleEndian endian v ||| byteSwapOnLittleEndian endian w := by
  apply BitVec.eq_of_getLsbD_eq
  intro i hi
  simp only [BitVec.getLsbD_or, swap_getLsbD endian _ hi]

theorem swap_not (endian : Endian) {k : ℕ} (v : BitVec (8 * k)) :
    byteSwapOnLittleEndian endian (~~~v) = ~~~byteSwapOnLittleEndian endian v := by
  apply BitVec.eq_of_getLsbD_eq
  intro i hi
  simp only [BitVec.getLsbD_not, swap_getLsbD endian _ hi, hi, swapIndex_lt endian hi]

theorem createMask_ok {w p : ℕ} (hp : p ≤ w) (hshift : w - p < 31) :
    createMask w p = .ok (BitVec.ofNat w (2 ^ (w - p) - 1)) := by
  have heq : (w + 2 ^ 64 - p) % 2 ^ 64 = w - p := by omega
  rw [createMask, heq, if_neg (by omega), if_neg (by omega)]

/-- Behind the first `p` bits the mask is one. -/
theorem mask_getMsbD {w p i : ℕ} (hi : i < w) :
    (BitVec.ofNat w (2 ^ (w - p) - 1)).getMsbD i = decide (p ≤ i) := by
  rw [BitVec.getMsbD, BitVec.getLsbD_ofNat, Nat.testBit_two_pow_sub_one]
  have hlow : w - 1 - i < w := by omega
  simp only [hi, hlow, decide_true, Bool.true_and, decide_eq_decide]
  omega

theorem and_mask_getMsbD {w p i : ℕ} (v : BitVec w) (hi : i < w) :
    (v &&& BitVec.ofNat w (2 ^ (w - p) - 1)).getMsbD i = (decide (p ≤ i) && v.getMsbD i) := by
  rw [BitVec.getMsbD_and, mask_getMsbD hi, Bool.and_comm]

end Words

namespace IPv4Address
variable (endian : Endian)

def bit (a : IPv4Address) (i : ℕ) : Bool := (a.number endian).getMsbD i

/-- The network address of the address exists and is one, and it is its own. -/
def HasNetwork (p : ℕ) (a : IPv4Address) : Prop :=
  ∃ r, a.networkAddress endian p = .ok (some r) ∧ r.addr.sinFamily = a.addr.sinFamily ∧
    r.getPort endian = a.getPort endian ∧ Keeps 32 p (a.bit endian) (r.bit endian) ∧
    r.networkAddress endian p = .ok (some r)

variable {endian} {p : ℕ} {a r : IPv4Address}

theorem number_eq_iff (a b : IPv4Address) :
    a.number endian = b.number endian ↔ ∀ i < 32, a.bit endian i = b.bit endian i := by
  constructor
  · intro h i _
    rw [bit, h, bit]
  · intro h
    exact BitVec.eq_of_getMsbD_eq h

/-- With a length that is too small for the mask, or too large, there is none. -/
theorem networkAddress_bounds (h : a.networkAddress endian p = .ok (some r)) : 2 ≤ p ∧ p ≤ 32 := by
  have hle : p ≤ 32 := by
    by_contra hgt
    rw [networkAddress, if_pos (by omega)] at h
    cases h
  refine ⟨?_,hle⟩
  by_contra hlt
  have hcases : p = 0 ∨ p = 1 := by omega
  rcases hcases with rfl | rfl
  · cases h
  · cases h

variable (endian) in
/-- The first bits are cleared and the others kept. -/
theorem networkAddress_spec (a : IPv4Address) (hp : 2 ≤ p) (hp' : p ≤ 32) :
    ∃ r, a.networkAddress endian p = .ok (some r) ∧
      (∃ sAddr, r.addr = { a.addr with sAddr := sAddr }) ∧
      ∀ i < 32, r.bit endian i = (decide (p ≤ i) && a.bit endian i) := by
  refine ⟨_,?_,⟨a.addr.sAddr &&& byteSwapOnLittleEndian endian (k := 4)
    (BitVec.ofNat 32 (2 ^ (32 - p) - 1)),rfl⟩,?_⟩
  · rw [networkAddress, if_neg (by omega), createMask_ok hp' (by omega)]
    rfl
  · intro i hi
    have hnumber : byteSwapOnLittleEndian endian (k := 4) (a.addr.sAddr &&&
        byteSwapOnLittleEndian endian (k := 4) (BitVec.ofNat 32 (2 ^ (32 - p) - 1))) =
          a.number endian &&& BitVec.ofNat 32 (2 ^ (32 - p) - 1) := by
      rw [swap_and, byteSwapOnLittleEndian_twice]
      rfl
    rw [bit, number, hnumber, and_mask_getMsbD _ hi]
    rfl

theorem hasNetwork_iff (endian : Endian) (a : IPv4Address) (p : ℕ) :
    a.HasNetwork endian p ↔ 2 ≤ p ∧ p ≤ 32 ∧ a.number endian = 0 := by
  have hzero : a.number endian = 0 ↔ ∀ i < 32, a.bit endian i = false := by
    constructor
    · intro h i _
      rw [bit, h]
      exact BitVec.getMsbD_zero
    · intro h
      apply BitVec.eq_of_getMsbD_eq
      intro i hi
      exact (h i hi).trans BitVec.getMsbD_zero.symm
  constructor
  · rintro ⟨r,hr,_,_,hkeeps,_⟩
    obtain ⟨hp,hp'⟩ := networkAddress_bounds hr
    obtain ⟨r',hr',_,hbits⟩ := networkAddress_spec endian a hp hp'
    rw [hr] at hr'
    cases hr'
    refine ⟨hp,hp',hzero.mpr ?_⟩
    intro i hi
    have hbit := hbits i hi
    by_cases hip : i < p
    · -- cleared where it should be kept
      rw [← hkeeps.first i hip, hbit, decide_eq_false (by omega), Bool.false_and]
    · -- kept where it should be cleared
      rw [hkeeps.rest i (Nat.le_of_not_lt hip) hi, decide_eq_true (by omega), Bool.true_and] at hbit
      exact hbit.symm
  · rintro ⟨hp,hp',hnumber⟩
    obtain ⟨r,hr,⟨sAddr,haddr⟩,hbits⟩ := networkAddress_spec endian a hp hp'
    have hfalse := hzero.mp hnumber
    have hsame : r.number endian = a.number endian := by
      rw [number_eq_iff]
      intro i hi
      rw [hbits i hi, hfalse i hi, Bool.and_false]
    have hword : sAddr = a.addr.sAddr := by
      have hswap : byteSwapOnLittleEndian endian sAddr =
          byteSwapOnLittleEndian endian a.addr.sAddr := by
        rw [number, haddr] at hsame
        exact hsame
      rw [← byteSwapOnLittleEndian_twice endian sAddr, hswap, byteSwapOnLittleEndian_twice]
    have hra : r = a := by
      cases r
      cases haddr
      rw [hword]
    subst hra
    refine ⟨r,hr,rfl,rfl,⟨fun _ _ => rfl,?_⟩,hr⟩
    intro i _ hi
    exact hfalse i hi

/-- Two network addresses. -/
theorem network_eq_iff {b s : IPv4Address} (ha : a.HasNetwork endian p)
    (hb : b.HasNetwork endian p) (hr : a.networkAddress endian p = .ok (some r))
    (hs : b.networkAddress endian p = .ok (some s)) :
    r.number endian = s.number endian ↔ ∀ i < p, a.bit endian i = b.bit endian i := by
  obtain ⟨r',hr',_,_,hkeeps,_⟩ := ha
  obtain ⟨s',hs',_,_,hkeeps',_⟩ := hb
  rw [hr] at hr'
  rw [hs] at hs'
  cases hr'
  cases hs'
  rw [number_eq_iff]
  exact hkeeps.eq_iff hkeeps' (networkAddress_bounds hr).2

end IPv4Address

namespace IPv6Address

def bit (a : IPv6Address) (i : ℕ) : Bool :=
  ((a.addr.s6Addr[i / 8]?).getD 0).toBitVec.getMsbD (i % 8)

/-- The network address of the address exists and is one, and it is its own. -/
def HasNetwork (endian : Endian) (p : ℕ) (a : IPv6Address) : Prop :=
  ∃ r, a.networkAddress p = .ok r ∧ r.addr.sin6Family = a.addr.sin6Family ∧
    r.getPort endian = a.getPort endian ∧ Keeps 128 p a.bit r.bit ∧ r.networkAddress p = .ok r

section Fill
variable {v : UInt8} {bs : Vector UInt8 16}

theorem foldl_set_get (l : List ℕ) (j : ℕ) (hj : j < 16) :
    (l.foldl (fun bs j => bs.setIfInBounds j v) bs)[j]? = if j ∈ l then some v else bs[j]? := by
  induction l generalizing bs with
  | nil => simp
  | cons k l ih =>
    rw [List.foldl_cons, ih]
    by_cases hl : j ∈ l
    · simp [hl]
    · by_cases hk : j = k
      · subst hk
        simp [hl, hj]
      · simp [hl, hk, Ne.symm hk]

theorem fillFrom_get (i j : ℕ) (hj : j < 16) :
    (fillFrom v i bs)[j]? = if i ≤ j then some v else bs[j]? := by
  have hmem : j ∈ List.range' i (16 - i) ↔ i ≤ j := by
    rw [List.mem_range'_1]
    omega
  rw [fillFrom, foldl_set_get _ j hj]
  simp only [hmem]

end Fill

variable {p : ℕ} {a r : IPv6Address}

theorem bit_at (a : IPv6Address) {j m : ℕ} (hj : j < 16) (hm : m < 8) :
    a.bit (8 * j + m) = a.addr.s6Addr[j].toBitVec.getMsbD m := by
  have hdiv : (8 * j + m) / 8 = j := by omega
  have hmod : (8 * j + m) % 8 = m := by omega
  rw [bit, hdiv, hmod, Vector.getElem?_eq_getElem hj]
  rfl

theorem s6Addr_eq_iff (a b : IPv6Address) :
    a.addr.s6Addr = b.addr.s6Addr ↔ ∀ i < 128, a.bit i = b.bit i := by
  constructor
  · intro h i _
    rw [bit, h, bit]
  · intro h
    refine Vector.ext fun j hj => UInt8.toBitVec_inj.mp ?_
    apply BitVec.eq_of_getMsbD_eq
    intro m hm
    rw [← bit_at a hj hm, ← bit_at b hj hm]
    exact h _ (by omega)

theorem createMask_byte (p : ℕ) :
    createMask 8 (p % 8) = .ok (BitVec.ofNat 8 (2 ^ (8 - p % 8) - 1)) :=
  createMask_ok (by omega) (by omega)

theorem networkAddress_bounds (h : a.networkAddress p = .ok r) : p < 128 := by
  by_contra hge
  rw [networkAddress, createMask_byte] at h
  have hindex : ¬ p / 8 < 16 := by omega
  simp only [bind, Except.bind, hindex, dif_neg, not_false_eq_true] at h
  cases h

/-- The bytes in front are kept, in the byte where the prefix ends its last bits, and nothing of
the bytes behind it. -/
theorem networkAddress_spec (a : IPv6Address) (hp : p < 128) : ∃ r, a.networkAddress p = .ok r ∧
    (∃ s6Addr, r.addr = { a.addr with s6Addr := s6Addr }) ∧
    ∀ j m, j < 16 → m < 8 → r.bit (8 * j + m) =
      if j < p / 8 then a.bit (8 * j + m)
      else if j = p / 8 then decide (p % 8 ≤ m) && a.bit (8 * j + m)
      else false := by
  have hindex : p / 8 < 16 := by omega
  have hcall : a.networkAddress p = .ok ⟨{ a.addr with
      s6Addr := fillFrom 0x00 (p / 8 + 1) (a.addr.s6Addr.set (p / 8)
        (a.addr.s6Addr[p / 8] &&& ⟨BitVec.ofNat 8 (2 ^ (8 - p % 8) - 1)⟩)) }⟩ := by
    rw [networkAddress, createMask_byte]
    simp only [bind, Except.bind, hindex, dif_pos]
  refine ⟨_,hcall,⟨_,rfl⟩,?_⟩
  intro j m hj hm
  have hdiv : (8 * j + m) / 8 = j := by omega
  have hmod : (8 * j + m) % 8 = m := by omega
  rw [bit_at a hj hm, bit, hdiv, hmod, fillFrom_get _ _ hj, Vector.getElem?_set]
  rcases Nat.lt_trichotomy j (p / 8) with hlt | rfl | hgt
  · rw [if_neg (by omega), if_neg (by omega), if_pos hlt, Vector.getElem?_eq_getElem hj]
    rfl
  · rw [if_neg (by omega), if_pos rfl, if_neg (Nat.lt_irrefl _), if_pos rfl, Option.getD_some,
      UInt8.toBitVec_and, and_mask_getMsbD _ hm]
  · rw [if_pos (by omega), if_neg (by omega), if_neg (by omega)]
    exact BitVec.getMsbD_zero

/-- The byte in which the prefix ends, by its bits. -/
theorem byte_eq_zero_iff (a : IPv6Address) {j : ℕ} (hj : j < 16) :
    a.addr.s6Addr[j]? = some 0 ↔ ∀ m < 8, a.bit (8 * j + m) = false := by
  rw [Vector.getElem?_eq_getElem hj, Option.some.injEq]
  constructor
  · intro h m hm
    rw [bit_at a hj hm, h]
    exact BitVec.getMsbD_zero
  · intro h
    apply UInt8.toBitVec_inj.mp
    apply BitVec.eq_of_getMsbD_eq
    intro m hm
    rw [← bit_at a hj hm, h m hm]
    exact BitVec.getMsbD_zero.symm

/-- If this byte is zero, it does not matter which of its bits are kept. -/
theorem networkAddress_keeps (a : IPv6Address) (hp : p < 128)
    (hbyte : a.addr.s6Addr[p / 8]? = some 0) : ∃ r, a.networkAddress p = .ok r ∧
      (∃ s6Addr, r.addr = { a.addr with s6Addr := s6Addr }) ∧ Keeps 128 p a.bit r.bit := by
  obtain ⟨r,hr,haddr,hbits⟩ := networkAddress_spec a hp
  have hzero := (byte_eq_zero_iff a (by omega)).mp hbyte
  refine ⟨r,hr,haddr,?_,?_⟩
  · intro i hi
    obtain ⟨j,m,rfl,hm⟩ : ∃ j m, i = 8 * j + m ∧ m < 8 := ⟨i / 8,i % 8,by omega,by omega⟩
    rw [hbits j m (by omega) hm]
    by_cases hj : j < p / 8
    · rw [if_pos hj]
    · obtain rfl : j = p / 8 := by omega
      rw [if_neg hj, if_pos rfl, hzero m hm, Bool.and_false]
  · intro i hi hi'
    obtain ⟨j,m,rfl,hm⟩ : ∃ j m, i = 8 * j + m ∧ m < 8 := ⟨i / 8,i % 8,by omega,by omega⟩
    rw [hbits j m (by omega) hm, if_neg (by omega)]
    by_cases hj : j = p / 8
    · rw [if_pos hj, hj, hzero m hm, Bool.and_false]
    · rw [if_neg hj]

theorem hasNetwork_iff (endian : Endian) (a : IPv6Address) (p : ℕ) :
    a.HasNetwork endian p ↔ p < 128 ∧ a.addr.s6Addr[p / 8]? = some 0 := by
  constructor
  · rintro ⟨r,hr,_,_,hkeeps,_⟩
    have hp := networkAddress_bounds hr
    obtain ⟨r',hr',_,hbits⟩ := networkAddress_spec a hp
    rw [hr] at hr'
    cases hr'
    refine ⟨hp,(byte_eq_zero_iff a (by omega)).mpr ?_⟩
    intro m hm
    have hbit := hbits (p / 8) m (by omega) hm
    rw [if_neg (Nat.lt_irrefl _), if_pos rfl] at hbit
    by_cases hmp : m < p % 8
    · rw [← hkeeps.first _ (by omega), hbit, decide_eq_false (by omega), Bool.false_and]
    · rw [hkeeps.rest _ (by omega) (by omega), decide_eq_true (by omega), Bool.true_and] at hbit
      exact hbit.symm
  · rintro ⟨hp,hbyte⟩
    obtain ⟨r,hr,⟨s6Addr,haddr⟩,hkeeps⟩ := networkAddress_keeps a hp hbyte
    have hbyte' : r.addr.s6Addr[p / 8]? = some 0 := by
      rw [byte_eq_zero_iff r (by omega)]
      intro m hm
      by_cases hmp : m < p % 8
      · rw [hkeeps.first _ (by omega)]
        exact (byte_eq_zero_iff a (by omega)).mp hbyte m hm
      · exact hkeeps.rest _ (by omega) (by omega)
    obtain ⟨r',hr',⟨s6Addr',haddr'⟩,hkeeps'⟩ := networkAddress_keeps r hp hbyte'
    have hsame : r' = r := by
      have hbytes := (s6Addr_eq_iff r' r).mpr (hkeeps'.unique hkeeps.again)
      rw [haddr'] at hbytes
      cases r'
      cases haddr'
      rw [show s6Addr' = r.addr.s6Addr from hbytes]
    rw [hsame] at hr'
    refine ⟨r,hr,?_,?_,hkeeps,hr'⟩
    · rw [haddr]
    · rw [getPort, haddr, getPort]

/-- Two network addresses. -/
theorem network_eq_iff {endian : Endian} {b s : IPv6Address} (ha : a.HasNetwork endian p)
    (hb : b.HasNetwork endian p) (hr : a.networkAddress p = .ok r)
    (hs : b.networkAddress p = .ok s) :
    r.addr.s6Addr = s.addr.s6Addr ↔ ∀ i < p, a.bit i = b.bit i := by
  obtain ⟨r',hr',_,_,hkeeps,_⟩ := ha
  obtain ⟨s',hs',_,_,hkeeps',_⟩ := hb
  rw [hr] at hr'
  rw [hs] at hs'
  cases hr'
  cases hs'
  rw [s6Addr_eq_iff]
  exact hkeeps.eq_iff hkeeps' (Nat.le_of_lt (networkAddress_bounds hr))

end IPv6Address

/-- For every address and length: an IPv4 address has its network address exactly when it is
zero and the length is at least 2 and at most 32, an IPv6 address exactly when the length is
below 128 and the byte in which the prefix ends is zero. The network addresses of two such
addresses are equal exactly when the addresses agree on the prefix. -/
theorem networkAddress_iff (endian : Endian) :
    (∀ (a : IPv4Address) p, a.HasNetwork endian p ↔ 2 ≤ p ∧ p ≤ 32 ∧ a.number endian = 0) ∧
    (∀ (a : IPv6Address) p, a.HasNetwork endian p ↔ p < 128 ∧ a.addr.s6Addr[p / 8]? = some 0) ∧
    (∀ (a b r s : IPv4Address) p, a.HasNetwork endian p → b.HasNetwork endian p →
      a.networkAddress endian p = .ok (some r) → b.networkAddress endian p = .ok (some s) →
        (r.number endian = s.number endian ↔ ∀ i < p, a.bit endian i = b.bit endian i)) ∧
    ∀ (a b r s : IPv6Address) p, a.HasNetwork endian p → b.HasNetwork endian p →
      a.networkAddress p = .ok r → b.networkAddress p = .ok s →
        (r.addr.s6Addr = s.addr.s6Addr ↔ ∀ i < p, a.bit i = b.bit i) :=
  ⟨IPv4Address.hasNetwork_iff endian,IPv6Address.hasNetwork_iff endian,
    fun _ _ _ _ _ => IPv4Address.network_eq_iff,fun _ _ _ _ _ => IPv6Address.network_eq_iff⟩

/-- `fe80::n` -/
def linkLocal (n : UInt8) : IPv6Address :=
  .ofBytes .little #v[0xfe, 0x80, 0, 0, 0, 0, 0, 0, 0, 0, 0, 0, 0, 0, 0, n] 80

theorem networkAddress_iff_linkLocal :
    (∃ r s, (IPv4Address.ofNumber .little 0 80).networkAddress .little 24 = .ok (some r) ∧
      (IPv4Address.ofNumber .little 0 81).networkAddress .little 24 = .ok (some s) ∧
      r.number .little = s.number .little) ∧
    ∃ r s, (linkLocal 1).networkAddress 64 = .ok r ∧ (linkLocal 2).networkAddress 64 = .ok s ∧
      r.addr.s6Addr = s.addr.s6Addr := by
  obtain ⟨h4,h6,heq4,heq6⟩ := networkAddress_iff .little
  constructor
  · have ha := (h4 (.ofNumber .little 0 80) 24).mpr ⟨by decide,by decide,by decide⟩
    have hb := (h4 (.ofNumber .little 0 81) 24).mpr ⟨by decide,by decide,by decide⟩
    obtain ⟨r,hr,_⟩ := id ha
    obtain ⟨s,hs,_⟩ := id hb
    exact ⟨r,s,hr,hs,(heq4 _ _ r s 24 ha hb hr hs).mpr (by decide)⟩
  · have ha := (h6 (linkLocal 1) 64).mpr ⟨by decide,by decide⟩
    have hb := (h6 (linkLocal 2) 64).mpr ⟨by decide,by decide⟩
    obtain ⟨r,hr,_⟩ := id ha
    obtain ⟨s,hs,_⟩ := id hb
    exact ⟨r,s,hr,hs,(heq6 _ _ r s 64 ha hb hr hs).mpr (by decide)⟩

/-- The network address of 192.168.1.1 for the length 24, of the same for 0, and of `fe80::1`
for 9 and 128. -/
theorem no_networkAddress :
    ¬ (IPv4Address.ofNumber .little 0xC0A80101 0).HasNetwork .little 24 ∧
    (IPv4Address.ofNumber .little 0xC0A80101 0).networkAddress .little 0 = .error .shift ∧
    ¬ (linkLocal 1).HasNetwork .little 9 ∧
    (linkLocal 1).networkAddress 128 = .error .outOfBounds := by
  refine ⟨?_,by decide,?_,by decide⟩
  · rw [IPv4Address.hasNetwork_iff]
    decide
  · rw [IPv6Address.hasNetwork_iff]
    decide

end Gudov
