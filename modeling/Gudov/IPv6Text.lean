import Gudov.DelimitedList
import Gudov.HttpRoundTrip
import Gudov.IPAddresses

/-!
# The text of an IPv6 address

`IPv6Address::Insert` prints the address in one pass over its words: it is the pass of
`ColonHex` over their values, so the text is read back to the same eight groups. The port is
printed behind it.
-/
namespace Gudov.IPv6Address
open ByteCodec ColonHex

/-- The two bytes of each group, high byte first. -/
def groupBytes (gs : List ℕ) : List UInt8 := gs.flatMap fun g => [(g / 256).toUInt8, g.toUInt8]

/-- The sixteen bytes a text stands for. -/
def addressOf (t : List UInt8) : Option (List UInt8) := (read t).map groupBytes

section Words
variable {endian : Endian}

theorem swap_ofMemory {k : ℕ} (bs : List (BitVec 8)) (hlen : bs.length = k) :
    byteSwapOnLittleEndian endian (ByteArray.ofMemory endian k bs) =
      ByteCodec.word k bs.reverse := by
  cases endian with
  | little =>
    rw [byteSwapOnLittleEndian, ByteArray.ofMemory, ByteArray.byteSwap, digits_word _ hlen]
  | big => rfl

theorem digits_zero (k : ℕ) : digits k 0 = List.replicate k 0 := by
  induction k with
  | zero => rfl
  | succ k ih =>
    rw [digits, Nat.zero_div, ih, List.replicate_succ]
    rfl

theorem swap_zero (k : ℕ) : byteSwapOnLittleEndian endian (0 : BitVec (8 * k)) = 0 := by
  have hzero : (0 : BitVec (8 * k)).toNat = 0 := by simp
  cases endian with
  | little =>
    rw [byteSwapOnLittleEndian, ByteArray.byteSwap, hzero, digits_zero, List.reverse_replicate,
      ← digits_zero, ← hzero]
    exact word_digits _
  | big => rfl

theorem swap_eq_zero {k : ℕ} {v : BitVec (8 * k)} :
    byteSwapOnLittleEndian endian v = 0 ↔ v = 0 := by
  constructor
  · intro h
    rw [← byteSwapOnLittleEndian_twice endian v, h, swap_zero]
  · rintro rfl
    exact swap_zero k

/-- The first byte in memory is the high one. -/
theorem pair_value (x y : UInt8) :
    (byteSwapOnLittleEndian endian
      (ByteArray.ofMemory endian 2 ([x, y].map UInt8.toBitVec))).toNat =
      256 * x.toNat + y.toNat := by
  have hx := x.toNat_lt
  have hy := y.toNat_lt
  rw [swap_ofMemory (k := 2) ([x, y].map UInt8.toBitVec) rfl, ByteCodec.word, BitVec.toNat_ofNat]
  simp only [List.map_cons, List.map_nil, List.reverse_cons, List.reverse_nil, List.nil_append,
    List.cons_append, number, UInt8.toNat_toBitVec]
  omega

variable (endian)

/-- The values of the words. -/
def groups (a : IPv6Address) : List ℕ :=
  (List.range 8).map fun i => (byteSwapOnLittleEndian endian (a.word endian i)).toNat

theorem groups_lt (a : IPv6Address) : ∀ g ∈ a.groups endian, g < 65536 := by
  intro g hg
  obtain ⟨i,_,rfl⟩ := List.mem_map.mp hg
  exact BitVec.isLt _

theorem groups_get (a : IPv6Address) {i : ℕ} (hi : i < 8) :
    (a.groups endian)[i]? = some (byteSwapOnLittleEndian endian (a.word endian i)).toNat := by
  simp [groups, hi]

theorem word_eq_zero_iff (a : IPv6Address) {i : ℕ} (hi : i < 8) :
    a.word endian i = 0 ↔ (a.groups endian)[i]? = some 0 := by
  have hzero : ∀ v : BitVec (8 * 2), v.toNat = 0 ↔ v = 0 := fun v =>
    ⟨fun h => BitVec.eq_of_toNat_eq h,fun h => by rw [h]; rfl⟩
  rw [groups_get endian a hi, Option.some.injEq, hzero, swap_eq_zero]

/-- The pairs of a list of bytes. -/
theorem groupBytes_pairs (n : ℕ) (l : List UInt8) (hlen : l.length = 2 * n) :
    groupBytes ((List.range n).map fun i => (byteSwapOnLittleEndian endian
      (ByteArray.ofMemory endian 2 (((l.drop (2 * i)).take 2).map UInt8.toBitVec))).toNat) = l := by
  induction n generalizing l with
  | zero =>
    rw [List.eq_nil_of_length_eq_zero hlen]
    rfl
  | succ n ih =>
    match l with
    | x :: y :: l =>
      have hl : l.length = 2 * n := by
        simp only [List.length_cons] at hlen
        omega
      have hx : (256 * x.toNat + y.toNat) / 256 = x.toNat := by
        have := y.toNat_lt
        omega
      have hy : (256 * x.toNat + y.toNat).toUInt8 = y := by
        apply UInt8.toNat_inj.mp
        have := y.toNat_lt
        rw [UInt8.toNat_ofNat']
        omega
      have htail := ih l hl
      have hshift : ∀ i, (x :: y :: l).drop (2 * (i + 1)) = l.drop (2 * i) := fun i => rfl
      rw [List.range_succ_eq_map, List.map_cons, List.map_map, groupBytes, List.flatMap_cons]
      simp only [Function.comp_def, Nat.succ_eq_add_one, hshift]
      rw [groupBytes] at htail
      rw [htail, Nat.mul_zero, List.drop_zero, List.take_succ_cons, List.take_succ_cons,
        List.take_zero, pair_value, hx, hy]
      simp
    | [x] => simp at hlen; omega
    | [] => simp at hlen

theorem groupBytes_groups (a : IPv6Address) :
    groupBytes (a.groups endian) = a.addr.s6Addr.toList :=
  groupBytes_pairs endian 8 a.addr.s6Addr.toList (by simp)

end Words

section Loop
variable (endian : Endian) (a : IPv6Address)

theorem getLast_take {i : ℕ} (hi : i ≤ 8) :
    ((a.groups endian).take i).getLast? = if i = 0 then none else (a.groups endian)[i - 1]? := by
  have hlen : (a.groups endian).length = 8 := by simp [groups]
  cases i with
  | zero => simp
  | succ i =>
    rw [List.getLast?_eq_getElem?, List.length_take, hlen, Nat.min_eq_left hi,
      Nat.add_sub_cancel, List.getElem?_take_of_lt (Nat.lt_succ_self i)]
    rfl

/-- The body of the loop is one step of the pass. -/
theorem insertWord_eq (s : List UInt8 × Bool) {i : ℕ} (hi : i < 8) {g : ℕ}
    (hg : (a.groups endian)[i]? = some g) :
    a.insertWord endian s i = put ((a.groups endian).take i).getLast? g s := by
  have hvalue : (byteSwapOnLittleEndian endian (a.word endian i)).toNat = g := by
    rw [groups_get endian a hi] at hg
    exact Option.some.inj hg
  have hcolon : bytes ":" = [58] := rfl
  have hprev : (i ≠ 0 ∧ a.word endian (i - 1) = 0 ∧ s.2 = false) ↔
      (((a.groups endian).take i).getLast? = some 0 ∧ s.2 = false) := by
    rw [getLast_take endian a (Nat.le_of_lt hi)]
    by_cases h0 : i = 0
    · simp [h0]
    · rw [if_neg h0, ← word_eq_zero_iff endian a (by omega)]
      simp [h0]
  have hnone : ((a.groups endian).take i).getLast? = none ↔ i = 0 := by
    rw [getLast_take endian a (Nat.le_of_lt hi)]
    by_cases h0 : i = 0
    · simp [h0]
    · rw [if_neg h0, groups_get endian a (by omega)]
      simp [h0]
  unfold insertWord put
  rw [hvalue, hcolon]
  simp only [word_eq_zero_iff endian a hi, hg, Option.some.injEq, hprev, hnone, ne_eq, ite_not]

theorem loop_progress (os : List UInt8) {n : ℕ} (hn : n ≤ 8) :
    Progress os ((a.groups endian).take n)
      ((List.range n).foldl (a.insertWord endian) (os, false)) := by
  induction n with
  | zero => exact .start os
  | succ n ih =>
    have hg := groups_get endian a hn
    rw [List.range_succ, List.foldl_append, List.take_add_one, hg]
    simp only [List.foldl_cons, List.foldl_nil]
    rw [insertWord_eq endian a _ hn hg]
    exact (ih (by omega)).put _

/-- What is printed, and what it is read back to. -/
theorem insert_text (os : List UInt8) : ∃ t,
    a.insert endian os = os ++ bytes "[IPv6 [" ++ t ++ bytes "]:" ++ decimal (a.getPort endian) ++
      bytes "]" ∧
    addressOf t = some a.addr.s6Addr.toList ∧ doubles t ≤ 1 ∧ 93 ∉ t := by
  have hlen : (a.groups endian).length = 8 := by simp [groups]
  have hprogress := loop_progress endian a (os ++ bytes "[IPv6 [") (Nat.le_refl 8)
  have hall : (a.groups endian).take 8 = a.groups endian := List.take_of_length_le (by omega)
  have hlast : (a.groups endian).getLast? = (a.groups endian)[7]? := by
    rw [List.getLast?_eq_getElem?, hlen]
  rw [hall] at hprogress
  obtain ⟨t,htext,hread,hdoubles,hdigits⟩ := hprogress.read (groups_lt endian a) hlen
  refine ⟨t,?_,?_,hdoubles,?_⟩
  · have hend : bytes "::" = [58, 58] := rfl
    rw [hlast] at htext
    simp only [insert, word_eq_zero_iff endian a (by decide : 7 < 8), hend, htext]
  · rw [addressOf, hread, Option.map_some, groupBytes_groups]
  · intro hmem
    rcases hdigits 93 hmem with h | h
    · exact absurd h (by decide)
    · exact h (by decide)

end Loop

/-- For every address and port: the text between `[IPv6 [` and `]:` has two colons in a row at
most once and stands for the sixteen bytes, and behind it is the port; two addresses have the
same text only if they have the same bytes and the same port. -/
theorem toString_faithful (endian : Endian) :
    (∀ a : IPv6Address, ∃ t, a.toString endian =
        bytes "[IPv6 [" ++ t ++ bytes "]:" ++ decimal (a.getPort endian) ++ bytes "]" ∧
      addressOf t = some a.addr.s6Addr.toList ∧ doubles t ≤ 1 ∧ 93 ∉ t) ∧
    ∀ a b : IPv6Address, a.toString endian = b.toString endian ↔
      a.addr.s6Addr = b.addr.s6Addr ∧ a.getPort endian = b.getPort endian := by
  refine ⟨fun a => a.insert_text endian [],?_⟩
  intro a b
  obtain ⟨t,htext,haddress,_,ht⟩ := a.insert_text endian []
  obtain ⟨t',htext',haddress',_,ht'⟩ := b.insert_text endian []
  constructor
  · intro h
    have htexts := htext.symm.trans (h.trans htext')
    simp only [List.nil_append, List.append_assoc, List.append_cancel_left_eq] at htexts
    obtain ⟨rfl,hrest⟩ := DelimitedList.append_inj ht ht' htexts
    have hports : decimal (a.getPort endian) ++ bytes "]" =
        decimal (b.getPort endian) ++ bytes "]" := (List.cons.inj hrest).2
    have hdigits := List.append_cancel_right hports
    constructor
    · rw [haddress, Option.some.injEq] at haddress'
      exact Vector.toList_inj.mp haddress'
    · rw [← fromDecimal_decimal (a.getPort endian), hdigits, fromDecimal_decimal]
  · rintro ⟨haddr,hport⟩
    have hword : a.word endian = b.word endian := by
      funext i
      rw [word, haddr, word]
    have hstep : a.insertWord endian = b.insertWord endian := by
      funext s i
      rw [insertWord, hword, insertWord]
    rw [toString, insert, hstep, hword, hport, toString, insert]

example : toString .little
    (ofBytes .little #v[0, 0, 0, 0, 0, 0, 0, 0, 0, 0, 0, 0, 0, 0, 0, 1] 8080) =
      bytes "[IPv6 [::1]:8080]" := by decide

end Gudov.IPv6Address
