import Gudov.ByteArray

/-!
# The copy loop and the double cursor

`cursor` is the node pointer that belongs to a byte position: the node that
holds this byte, or null at the end of the capacity. The copy loop moves
position and pointer by separate assignments; `copyLoop_spec` shows once, for
any `memcpy` that keeps an invariant `R`, that they stay in step for every
alignment of position, length and base size.
-/
namespace Gudov.ByteArray
open RowMemory

/-- The node that holds byte `p` of `count` nodes of size `base`. -/
def cursor (count base p : ℕ) : Option ℕ :=
  if p < count * base then some (p / base) else none

theorem cursor_of_lt {count base p : ℕ} (h : p < count * base) :
    cursor count base p = some (p / base) := if_pos h

theorem cursor_eq_none {count base p : ℕ} :
    cursor count base p = none ↔ count * base ≤ p := by
  unfold cursor
  split_ifs with h
  · simpa using h
  · simpa using h

theorem div_lt_count {count base p : ℕ} (h : p < count * base) : p / base < count :=
  Nat.div_lt_of_lt_mul (by rwa [Nat.mul_comm])

/-- A dereferenced cursor yields a node of the common size. -/
theorem deref_uniform {base i : ℕ} {nodes : List Node} (hu : Uniform base nodes)
    (hi : i < nodes.length) : ∃ n, deref nodes (some i) = .ok n ∧ nodes[i]? = some n ∧
      n.length = base := by
  have hn : nodes[i]? = some nodes[i] := List.getElem?_eq_getElem hi
  exact ⟨nodes[i],by simp only [deref, hn],hn,hu _ (List.getElem_mem hi)⟩

theorem div_add_within {base p len : ℕ} (h : p % base + len < base) :
    (p + len) / base = p / base := by
  have hp := Nat.div_add_mod p base
  calc (p + len) / base = (base * (p / base) + (p % base + len)) / base := by
        rw [← Nat.add_assoc, hp]
    _ = p / base + (p % base + len) / base := Nat.mul_add_div (by omega) _ _
    _ = p / base := by rw [Nat.div_eq_of_lt h, Nat.add_zero]

theorem div_add_boundary {base p len : ℕ} (h : p % base + len = base) :
    p + len = base * (p / base + 1) := by
  have hp := Nat.div_add_mod p base
  rw [Nat.mul_add, Nat.mul_one]
  omega

/-- Stepping over the end of a node is `cur->next`. -/
theorem next_boundary {base p len : ℕ} {nodes : List Node} (hb : 0 < base)
    (h : p % base + len = base) :
    next nodes (some (p / base)) = cursor nodes.length base (p + len) := by
  have he := div_add_boundary h
  unfold next cursor
  rw [he, Nat.mul_comm nodes.length, Nat.mul_div_cancel_left _ hb]
  simp only [Nat.mul_lt_mul_left hb]

theorem copyLoop_done (memcpy : Memcpy) (fuel : ℕ) (t : Transfer) (cur : Option ℕ)
    (position npos ncap bpos : ℕ) :
    copyLoop memcpy (fuel + 1) t cur position npos ncap bpos 0 = .ok (t, cur, position) := by
  simp [copyLoop]
  rfl

section
variable {memcpy : Memcpy} {base count p total : ℕ} {R : ℕ → Transfer → Prop}

/-- One `memcpy` inside one node keeps `R`, which is indexed by the number of
bytes copied so far. -/
def CopiesChunks (memcpy : Memcpy) (base p total : ℕ) (R : ℕ → Transfer → Prop) : Prop :=
  ∀ t k len, R k t → 0 < len → (p + k) % base + len ≤ base → k + len ≤ total →
    ∃ t', memcpy t (some ((p + k) / base)) ((p + k) % base) k len = .ok t' ∧ R (k + len) t'

/-- `R` implies the layout on which the pointer arithmetic rests. -/
def KeepsLayout (base count : ℕ) (R : ℕ → Transfer → Prop) : Prop :=
  ∀ k t, R k t → Uniform base t.nodes ∧ t.nodes.length = count

/-- The whole loop: it never dereferences null, copies all `total` bytes and
ends with the pointer that belongs to the final position. -/
theorem copyLoop_spec (hb : 0 < base) (hcap : p + total ≤ count * base)
    (hcopy : CopiesChunks memcpy base p total R) (hlay : KeepsLayout base count R)
    (fuel : ℕ) (t : Transfer) (k size : ℕ) (hR : R k t) (hk : k + size = total)
    (hsize : 0 < size) (hfuel : size < fuel) :
    ∃ t', copyLoop memcpy fuel t (cursor count base (p + k)) (p + k) ((p + k) % base)
        (base - (p + k) % base) k size =
          .ok (t', cursor count base (p + total), p + total) ∧ R total t' := by
  induction fuel generalizing t k size with
  | zero => omega
  | succ fuel ih =>
    have hmod : (p + k) % base < base := Nat.mod_lt _ hb
    have hlt : p + k < count * base := by omega
    rw [cursor_of_lt hlt]
    unfold copyLoop
    rw [if_pos hsize]
    by_cases hn : base - (p + k) % base ≥ size
    · obtain ⟨t',ht,hR'⟩ := hcopy t k size hR hsize (by omega) (by omega)
      obtain ⟨hu,hc⟩ := hlay _ _ hR'
      obtain ⟨n,hd,-,hlen⟩ := deref_uniform hu (hc ▸ div_lt_count hlt)
      have hcur : (if n.length = (p + k) % base + size
          then next t'.nodes (some ((p + k) / base)) else some ((p + k) / base)) =
            cursor count base (p + total) := by
        rw [hlen]
        by_cases he : base = (p + k) % base + size
        · rw [if_pos he, next_boundary hb he.symm, hc, Nat.add_assoc, hk]
        · have hw : (p + k) % base + size < base := by omega
          rw [if_neg he, ← div_add_within hw, ← hk, ← Nat.add_assoc]
          exact (cursor_of_lt (by
            have := div_lt_count hlt
            have h₁ := div_add_within hw
            have h₂ : p + k + size < base * ((p + k) / base + 1) := by
              rw [← h₁]
              exact Nat.lt_mul_div_succ _ hb
            calc p + k + size < base * ((p + k) / base + 1) := h₂
              _ ≤ base * count := Nat.mul_le_mul_left _ this
              _ = count * base := Nat.mul_comm _ _)).symm
      rw [if_pos hn]
      simp only [ht, hd, bind, Except.bind, hcur]
      cases fuel with
      | zero => omega
      | succ fuel =>
        rw [copyLoop_done, Nat.add_assoc, hk]
        exact ⟨t',rfl,hk ▸ hR'⟩
    · rw [if_neg hn]
      obtain ⟨t',ht,hR'⟩ := hcopy t k (base - (p + k) % base) hR (by omega) (by omega) (by omega)
      obtain ⟨hu,hc⟩ := hlay _ _ hR'
      have hedge : (p + k) % base + (base - (p + k) % base) = base := by omega
      have hmul := div_add_boundary hedge
      have hcur : next t'.nodes (some ((p + k) / base)) =
          cursor count base (p + k + (base - (p + k) % base)) := by
        rw [next_boundary hb hedge, hc]
      have hlt' : p + k + (base - (p + k) % base) < count * base := by omega
      obtain ⟨n,hd,-,hlen⟩ := deref_uniform hu (hc ▸ div_lt_count hlt')
      simp only [ht, hcur, bind, Except.bind]
      rw [cursor_of_lt hlt', hd]
      simp only [hlen]
      have hz : (p + (k + (base - (p + k) % base))) % base = 0 := by
        rw [← Nat.add_assoc, hmul, Nat.mul_mod_right]
      have hrec := ih t' (k + (base - (p + k) % base)) (size - (base - (p + k) % base)) hR'
        (by omega) (by omega) (by omega)
      rw [hz, Nat.sub_zero, ← Nat.add_assoc, cursor_of_lt hlt'] at hrec
      exact hrec

end

end Gudov.ByteArray
