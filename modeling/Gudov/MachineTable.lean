import Gudov.ActionMachine

/-!
# Tables of transitions

The states of a compiled machine are large terms, but those on the way of a given kind of
input are few. Each of them is named by an input that leads to it, and the transitions
between the named states are listed in a table: from a state, on every byte of a set, to a
state with the actions performed. A table is checked by evaluation, one byte for each set:
a state only looks at the sets it is waiting for, and bytes that these do not tell apart
have the same transition.
-/
namespace Gudov.ActionMachine

/-- Membership by the number of a byte. -/
def ByteSet.hasNat : ByteSet → ℕ → Bool
  | empty, _ => false
  | range lo hi, n => Nat.ble lo.toNat n && Nat.ble n hi.toNat
  | union a b, n => a.hasNat n || b.hasNat n
  | diff a b, n => a.hasNat n && !b.hasNat n

theorem ByteSet.hasNat_toNat (s : ByteSet) (c : UInt8) : s.hasNat c.toNat = s.has c := by
  induction s with
  | empty => rfl
  | range lo hi =>
    simp only [hasNat, has, UInt8.le_iff_toNat_le]
    rw [Bool.eq_iff_iff]
    simp
  | union a b iha ihb => simp only [hasNat, has, iha, ihb]
  | diff a b iha ihb => simp only [hasNat, has, iha, ihb]

/-- The numbers of the bytes in a set. -/
def ByteSet.members : ByteSet → List ℕ
  | empty => []
  | range lo hi => List.range' lo.toNat (hi.toNat + 1 - lo.toNat)
  | union a b => a.members ++ b.members
  | diff a b => a.members.filter fun n => !b.hasNat n

theorem ByteSet.mem_members {s : ByteSet} {c : UInt8} (h : s.has c = true) :
    c.toNat ∈ s.members := by
  induction s with
  | empty => cases h
  | range lo hi =>
    simp only [has, decide_eq_true_eq, UInt8.le_iff_toNat_le] at h
    rw [members, List.mem_range'_1]
    omega
  | union a b iha ihb =>
    simp only [has, Bool.or_eq_true] at h
    exact List.mem_append.mpr (h.imp iha ihb)
  | diff a b iha ihb =>
    simp only [has, Bool.and_eq_true] at h
    rw [members, List.mem_filter, hasNat_toNat]
    exact ⟨iha h.1,h.2⟩

namespace Machine
variable {L : Type}

/-- The sets that decide about the next byte. -/
def firsts : Machine L → List ByteSet
  | null => []
  | one s => [s]
  | seq a b => a.firsts ++ if a.outs.isSome then b.firsts else []
  | alt a b => a.firsts ++ b.firsts
  | star a => a.firsts
  | enter _ a => a.firsts
  | leave _ a => a.firsts
  | finish _ a => a.firsts
  | priorAll _ _ a => a.firsts
  | priorEnter _ _ a => a.firsts
  | priorFinish _ _ a => a.firsts

theorem moves_congr {m : Machine L} {c d : UInt8} (h : ∀ s ∈ m.firsts, s.has c = s.has d) :
    m.moves c = m.moves d := by
  induction m with
  | null => rfl
  | one s => simp only [moves, h s (by simp [firsts])]
  | seq a b iha ihb =>
    have ha := iha fun s hs => h s (by simp [firsts, hs])
    simp only [moves, ha]
    cases hout : a.outs with
    | none => rfl
    | some x =>
      have hb := ihb fun s hs => h s (by simp [firsts, hout, hs])
      rw [hb]
  | alt a b iha ihb =>
    have ha := iha fun s hs => h s (by simp [firsts, hs])
    have hb := ihb fun s hs => h s (by simp [firsts, hs])
    simp only [moves, ha, hb]
  | star a ih => simp only [moves, ih h]
  | enter l a ih => simp only [moves, ih h]
  | leave l a ih => simp only [moves, ih h]
  | finish l a ih => simp only [moves, ih h]
  | priorAll key value a ih => simp only [moves, ih h]
  | priorEnter key value a ih => simp only [moves, ih h]
  | priorFinish key value a ih => simp only [moves, ih h]

end Machine

variable {A : Type}

namespace State

def firsts (s : State A) : List ByteSet := s.flatMap Machine.firsts

theorem step_congr [DecidableEq A] {s : State A} {c d : UInt8}
    (h : ∀ x ∈ s.firsts, x.has c = x.has d) : s.step c = s.step d := by
  have hall : s.flatMap (·.moves c) = s.flatMap (·.moves d) := by
    apply List.flatMap_congr
    intro m hm
    exact Machine.moves_congr fun x hx => h x (List.mem_flatMap.mpr ⟨m,hm,hx⟩)
  simp only [State.step, State.moves, hall]

/-- The state after some bytes. -/
def run [DecidableEq A] (s : State A) (w : List UInt8) : State A :=
  w.foldl (fun s c => (s.step c).1) s

end State

/-- A transition from one named state to another on every byte of a set, with one of the
bytes. -/
structure Row (Q A : Type) where
  source : Q
  bytes : ByteSet
  sample : UInt8
  target : Q
  acts : List A
deriving Repr, DecidableEq

section Table
variable {Q σ ε : Type} [DecidableEq A] {state : Q → State A} {row : Row Q A}
  {rows : List (Row Q A)} {act : A → ℕ → σ → Except ε σ} {breaks : A → Bool}

/-- The sample has the transition, and the source does not tell the other bytes from it. -/
def Row.holds (state : Q → State A) (row : Row Q A) : Bool :=
  decide ((state row.source).step row.sample = (state row.target, row.acts)) &&
    !(state row.target).isEmpty &&
    (state row.source).firsts.all fun x =>
      row.bytes.members.all fun n => x.hasNat n == x.hasNat row.sample.toNat

theorem Row.step {c : UInt8} (h : row.holds state = true) (hc : row.bytes.has c = true) :
    (state row.source).step c = (state row.target, row.acts) ∧ state row.target ≠ [] := by
  simp only [holds, Bool.and_eq_true, decide_eq_true_eq, Bool.not_eq_true', List.all_eq_true,
    beq_iff_eq] at h
  obtain ⟨⟨hsample,htarget⟩,halike⟩ := h
  refine ⟨?_,List.isEmpty_eq_false_iff.mp htarget⟩
  rw [← hsample]
  apply State.step_congr
  intro x hx
  have hsame := halike x hx c.toNat (ByteSet.mem_members hc)
  rw [← ByteSet.hasNat_toNat, ← ByteSet.hasNat_toNat, hsame]

/-- The bytes lead from one named state to another, whatever comes after them. -/
def Leads (state : Q → State A) (act : A → ℕ → σ → Except ε σ) (breaks : A → Bool) (q : Q) (p : ℕ)
    (x : σ) (w : List UInt8) (q' : Q) (y : σ) : Prop :=
  ∀ v, exec act breaks (state q) (w ++ v) p x = exec act breaks (state q') v (p + w.length) y

theorem Leads.trans {q q' q'' : Q} {p : ℕ} {x y z : σ} {w w' : List UInt8}
    (h : Leads state act breaks q p x w q' y)
    (h' : Leads state act breaks q' (p + w.length) y w' q'' z) :
    Leads state act breaks q p x (w ++ w') q'' z := by
  intro v
  rw [List.append_assoc, h, h', List.length_append, Nat.add_assoc]

/-- One byte, by a row whose actions do not break. -/
theorem Row.leads {c : UInt8} {p : ℕ} {x y : σ} (h : row.holds state = true)
    (hc : row.bytes.has c = true) (hp : perform act breaks p row.acts x = .ok (false, y)) :
    Leads state act breaks row.source p x [c] row.target y := by
  intro v
  obtain ⟨hstep,htarget⟩ := Row.step h hc
  have hne : ((state row.source).step c).1 ≠ [] := by
    rw [hstep]
    exact htarget
  have hperform : perform act breaks p ((state row.source).step c).2 x = .ok (false, y) := by
    rw [hstep]
    exact hp
  rw [List.singleton_append, exec_cons_next hne hperform, hstep]
  rfl

/-- The bytes lead from one state to another by rows without actions. -/
inductive Walk (rows : List (Row Q A)) : Q → List UInt8 → Q → Prop
  | nil (q : Q) : Walk rows q [] q
  | cons {row : Row Q A} {c : UInt8} {w : List UInt8} {q : Q} (hrow : row ∈ rows)
      (hacts : row.acts = []) (hc : row.bytes.has c = true) (hrest : Walk rows row.target w q) :
      Walk rows row.source (c :: w) q

theorem Walk.leads {q q' : Q} {w : List UInt8} {p : ℕ} {x : σ}
    (hrows : ∀ row ∈ rows, row.holds state = true) (h : Walk rows q w q') :
    Leads state act breaks q p x w q' x := by
  induction h generalizing p with
  | nil q =>
    intro v
    rfl
  | @cons row c w q hrow hacts hc hrest ih =>
    have hbyte : Leads state act breaks row.source p x [c] row.target x :=
      Row.leads (hrows row hrow) hc (by rw [hacts]; rfl)
    exact hbyte.trans ih

omit [DecidableEq A] in
theorem Walk.mono {rows' : List (Row Q A)} {q q' : Q} {w : List UInt8} (h : Walk rows q w q')
    (hsub : rows ⊆ rows') : Walk rows' q w q' := by
  induction h with
  | nil q => exact Walk.nil q
  | cons hrow hacts hc _ ih => exact Walk.cons (hsub hrow) hacts hc ih

/-- A transition that the table lists. -/
def Listed (rows : List (Row Q A)) (q : Q) (c : UInt8) (q' : Q) (acts : List A) : Prop :=
  ∃ row ∈ rows, row.source = q ∧ row.target = q' ∧ row.acts = acts ∧ row.bytes.has c = true

omit [DecidableEq A] in
theorem Listed.of_mem (row : Row Q A) {c : UInt8} (hrow : row ∈ rows)
    (hc : row.bytes.has c = true) : Listed rows row.source c row.target row.acts :=
  ⟨row,hrow,rfl,rfl,rfl,hc⟩

theorem Listed.leads {q q' : Q} {c : UInt8} {p : ℕ} {x y : σ} {acts : List A}
    (hrows : ∀ row ∈ rows, row.holds state = true) (h : Listed rows q c q' acts)
    (hp : perform act breaks p acts x = .ok (false, y)) :
    Leads state act breaks q p x [c] q' y := by
  obtain ⟨row,hrow,rfl,rfl,rfl,hc⟩ := h
  exact Row.leads (hrows row hrow) hc hp

omit [DecidableEq A] in
theorem Listed.walk {q q' q'' : Q} {c : UInt8} {w : List UInt8} (h : Listed rows q c q' [])
    (hw : Walk rows q' w q'') : Walk rows q (c :: w) q'' := by
  obtain ⟨row,hrow,rfl,rfl,hacts,hc⟩ := h
  exact Walk.cons hrow hacts hc hw

omit [DecidableEq A] in
/-- Bytes that stay in one state. -/
theorem Walk.stay {q : Q} {w : List UInt8} (h : ∀ c ∈ w, Listed rows q c q []) :
    Walk rows q w q := by
  induction w with
  | nil => exact Walk.nil q
  | cons c w ih => exact (h c (by simp)).walk (ih fun d hd => h d (by simp [hd]))

/-- The state to which the first rows without actions lead. -/
def follow [DecidableEq Q] (rows : List (Row Q A)) : Q → List UInt8 → Option Q
  | q, [] => some q
  | q, c :: w =>
    match rows.find? fun row => row.source = q && row.acts.isEmpty && row.bytes.has c with
    | none => none
    | some row => follow rows row.target w

omit [DecidableEq A] in
theorem follow_walk [DecidableEq Q] {q q' : Q} {w : List UInt8} (h : follow rows q w = some q') :
    Walk rows q w q' := by
  induction w generalizing q with
  | nil =>
    rw [← Option.some.inj h]
    exact Walk.nil q
  | cons c w ih =>
    rw [follow] at h
    split at h
    next => cases h
    next row hfind =>
      have hrow := List.find?_some hfind
      simp only [Bool.and_eq_true, decide_eq_true_eq, List.isEmpty_iff] at hrow
      obtain ⟨⟨rfl,hacts⟩,hc⟩ := hrow
      exact Walk.cons (List.mem_of_find?_eq_some hfind) hacts hc (ih h)

end Table

end Gudov.ActionMachine
