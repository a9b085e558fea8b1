import Mathlib.Data.Set.Lattice
import Gudov.MachineTable

/-!
# Traces of machines with actions

What a machine does on an input, without its positions: which bytes it can read, whether it
accepts, and which actions it performs where. These follow the structure of the machine. Of
a concatenation all alternatives are alive at once, so an action of a part that fails later
is performed as well.

The trace of an input lists the actions with the positions at which they are performed. The
trace of a concatenation is that of its parts one after the other, as long as the input
splits in one way only: when the first part stops before the bytes that start the second, or
when it is a fixed word. The compiled machine performs the trace, each action once at a
position.
-/
namespace Gudov.ActionMachine

namespace Machine

section Order
variable {A : Type}

/-- At an earlier position, or at the same one with a smaller number. -/
def Before (x y : ℕ × ℕ × A) : Prop := x.1 < y.1 ∨ x.1 = y.1 ∧ x.2.1 < y.2.1

/-- The actions on an input that starts at position `p`, with their positions, in the order in
which they are performed. -/
structure IsTrace (performs : List UInt8 → Option UInt8 → ℕ × A → Prop) (p : ℕ)
    (w : List UInt8) (T : List (ℕ × ℕ × A)) : Prop where
  sorted : T.Pairwise Before
  mem : ∀ x, x ∈ T ↔ ∃ u v, w = u ++ v ∧ x.1 = p + u.length ∧ performs u v.head? x.2

end Order

variable {L : Type}

section Moving

/-- The positions after a byte. -/
def next (m : Machine L) (c : UInt8) : Set (Machine L) := {t | ∃ move ∈ m.moves c, move.target = t}

/-- The labels of the actions on a byte. -/
def labels (m : Machine L) (c : UInt8) : Set L := {l | ∃ move ∈ m.moves c, l ∈ move.acts}

/-- The labels of the actions on the next byte, or at the end of the input. -/
def emits (m : Machine L) : Option UInt8 → Set L
  | some c => m.labels c
  | none => {l | ∃ x, m.outs = some x ∧ l ∈ x}

/-- The machine moves on the next byte, or may end with the input. -/
def opens (m : Machine L) : Option UInt8 → Prop
  | some c => (m.next c).Nonempty
  | none => m.outs.isSome = true

/-- Neither actions nor priorities are used. -/
def plain : Machine L → Bool
  | null => true
  | one _ => true
  | seq a b => a.plain && b.plain
  | alt a b => a.plain && b.plain
  | star a => a.plain
  | _ => false

/-- No priorities are used. -/
def unranked : Machine L → Bool
  | null => true
  | one _ => true
  | seq a b => a.unranked && b.unranked
  | alt a b => a.unranked && b.unranked
  | star a => a.unranked
  | enter _ a => a.unranked
  | leave _ a => a.unranked
  | finish _ a => a.unranked
  | priorAll _ _ _ => false
  | priorEnter _ _ _ => false
  | priorFinish _ _ _ => false

/-- The bytes that occur in the machine. -/
def uses : Machine L → UInt8 → Bool
  | null, _ => false
  | one s, c => s.has c
  | seq a b, c => a.uses c || b.uses c
  | alt a b, c => a.uses c || b.uses c
  | star a, c => a.uses c
  | enter _ a, c => a.uses c
  | leave _ a, c => a.uses c
  | finish _ a, c => a.uses c
  | priorAll _ _ a, c => a.uses c
  | priorEnter _ _ a, c => a.uses c
  | priorFinish _ _ a, c => a.uses c

end Moving

section Structure
variable (a b : Machine L) (c : UInt8)

theorem mem_next {m t : Machine L} : t ∈ m.next c ↔ ∃ move ∈ m.moves c, move.target = t := Iff.rfl

theorem mem_labels {m : Machine L} {l : L} : l ∈ m.labels c ↔ ∃ move ∈ m.moves c, l ∈ move.acts :=
  Iff.rfl

variable {a b c} in
/-- A transition of a concatenation is one of the first part, or one of the second behind a
word of the first. -/
theorem moves_seq_cases {move : Move L} (h : move ∈ (seq a b).moves c) :
    (∃ m ∈ a.moves c, move = { m with target := seq m.target b }) ∨
      ∃ x, a.outs = some x ∧ ∃ m ∈ b.moves c, move = { m with acts := x ++ m.acts } := by
  rcases List.mem_append.mp h with h | h
  · obtain ⟨m,hm,rfl⟩ := List.mem_map.mp h
    exact Or.inl ⟨m,hm,rfl⟩
  · split at h
    next => cases h
    next x hout =>
      obtain ⟨m,hm,rfl⟩ := List.mem_map.mp h
      exact Or.inr ⟨x,hout,m,hm,rfl⟩

@[simp] theorem next_null : (null : Machine L).next c = ∅ := by
  ext t
  simp [mem_next, moves]

@[simp] theorem next_one (s : ByteSet) :
    (one s : Machine L).next c = if s.has c then {null} else ∅ := by
  ext t
  by_cases h : s.has c = true
  · simp [mem_next, moves, h, eq_comm]
  · simp [mem_next, moves, h]

@[simp] theorem next_alt : (alt a b).next c = a.next c ∪ b.next c := by
  ext t
  simp [mem_next, moves, or_and_right, exists_or]

@[simp] theorem next_enter (l : L) : (enter l a).next c = a.next c := by
  ext t
  simp [mem_next, moves]

@[simp] theorem next_leave (l : L) : (leave l a).next c = leave l '' a.next c := by
  ext t
  simp [mem_next, moves]

@[simp] theorem next_star : (star a).next c = (seq · (star a)) '' a.next c := by
  ext t
  simp [mem_next, moves]

@[simp] theorem next_seq : (seq a b).next c =
    (seq · b) '' a.next c ∪ if a.outs.isSome then b.next c else ∅ := by
  ext t
  cases hout : a.outs with
  | none => simp [mem_next, moves, hout]
  | some x => simp [mem_next, moves, hout, or_and_right, exists_or]

theorem labels_alt : (alt a b).labels c = a.labels c ∪ b.labels c := by
  ext l
  simp [mem_labels, moves, or_and_right, exists_or]

theorem labels_enter (l : L) :
    (enter l a).labels c = {l' | l' = l ∧ (a.next c).Nonempty} ∪ a.labels c := by
  ext l'
  simp only [mem_labels, moves, mem_next, Set.mem_ofPred_eq, Set.mem_union, Set.nonempty_def,
    List.mem_map]
  constructor
  · rintro ⟨_,⟨move,hmove,rfl⟩,hl⟩
    rcases List.mem_cons.mp hl with rfl | hl
    · exact .inl ⟨rfl,move.target,move,hmove,rfl⟩
    · exact .inr ⟨move,hmove,hl⟩
  · rintro (⟨rfl,_,move,hmove,_⟩ | ⟨move,hmove,hl⟩)
    · exact ⟨_,⟨move,hmove,rfl⟩,List.mem_cons_self⟩
    · exact ⟨_,⟨move,hmove,rfl⟩,List.mem_cons_of_mem _ hl⟩

theorem labels_leave (l : L) : (leave l a).labels c = a.labels c := by
  ext l'
  simp [mem_labels, moves]

theorem labels_seq_none (h : a.outs = none) : (seq a b).labels c = a.labels c := by
  ext l
  simp [mem_labels, moves, h]

theorem labels_seq_some {x : List L} (h : a.outs = some x) : (seq a b).labels c =
    a.labels c ∪ ({l | l ∈ x ∧ (b.next c).Nonempty} ∪ b.labels c) := by
  ext l
  simp only [mem_labels, moves, h, mem_next, Set.mem_ofPred_eq, Set.mem_union, Set.nonempty_def,
    List.mem_append, List.mem_map]
  constructor
  · rintro ⟨_,⟨move,hmove,rfl⟩ | ⟨move,hmove,rfl⟩,hl⟩
    · exact .inl ⟨move,hmove,hl⟩
    · rcases List.mem_append.mp hl with hl | hl
      · exact .inr (.inl ⟨hl,move.target,move,hmove,rfl⟩)
      · exact .inr (.inr ⟨move,hmove,hl⟩)
  · rintro (⟨move,hmove,hl⟩ | ⟨hl,_,move,hmove,_⟩ | ⟨move,hmove,hl⟩)
    · exact ⟨_,.inl ⟨move,hmove,rfl⟩,hl⟩
    · exact ⟨_,.inr ⟨move,hmove,rfl⟩,List.mem_append_left _ hl⟩
    · exact ⟨_,.inr ⟨move,hmove,rfl⟩,List.mem_append_right _ hl⟩

variable {a b} {l l' : L} {o : Option UInt8}

@[simp] theorem emits_some : a.emits (some c) = a.labels c := rfl

@[simp] theorem mem_emits_none : l ∈ a.emits none ↔ ∃ x, a.outs = some x ∧ l ∈ x := Iff.rfl

theorem emits_alt : l ∈ (alt a b).emits o ↔ l ∈ a.emits o ∨ l ∈ b.emits o := by
  cases o with
  | some c => rw [emits_some, labels_alt, Set.mem_union, emits_some, emits_some]
  | none =>
    cases ha : a.outs <;> cases hb : b.outs <;> simp [outs, ha, hb]

theorem emits_enter : l' ∈ (enter l a).emits o ↔ (l' = l ∧ a.opens o) ∨ l' ∈ a.emits o := by
  cases o with
  | some c => rw [emits_some, labels_enter, Set.mem_union, emits_some, opens, Set.mem_ofPred_eq]
  | none => cases ha : a.outs <;> simp [opens, outs, ha]

theorem emits_leave :
    l' ∈ (leave l a).emits o ↔ l' ∈ a.emits o ∨ (o = none ∧ l' = l ∧ a.outs.isSome = true) := by
  cases o with
  | some c => simp [labels_leave]
  | none => cases ha : a.outs <;> simp [outs, ha]

theorem emits_seq : l ∈ (seq a b).emits o ↔ (o ≠ none ∧ l ∈ a.emits o) ∨
    (l ∈ a.emits none ∧ b.opens o) ∨ (a.outs.isSome = true ∧ l ∈ b.emits o) := by
  cases o with
  | some c =>
    cases ha : a.outs with
    | none => simp [labels_seq_none a b c ha, ha]
    | some x => simp [labels_seq_some a b c ha, opens, ha]
  | none =>
    cases ha : a.outs <;> cases hb : b.outs <;> simp [opens, outs, ha, hb]

end Structure

section Reading
variable {P Q : Machine L → Prop} {a b : Machine L} {w : List UInt8} {l l' : L}
  {o : Option UInt8}

/-- Some position with the property is reached by the bytes. -/
def Reaches (P : Machine L → Prop) : Machine L → List UInt8 → Prop
  | m, [] => P m
  | m, c :: w => ∃ t ∈ m.next c, Reaches P t w

/-- The bytes can be read. -/
def Live (m : Machine L) (w : List UInt8) : Prop := Reaches (fun _ => True) m w

/-- The machine may end after the bytes. -/
def Accepts (m : Machine L) (w : List UInt8) : Prop := Reaches (fun t => t.outs.isSome = true) m w

/-- The action is performed after the bytes, when the given byte or the end follows. -/
def At (m : Machine L) (w : List UInt8) (o : Option UInt8) (l : L) : Prop :=
  Reaches (fun t => l ∈ t.emits o) m w

@[simp] theorem reaches_nil : Reaches P a [] ↔ P a := Iff.rfl

@[simp] theorem reaches_cons {c : UInt8} :
    Reaches P a (c :: w) ↔ ∃ t ∈ a.next c, Reaches P t w := Iff.rfl

theorem Reaches.imp (h : ∀ t, P t → Q t) (hP : Reaches P a w) : Reaches Q a w := by
  induction w generalizing a with
  | nil => exact h a hP
  | cons c w ih =>
    obtain ⟨t,ht,hreach⟩ := hP
    exact ⟨t,ht,ih hreach⟩

theorem Reaches.live (h : Reaches P a w) : a.Live w := h.imp fun _ _ => trivial

theorem reaches_or : Reaches (fun t => P t ∨ Q t) a w ↔ Reaches P a w ∨ Reaches Q a w := by
  induction w generalizing a with
  | nil => exact Iff.rfl
  | cons c w ih => simp only [reaches_cons, ih, and_or_left, exists_or]

theorem reaches_and_left {q : Prop} : Reaches (fun t => q ∧ P t) a w ↔ q ∧ Reaches P a w := by
  induction w generalizing a with
  | nil => exact Iff.rfl
  | cons c w ih =>
    simp only [reaches_cons, ih]
    constructor
    · rintro ⟨t,ht,hq,hP⟩
      exact ⟨hq,t,ht,hP⟩
    · rintro ⟨hq,t,ht,hP⟩
      exact ⟨t,ht,hq,hP⟩

theorem reaches_append {u v : List UInt8} :
    Reaches P a (u ++ v) ↔ Reaches (fun t => Reaches P t v) a u := by
  induction u generalizing a with
  | nil => exact Iff.rfl
  | cons c u ih => simp only [List.cons_append, reaches_cons, ih]

theorem Live.left {u v : List UInt8} (h : a.Live (u ++ v)) : a.Live u :=
  (reaches_append.mp h).live

theorem live_nil : a.Live [] := trivial

/-- The second part is entered after a word of the first one. -/
theorem reaches_seq : Reaches P (seq a b) w ↔ Reaches (fun t => P (seq t b)) a w ∨
    ∃ u v, w = u ++ v ∧ v ≠ [] ∧ a.Accepts u ∧ Reaches P b v := by
  induction w generalizing a with
  | nil => simp
  | cons c w ih =>
    simp only [reaches_cons, next_seq, Set.mem_union, Set.mem_image]
    constructor
    · rintro ⟨_,⟨t,ht,rfl⟩ | hb,hreach⟩
      · rcases ih.mp hreach with hstay | ⟨u,v,rfl,hv,hacc,hreach⟩
        · exact .inl ⟨t,ht,hstay⟩
        · exact .inr ⟨c :: u,v,rfl,hv,⟨t,ht,hacc⟩,hreach⟩
      · split at hb
        next hout => exact .inr ⟨[],c :: w,rfl,by simp,hout,_,hb,hreach⟩
        next => exact absurd hb (Set.notMem_empty _)
    · rintro (⟨t,ht,hstay⟩ | ⟨u,v,hw,hv,hacc,hreach⟩)
      · exact ⟨_,.inl ⟨t,ht,rfl⟩,ih.mpr (.inl hstay)⟩
      · cases u with
        | nil =>
          obtain rfl : c :: w = v := hw
          obtain ⟨t,ht,hreach⟩ := hreach
          have hout : a.outs.isSome = true := hacc
          refine ⟨t,.inr ?_,hreach⟩
          rw [if_pos hout]
          exact ht
        | cons c' u =>
          obtain ⟨rfl,rfl⟩ : c = c' ∧ w = u ++ v := by simpa using hw
          obtain ⟨t,ht,hacc⟩ := hacc
          exact ⟨_,.inl ⟨t,ht,rfl⟩,ih.mpr (.inr ⟨u,v,rfl,hv,hacc,hreach⟩)⟩

theorem reaches_leave : Reaches P (leave l a) w ↔ Reaches (fun t => P (leave l t)) a w := by
  induction w generalizing a with
  | nil => exact Iff.rfl
  | cons c w ih =>
    simp only [reaches_cons, next_leave, Set.mem_image]
    constructor
    · rintro ⟨_,⟨t,ht,rfl⟩,hreach⟩
      exact ⟨t,ht,ih.mp hreach⟩
    · rintro ⟨t,ht,hreach⟩
      exact ⟨_,⟨t,ht,rfl⟩,ih.mpr hreach⟩

theorem reaches_enter (h : P (enter l a) ↔ P a) : Reaches P (enter l a) w ↔ Reaches P a w := by
  cases w with
  | nil => exact h
  | cons c w => simp only [reaches_cons, next_enter]

theorem reaches_alt (h : P (alt a b) ↔ P a ∨ P b) :
    Reaches P (alt a b) w ↔ Reaches P a w ∨ Reaches P b w := by
  cases w with
  | nil => exact h
  | cons c w => simp only [reaches_cons, next_alt, Set.mem_union, or_and_right, exists_or]

theorem live_seq : (seq a b).Live w ↔ a.Live w ∨
    ∃ u v, w = u ++ v ∧ v ≠ [] ∧ a.Accepts u ∧ b.Live v := reaches_seq

theorem live_alt : (alt a b).Live w ↔ a.Live w ∨ b.Live w := reaches_alt (by simp)

theorem live_enter : (enter l a).Live w ↔ a.Live w := reaches_enter Iff.rfl

theorem live_leave : (leave l a).Live w ↔ a.Live w := reaches_leave

theorem live_one {s : ByteSet} : (one s : Machine L).Live w ↔ w = [] ∨ ∃ c, w = [c] ∧ s.has c := by
  rcases w with _ | ⟨c,_ | ⟨d,w⟩⟩
  · simp [Live]
  · by_cases hc : s.has c = true <;> simp [Live, hc]
  · by_cases hc : s.has c = true <;> simp [Live, hc]

theorem accepts_null : (null : Machine L).Accepts w ↔ w = [] := by
  cases w with
  | nil => simp [Accepts, outs]
  | cons c w => simp [Accepts]

theorem accepts_one {s : ByteSet} : (one s : Machine L).Accepts w ↔ ∃ c, w = [c] ∧ s.has c := by
  rcases w with _ | ⟨c,_ | ⟨d,w⟩⟩
  · simp [Accepts, outs]
  · by_cases hc : s.has c = true <;> simp [Accepts, outs, hc]
  · by_cases hc : s.has c = true <;> simp [Accepts, hc]

theorem outs_seq : (seq a b).outs.isSome = true ↔ a.outs.isSome = true ∧ b.outs.isSome = true := by
  cases ha : a.outs <;> cases hb : b.outs <;> simp [outs, ha, hb]

theorem outs_alt : (alt a b).outs.isSome = true ↔ a.outs.isSome = true ∨ b.outs.isSome = true := by
  cases ha : a.outs <;> cases hb : b.outs <;> simp [outs, ha, hb]

theorem accepts_alt : (alt a b).Accepts w ↔ a.Accepts w ∨ b.Accepts w := reaches_alt outs_alt

theorem accepts_opt : a.opt.Accepts w ↔ a.Accepts w ∨ w = [] := by
  rw [opt, accepts_alt, accepts_null]

theorem accepts_enter : (enter l a).Accepts w ↔ a.Accepts w := reaches_enter (by simp [outs])

theorem accepts_leave : (leave l a).Accepts w ↔ a.Accepts w := by
  rw [Accepts, reaches_leave]
  simp [Accepts, outs]

theorem accepts_seq :
    (seq a b).Accepts w ↔ ∃ u v, w = u ++ v ∧ a.Accepts u ∧ b.Accepts v := by
  have hstay : Reaches (fun t => (seq t b).outs.isSome = true) a w ↔
      b.outs.isSome = true ∧ a.Accepts w := by
    rw [Accepts, ← reaches_and_left]
    simp only [outs_seq, and_comm]
  rw [Accepts, reaches_seq, hstay]
  constructor
  · rintro (⟨hb,ha⟩ | ⟨u,v,rfl,_,ha,hb⟩)
    · exact ⟨w,[],by simp,ha,hb⟩
    · exact ⟨u,v,rfl,ha,hb⟩
  · rintro ⟨u,v,rfl,ha,hb⟩
    cases v with
    | nil => exact .inl ⟨hb,by simpa using ha⟩
    | cons c v => exact .inr ⟨u,c :: v,rfl,by simp,ha,hb⟩

theorem accepts_star_cons {c : UInt8} : (star a).Accepts (c :: w) ↔
    ∃ u v, w = u ++ v ∧ a.Accepts (c :: u) ∧ (star a).Accepts v := by
  constructor
  · rintro ⟨_,ht,hacc⟩
    rw [next_star] at ht
    obtain ⟨t,ht,rfl⟩ := ht
    obtain ⟨u,v,rfl,hu,hv⟩ := accepts_seq.mp hacc
    exact ⟨u,v,rfl,⟨t,ht,hu⟩,hv⟩
  · rintro ⟨u,v,rfl,⟨t,ht,hu⟩,hv⟩
    refine ⟨seq t (star a),?_,accepts_seq.mpr ⟨u,v,rfl,hu,hv⟩⟩
    rw [next_star]
    exact ⟨t,ht,rfl⟩

theorem accepts_star_nil : (star a).Accepts [] := by
  simp [Accepts, outs]

theorem accepts_star_one {s : ByteSet} :
    (star (one s) : Machine L).Accepts w ↔ ∀ c ∈ w, s.has c = true := by
  induction w with
  | nil => simp [accepts_star_nil]
  | cons c w ih => simp [accepts_star_cons, accepts_one, ih]

theorem has_single {c d : UInt8} : (ByteSet.range c c).has d = true ↔ d = c := by
  rw [ByteSet.has, decide_eq_true_eq, ← UInt8.toNat_inj, UInt8.le_iff_toNat_le,
    UInt8.le_iff_toNat_le]
  omega

theorem accepts_word {k : List UInt8} : (word k : Machine L).Accepts w ↔ w = k := by
  induction k using word.induct generalizing w with
  | case1 => exact accepts_null
  | case2 c => simp [word, accepts_one, has_single]
  | case3 c cs hne ih => simp [word, accepts_seq, accepts_one, has_single, ih]

theorem accepts_word_seq {k : List UInt8} :
    (seq (word k) b).Accepts w ↔ ∃ v, w = k ++ v ∧ b.Accepts v := by
  rw [accepts_seq]
  simp [accepts_word]

theorem live_word {k : List UInt8} : (word k : Machine L).Live w ↔ w <+: k := by
  induction k using word.induct generalizing w with
  | case1 => cases w <;> simp [word, Live]
  | case2 c =>
    rw [word, live_one, List.prefix_cons_iff]
    simp [has_single]
  | case3 c cs hne ih =>
    rw [word.eq_3 c cs hne, live_seq, live_one, List.prefix_cons_iff]
    simp only [accepts_one, has_single, ih]
    constructor
    · rintro ((rfl | ⟨d,rfl,rfl⟩) | ⟨_,v,rfl,_,⟨d,rfl,rfl⟩,hv⟩)
      · exact .inl rfl
      · exact .inr ⟨[],rfl,by simp⟩
      · exact .inr ⟨v,rfl,hv⟩
    · rintro (rfl | ⟨v,rfl,hv⟩)
      · exact .inl (.inl rfl)
      · cases v with
        | nil => exact .inl (.inr ⟨c,rfl,rfl⟩)
        | cons d v => exact .inr ⟨[c],d :: v,rfl,by simp,⟨c,rfl,rfl⟩,hv⟩

theorem live_word_seq {k : List UInt8} (h : (seq (word k) b).Live (k ++ w)) : b.Live w := by
  rcases live_seq.mp h with h | ⟨u,v,heq,_,hu,hv⟩
  · have hle := (live_word.mp h).length_le
    rw [List.length_append] at hle
    rw [List.eq_nil_of_length_eq_zero (by omega : w.length = 0)]
    exact live_nil
  · rw [accepts_word.mp hu] at heq
    rw [List.append_cancel_left heq]
    exact hv

end Reading

section Performing
variable {a b m : Machine L} {w : List UInt8} {l l' : L} {o : Option UInt8}

/-- The machine goes on with the next byte, or may end with the input. -/
def Goes (m : Machine L) (w : List UInt8) (o : Option UInt8) : Prop := Reaches (·.opens o) m w

theorem goes_some {c : UInt8} : m.Goes w (some c) ↔ m.Live (w ++ [c]) := by
  rw [Live, reaches_append]
  simp only [Goes, opens, reaches_cons, reaches_nil, and_true, Set.nonempty_def]

theorem opens_some {c : UInt8} : m.opens (some c) ↔ m.Live [c] := goes_some (w := [])

theorem Accepts.goes {u v : List UInt8} (h : m.Accepts (u ++ v)) : m.Goes u v.head? := by
  cases v with
  | nil =>
    rw [List.append_nil] at h
    exact h
  | cons c v =>
    refine goes_some.mpr (Live.left (v := v) ?_)
    simpa using h.live

theorem Goes.opens {u v : List UInt8} (h : m.Goes u v.head?) : m.opens (u ++ v).head? := by
  cases u with
  | nil => exact h
  | cons c u =>
    obtain ⟨t,ht,_⟩ := h
    exact ⟨t,ht⟩

theorem Accepts.opens (h : m.Accepts w) : m.opens w.head? := Accepts.goes (u := []) h

theorem opens_of_emits (h : l ∈ m.emits o) : m.opens o := by
  cases o with
  | some c =>
    obtain ⟨move,hmove,_⟩ := h
    exact ⟨move.target,move,hmove,rfl⟩
  | none =>
    obtain ⟨x,hx,_⟩ := h
    simp [opens, hx]

theorem At.goes (h : m.At w o l) : m.Goes w o := Reaches.imp (fun _ => opens_of_emits) h

theorem at_alt : (alt a b).At w o l ↔ a.At w o l ∨ b.At w o l := reaches_alt emits_alt

theorem at_enter : (enter l a).At w o l' ↔ (w = [] ∧ l' = l ∧ a.opens o) ∨ a.At w o l' := by
  cases w with
  | nil => simp [At, emits_enter]
  | cons c w => simp [At]

theorem at_leave :
    (leave l a).At w o l' ↔ a.At w o l' ∨ (o = none ∧ l' = l ∧ a.Accepts w) := by
  rw [At, reaches_leave]
  simp only [emits_leave, reaches_or, reaches_and_left]
  rfl

theorem at_seq : (seq a b).At w o l ↔ (o ≠ none ∧ a.At w o l) ∨ (b.opens o ∧ a.At w none l) ∨
    ∃ u v, w = u ++ v ∧ a.Accepts u ∧ b.At v o l := by
  have hstay : Reaches (fun t => l ∈ (seq t b).emits o) a w ↔ (o ≠ none ∧ a.At w o l) ∨
      (b.opens o ∧ a.At w none l) ∨ (l ∈ b.emits o ∧ a.Accepts w) := by
    simp only [emits_seq, reaches_or, At, Accepts, ← reaches_and_left, and_comm]
  rw [At, reaches_seq, hstay]
  constructor
  · rintro ((h | h | ⟨hb,ha⟩) | ⟨u,v,rfl,_,ha,hb⟩)
    · exact .inl h
    · exact .inr (.inl h)
    · exact .inr (.inr ⟨w,[],by simp,ha,hb⟩)
    · exact .inr (.inr ⟨u,v,rfl,ha,hb⟩)
  · rintro (h | h | ⟨u,v,rfl,ha,hb⟩)
    · exact .inl (.inl h)
    · exact .inl (.inr (.inl h))
    · cases v with
      | nil => exact .inl (.inr (.inr ⟨hb,by simpa using ha⟩))
      | cons c v => exact .inr ⟨u,c :: v,rfl,by simp,ha,hb⟩

theorem plain_outs {x : List L} (hm : m.plain = true) (h : m.outs = some x) : x = [] := by
  induction m generalizing x with
  | null => simpa [outs, eq_comm] using h
  | one s => simp [outs] at h
  | seq a b iha ihb =>
    simp only [plain, Bool.and_eq_true] at hm
    cases ha : a.outs with
    | none => simp [outs, ha] at h
    | some y =>
      cases hb : b.outs with
      | none => simp [outs, ha, hb] at h
      | some z =>
        obtain rfl := iha hm.1 ha
        obtain rfl := ihb hm.2 hb
        simpa [outs, ha, hb, eq_comm] using h
  | alt a b iha ihb =>
    simp only [plain, Bool.and_eq_true] at hm
    cases ha : a.outs <;> cases hb : b.outs <;> simp only [outs, ha, hb] at h
    · cases h
    · cases h
      exact ihb hm.2 hb
    · cases h
      exact iha hm.1 ha
    · cases h
      rw [iha hm.1 ha, ihb hm.2 hb, List.append_nil]
  | star a ih =>
    cases ha : a.outs with
    | none => simpa [outs, ha, eq_comm] using h
    | some y =>
      obtain rfl := ih hm ha
      simpa [outs, ha, eq_comm] using h
  | _ => cases hm

theorem plain_moves {c : UInt8} {move : Move L} (hm : m.plain = true) (h : move ∈ m.moves c) :
    move.acts = [] ∧ move.target.plain = true := by
  induction m generalizing move with
  | null => simp [moves] at h
  | one s =>
    simp only [moves, List.mem_ite_nil_right, List.mem_singleton] at h
    rw [h.2]
    exact ⟨rfl,rfl⟩
  | seq a b iha ihb =>
    simp only [plain, Bool.and_eq_true] at hm
    obtain ⟨move,hmove,rfl⟩ | ⟨x,ha,move,hmove,rfl⟩ := moves_seq_cases h
    · obtain ⟨hacts,htarget⟩ := iha hm.1 hmove
      exact ⟨hacts,by simp [plain, htarget, hm.2]⟩
    · obtain ⟨hacts,htarget⟩ := ihb hm.2 hmove
      exact ⟨by simp [plain_outs hm.1 ha, hacts],htarget⟩
  | alt a b iha ihb =>
    simp only [plain, Bool.and_eq_true] at hm
    exact (List.mem_append.mp h).elim (iha hm.1) (ihb hm.2)
  | star a ih =>
    obtain ⟨move,hmove,rfl⟩ := List.mem_map.mp h
    obtain ⟨hacts,htarget⟩ := ih hm hmove
    exact ⟨hacts,by simp [plain, htarget, show a.plain = true from hm]⟩
  | _ => cases hm

theorem not_at_of_plain (hm : m.plain = true) : ¬m.At w o l := by
  induction w generalizing m with
  | nil =>
    intro h
    cases o with
    | some c =>
      obtain ⟨move,hmove,hl⟩ := h
      rw [(plain_moves hm hmove).1] at hl
      cases hl
    | none =>
      obtain ⟨x,hx,hl⟩ := h
      rw [plain_outs hm hx] at hl
      cases hl
  | cons c w ih =>
    rintro ⟨t,⟨move,hmove,rfl⟩,h⟩
    exact ih (plain_moves hm hmove).2 h

theorem unranked_moves {c : UInt8} {move : Move L} (hm : m.unranked = true)
    (h : move ∈ m.moves c) : move.priors = [] ∧ move.target.unranked = true := by
  induction m generalizing move with
  | null => simp [moves] at h
  | one s =>
    simp only [moves, List.mem_ite_nil_right, List.mem_singleton] at h
    rw [h.2]
    exact ⟨rfl,rfl⟩
  | seq a b iha ihb =>
    simp only [unranked, Bool.and_eq_true] at hm
    obtain ⟨move,hmove,rfl⟩ | ⟨x,-,move,hmove,rfl⟩ := moves_seq_cases h
    · obtain ⟨hpriors,htarget⟩ := iha hm.1 hmove
      exact ⟨hpriors,by simp [unranked, htarget, hm.2]⟩
    · obtain ⟨hpriors,htarget⟩ := ihb hm.2 hmove
      exact ⟨hpriors,htarget⟩
  | alt a b iha ihb =>
    simp only [unranked, Bool.and_eq_true] at hm
    exact (List.mem_append.mp h).elim (iha hm.1) (ihb hm.2)
  | star a ih =>
    obtain ⟨move,hmove,rfl⟩ := List.mem_map.mp h
    obtain ⟨hpriors,htarget⟩ := ih hm hmove
    exact ⟨hpriors,by simp [unranked, htarget, show a.unranked = true from hm]⟩
  | enter l a ih =>
    obtain ⟨move,hmove,rfl⟩ := List.mem_map.mp h
    obtain ⟨hpriors,htarget⟩ := ih hm hmove
    exact ⟨hpriors,htarget⟩
  | leave l a ih =>
    obtain ⟨move,hmove,rfl⟩ := List.mem_map.mp h
    obtain ⟨hpriors,htarget⟩ := ih hm hmove
    exact ⟨hpriors,htarget⟩
  | finish l a ih =>
    obtain ⟨move,hmove,rfl⟩ := List.mem_map.mp h
    obtain ⟨hpriors,htarget⟩ := ih hm hmove
    exact ⟨hpriors,htarget⟩
  | _ => cases hm

theorem uses_moves {c d : UInt8} {move : Move L} (h : move ∈ m.moves c) :
    m.uses c = true ∧ (move.target.uses d = true → m.uses d = true) := by
  induction m generalizing move with
  | null => simp [moves] at h
  | one s =>
    simp only [moves, List.mem_ite_nil_right, List.mem_singleton] at h
    rw [h.2]
    exact ⟨h.1,by simp [uses]⟩
  | seq a b iha ihb =>
    simp only [uses, Bool.or_eq_true]
    obtain ⟨move,hmove,rfl⟩ | ⟨x,-,move,hmove,rfl⟩ := moves_seq_cases h
    · obtain ⟨hc,hd⟩ := iha hmove
      simp only [uses, Bool.or_eq_true]
      exact ⟨.inl hc,Or.imp_left hd⟩
    · obtain ⟨hc,hd⟩ := ihb hmove
      exact ⟨.inr hc,fun h => .inr (hd h)⟩
  | alt a b iha ihb =>
    simp only [uses, Bool.or_eq_true]
    rcases List.mem_append.mp h with h | h
    · exact ⟨.inl (iha h).1,fun hd => .inl ((iha h).2 hd)⟩
    · exact ⟨.inr (ihb h).1,fun hd => .inr ((ihb h).2 hd)⟩
  | star a ih =>
    obtain ⟨move,hmove,rfl⟩ := List.mem_map.mp h
    simp only [uses, Bool.or_eq_true]
    exact ⟨(ih hmove).1,fun hd => hd.elim (ih hmove).2 id⟩
  | _ =>
    obtain ⟨move,hmove,rfl⟩ := List.mem_map.mp h
    rename_i ih
    obtain ⟨hc,hd⟩ := ih hmove
    exact ⟨hc,hd⟩

/-- The machine can only read bytes that occur in it. -/
theorem Live.uses {c : UInt8} (h : m.Live w) (hc : c ∈ w) : m.uses c = true := by
  induction w generalizing m with
  | nil => cases hc
  | cons d w ih =>
    obtain ⟨t,⟨move,hmove,rfl⟩,h⟩ := h
    rcases List.mem_cons.mp hc with rfl | hc
    · exact (uses_moves (d := c) hmove).1
    · exact (uses_moves hmove).2 (ih h hc)

end Performing

section Splitting
variable {a b : Machine L} {w r : List UInt8} {D : UInt8 → Prop}

/-- Nothing the machine can read contains one of the bytes. -/
def Avoids (m : Machine L) (D : UInt8 → Prop) : Prop := ∀ w, m.Live w → ∀ c ∈ w, ¬D c

/-- After one of its words the machine cannot read the bytes. -/
def Stops (m : Machine L) (D : UInt8 → Prop) : Prop :=
  ∀ w c v, m.Accepts w → D c → ¬m.Live (w ++ c :: v)

/-- What the machine can read starts with one of the bytes. -/
def StartsIn (m : Machine L) (D : UInt8 → Prop) : Prop := ∀ c, m.Live [c] → D c

theorem avoids_of_uses (h : ∀ c, D c → a.uses c = false) : a.Avoids D := by
  intro w hw c hc hD
  have hnot := h c hD
  rw [hw.uses hc] at hnot
  cases hnot

theorem Avoids.stops (h : a.Avoids D) : a.Stops D := by
  intro w c v _ hc hlive
  exact h _ hlive c (by simp) hc

theorem firsts_of_moves {c : UInt8} {move : Move L} (h : move ∈ a.moves c) :
    ∃ s ∈ a.firsts, s.has c = true := by
  induction a generalizing move with
  | null => simp [moves] at h
  | one s =>
    simp only [moves, List.mem_ite_nil_right] at h
    exact ⟨s,by simp [firsts],h.1⟩
  | seq a b iha ihb =>
    obtain ⟨move,hmove,rfl⟩ | ⟨x,hout,move,hmove,rfl⟩ := moves_seq_cases h
    · obtain ⟨s,hs,hc⟩ := iha hmove
      exact ⟨s,by simp [firsts, hs],hc⟩
    · obtain ⟨s,hs,hc⟩ := ihb hmove
      exact ⟨s,by simp [firsts, hout, hs],hc⟩
  | alt a b iha ihb =>
    rcases List.mem_append.mp h with h | h
    · obtain ⟨s,hs,hc⟩ := iha h
      exact ⟨s,by simp [firsts, hs],hc⟩
    · obtain ⟨s,hs,hc⟩ := ihb h
      exact ⟨s,by simp [firsts, hs],hc⟩
  | _ =>
    obtain ⟨move,hmove,rfl⟩ := List.mem_map.mp h
    rename_i ih
    obtain ⟨s,hs,hc⟩ := ih hmove
    exact ⟨s,hs,hc⟩

theorem startsIn_of_firsts (h : ∀ s ∈ a.firsts, ∀ c, s.has c = true → D c) : a.StartsIn D := by
  rintro c ⟨t,⟨move,hmove,_⟩,_⟩
  obtain ⟨s,hs,hc⟩ := firsts_of_moves hmove
  exact h s hs c hc

/-- Of an input only one split gets both machines on their way. -/
structure SplitsAt (a b : Machine L) (w r : List UInt8) : Prop where
  first : ∀ u c v, w ++ r = u ++ c :: v → a.Live (u ++ [c]) → u.length < w.length
  second : ∀ u v, w ++ r = u ++ v → a.Accepts u → b.opens v.head? → u = w

theorem StartsIn.head (hb : b.StartsIn D) {c : UInt8} (h : b.opens (c :: r).head?) : D c := by
  exact hb c (opens_some.mp h)

/-- The first machine ends where a delimiter comes. -/
theorem SplitsAt.of_delimiter (ha : a.Stops D) (hb : b.StartsIn D) (hw : a.Accepts w)
    (hr : b.opens r.head?) : SplitsAt a b w r := by
  constructor
  · intro u c v heq hlive
    by_contra hlen
    rcases List.append_eq_append_iff.mp heq with ⟨x,rfl,rfl⟩ | ⟨x,rfl,_⟩
    · cases x with
      | nil => exact ha w c [] hw (hb.head hr) (by simpa using hlive)
      | cons d x => exact ha w d (x ++ [c]) hw (hb.head hr) (by simpa using hlive)
    · cases x with
      | nil =>
        rename_i hv
        rw [List.append_nil] at hw
        obtain rfl : r = c :: v := by simpa using hv.symm
        exact ha u c [] hw (hb.head hr) hlive
      | cons d x =>
        rw [List.length_append, List.length_cons] at hlen
        omega
  · intro u v heq hacc hv
    rcases List.append_eq_append_iff.mp heq with ⟨x,rfl,rfl⟩ | ⟨x,rfl,rfl⟩
    · cases x with
      | nil => rw [List.append_nil]
      | cons d x => exact absurd hacc.live (ha w d x hw (hb.head hr))
    · cases x with
      | nil => rw [List.append_nil]
      | cons d x => exact absurd hw.live (ha u d x hacc (hb.head hv))

/-- After its only word the first machine cannot read anything. -/
theorem SplitsAt.word {k : List UInt8} : SplitsAt (word k) b k r := by
  constructor
  · intro u c v _ hu
    have hle := (live_word.mp hu).length_le
    rw [List.length_append, List.length_singleton] at hle
    omega
  · intro u v _ hu _
    exact accepts_word.mp hu

end Splitting

section Tracing
variable {A : Type} {a b m : Machine (ℕ × A)} {p n : ℕ} {w r : List UInt8} {l : A}
  {T T' : List (ℕ × ℕ × A)}

/-- The trace of a machine. -/
abbrev HasTrace (m : Machine (ℕ × A)) (p : ℕ) (w : List UInt8) (T : List (ℕ × ℕ × A)) : Prop :=
  IsTrace m.At p w T

theorem HasTrace.inside (h : m.HasTrace p w T) {x : ℕ × ℕ × A} (hx : x ∈ T) :
    p ≤ x.1 ∧ x.1 ≤ p + w.length := by
  obtain ⟨u,v,rfl,hp,_⟩ := (h.mem x).mp hx
  rw [List.length_append]
  omega

theorem hasTrace_plain (hm : m.plain = true) : m.HasTrace p w [] := by
  refine ⟨List.Pairwise.nil,?_⟩
  intro x
  simp [not_at_of_plain hm]

theorem HasTrace.enter (h : a.HasTrace p w T) (hacc : a.Accepts w) (hn : ∀ x ∈ T, n < x.2.1) :
    (enter (n, l) a).HasTrace p w ((p, n, l) :: T) := by
  refine ⟨List.pairwise_cons.mpr ⟨?_,h.sorted⟩,?_⟩
  · intro x hx
    have hinside := h.inside hx
    have hlt := hn x hx
    simp only [Before]
    omega
  · intro x
    simp only [List.mem_cons, h.mem, at_enter]
    constructor
    · rintro (rfl | ⟨u,v,rfl,hp,hat⟩)
      · exact ⟨[],w,rfl,by simp,.inl ⟨rfl,rfl,hacc.opens⟩⟩
      · exact ⟨u,v,rfl,hp,.inr hat⟩
    · rintro ⟨u,v,rfl,hp,⟨rfl,hl,_⟩ | hat⟩
      · exact .inl (Prod.ext (by simpa using hp) hl)
      · exact .inr ⟨u,v,rfl,hp,hat⟩

theorem HasTrace.leave (h : a.HasTrace p w T) (hacc : a.Accepts w) (hn : ∀ x ∈ T, x.2.1 < n) :
    (leave (n, l) a).HasTrace p w (T ++ [(p + w.length, n, l)]) := by
  refine ⟨List.pairwise_append.mpr ⟨h.sorted,List.pairwise_singleton _ _,?_⟩,?_⟩
  · intro x hx y hy
    rw [List.mem_singleton.mp hy]
    have hinside := h.inside hx
    have hlt := hn x hx
    simp only [Before]
    omega
  · intro x
    simp only [List.mem_append, List.mem_singleton, h.mem, at_leave]
    constructor
    · rintro (⟨u,v,rfl,hp,hat⟩ | rfl)
      · exact ⟨u,v,rfl,hp,.inl hat⟩
      · exact ⟨w,[],by simp,rfl,.inr ⟨rfl,rfl,hacc⟩⟩
    · rintro ⟨u,v,rfl,hp,hat | ⟨hv,hl,_⟩⟩
      · exact .inl ⟨u,v,rfl,hp,hat⟩
      · rw [List.head?_eq_none_iff] at hv
        subst hv
        exact .inr (Prod.ext (by simpa using hp) hl)

theorem HasTrace.seq (h : a.HasTrace p w T) (h' : b.HasTrace (p + w.length) r T')
    (hw : a.Accepts w) (hr : b.Accepts r) (hsplit : SplitsAt a b w r)
    (hn : ∀ x ∈ T, ∀ y ∈ T', x.2.1 < y.2.1) : (seq a b).HasTrace p (w ++ r) (T ++ T') := by
  refine ⟨List.pairwise_append.mpr ⟨h.sorted,h'.sorted,?_⟩,?_⟩
  · intro x hx y hy
    have hinside := h.inside hx
    have hinside' := h'.inside hy
    have hlt := hn x hx y hy
    simp only [Before]
    omega
  · intro x
    simp only [List.mem_append, h.mem, h'.mem, at_seq]
    constructor
    · rintro (⟨u,v,rfl,hp,hat⟩ | ⟨u,v,rfl,hp,hat⟩)
      · refine ⟨u,v ++ r,by simp,hp,?_⟩
        cases v with
        | nil => exact .inr (.inl ⟨hr.opens,hat⟩)
        | cons c v => exact .inl ⟨by simp,hat⟩
      · refine ⟨w ++ u,v,by simp,by simpa [Nat.add_assoc] using hp,.inr (.inr ⟨w,u,rfl,hw,hat⟩)⟩
    · rintro ⟨u,v,heq,hp,⟨ho,hat⟩ | ⟨hopens,hat⟩ | ⟨u₁,u₂,rfl,hacc,hat⟩⟩
      -- An action inside the first part, which has not read the whole of its word.
      · cases v with
        | nil => exact absurd rfl ho
        | cons c v =>
          have hlen := hsplit.first u c v heq (goes_some.mp hat.goes)
          rcases List.append_eq_append_iff.mp heq with ⟨x,rfl,_⟩ | ⟨x,rfl,hv⟩
          · rw [List.length_append] at hlen
            omega
          · cases x with
            | nil => simp at hlen
            | cons d x =>
              obtain rfl : c = d := by simpa using congrArg List.head? hv
              exact .inl ⟨u,c :: x,rfl,hp,hat⟩
      -- Pending actions of the first part.
      · have hu := hsplit.second u v heq hat.goes hopens
        subst hu
        exact .inl ⟨u,[],by simp,hp,hat⟩
      -- An action of the second part.
      · rw [List.append_assoc] at heq
        have hu := hsplit.second u₁ (u₂ ++ v) heq hacc hat.goes.opens
        subst hu
        exact .inr ⟨u₂,v,List.append_cancel_left heq,by simpa [Nat.add_assoc] using hp,hat⟩

theorem HasTrace.alt {U : List (ℕ × ℕ × A)} (h : a.HasTrace p w T) (h' : b.HasTrace p w T')
    (hsorted : U.Pairwise Before) (hmem : ∀ x, x ∈ U ↔ x ∈ T ∨ x ∈ T') :
    (alt a b).HasTrace p w U := by
  refine ⟨hsorted,?_⟩
  intro x
  simp only [hmem, h.mem, h'.mem, at_alt, and_or_left, exists_or]

/-- A part with an action at its start and the next one at its end. -/
def framed (n : ℕ) (k l : A) (m : Machine (ℕ × A)) : Machine (ℕ × A) :=
  Machine.leave (n + 1, l) (Machine.enter (n, k) m)

/-- The trace of a framed part. -/
def frame (p n : ℕ) (k l : A) (w : List UInt8) : List (ℕ × ℕ × A) :=
  [(p, n, k), (p + w.length, n + 1, l)]

theorem at_framed {k : A} {o : Option UInt8} {x : ℕ × A} (hm : m.plain = true) :
    (framed n k l m).At w o x ↔
      (w = [] ∧ x = (n, k) ∧ m.opens o) ∨ (o = none ∧ x = (n + 1, l) ∧ m.Accepts w) := by
  rw [framed, at_leave, at_enter, accepts_enter]
  simp [not_at_of_plain hm]

theorem accepts_framed {k : A} : (framed n k l m).Accepts w ↔ m.Accepts w := by
  rw [framed, accepts_leave, accepts_enter]

theorem live_framed {k : A} : (framed n k l m).Live w ↔ m.Live w := by
  rw [framed, live_leave, live_enter]

theorem Stops.framed {k : A} {D : UInt8 → Prop} (h : m.Stops D) : (framed n k l m).Stops D := by
  intro u c v hu hc hlive
  exact h u c v (accepts_framed.mp hu) hc (live_framed.mp hlive)

theorem hasTrace_framed {k : A} (hm : m.plain = true) (hw : m.Accepts w) :
    (framed n k l m).HasTrace p w (frame p n k l w) := by
  have hstart : (Machine.enter (n, k) m).HasTrace p w [(p, n, k)] :=
    (hasTrace_plain hm).enter hw (by simp)
  exact hstart.leave (accepts_enter.mpr hw) (by simp)

/-- A delimiter with the part behind it, or nothing. -/
def delimited (c : UInt8) : Option (List UInt8) → List UInt8
  | none => []
  | some w => c :: w

def delimitedFrame (p n : ℕ) (k l : A) : Option (List UInt8) → List (ℕ × ℕ × A)
  | none => []
  | some w => frame (p + 1) n k l w

theorem accepts_delimited {c : UInt8} :
    (opt (Machine.seq (word [c]) m)).Accepts w ↔ ∃ o, w = delimited c o ∧ ∀ v ∈ o, m.Accepts v := by
  rw [accepts_opt, accepts_seq]
  simp only [accepts_word]
  constructor
  · rintro (⟨_,v,rfl,rfl,hv⟩ | rfl)
    · exact ⟨some v,rfl,by simpa using hv⟩
    · exact ⟨none,rfl,by simp⟩
  · rintro ⟨o,rfl,ho⟩
    cases o with
    | none => exact .inr rfl
    | some v => exact .inl ⟨[c],v,rfl,rfl,ho v rfl⟩

theorem at_delimited {c : UInt8} {o : Option UInt8} {x : ℕ × A} :
    (opt (Machine.seq (word [c]) m)).At w o x ↔ ∃ v, w = c :: v ∧ m.At v o x := by
  rw [opt, at_alt, at_seq]
  have hword : ∀ o, ¬(word [c] : Machine (ℕ × A)).At w o x := fun o => not_at_of_plain rfl
  have hnull : ¬(null : Machine (ℕ × A)).At w o x := not_at_of_plain rfl
  simp [hword, hnull, accepts_word]

theorem hasTrace_delimited {c : UInt8} {k : A} {o : Option (List UInt8)} (hm : m.plain = true)
    (ho : ∀ v ∈ o, m.Accepts v) :
    (opt (Machine.seq (word [c]) (framed n k l m))).HasTrace p (delimited c o)
      (delimitedFrame p n k l o) := by
  have hnull : (null : Machine (ℕ × A)).HasTrace p (delimited c o) [] := hasTrace_plain rfl
  cases o with
  | none =>
    refine ⟨List.Pairwise.nil,?_⟩
    intro x
    simp [delimitedFrame, delimited, at_delimited]
  | some w =>
    have hw := ho w rfl
    have hword : (word [c] : Machine (ℕ × A)).HasTrace p [c] [] := hasTrace_plain rfl
    have hseq := hword.seq (hasTrace_framed (p := p + 1) (n := n) (k := k) (l := l) hm hw)
      (accepts_word.mpr rfl) (accepts_framed.mpr hw) SplitsAt.word (by simp)
    exact hseq.alt hnull hseq.sorted (by simp [delimitedFrame])

end Tracing

end Machine

end Gudov.ActionMachine
