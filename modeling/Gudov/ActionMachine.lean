import Mathlib.Data.List.Sort
import Gudov.CallOutcome

/-!
# Machines with embedded actions

Regular machines over bytes in which actions are embedded at the entry, at the
exit or at the final transitions of a part. A machine is compiled to one that is
deterministic: a state is the set of positions reached, and on a byte the actions
of all positions that move are performed, each once, in the order in which they
were embedded. Embedding an action at the exit defers it to the byte that leaves
the part. A part that accepts the empty word performs its entry action on the way
through.

Priorities decide between transitions on one byte: of two that carry the same key
the one with the smaller value is dropped. A guarded concatenation is a
concatenation with priorities.

The driver at the end of the file performs the actions on a state of any type and
stops after a breaking action.
-/
namespace Gudov.ActionMachine

inductive ByteSet
  | empty
  | range (lo hi : UInt8)
  | union (a b : ByteSet)
  | diff (a b : ByteSet)
deriving Repr, DecidableEq

def ByteSet.has : ByteSet → UInt8 → Bool
  | empty, _ => false
  | range lo hi, c => decide (lo ≤ c ∧ c ≤ hi)
  | union a b, c => a.has c || b.has c
  | diff a b, c => a.has c && !b.has c

theorem ByteSet.single_has {c d : UInt8} : (ByteSet.range d d).has c = decide (c = d) := by
  simp only [ByteSet.has, decide_eq_decide]
  constructor
  · rintro ⟨h1,h2⟩
    exact UInt8.le_antisymm h2 h1
  · rintro rfl
    exact ⟨UInt8.le_refl _,UInt8.le_refl _⟩

/-- Machines whose embedded actions carry labels of type `L`. -/
inductive Machine (L : Type)
  | null
  | one (s : ByteSet)
  | seq (a b : Machine L)
  | alt (a b : Machine L)
  | star (a : Machine L)
  | enter (l : L) (a : Machine L)
  | leave (l : L) (a : Machine L)
  | finish (l : L) (a : Machine L)
  | priorAll (key value : ℕ) (a : Machine L)
  | priorEnter (key value : ℕ) (a : Machine L)
  | priorFinish (key value : ℕ) (a : Machine L)
deriving Repr, DecidableEq

namespace Machine
variable {L A : Type}

def opt (a : Machine L) : Machine L := alt a null

def plus (a : Machine L) : Machine L := seq a (star a)

def word : List UInt8 → Machine L
  | [] => null
  | [c] => one (.range c c)
  | c :: cs => seq (one (.range c c)) (word cs)

/-- Exactly `n` times. -/
def times : ℕ → Machine L → Machine L
  | 0, _ => null
  | 1, a => a
  | n + 1, a => seq a (times n a)

/-- At most `n` times. -/
def atMost : ℕ → Machine L → Machine L
  | 0, _ => null
  | n + 1, a => opt (seq a (atMost n a))

/-- The second machine ends the first as soon as it is entered. -/
def entryGuarded (key : ℕ) (a b : Machine L) : Machine L :=
  seq (priorAll key 0 a) (priorEnter key 1 b)

/-- The second machine ends the first as soon as it is finished. -/
def finishGuarded (key : ℕ) (a b : Machine L) : Machine L :=
  seq (priorAll key 0 a) (priorFinish key 1 b)

/-- Numbers the actions in the order of embedding: an entry action before those of
its part, the others after them. -/
def number : Machine A → ℕ → Machine (ℕ × A) × ℕ
  | null, n => (null, n)
  | one s, n => (one s, n)
  | seq a b, n =>
    let (a, n) := a.number n
    let (b, n) := b.number n
    (seq a b, n)
  | alt a b, n =>
    let (a, n) := a.number n
    let (b, n) := b.number n
    (alt a b, n)
  | star a, n =>
    let (a, n) := a.number n
    (star a, n)
  | enter l a, n =>
    let (a, m) := a.number (n + 1)
    (enter (n, l) a, m)
  | leave l a, n =>
    let (a, n) := a.number n
    (leave (n, l) a, n + 1)
  | finish l a, n =>
    let (a, n) := a.number n
    (finish (n, l) a, n + 1)
  | priorAll key value a, n =>
    let (a, n) := a.number n
    (priorAll key value a, n)
  | priorEnter key value a, n =>
    let (a, n) := a.number n
    (priorEnter key value a, n)
  | priorFinish key value a, n =>
    let (a, n) := a.number n
    (priorFinish key value a, n)

/-- Whether the machine may end here, with the actions deferred to the byte that
leaves it. -/
def outs : Machine L → Option (List L)
  | null => some []
  | one _ => none
  | seq a b => do
    let x ← a.outs
    let y ← b.outs
    some (x ++ y)
  | alt a b =>
    match a.outs, b.outs with
    | some x, some y => some (x ++ y)
    | some x, none => some x
    | none, y => y
  | star a => some (a.outs.getD [])
  | enter l a => a.outs.map (l :: ·)
  | leave l a => a.outs.map (· ++ [l])
  | finish _ a => a.outs
  | priorAll _ _ a => a.outs
  | priorEnter _ _ a => a.outs
  | priorFinish _ _ a => a.outs

end Machine

/-- A transition on one byte. -/
structure Move (L : Type) where
  acts : List L
  priors : List (ℕ × ℕ)
  target : Machine L

namespace Machine
variable {L A : Type}

/-- The transitions of a machine on a byte. Under a star the body is taken not to
accept the empty word. -/
def moves : Machine L → UInt8 → List (Move L)
  | null, _ => []
  | one s, c => if s.has c then [⟨[], [], null⟩] else []
  | seq a b, c =>
    (a.moves c).map (fun m => { m with target := seq m.target b }) ++
      match a.outs with
      | none => []
      | some x => (b.moves c).map fun m => { m with acts := x ++ m.acts }
  | alt a b, c => a.moves c ++ b.moves c
  | star a, c => (a.moves c).map fun m => { m with target := seq m.target (star a) }
  | enter l a, c => (a.moves c).map fun m => { m with acts := l :: m.acts }
  | leave l a, c => (a.moves c).map fun m => { m with target := leave l m.target }
  | finish l a, c => (a.moves c).map fun m =>
    { m with
      acts := if m.target.outs.isSome then m.acts ++ [l] else m.acts
      target := finish l m.target }
  | priorAll key value a, c => (a.moves c).map fun m =>
    { m with
      priors := (key, value) :: m.priors
      target := priorAll key value m.target }
  | priorEnter key value a, c => (a.moves c).map fun m =>
    { m with priors := (key, value) :: m.priors }
  | priorFinish key value a, c => (a.moves c).map fun m =>
    { m with
      priors := if m.target.outs.isSome then (key, value) :: m.priors else m.priors
      target := priorFinish key value m.target }

end Machine

/-- The second transition has a larger value under a common key. -/
def Move.below {L : Type} (m m' : Move L) : Bool :=
  m.priors.any fun p => m'.priors.any fun q => p.1 == q.1 && decide (p.2 < q.2)

/-- The positions reached; none is the error state. -/
abbrev State (A : Type) := List (Machine (ℕ × A))

section Compiled
variable {A : Type}

/-- The deterministic machine starts at the numbered one. -/
def start (m : Machine A) : State A := [(m.number 0).1]

def State.isFinal (s : State A) : Bool := s.any fun m => m.outs.isSome

/-- The transitions of a state on a byte that no other one drops. -/
def State.moves (s : State A) (c : UInt8) : List (Move (ℕ × A)) :=
  let ms := s.flatMap (·.moves c)
  ms.filter fun m => !ms.any m.below

theorem State.mem_moves {s : State A} {c : UInt8} {m : Move (ℕ × A)} (h : m ∈ s.moves c) :
    ∃ k ∈ s, m ∈ k.moves c :=
  List.mem_flatMap.mp (List.mem_filter.mp h).1

/-- The actions of the transitions, each once, by their numbers. -/
def ordered [DecidableEq A] (acts : List (ℕ × A)) : List A :=
  ((acts.insertionSort fun x y => x.1 ≤ y.1).map Prod.snd).eraseDups

def State.step [DecidableEq A] (s : State A) (c : UInt8) : State A × List A :=
  let ms := s.moves c
  ((ms.map Move.target).eraseDups, ordered (ms.flatMap Move.acts))

end Compiled

section Driver
variable {A σ ε : Type} [DecidableEq A]

/-- Performs the actions of one byte at position `p`; a breaking action is the last. -/
def perform (act : A → ℕ → σ → Except ε σ) (breaks : A → Bool) (p : ℕ) :
    List A → σ → Except ε (Bool × σ)
  | [], x => .ok (false, x)
  | a :: as, x => do
    let x ← act a p x
    if breaks a then .ok (true, x) else perform act breaks p as x

/-- Runs the machine over the bytes from position `p` on. It stays at the byte on
which it fails and passes the one on which it breaks. -/
def exec (act : A → ℕ → σ → Except ε σ) (breaks : A → Bool) :
    State A → List UInt8 → ℕ → σ → Except ε (State A × ℕ × σ)
  | s, [], p, x => .ok (s, p, x)
  | s, c :: cs, p, x =>
    match s.step c with
    | ([], _) => .ok ([], p, x)
    | (t, acts) => do
      let (broken, x) ← perform act breaks p acts x
      if broken then .ok (t, p + 1, x) else exec act breaks t cs (p + 1) x

section Finishing
variable {act : A → ℕ → σ → Except ε σ} {breaks : A → Bool} {a : A}

/-- Every position lies in a machine whose final transitions carry the action. -/
def State.FinishedBy (a : A) (s : State A) : Prop := ∀ m ∈ s, ∃ n r, m = .finish (n, a) r

theorem ordered_mem {acts : List (ℕ × A)} {n : ℕ} (h : (n, a) ∈ acts) : a ∈ ordered acts := by
  have hsorted : (n, a) ∈ acts.insertionSort fun x y => x.1 ≤ y.1 :=
    (List.mem_insertionSort _).mpr h
  rw [ordered, List.mem_eraseDups]
  exact List.mem_map.mpr ⟨(n, a),hsorted,rfl⟩

theorem State.mem_step {s : State A} {c : UInt8} {t : Machine (ℕ × A)} (h : t ∈ (s.step c).1) :
    ∃ m ∈ s.moves c, m.target = t := by
  rw [State.step, List.mem_eraseDups] at h
  exact List.mem_map.mp h

/-- Such a state leads to such states, and into a final one only by the action. -/
theorem State.FinishedBy.step {s : State A} (hs : s.FinishedBy a) (c : UInt8) :
    (s.step c).1.FinishedBy a ∧ ((s.step c).1.isFinal = true → a ∈ (s.step c).2) := by
  have hmove : ∀ m ∈ s.moves c, ∃ n r, m.target = .finish (n, a) r ∧
      (r.outs.isSome = true → (n, a) ∈ m.acts) := by
    intro m hm
    obtain ⟨k,hk,hmk⟩ := State.mem_moves hm
    obtain ⟨n,r,rfl⟩ := hs k hk
    obtain ⟨m',_,rfl⟩ := List.mem_map.mp hmk
    refine ⟨n,m'.target,rfl,?_⟩
    intro hfinal
    simp [hfinal]
  constructor
  · intro t ht
    obtain ⟨m,hm,rfl⟩ := State.mem_step ht
    obtain ⟨n,r,hr,_⟩ := hmove m hm
    exact ⟨n,r,hr⟩
  · intro hfinal
    obtain ⟨t,ht,hout⟩ := List.any_eq_true.mp hfinal
    obtain ⟨m,hm,rfl⟩ := State.mem_step ht
    obtain ⟨n,r,hr,hact⟩ := hmove m hm
    rw [hr] at hout
    exact ordered_mem (List.mem_flatMap.mpr ⟨m,hm,hact hout⟩)

omit [DecidableEq A] in
theorem perform_broken {acts : List A} {p : ℕ} {x y : σ} {b : Bool}
    (h : perform act breaks p acts x = .ok (b, y)) (ha : a ∈ acts) (hbreak : breaks a = true) :
    b = true := by
  induction acts generalizing x with
  | nil => cases ha
  | cons a' as ih =>
    simp only [perform] at h
    cases hact : act a' p x with
    | error e =>
      rw [hact] at h
      cases h
    | ok z =>
      rw [hact] at h
      simp only [bind, Except.bind] at h
      split at h
      · cases h
        rfl
      · rename_i hnot
        rcases List.mem_cons.mp ha with rfl | has
        · exact absurd hbreak hnot
        · exact ih h has

end Finishing

section Splitting
variable {act : A → ℕ → σ → Except ε σ} {breaks : A → Bool} {a : A}

/-- One byte of a run that goes further. -/
theorem exec_cons {s t : State A} {c : UInt8} {cs : List UInt8} {p q : ℕ} {x y : σ}
    (h : exec act breaks s (c :: cs) p x = .ok (t, q, y)) :
    (q = p ∧ t = []) ∨ ∃ b z, (s.step c).1 ≠ [] ∧
      perform act breaks p (s.step c).2 x = .ok (b, z) ∧
      if b then (t, q, y) = ((s.step c).1, p + 1, z)
      else exec act breaks (s.step c).1 cs (p + 1) z = .ok (t, q, y) := by
  rw [exec] at h
  split at h
  next hstep =>
    cases h
    exact .inl ⟨rfl,rfl⟩
  next u acts hne hstep =>
    rw [hstep]
    cases hp : perform act breaks p acts x with
    | error e =>
      rw [hp] at h
      cases h
    | ok bz =>
      obtain ⟨b,z⟩ := bz
      rw [hp] at h
      refine .inr ⟨b,z,fun hnil => hne hnil,rfl,?_⟩
      simp only [bind, Except.bind] at h
      cases b with
      | true =>
        cases h
        rfl
      | false => exact h

theorem exec_cons_next {s : State A} {c : UInt8} {cs : List UInt8} {p : ℕ} {x z : σ} {b : Bool}
    (hne : (s.step c).1 ≠ []) (hp : perform act breaks p (s.step c).2 x = .ok (b, z)) :
    exec act breaks s (c :: cs) p x =
      if b then .ok ((s.step c).1, p + 1, z)
      else exec act breaks (s.step c).1 cs (p + 1) z := by
  rw [exec]
  split
  next hstep => exact absurd (by rw [hstep]) hne
  next u acts _ hstep =>
    rw [hstep] at hp
    rw [hstep, hp]
    rfl

/-- A run that goes beyond a prefix is the run of the prefix, which ends in a state that
is not final, and then of the rest. -/
theorem exec_split {s t : State A} {u v : List UInt8} {p q : ℕ} {x y : σ}
    (hs : s.FinishedBy a) (ha : breaks a = true)
    (h : exec act breaks s (u ++ v) p x = .ok (t, q, y)) (hq : p + u.length < q) :
    ∃ s' x', exec act breaks s u p x = .ok (s', p + u.length, x') ∧ s'.FinishedBy a ∧
      s' ≠ [] ∧ (u ≠ [] → s'.isFinal = false) ∧
      exec act breaks s' v (p + u.length) x' = .ok (t, q, y) := by
  induction u generalizing s p x with
  | nil =>
    refine ⟨s,x,rfl,hs,?_,fun hne => absurd rfl hne,h⟩
    rintro rfl
    cases v with
    | nil =>
      cases h
      simp at hq
    | cons c v =>
      cases h
      simp at hq
  | cons c u ih =>
    rcases exec_cons h with ⟨rfl,_⟩ | ⟨b,z,hne,hp,hrest⟩
    · simp only [List.length_cons] at hq
      omega
    · cases b with
      | true =>
        cases hrest
        simp only [List.length_cons] at hq
        omega
      | false =>
        have hq' : p + 1 + u.length < q := by
          simp only [List.length_cons] at hq
          omega
        obtain ⟨hstep,hfin⟩ := hs.step c
        obtain ⟨s',x',hexec,hs',hne',hnf,hv⟩ := ih hstep hrest hq'
        have hlen : p + (c :: u).length = p + 1 + u.length := by
          simp only [List.length_cons]
          omega
        have hrun : exec act breaks s (c :: u) p x = .ok (s', p + 1 + u.length, x') := by
          rw [exec_cons_next hne hp]
          exact hexec
        rw [hlen]
        refine ⟨s',x',hrun,hs',hne',fun _ => ?_,hv⟩
        cases u with
        | nil =>
          cases hexec
          by_contra hcon
          have hmem := hfin (by simpa using hcon)
          cases perform_broken hp hmem ha
        | cons c' u => exact hnf (by simp)

/-- A run that reaches a final state with its last byte breaks there, whatever
follows. -/
theorem exec_append_final {s t : State A} {u : List UInt8} (v : List UInt8) {p : ℕ} {x y : σ}
    (hs : s.FinishedBy a) (ha : breaks a = true) (hu : u ≠ [])
    (h : exec act breaks s u p x = .ok (t, p + u.length, y)) (ht : t.isFinal = true) :
    exec act breaks s (u ++ v) p x = .ok (t, p + u.length, y) := by
  induction u generalizing s p x with
  | nil => exact absurd rfl hu
  | cons c u ih =>
    rcases exec_cons h with ⟨hq,_⟩ | ⟨b,z,hne,hp,hrest⟩
    · simp only [List.length_cons] at hq
      omega
    · rw [List.cons_append, exec_cons_next hne hp]
      cases b with
      | true =>
        simp only [if_true, Prod.mk.injEq] at hrest ⊢
        obtain ⟨rfl,hq,rfl⟩ := hrest
        rw [hq]
      | false =>
        obtain ⟨hstep,hfin⟩ := hs.step c
        have hlen : p + (c :: u).length = p + 1 + u.length := by
          simp only [List.length_cons]
          omega
        rw [hlen] at hrest ⊢
        cases u with
        | nil =>
          cases hrest
          cases perform_broken hp (hfin ht) ha
        | cons c' u => exact ih hstep (by simp) hrest

end Splitting

section Simulation
variable {τ ε' : Type} {act : A → ℕ → σ → Except ε σ} {spec : A → ℕ → τ → Except ε' τ}
  {breaks : A → Bool} {R : ℕ → σ → τ → Prop} {Fine : τ → Prop} {b N : ℕ}

omit [DecidableEq A] in
theorem perform_cons {a : A} {as : List A} {p : ℕ} {x z : σ} {c : Bool}
    (h : perform act breaks p (a :: as) x = .ok (c, z)) :
    ∃ y, act a p x = .ok y ∧
      if breaks a then (c, z) = (true, y) else perform act breaks p as y = .ok (c, z) := by
  simp only [perform] at h
  cases hact : act a p x with
  | error e =>
    rw [hact] at h
    cases h
  | ok y =>
    rw [hact] at h
    simp only [bind, Except.bind] at h
    refine ⟨y,rfl,?_⟩
    split at h
    next hb =>
      cases h
      simp [hb]
    next hb => simpa [hb] using h

omit [DecidableEq A] in
/-- What a later state needs, the earlier ones have. -/
theorem perform_back (hback : ∀ a p y y', spec a p y = .ok y' → Fine y' → Fine y)
    {acts : List A} {p : ℕ} {y y' : τ} {c : Bool}
    (h : perform spec breaks p acts y = .ok (c, y')) (hfine : Fine y') : Fine y := by
  induction acts generalizing y with
  | nil =>
    cases h
    exact hfine
  | cons a as ih =>
    obtain ⟨z,hz,hrest⟩ := perform_cons h
    refine hback a p y z hz ?_
    split at hrest
    · cases hrest
      exact hfine
    · exact ih hrest

theorem exec_back (hback : ∀ a p y y', spec a p y = .ok y' → Fine y' → Fine y)
    {s t : State A} {cs : List UInt8} {p q : ℕ} {y y' : τ}
    (h : exec spec breaks s cs p y = .ok (t, q, y')) (hfine : Fine y') : Fine y := by
  induction cs generalizing s p y with
  | nil =>
    cases h
    exact hfine
  | cons c cs ih =>
    rw [exec] at h
    split at h
    next =>
      cases h
      exact hfine
    next u acts _ _ =>
      cases hp : perform spec breaks p acts y with
      | error e =>
        rw [hp] at h
        cases h
      | ok bz =>
        obtain ⟨broken,z⟩ := bz
        rw [hp] at h
        simp only [bind, Except.bind] at h
        refine perform_back hback hp ?_
        split at h
        · cases h
          exact hfine
        · exact ih h

omit [DecidableEq A] in
theorem perform_simulates {p : ℕ} {acts : List A} {x : σ} {y y' : τ} {c : Bool}
    (hact : ∀ a x y y', R p x y → spec a (b + p) y = .ok y' → Fine y' →
      ∃ x', act a p x = .ok x' ∧ R p x' y')
    (hback : ∀ a p y y', spec a p y = .ok y' → Fine y' → Fine y)
    (hR : R p x y) (h : perform spec breaks (b + p) acts y = .ok (c, y')) (hfine : Fine y') :
    ∃ x', perform act breaks p acts x = .ok (c, x') ∧ R p x' y' := by
  induction acts generalizing x y with
  | nil =>
    cases h
    exact ⟨x,rfl,hR⟩
  | cons a as ih =>
    obtain ⟨z,hz,hrest⟩ := perform_cons h
    have hz' : Fine z := by
      split at hrest
      · cases hrest
        exact hfine
      · exact perform_back hback hrest hfine
    obtain ⟨x',hx',hR'⟩ := hact a x y z hR hz hz'
    simp only [perform, hx', bind, Except.bind]
    split at hrest
    next hb =>
      cases hrest
      exact ⟨x',by simp [hb],hR'⟩
    next hb =>
      obtain ⟨x'',hx'',hR''⟩ := ih hR' hrest
      exact ⟨x'',by simpa [hb] using hx'',hR''⟩

/-- The same bytes with positions shifted by `b`. The relation at `p` speaks of what was
done before position `p`. -/
theorem exec_simulates
    (hact : ∀ a p x y y', p < N → R (p + 1) x y → spec a (b + p) y = .ok y' → Fine y' →
      ∃ x', act a p x = .ok x' ∧ R (p + 1) x' y')
    (hback : ∀ a p y y', spec a p y = .ok y' → Fine y' → Fine y)
    (hmono : ∀ p x y, R p x y → R (p + 1) x y)
    {s t : State A} {cs : List UInt8} {p q : ℕ} {x : σ} {y y' : τ} (hN : p + cs.length ≤ N)
    (hR : R p x y) (h : exec spec breaks s cs (b + p) y = .ok (t, b + q, y')) (hfine : Fine y') :
    ∃ x', exec act breaks s cs p x = .ok (t, q, x') ∧ R q x' y' := by
  induction cs generalizing s p x y with
  | nil =>
    simp only [exec, Except.ok.injEq, Prod.mk.injEq] at h
    obtain ⟨rfl,hq,rfl⟩ := h
    obtain rfl : p = q := by omega
    exact ⟨x,rfl,hR⟩
  | cons c cs ih =>
    rw [exec] at h ⊢
    split at h
    next hstep =>
      simp only [Except.ok.injEq, Prod.mk.injEq] at h
      obtain ⟨rfl,hq,rfl⟩ := h
      obtain rfl : p = q := by omega
      exact ⟨x,rfl,hR⟩
    next u acts hne hstep =>
      cases hp : perform spec breaks (b + p) acts y with
      | error e =>
        rw [hp] at h
        cases h
      | ok bz =>
        obtain ⟨broken,z⟩ := bz
        rw [hp] at h
        simp only [bind, Except.bind] at h
        have hz : Fine z := by
          split at h
          · simp only [Except.ok.injEq, Prod.mk.injEq] at h
            rw [h.2.2]
            exact hfine
          · exact exec_back hback h hfine
        have hlt : p < N := by
          simp only [List.length_cons] at hN
          omega
        obtain ⟨x',hx',hR'⟩ := perform_simulates (R := fun _ => R (p + 1))
          (fun a x y y' => hact a p x y y' hlt) hback (hmono p x y hR) hp hz
        simp only [hx', bind, Except.bind]
        cases broken with
        | true =>
          simp only [if_true, Except.ok.injEq, Prod.mk.injEq] at h
          obtain ⟨rfl,hq,rfl⟩ := h
          obtain rfl : q = p + 1 := by omega
          exact ⟨x',rfl,hR'⟩
        | false => exact ih (by simp only [List.length_cons] at hN; omega) hR' h

end Simulation

end Driver

end Gudov.ActionMachine
