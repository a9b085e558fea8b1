import Gudov.MachineTrace

/-!
# Running a machine to the end of its input

At the end of the input the compiled machine performs the actions that are pending in its
final positions. On an accepted input it performs the trace of the input, an action that
occurs twice at one position only the first time.
-/
namespace Gudov.ActionMachine
variable {A : Type} [DecidableEq A]

section Erasing

omit [DecidableEq A] in
theorem eraseDups_cons_self [BEq A] [LawfulBEq A] (a : A) (as : List A) :
    (a :: a :: as).eraseDups = (a :: as).eraseDups := by
  simp [List.eraseDups_cons]

/-- Sorting by numbers that belong to one action each leaves the listed actions, each once. -/
theorem eraseDups_of_sorted {sorted listed : List (ℕ × A)} (P : A → Bool)
    (hsorted : sorted.Pairwise (·.1 ≤ ·.1)) (hlisted : listed.Pairwise (·.1 < ·.1))
    (hmem : ∀ l, l ∈ sorted ↔ l ∈ listed) :
    ((sorted.map Prod.snd).filter P).eraseDups = ((listed.map Prod.snd).filter P).eraseDups := by
  induction sorted generalizing listed P with
  | nil =>
    obtain rfl : listed = [] := by simpa [List.eq_nil_iff_forall_not_mem] using hmem
    rfl
  | cons x sorted ih =>
    cases listed with
    | nil => cases (hmem x).mp List.mem_cons_self
    | cons y listed =>
      rw [List.pairwise_cons] at hsorted hlisted
      -- The first of both lists has the smallest number.
      obtain rfl : x = y := by
        rcases List.mem_cons.mp ((hmem x).mp List.mem_cons_self) with h | h
        · exact h
        · rcases List.mem_cons.mp ((hmem y).mpr List.mem_cons_self) with h' | h'
          · exact h'.symm
          · have hlt := hlisted.1 x h
            have hle := hsorted.1 y h'
            omega
      by_cases hx : x ∈ sorted
      · cases sorted with
        | nil => cases hx
        | cons z sorted =>
          obtain rfl : x = z := by
            rcases List.mem_cons.mp hx with h | h
            · exact h
            · have hz := (hmem z).mp (by simp)
              rcases List.mem_cons.mp hz with h' | h'
              · exact h'.symm
              · have hlt := hlisted.1 z h'
                have hle := (List.pairwise_cons.mp hsorted.2).1 x h
                omega
          rw [← ih P hsorted.2 (List.pairwise_cons.mpr hlisted) (by simpa using hmem)]
          by_cases hP : P x.2 = true
          · simp [hP, eraseDups_cons_self]
          · simp [hP]
      · have hmem' : ∀ l, l ∈ sorted ↔ l ∈ listed := by
          intro l
          have hl := hmem l
          simp only [List.mem_cons] at hl
          by_cases hlx : l = x
          · subst hlx
            refine ⟨fun h => absurd h hx,fun h => absurd (hlisted.1 l h) (by omega)⟩
          · simpa [hlx] using hl
        by_cases hP : P x.2 = true
        · have hrest := ih (fun a => P a && !a == x.2) hsorted.2 hlisted.2 hmem'
          simp only [List.map_cons, List.filter_cons, hP, if_true, List.eraseDups_cons,
            List.filter_filter, List.cons.injEq, true_and]
          simpa [Bool.and_comm] using hrest
        · simpa [hP] using ih P hsorted.2 hlisted.2 hmem'

theorem ordered_eq {acts listed : List (ℕ × A)} (hlisted : listed.Pairwise (·.1 < ·.1))
    (hmem : ∀ l, l ∈ acts ↔ l ∈ listed) : ordered acts = (listed.map Prod.snd).eraseDups := by
  have hsorted : (acts.insertionSort fun x y => x.1 ≤ y.1).Pairwise (·.1 ≤ ·.1) :=
    List.pairwise_insertionSort _ _
  have h := eraseDups_of_sorted (fun _ => true) hsorted hlisted (by simpa using hmem)
  simpa [ordered] using h

end Erasing

section Running
variable {σ ε : Type}

/-- The actions pending in the final positions. -/
def State.leaving (s : State A) : List A := ordered (s.flatMap fun m => m.outs.getD [])

/-- Runs the machine to the end of the input. The result is the state if the machine
accepts. -/
def runToEnd (act : A → ℕ → σ → Except ε σ) (m : Machine A) (input : List UInt8) (x : σ) :
    Except ε (Option σ) := do
  let (s, p, x) ← exec act (fun _ => false) (start m) input 0 x
  if s.isFinal then
    let (_, x) ← perform act (fun _ => false) p s.leaving x
    .ok (some x)
  else .ok none

/-- Performs actions at their positions. -/
def play (act : A → ℕ → σ → Except ε σ) (events : List (ℕ × A)) (x : σ) : Except ε σ :=
  events.foldlM (fun x e => act e.2 e.1 x) x

/-- The actions of a trace, a repeated one at one position left out. -/
def events (T : List (ℕ × ℕ × A)) : List (ℕ × A) := (T.map fun x => (x.1, x.2.2)).eraseDups

end Running

section Steps
open Machine
variable {s : State A} {c : UInt8}

omit [DecidableEq A] in
/-- Without priorities no transition drops another one. -/
theorem State.moves_unranked (hs : ∀ m ∈ s, m.unranked = true) :
    s.moves c = s.flatMap (·.moves c) := by
  rw [State.moves, List.filter_eq_self]
  intro move hmove
  obtain ⟨m,hm,h⟩ := List.mem_flatMap.mp hmove
  simp [Move.below, (unranked_moves (hs m hm) h).1]

theorem State.mem_step_iff (hs : ∀ m ∈ s, m.unranked = true) {t : Machine (ℕ × A)} :
    t ∈ (s.step c).1 ↔ ∃ m ∈ s, t ∈ m.next c := by
  simp only [State.step, State.moves_unranked hs, List.mem_eraseDups, List.mem_map,
    List.mem_flatMap, next, Set.mem_ofPred_eq]
  constructor
  · rintro ⟨move,⟨m,hm,hmove⟩,rfl⟩
    exact ⟨m,hm,move,hmove,rfl⟩
  · rintro ⟨m,hm,move,hmove,rfl⟩
    exact ⟨move,⟨m,hm,hmove⟩,rfl⟩

theorem State.step_unranked (hs : ∀ m ∈ s, m.unranked = true) :
    ∀ t ∈ (s.step c).1, t.unranked = true := by
  intro t ht
  obtain ⟨m,hm,move,hmove,rfl⟩ := (State.mem_step_iff hs).mp ht
  exact (unranked_moves (hs m hm) hmove).2

theorem State.step_acts (listed : List (ℕ × A)) (hs : ∀ m ∈ s, m.unranked = true)
    (hlisted : listed.Pairwise (·.1 < ·.1))
    (hmem : ∀ l, l ∈ listed ↔ ∃ m ∈ s, l ∈ m.emits (some c)) :
    (s.step c).2 = (listed.map Prod.snd).eraseDups := by
  refine ordered_eq hlisted ?_
  intro l
  rw [hmem, State.moves_unranked hs]
  simp only [List.mem_flatMap, emits, labels, Set.mem_ofPred_eq]
  constructor
  · rintro ⟨move,⟨m,hm,hmove⟩,hl⟩
    exact ⟨m,hm,move,hmove,hl⟩
  · rintro ⟨m,hm,move,hmove,hl⟩
    exact ⟨move,⟨m,hm,hmove⟩,hl⟩

theorem State.leaving_eq (listed : List (ℕ × A)) (hlisted : listed.Pairwise (·.1 < ·.1))
    (hmem : ∀ l, l ∈ listed ↔ ∃ m ∈ s, l ∈ m.emits none) :
    s.leaving = (listed.map Prod.snd).eraseDups := by
  refine ordered_eq hlisted ?_
  intro l
  rw [hmem]
  simp only [List.mem_flatMap, emits, Set.mem_ofPred_eq]
  constructor
  · rintro ⟨m,hm,hl⟩
    cases hout : m.outs with
    | none => simp [hout] at hl
    | some x => exact ⟨m,hm,x,hout,by simpa [hout] using hl⟩
  · rintro ⟨m,hm,x,hout,hl⟩
    exact ⟨m,hm,by simpa [hout] using hl⟩

end Steps

section Splitting
open Machine
variable {T : List (ℕ × ℕ × A)} {p : ℕ}

omit [DecidableEq A] in
/-- A sorted trace starts with what is at its first position. -/
theorem filter_append_filter_of_sorted (hsorted : T.Pairwise Before) (hp : ∀ x ∈ T, p ≤ x.1) :
    T = T.filter (·.1 = p) ++ T.filter (·.1 ≠ p) := by
  induction T with
  | nil => rfl
  | cons x T ih =>
    rw [List.pairwise_cons] at hsorted
    have hrest := ih hsorted.2 fun y hy => hp y (List.mem_cons_of_mem _ hy)
    by_cases hx : x.1 = p
    · simpa [List.filter_cons, hx] using hrest
    · have hlt : p < x.1 := lt_of_le_of_ne (hp x List.mem_cons_self) (Ne.symm hx)
      have hall : ∀ y ∈ x :: T, y.1 ≠ p := by
        intro y hy
        rcases List.mem_cons.mp hy with rfl | hy
        · exact hx
        · have hbefore := hsorted.1 y hy
          simp only [Before] at hbefore
          omega
      rw [List.filter_eq_nil_iff.mpr (by simpa using hall), List.nil_append, eq_comm,
        List.filter_eq_self]
      simpa using hall

omit [DecidableEq A] in
/-- The actions at one position are sorted by their numbers. -/
theorem pairwise_at (hsorted : T.Pairwise Before) :
    ((T.filter (·.1 = p)).map Prod.snd).Pairwise (·.1 < ·.1) := by
  rw [List.pairwise_map]
  refine (hsorted.filter _).imp_of_mem ?_
  intro x y hx hy hbefore
  have hx' : x.1 = p := by simpa using (List.mem_filter.mp hx).2
  have hy' : y.1 = p := by simpa using (List.mem_filter.mp hy).2
  rcases hbefore with h | h
  · omega
  · exact h.2

omit [DecidableEq A] in
theorem mem_at {l : ℕ × A} : l ∈ (T.filter (·.1 = p)).map Prod.snd ↔ (p, l) ∈ T := by
  simp

theorem eraseDups_map {B C : Type} [BEq B] [LawfulBEq B] [BEq C] [LawfulBEq C] {f : B → C}
    (hf : Function.Injective f) (as : List B) : (as.map f).eraseDups = as.eraseDups.map f := by
  induction h : as.length using Nat.strong_induction_on generalizing as with
  | _ n ih =>
    cases as with
    | nil => rfl
    | cons a as =>
      subst h
      have hlt : (as.filter fun b => !b == a).length < (a :: as).length := by
        have hle := List.length_filter_le (fun b => !b == a) as
        rw [List.length_cons]
        omega
      have hfilter : (as.map f).filter (fun b => !b == f a) =
          (as.filter fun b => !b == a).map f := by
        rw [List.filter_map]
        congr 1
        apply List.filter_congr
        intro b _
        rw [Bool.eq_iff_iff]
        simp [hf.eq_iff]
      rw [List.map_cons, List.eraseDups_cons, List.eraseDups_cons, List.map_cons, hfilter,
        ih _ hlt _ rfl]

/-- Parts of a trace that share no action at a position. -/
theorem events_append (T₀ T₁ : List (ℕ × ℕ × A))
    (h : ∀ x ∈ T₀, ∀ y ∈ T₁, x.1 = y.1 → x.2.2 ≠ y.2.2) :
    events (T₀ ++ T₁) = events T₀ ++ events T₁ := by
  have hrest : (T₁.map fun x => (x.1, x.2.2)).removeAll (T₀.map fun x => (x.1, x.2.2)) =
      T₁.map fun x => (x.1, x.2.2) := by
    rw [List.removeAll, List.filter_eq_self]
    intro e he
    obtain ⟨y,hy,rfl⟩ := List.mem_map.mp he
    simp only [Bool.not_eq_true', List.elem_eq_mem, decide_eq_false_iff_not, List.mem_map,
      not_exists, not_and]
    intro x hx heq
    obtain ⟨hpos,hact⟩ := Prod.mk.inj heq
    exact h x hx y hy hpos hact
  rw [events, List.map_append, List.eraseDups_append, hrest]
  rfl

theorem events_cons_self {T : List (ℕ × ℕ × A)} {n n' : ℕ} {a : A} :
    events ((p, n, a) :: (p, n', a) :: T) = events ((p, n', a) :: T) :=
  eraseDups_cons_self _ _

/-- The events at one position. -/
theorem events_at {T : List (ℕ × ℕ × A)} (h : ∀ x ∈ T, x.1 = p) :
    events T = (T.map fun x => x.2.2).eraseDups.map fun a => (p, a) := by
  have hmap : T.map (fun x => (x.1, x.2.2)) = (T.map fun x => x.2.2).map fun a => (p, a) := by
    rw [List.map_map]
    apply List.map_congr_left
    intro x hx
    simp [h x hx]
  have hinj : Function.Injective fun a : A => (p, a) := fun _ _ h => congrArg Prod.snd h
  rw [events, hmap, eraseDups_map hinj]

end Splitting

section Traced
open Machine
variable {σ ε : Type} {act : A → ℕ → σ → Except ε σ} {s : State A} {p : ℕ} {x : σ}

omit [DecidableEq A] in
theorem perform_eq_play (acts : List A) : perform act (fun _ => false) p acts x =
    (fun y => (false, y)) <$> play act (acts.map fun a => (p, a)) x := by
  induction acts generalizing x with
  | nil => rfl
  | cons a as ih =>
    simp only [perform, play, List.map_cons, List.foldlM_cons]
    cases act a p x with
    | error e => rfl
    | ok y => exact ih

omit [DecidableEq A] in
theorem play_append (es es' : List (ℕ × A)) :
    play act (es ++ es') x = play act es x >>= play act es' := by
  simp only [play, List.foldlM_append]
  rfl

/-- What the positions of a state do. -/
def State.At (s : State A) (w : List UInt8) (o : Option UInt8) (l : ℕ × A) : Prop :=
  ∃ m ∈ s, m.At w o l

/-- The part of a trace behind the first byte is a trace of the next state. -/
theorem trace_step {c : UInt8} {cs : List UInt8} {T : List (ℕ × ℕ × A)}
    (hs : ∀ m ∈ s, m.unranked = true) (hT : IsTrace s.At p (c :: cs) T) :
    ∃ T', events T = (s.step c).2.map (fun a => (p, a)) ++ events T' ∧
      IsTrace (s.step c).1.At (p + 1) cs T' := by
  have hpos : ∀ y ∈ T, p ≤ y.1 := by
    intro y hy
    obtain ⟨u,v,_,hp,_⟩ := (hT.mem y).mp hy
    omega
  have hacts : (s.step c).2 = ((T.filter (·.1 = p)).map fun y => y.2.2).eraseDups := by
    rw [State.step_acts ((T.filter (·.1 = p)).map Prod.snd) hs, List.map_map]
    · rfl
    · exact pairwise_at hT.sorted
    · intro l
      rw [mem_at, hT.mem]
      constructor
      · rintro ⟨u,v,heq,hp,hat⟩
        obtain rfl : u = [] := List.eq_nil_of_length_eq_zero (by simpa using hp)
        obtain rfl : v = c :: cs := heq.symm
        exact hat
      · intro hat
        exact ⟨[],c :: cs,rfl,rfl,hat⟩
  refine ⟨T.filter (·.1 ≠ p),?_,hT.sorted.filter _,?_⟩
  · have hat : ∀ y ∈ T.filter (·.1 = p), y.1 = p := by simp
    rw [hacts, ← events_at hat, ← events_append, ← filter_append_filter_of_sorted hT.sorted hpos]
    intro y hy z hz heq
    have hz' : z.1 ≠ p := by simpa using (List.mem_filter.mp hz).2
    exact absurd (heq.symm.trans (hat y hy)) hz'
  · intro y
    rw [List.mem_filter, hT.mem]
    constructor
    · rintro ⟨⟨u,v,heq,hp,hat⟩,hne⟩
      cases u with
      | nil => simp [hp] at hne
      | cons d u =>
        obtain ⟨rfl,rfl⟩ : c = d ∧ cs = u ++ v := by simpa using heq
        obtain ⟨m,hm,t,ht,hat⟩ := hat
        refine ⟨u,v,rfl,?_,t,(State.mem_step_iff hs).mpr ⟨m,hm,ht⟩,hat⟩
        rw [hp, List.length_cons]
        omega
    · rintro ⟨u,v,rfl,hp,t,ht,hat⟩
      obtain ⟨m,hm,ht⟩ := (State.mem_step_iff hs).mp ht
      refine ⟨⟨c :: u,v,rfl,?_,m,hm,t,ht,hat⟩,?_⟩
      · rw [hp, List.length_cons]
        omega
      · simp only [decide_eq_true_eq]
        omega

theorem trace_end {T : List (ℕ × ℕ × A)} (hT : IsTrace s.At p [] T) :
    events T = s.leaving.map fun a => (p, a) := by
  have hpos : ∀ y ∈ T, y.1 = p := by
    intro y hy
    obtain ⟨u,v,heq,hp,_⟩ := (hT.mem y).mp hy
    obtain ⟨rfl,rfl⟩ : u = [] ∧ v = [] := by simpa using heq.symm
    simpa using hp
  have hfilter : T.filter (·.1 = p) = T := by
    rw [List.filter_eq_self]
    simpa using hpos
  have hleaving : s.leaving = (T.map fun y => y.2.2).eraseDups := by
    rw [State.leaving_eq ((T.filter (·.1 = p)).map Prod.snd), hfilter, List.map_map]
    · rfl
    · exact pairwise_at hT.sorted
    · intro l
      rw [mem_at, hT.mem]
      constructor
      · rintro ⟨u,v,heq,_,hat⟩
        obtain ⟨rfl,rfl⟩ : u = [] ∧ v = [] := by simpa using heq.symm
        exact hat
      · intro hat
        exact ⟨[],[],rfl,rfl,hat⟩
  rw [hleaving, events_at hpos]

theorem exec_step {c : UInt8} {cs : List UInt8} (hne : (s.step c).1 ≠ []) :
    exec act (fun _ => false) s (c :: cs) p x =
      play act ((s.step c).2.map fun a => (p, a)) x >>=
        exec act (fun _ => false) (s.step c).1 cs (p + 1) := by
  rw [exec]
  split
  next hstep => exact absurd (by rw [hstep]) hne
  next t acts _ hstep =>
    rw [hstep, perform_eq_play]
    cases play act (acts.map fun a => (p, a)) x <;> rfl

/-- The rest of a run from a state that can accept it performs the trace. -/
theorem exec_trace {cs : List UInt8} {T : List (ℕ × ℕ × A)}
    (hs : ∀ m ∈ s, m.unranked = true) (hT : IsTrace s.At p cs T)
    (hacc : ∃ m ∈ s, m.Accepts cs) :
    (do let (t, q, y) ← exec act (fun _ => false) s cs p x
        if t.isFinal then
          let (_, y) ← perform act (fun _ => false) q t.leaving y
          .ok (some y)
        else .ok none) = some <$> play act (events T) x := by
  induction cs generalizing s p x T with
  | nil =>
    have hfinal : s.isFinal = true := by
      obtain ⟨m,hm,hout⟩ := hacc
      exact List.any_eq_true.mpr ⟨m,hm,hout⟩
    simp only [exec, bind, Except.bind, hfinal, if_true]
    rw [perform_eq_play, trace_end hT]
    cases play act (s.leaving.map fun a => (p, a)) x <;> rfl
  | cons c cs ih =>
    obtain ⟨T',hevents,hT'⟩ := trace_step hs hT
    obtain ⟨m,hm,t,ht,hacc⟩ := hacc
    have ht' := (State.mem_step_iff hs).mpr ⟨m,hm,ht⟩
    rw [hevents, play_append, exec_step (List.ne_nil_of_mem ht')]
    cases play act ((s.step c).2.map fun a => (p, a)) x with
    | error e => rfl
    | ok y => exact ih (State.step_unranked hs) hT' ⟨t,ht',hacc⟩

theorem runToEnd_accepted {m : Machine A} {input : List UInt8} {T : List (ℕ × ℕ × A)}
    (hm : (m.number 0).1.unranked = true) (hT : (m.number 0).1.HasTrace 0 input T)
    (hacc : (m.number 0).1.Accepts input) :
    runToEnd act m input x = some <$> play act (events T) x := by
  refine exec_trace (s := start m) (by simpa [start] using hm) ?_ ⟨_,by simp [start],hacc⟩
  refine ⟨hT.sorted,?_⟩
  intro y
  simp [hT.mem, State.At, start]

theorem exec_final {t : State A} {cs : List UInt8} {q : ℕ} {y : σ}
    (hs : ∀ m ∈ s, m.unranked = true)
    (h : exec act (fun _ => false) s cs p x = .ok (t, q, y)) (ht : t.isFinal = true) :
    ∃ m ∈ s, m.Accepts cs := by
  induction cs generalizing s p x with
  | nil =>
    cases h
    obtain ⟨m,hm,hout⟩ := List.any_eq_true.mp ht
    exact ⟨m,hm,hout⟩
  | cons c cs ih =>
    by_cases hne : (s.step c).1 = []
    · rw [exec] at h
      split at h
      next =>
        cases h
        cases ht
      next u acts hu hstep =>
        rw [hstep] at hne
        exact absurd hne hu
    · rw [exec_step hne] at h
      cases hplay : play act ((s.step c).2.map fun a => (p, a)) x with
      | error e =>
        rw [hplay] at h
        cases h
      | ok z =>
        rw [hplay] at h
        obtain ⟨t',ht',hacc⟩ := ih (State.step_unranked hs) h
        obtain ⟨m,hm,hnext⟩ := (State.mem_step_iff hs).mp ht'
        exact ⟨m,hm,t',hnext,hacc⟩

/-- Only an accepted input has a result. -/
theorem accepts_of_runToEnd {m : Machine A} {input : List UInt8} {y : σ}
    (hm : (m.number 0).1.unranked = true) (h : runToEnd act m input x = .ok (some y)) :
    (m.number 0).1.Accepts input := by
  rw [runToEnd] at h
  cases hexec : exec act (fun _ => false) (start m) input 0 x with
  | error e =>
    rw [hexec] at h
    cases h
  | ok r =>
    obtain ⟨t,q,z⟩ := r
    rw [hexec] at h
    simp only [bind, Except.bind] at h
    split at h
    next hfinal =>
      obtain ⟨k,hk,hacc⟩ := exec_final (by simpa [start] using hm) hexec hfinal
      simpa [start, List.mem_singleton.mp hk] using hacc
    next => cases h

end Traced

end Gudov.ActionMachine
