import Gudov.CallOutcome

/-!
# Runs of step systems

A system has a step function that may fault; its run over a list of inputs collects
the outputs. The inputs may say which party of a protocol moves. There is one
induction rule for safety: what every step preserves holds at the end of every run.
A condition on single steps is lifted to runs by `Along`, and two conditions that agree
wherever the invariant holds agree along runs.
-/
namespace Gudov.StepSystem

variable {S T L O : Type}

/-- Outputs and final state of a run; a fault ends it. -/
def run (step : S → L → Except Fault (O × S)) : List L → S → Except Fault (List O × S)
  | [], s => .ok ([], s)
  | l :: ls, s =>
    match step s l with
    | .error f => .error f
    | .ok (o, t) =>
      match run step ls t with
      | .error f => .error f
      | .ok (os, u) => .ok (o :: os, u)

/-- If every admissible step succeeds and keeps the invariant, every run of
admissible steps does. -/
theorem run_invariant {step : S → L → Except Fault (O × S)} {Inv : S → Prop}
    {Ok : L → Prop}
    (hstep : ∀ s l, Inv s → Ok l → ∃ o t, step s l = .ok (o, t) ∧ Inv t)
    (ls : List L) (s : S) (hs : Inv s) (hls : ∀ l ∈ ls, Ok l) :
    ∃ os t, run step ls s = .ok (os, t) ∧ Inv t := by
  induction ls generalizing s with
  | nil => exact ⟨[],s,rfl,hs⟩
  | cons l ls ih =>
    obtain ⟨o,t,ht,hInv⟩ := hstep s l hs (hls l (by simp))
    obtain ⟨os,u,hu,hInv'⟩ := ih t hInv (fun x hx => hls x (by simp [hx]))
    exact ⟨o :: os,u,by simp only [run, ht, hu],hInv'⟩

/-- Every step of the run satisfies a condition on its own state and input. -/
def Along (step : S → L → Except Fault (O × S)) (Ok : S → L → Prop) : List L → S → Prop
  | [], _ => True
  | l :: ls, s => Ok s l ∧ ∀ o t, step s l = .ok (o, t) → Along step Ok ls t

theorem Along.cons {step : S → L → Except Fault (O × S)} {Ok : S → L → Prop} {s t : S} {o : O}
    {l : L} {ls : List L} (hok : Ok s l) (hstep : step s l = .ok (o, t))
    (hrest : Along step Ok ls t) : Along step Ok (l :: ls) s := by
  refine ⟨hok,?_⟩
  intro o' t' h
  rw [hstep] at h
  cases h
  exact hrest

theorem Along.of_forall {step : S → L → Except Fault (O × S)} {Ok : S → L → Prop}
    (h : ∀ s l, Ok s l) (ls : List L) (s : S) : Along step Ok ls s := by
  induction ls generalizing s with
  | nil => trivial
  | cons l ls ih => exact ⟨h s l,fun _ t _ => ih t⟩

instance Along.decidable {step : S → L → Except Fault (O × S)} {Ok : S → L → Prop}
    [∀ s l, Decidable (Ok s l)] : ∀ ls s, Decidable (Along step Ok ls s)
  | [], _ => isTrue trivial
  | l :: ls, s =>
    match h : step s l with
    | .error _ => decidable_of_iff (Ok s l) (by simp [Along, h])
    | .ok (o, t) =>
      have : Decidable (Along step Ok ls t) := Along.decidable ls t
      decidable_of_iff (Ok s l ∧ Along step Ok ls t) (by
        constructor
        · rintro ⟨hok,hrest⟩
          exact Along.cons hok h hrest
        · rintro ⟨hok,hrest⟩
          exact ⟨hok,hrest o t h⟩)

/-- The safety rule for steps whose condition depends on the state. -/
theorem Along.run_invariant {step : S → L → Except Fault (O × S)} {Ok : S → L → Prop}
    {Inv : S → Prop}
    (hstep : ∀ s l, Inv s → Ok s l → ∃ o t, step s l = .ok (o, t) ∧ Inv t)
    {ls : List L} {s : S} (hs : Inv s) (hok : Along step Ok ls s) :
    ∃ os t, run step ls s = .ok (os, t) ∧ Inv t := by
  induction ls generalizing s with
  | nil => exact ⟨[],s,rfl,hs⟩
  | cons l ls ih =>
    obtain ⟨o,t,ht,hInv⟩ := hstep s l hs hok.1
    obtain ⟨os,u,hu,hInv'⟩ := ih hInv (hok.2 o t ht)
    exact ⟨o :: os,u,by simp only [run, ht, hu],hInv'⟩

/-- An invariant kept by the steps that meet a condition holds where a run of them ends. -/
theorem Along.ends {step : S → L → Except Fault (O × S)} {Meets : S → L → Prop}
    (Inv : S → Prop)
    (hkeep : ∀ s l o t, Inv s → Meets s l → step s l = .ok (o, t) → Inv t)
    {ls : List L} {s t : S} {os : List O} (hs : Inv s) (h : Along step Meets ls s)
    (hrun : run step ls s = .ok (os, t)) : Inv t := by
  induction ls generalizing s os with
  | nil =>
    cases hrun
    exact hs
  | cons l ls ih =>
    unfold run at hrun
    split at hrun
    · cases hrun
    next o u hstep =>
      split at hrun
      · cases hrun
      next os' v hrest =>
        cases hrun
        exact ih (hkeep s l o u hs h.1 hstep) (h.2 o u hstep) hrest

/-- A condition whose steps keep an invariant, and that gives another condition wherever the
invariant holds, gives it along runs. -/
theorem Along.imp {step : S → L → Except Fault (O × S)} {Meets Good : S → L → Prop}
    (Inv : S → Prop)
    (hkeep : ∀ s l o t, Inv s → Meets s l → step s l = .ok (o, t) → Inv t)
    (himp : ∀ s l, Inv s → Meets s l → Good s l)
    {ls : List L} {s : S} (hs : Inv s) (h : Along step Meets ls s) : Along step Good ls s := by
  induction ls generalizing s with
  | nil => trivial
  | cons l ls ih =>
    exact ⟨himp s l hs h.1,fun o t hstep => ih (hkeep s l o t hs h.1 hstep) (h.2 o t hstep)⟩

/-- Two conditions that agree in every state of the invariant agree along runs.
The invariant has to survive only the steps that meet them. -/
theorem along_iff {step : S → L → Except Fault (O × S)} {Ok Good Meets : S → L → Prop}
    {Inv : S → Prop}
    (hkeep : ∀ s l o t, Inv s → Ok s l → Meets s l → step s l = .ok (o, t) → Inv t)
    (hiff : ∀ s l, Inv s → Ok s l → (Good s l ↔ Meets s l))
    (ls : List L) (s : S) (hs : Inv s) (hok : Along step Ok ls s) :
    Along step Good ls s ↔ Along step Meets ls s := by
  induction ls generalizing s with
  | nil => exact Iff.rfl
  | cons l ls ih =>
    have hrest : Meets s l → ∀ o t, step s l = .ok (o, t) →
        (Along step Good ls t ↔ Along step Meets ls t) := fun hmeets o t h =>
      ih t (hkeep s l o t hs hok.1 hmeets h) (hok.2 o t h)
    constructor
    · rintro ⟨hgood,hall⟩
      have hmeets := (hiff s l hs hok.1).mp hgood
      exact ⟨hmeets,fun o t h => (hrest hmeets o t h).mp (hall o t h)⟩
    · rintro ⟨hmeets,hall⟩
      have hgood := (hiff s l hs hok.1).mpr hmeets
      exact ⟨hgood,fun o t h => (hrest hmeets o t h).mpr (hall o t h)⟩

/-- Simulation: related states answer an admissible input alike and stay related. -/
theorem run_simulates {step : S → L → Except Fault (O × S)}
    {spec : T → L → Except Fault (O × T)} {Rel : S → T → Prop} {Ok : S → L → Prop}
    (hsim : ∀ s t l, Rel s t → Ok s l →
      ∃ o s' t', step s l = .ok (o, s') ∧ spec t l = .ok (o, t') ∧ Rel s' t')
    (ls : List L) (s : S) (t : T) (h : Rel s t) (hok : Along step Ok ls s) :
    ∃ os s' t', run step ls s = .ok (os, s') ∧ run spec ls t = .ok (os, t') ∧ Rel s' t' := by
  induction ls generalizing s t with
  | nil => exact ⟨[],s,t,rfl,rfl,h⟩
  | cons l ls ih =>
    obtain ⟨o,s',t',hs,ht,hrel⟩ := hsim s t l h hok.1
    obtain ⟨os,s'',t'',hs',ht',hrel'⟩ := ih s' t' hrel (hok.2 o s' hs)
    exact ⟨o :: os,s'',t'',by simp only [run, hs, hs'],by simp only [run, ht, ht'],hrel'⟩

end Gudov.StepSystem
