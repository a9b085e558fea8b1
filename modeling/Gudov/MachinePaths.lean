import Gudov.MachineTable

/-!
# Paths through a machine

What a machine accepts does not depend on the actions embedded in it: without them its
positions, their transitions and the priorities stay as they are. A path follows the
transitions that no other one of the same position drops, so every position of a compiled
state ends a path, and a path through a part is a path through a part of it. Transitions
without priorities are never dropped: along these a compiled state has every position that a
path leads to.
-/
namespace Gudov.ActionMachine

/-- The transition without its actions. -/
def Move.bare {L : Type} (bare : Machine L → Machine Empty) (t : Move L) : Move Empty :=
  ⟨[],t.priors,bare t.target⟩

namespace Machine
variable {L : Type}

/-- The machine without its actions. -/
def bare : Machine L → Machine Empty
  | null => null
  | one s => one s
  | seq a b => seq a.bare b.bare
  | alt a b => alt a.bare b.bare
  | star a => star a.bare
  | enter _ a => a.bare
  | leave _ a => a.bare
  | finish _ a => a.bare
  | priorAll key value a => priorAll key value a.bare
  | priorEnter key value a => priorEnter key value a.bare
  | priorFinish key value a => priorFinish key value a.bare

theorem number_bare {A : Type} (m : Machine A) (n : ℕ) : (m.number n).1.bare = m.bare := by
  induction m generalizing n with
  | null => rfl
  | one s => rfl
  | seq a b iha ihb => simp only [number, bare, iha, ihb]
  | alt a b iha ihb => simp only [number, bare, iha, ihb]
  | star a ih => simp only [number, bare, ih]
  | enter l a ih => simp only [number, bare, ih]
  | leave l a ih => simp only [number, bare, ih]
  | finish l a ih => simp only [number, bare, ih]
  | priorAll key value a ih => simp only [number, bare, ih]
  | priorEnter key value a ih => simp only [number, bare, ih]
  | priorFinish key value a ih => simp only [number, bare, ih]

theorem isSome_outs_seq (a b : Machine L) :
    (seq a b).outs.isSome = (a.outs.isSome && b.outs.isSome) := by
  simp only [outs]
  cases a.outs <;> cases b.outs <;> rfl

theorem isSome_outs_alt (a b : Machine L) :
    (alt a b).outs.isSome = (a.outs.isSome || b.outs.isSome) := by
  simp only [outs]
  cases a.outs <;> cases b.outs <;> rfl

theorem isSome_outs_bare (m : Machine L) : m.bare.outs.isSome = m.outs.isSome := by
  induction m with
  | null => rfl
  | one s => rfl
  | seq a b iha ihb => rw [bare, isSome_outs_seq, isSome_outs_seq, iha, ihb]
  | alt a b iha ihb => rw [bare, isSome_outs_alt, isSome_outs_alt, iha, ihb]
  | star a ih => rfl
  | enter l a ih => rw [bare, ih, outs, Option.isSome_map]
  | leave l a ih => rw [bare, ih, outs, Option.isSome_map]
  | finish l a ih => rw [bare, ih, outs]
  | priorAll key value a ih => rw [bare, outs, outs, ih]
  | priorEnter key value a ih => rw [bare, outs, outs, ih]
  | priorFinish key value a ih => rw [bare, outs, outs, ih]

theorem firsts_bare (m : Machine L) : m.bare.firsts = m.firsts := by
  induction m with
  | null => rfl
  | one s => rfl
  | seq a b iha ihb => simp only [bare, firsts, iha, ihb, isSome_outs_bare]
  | alt a b iha ihb => simp only [bare, firsts, iha, ihb]
  | star a ih => exact ih
  | enter l a ih => exact ih
  | leave l a ih => exact ih
  | finish l a ih => exact ih
  | priorAll key value a ih => exact ih
  | priorEnter key value a ih => exact ih
  | priorFinish key value a ih => exact ih

/-- The transitions of a concatenation, whatever the actions that are deferred. -/
theorem mem_moves_seq {a b : Machine L} {c : UInt8} {t : Move L} :
    t ∈ (seq a b).moves c ↔
      (∃ t' ∈ a.moves c, t = { t' with target := seq t'.target b }) ∨
        ∃ x, a.outs = some x ∧ ∃ t' ∈ b.moves c, t = { t' with acts := x ++ t'.acts } := by
  rw [moves, List.mem_append]
  refine or_congr ?_ ?_
  · rw [List.mem_map]
    exact exists_congr fun t' => and_congr_right fun _ => eq_comm
  · cases hout : a.outs with
    | none => simp
    | some x =>
      simp only [List.mem_map, Option.some.injEq, exists_eq_left']
      exact exists_congr fun t' => and_congr_right fun _ => eq_comm

theorem moves_bare (m : Machine L) (c : UInt8) :
    m.bare.moves c = (m.moves c).map (Move.bare bare) := by
  induction m with
  | null => rfl
  | one s =>
    simp only [bare, moves]
    split <;> rfl
  | seq a b iha ihb =>
    have hout := isSome_outs_bare a
    simp only [bare, moves, iha, ihb, List.map_append, List.map_map]
    congr 1
    cases ha : a.outs with
    | none =>
      rw [ha, Option.isSome_none, Option.isSome_eq_false_iff, Option.isNone_iff_eq_none] at hout
      rw [hout]
      rfl
    | some x =>
      rw [ha, Option.isSome_some, Option.isSome_iff_exists] at hout
      obtain ⟨y,hy⟩ := hout
      obtain rfl : y = [] := Subsingleton.elim _ _
      rw [hy, List.map_map]
      rfl
  | alt a b iha ihb => simp only [bare, moves, iha, ihb, List.map_append]
  | star a ih | enter l a ih | leave l a ih | finish l a ih | priorAll key value a ih
  | priorEnter key value a ih =>
    simp only [bare, moves, ih, List.map_map]
    rfl
  | priorFinish key value a ih =>
    simp only [bare, moves, ih, List.map_map]
    apply List.map_congr_left
    intro t _
    simp only [Function.comp_apply, Move.bare, bare, isSome_outs_bare]

/-- A transition that no other one of the same position drops. -/
def Keeps (m : Machine L) (c : UInt8) (t : Move L) : Prop :=
  t ∈ m.moves c ∧ ∀ t' ∈ m.moves c, t.below t' = false

/-- Such transitions one after the other, on the bytes of a word. -/
inductive Path : Machine L → List UInt8 → Machine L → Prop
  | nil (m : Machine L) : Path m [] m
  | cons {m n : Machine L} {c : UInt8} {w : List UInt8} {t : Move L} (hkeep : m.Keeps c t)
      (hrest : Path t.target w n) : Path m (c :: w) n

def Completes (m : Machine L) (w : List UInt8) : Prop := ∃ n, Path m w n ∧ n.outs.isSome = true

section Paths
variable {a b m p : Machine L} {s : ByteSet} {c : UInt8} {w : List UInt8} {t : Move L}
  {key value : ℕ}

theorem below_eq_false_of_subset {t t' u u' : Move L} (h : u.below u' = false)
    (ht : t.priors ⊆ u.priors) (ht' : t'.priors ⊆ u'.priors) : t.below t' = false := by
  rw [← Bool.not_eq_true] at h ⊢
  intro hbelow
  apply h
  simp only [Move.below, List.any_eq_true] at hbelow ⊢
  obtain ⟨x,hx,y,hy,hxy⟩ := hbelow
  exact ⟨x,ht hx,y,ht' hy,hxy⟩

theorem Keeps.seq (h : (seq a b).Keeps c t) :
    (∃ t', a.Keeps c t' ∧ t.priors = t'.priors ∧ t.target = seq t'.target b) ∨
      a.outs.isSome = true ∧ ∃ t', b.Keeps c t' ∧ t.target = t'.target := by
  obtain ⟨hmem,hkeep⟩ := h
  rcases mem_moves_seq.mp hmem with ⟨t',ht',rfl⟩ | ⟨x,hx,t',ht',rfl⟩
  · refine .inl ⟨t',⟨ht',fun u hu => ?_⟩,rfl,rfl⟩
    exact below_eq_false_of_subset (hkeep _ (mem_moves_seq.mpr (.inl ⟨u,hu,rfl⟩)))
      (List.Subset.refl _) (List.Subset.refl _)
  · refine .inr ⟨by rw [hx]; rfl,t',⟨ht',fun u hu => ?_⟩,rfl⟩
    exact below_eq_false_of_subset (hkeep _ (mem_moves_seq.mpr (.inr ⟨x,hx,u,hu,rfl⟩)))
      (List.Subset.refl _) (List.Subset.refl _)

theorem Path.null (h : Path Machine.null w p) : w = [] ∧ p = Machine.null := by
  cases h with
  | nil => exact ⟨rfl,rfl⟩
  | cons hkeep _ => cases hkeep.1

theorem Path.one (h : Path (Machine.one s) w p) :
    (w = [] ∧ p = Machine.one s) ∨ ∃ c, w = [c] ∧ s.has c = true ∧ p = Machine.null := by
  cases h with
  | nil => exact .inl ⟨rfl,rfl⟩
  | @cons _ _ c w t hkeep hrest =>
    have hmem := hkeep.1
    simp only [moves] at hmem
    split at hmem
    next hc =>
      obtain rfl := List.mem_singleton.mp hmem
      obtain ⟨rfl,rfl⟩ := hrest.null
      exact .inr ⟨c,rfl,hc,rfl⟩
    next => cases hmem

/-- A path through a concatenation stays in the first part or goes on in the second. -/
theorem Path.seq (h : Path (seq a b) w p) :
    (∃ a', Path a w a' ∧ p = Machine.seq a' b) ∨
      ∃ u v, w = u ++ v ∧ v ≠ [] ∧ a.Completes u ∧ Path b v p := by
  induction w generalizing a with
  | nil =>
    cases h
    exact .inl ⟨a,Path.nil a,rfl⟩
  | cons c w ih =>
    cases h with
    | cons hkeep hrest =>
      rcases hkeep.seq with ⟨t',hkeep',_,htarget⟩ | ⟨hout,t',hkeep',htarget⟩
      · rw [htarget] at hrest
        rcases ih hrest with ⟨a',hpath,rfl⟩ | ⟨u,v,rfl,hv,⟨a',hpath,hout⟩,hb⟩
        · exact .inl ⟨a',Path.cons hkeep' hpath,rfl⟩
        · exact .inr ⟨c :: u,v,rfl,hv,⟨a',Path.cons hkeep' hpath,hout⟩,hb⟩
      · rw [htarget] at hrest
        exact .inr ⟨[],c :: w,rfl,List.cons_ne_nil c w,⟨a,Path.nil a,hout⟩,
          Path.cons hkeep' hrest⟩

theorem Path.alt (h : Path (alt a b) w p) (hw : w ≠ []) : Path a w p ∨ Path b w p := by
  cases h with
  | nil => exact absurd rfl hw
  | cons hkeep hrest =>
    obtain ⟨hmem,hkeep⟩ := hkeep
    rcases List.mem_append.mp hmem with ha | hb
    · exact .inl (Path.cons ⟨ha,fun u hu => hkeep u (List.mem_append_left _ hu)⟩ hrest)
    · exact .inr (Path.cons ⟨hb,fun u hu => hkeep u (List.mem_append_right _ hu)⟩ hrest)

/-- A path through a star lies in the repetition that the last bytes belong to. -/
theorem Path.star (h : Path (star a) w p) (hw : w ≠ []) :
    ∃ u v a', w = u ++ v ∧ v ≠ [] ∧ Path a v a' ∧ p = Machine.seq a' (Machine.star a) ∧
      (u = [] ∨ ∃ u' l, u = u' ++ l ∧ l ≠ [] ∧ a.Completes l) := by
  induction hlen : w.length using Nat.strong_induction_on generalizing w with
  | _ n ih =>
    cases h with
    | nil => exact absurd rfl hw
    | @cons _ _ c w t hkeep hrest =>
      obtain ⟨hmem,hkeep⟩ := hkeep
      obtain ⟨t',ht',rfl⟩ := List.mem_map.mp hmem
      have hkeep' : a.Keeps c t' := ⟨ht',fun u hu => below_eq_false_of_subset
        (hkeep _ (List.mem_map_of_mem hu)) (List.Subset.refl _) (List.Subset.refl _)⟩
      rcases hrest.seq with ⟨a',hpath,rfl⟩ | ⟨u,v,rfl,hv,⟨a',hpath,hout⟩,hmore⟩
      · exact ⟨[],c :: w,a',rfl,List.cons_ne_nil c w,Path.cons hkeep' hpath,rfl,.inl rfl⟩
      · have hless : v.length < n := by
          rw [← hlen, List.length_cons, List.length_append]
          omega
        obtain ⟨x,y,a'',rfl,hy,hlast,rfl,hx⟩ := ih v.length hless hmore hv rfl
        refine ⟨c :: u ++ x,y,a'',by simp,hy,hlast,rfl,.inr ?_⟩
        rcases hx with rfl | ⟨x',l,rfl,hl,haccepts⟩
        · exact ⟨[],c :: u,by simp,List.cons_ne_nil c u,a',Path.cons hkeep' hpath,hout⟩
        · exact ⟨c :: u ++ x',l,by simp,hl,haccepts⟩

theorem Path.priorEnter (h : Path (priorEnter key value a) w p) (hw : w ≠ []) : Path a w p := by
  cases h with
  | nil => exact absurd rfl hw
  | cons hkeep hrest =>
    obtain ⟨hmem,hkeep⟩ := hkeep
    obtain ⟨t',ht',rfl⟩ := List.mem_map.mp hmem
    refine Path.cons ⟨ht',fun u hu => ?_⟩ hrest
    exact below_eq_false_of_subset (hkeep _ (List.mem_map_of_mem hu))
      (List.subset_cons_self _ _) (List.subset_cons_self _ _)

theorem Completes.seq (h : (seq a b).Completes w) :
    ∃ u v, w = u ++ v ∧ a.Completes u ∧ b.Completes v := by
  obtain ⟨p,hpath,hout⟩ := h
  rcases hpath.seq with ⟨a',ha,rfl⟩ | ⟨u,v,rfl,_,ha,hb⟩
  · rw [isSome_outs_seq, Bool.and_eq_true] at hout
    exact ⟨w,[],(List.append_nil w).symm,⟨a',ha,hout.1⟩,b,Path.nil b,hout.2⟩
  · exact ⟨u,v,rfl,ha,p,hb,hout⟩

theorem Completes.star (h : (star a).Completes w) :
    w = [] ∨ ∃ u l, w = u ++ l ∧ l ≠ [] ∧ a.Completes l := by
  obtain ⟨p,hpath,hout⟩ := h
  by_cases hw : w = []
  · exact .inl hw
  · obtain ⟨u,v,a',rfl,hv,hlast,rfl,_⟩ := hpath.star hw
    rw [isSome_outs_seq, Bool.and_eq_true] at hout
    exact .inr ⟨u,v,rfl,hv,a',hlast,hout.1⟩

theorem Completes.ne_nil (h : a.Completes w) (hout : a.outs.isSome = false) : w ≠ [] := by
  rintro rfl
  obtain ⟨p,hpath,hp⟩ := h
  cases hpath
  rw [hout] at hp
  cases hp

theorem exists_first_of_moves (ht : t ∈ m.moves c) : ∃ s ∈ m.firsts, s.has c = true := by
  induction m generalizing t with
  | null => cases ht
  | one s =>
    simp only [moves] at ht
    split at ht
    next hc => exact ⟨s,List.mem_singleton_self s,hc⟩
    next => cases ht
  | seq a b iha ihb =>
    rcases mem_moves_seq.mp ht with ⟨t',ht',_⟩ | ⟨x,hx,t',ht',_⟩
    · obtain ⟨s,hs,hc⟩ := iha ht'
      exact ⟨s,List.mem_append_left _ hs,hc⟩
    · obtain ⟨s,hs,hc⟩ := ihb ht'
      exact ⟨s,List.mem_append_right _ (by rw [hx]; exact hs),hc⟩
  | alt a b iha ihb =>
    rcases List.mem_append.mp ht with ha | hb
    · obtain ⟨s,hs,hc⟩ := iha ha
      exact ⟨s,List.mem_append_left _ hs,hc⟩
    · obtain ⟨s,hs,hc⟩ := ihb hb
      exact ⟨s,List.mem_append_right _ hs,hc⟩
  | star a ih | enter l a ih | leave l a ih | finish l a ih | priorAll key value a ih
  | priorEnter key value a ih | priorFinish key value a ih =>
    obtain ⟨t',ht',_⟩ := List.mem_map.mp ht
    exact ih ht'

theorem Path.exists_first (h : Path m (c :: w) p) : ∃ s ∈ m.firsts, s.has c = true := by
  cases h with
  | cons hkeep _ => exact exists_first_of_moves hkeep.1

/-- None of the sets in the machine has the byte. -/
def avoids (c : UInt8) : Machine L → Bool
  | null => true
  | one s => !s.has c
  | seq a b => a.avoids c && b.avoids c
  | alt a b => a.avoids c && b.avoids c
  | star a => a.avoids c
  | enter _ a => a.avoids c
  | leave _ a => a.avoids c
  | finish _ a => a.avoids c
  | priorAll _ _ a => a.avoids c
  | priorEnter _ _ a => a.avoids c
  | priorFinish _ _ a => a.avoids c

theorem avoids_moves {d : UInt8} (h : m.avoids c = true) (ht : t ∈ m.moves d) :
    d ≠ c ∧ t.target.avoids c = true := by
  induction m generalizing t with
  | null => cases ht
  | one s =>
    simp only [moves] at ht
    split at ht
    next hd =>
      obtain rfl := List.mem_singleton.mp ht
      refine ⟨?_,rfl⟩
      rintro rfl
      simp [avoids, hd] at h
    next => cases ht
  | seq a b iha ihb =>
    obtain ⟨ha,hb⟩ := Bool.and_eq_true_iff.mp h
    rcases mem_moves_seq.mp ht with ⟨t',ht',rfl⟩ | ⟨x,_,t',ht',rfl⟩
    · obtain ⟨hd,htarget⟩ := iha ha ht'
      exact ⟨hd,Bool.and_eq_true_iff.mpr ⟨htarget,hb⟩⟩
    · obtain ⟨hd,htarget⟩ := ihb hb ht'
      exact ⟨hd,htarget⟩
  | alt a b iha ihb =>
    obtain ⟨ha,hb⟩ := Bool.and_eq_true_iff.mp h
    exact (List.mem_append.mp ht).elim (iha ha) (ihb hb)
  | star a ih =>
    obtain ⟨t',ht',rfl⟩ := List.mem_map.mp ht
    obtain ⟨hd,htarget⟩ := ih h ht'
    exact ⟨hd,Bool.and_eq_true_iff.mpr ⟨htarget,h⟩⟩
  | enter l a ih | leave l a ih | finish l a ih | priorAll key value a ih
  | priorEnter key value a ih | priorFinish key value a ih =>
    obtain ⟨t',ht',rfl⟩ := List.mem_map.mp ht
    obtain ⟨hd,htarget⟩ := ih h ht'
    exact ⟨hd,htarget⟩

theorem Path.avoids (h : Path m w p) (hm : m.avoids c = true) :
    c ∉ w ∧ p.avoids c = true := by
  induction h with
  | nil => exact ⟨List.not_mem_nil,hm⟩
  | cons hkeep _ ih =>
    obtain ⟨hd,htarget⟩ := avoids_moves hm hkeep.1
    obtain ⟨hw,hp⟩ := ih htarget
    exact ⟨List.not_mem_cons_of_ne_of_not_mem hd.symm hw,hp⟩

/-- Wherever the byte may follow, the machine may end. -/
def Ready (m : Machine L) (c : UInt8) : Prop :=
  ∀ w p, Path m w p → p.moves c ≠ [] → p.outs.isSome = true

/-- The machine may end everywhere. -/
def Loose (m : Machine L) : Prop := ∀ w p, Path m w p → p.outs.isSome = true

theorem Loose.ready (h : m.Loose) (c : UInt8) : m.Ready c := fun w p hpath _ => h w p hpath

theorem Ready.seq (ha : a.avoids c = true) (hb : b.Ready c) : (seq a b).Ready c := by
  intro w p hpath hmoves
  rcases hpath.seq with ⟨a',ha',rfl⟩ | ⟨u,v,_,_,_,hb'⟩
  · obtain ⟨t,ht⟩ := List.exists_mem_of_ne_nil _ hmoves
    rcases mem_moves_seq.mp ht with ⟨t',ht',_⟩ | ⟨x,hx,t',ht',_⟩
    · exact absurd rfl (avoids_moves (ha'.avoids ha).2 ht').1
    · have hout := hb [] b (Path.nil b) (List.ne_nil_of_mem ht')
      rw [isSome_outs_seq, hx, hout]
      rfl
  · exact hb v p hb' hmoves

theorem Loose.seq (ha : a.Loose) (hb : b.Loose) : (seq a b).Loose := by
  intro w p hpath
  rcases hpath.seq with ⟨a',ha',rfl⟩ | ⟨u,v,_,_,_,hb'⟩
  · rw [isSome_outs_seq, ha w a' ha', hb [] b (Path.nil b)]
    rfl
  · exact hb v p hb'

/-- A path through bytes of one set. -/
theorem Path.star_one (h : Path (Machine.star (Machine.one s)) w p) :
    (∀ c ∈ w, s.has c = true) ∧
      (w = [] ∧ p = Machine.star (Machine.one s) ∨
        w ≠ [] ∧ p = Machine.seq Machine.null (Machine.star (Machine.one s))) := by
  constructor
  · intro c hc
    by_contra hno
    have havoids : (Machine.star (Machine.one s) : Machine L).avoids c = true := by
      rw [Machine.avoids, Machine.avoids, Bool.not_eq_true', ← Bool.not_eq_true]
      exact hno
    exact (h.avoids havoids).1 hc
  · by_cases hw : w = []
    · obtain rfl := hw
      cases h
      exact .inl ⟨rfl,rfl⟩
    · obtain ⟨u,v,a',_,hv,hone,rfl,_⟩ := h.star hw
      rcases hone.one with ⟨rfl,_⟩ | ⟨c,_,_,rfl⟩
      · exact absurd rfl hv
      · exact .inr ⟨hw,rfl⟩

theorem loose_star_one : (star (one s) : Machine L).Loose := by
  intro w p hpath
  rcases hpath.star_one.2 with ⟨_,rfl⟩ | ⟨_,rfl⟩ <;> rfl

/-- A transition of the first part of a guarded concatenation, on a byte on which the second part
does not begin as long as the first may end. -/
theorem Keeps.guarded {t' : Move L} (h : (entryGuarded key a b).Keeps c t)
    (hfirst : (Machine.priorAll key 0 a).Keeps c t') (hpriors : t.priors = t'.priors) :
    ∃ t'', a.Keeps c t'' ∧ t'.target = Machine.priorAll key 0 t''.target ∧
      (a.outs.isSome = true → b.moves c = []) := by
  obtain ⟨hmem,hkeep⟩ := hfirst
  obtain ⟨t'',ht'',rfl⟩ := List.mem_map.mp hmem
  refine ⟨t'',⟨ht'',fun u hu => ?_⟩,rfl,fun hout => ?_⟩
  · exact below_eq_false_of_subset (hkeep _ (List.mem_map_of_mem hu))
      (List.subset_cons_self _ _) (List.subset_cons_self _ _)
  · -- A transition into the second part would have dropped this one.
    by_contra hne
    obtain ⟨u,hu⟩ := List.exists_mem_of_ne_nil _ hne
    obtain ⟨x,hx⟩ := Option.isSome_iff_exists.mp hout
    have hdropped := h.2 _ (mem_moves_seq.mpr (.inr ⟨x,hx,_,List.mem_map_of_mem hu,rfl⟩))
    simp [Move.below, hpriors] at hdropped

/-- As long as the first part of a guarded concatenation lasts, no byte comes on which the
second one might begin. -/
theorem Path.entryGuarded (h : Path (entryGuarded key a b) w p) :
    (∃ a', Path a w a' ∧
        p = Machine.seq (Machine.priorAll key 0 a') (Machine.priorEnter key 1 b) ∧
        ∀ c ∈ w, a.Ready c → b.moves c = []) ∨
      ∃ u v, w = u ++ v ∧ v ≠ [] ∧ a.Completes u ∧ Path b v p ∧
        ∀ c ∈ u, a.Ready c → b.moves c = [] := by
  induction w generalizing a with
  | nil =>
    cases h
    exact .inl ⟨a,Path.nil a,rfl,by simp⟩
  | cons c w ih =>
    cases h with
    | @cons _ _ _ _ t hkeep hrest =>
      rcases hkeep.seq with ⟨t',hkeep',hpriors,htarget⟩ | ⟨hout,t',hkeep',htarget⟩
      · obtain ⟨t'',hkeep'',htarget',hguard⟩ := hkeep.guarded hkeep' hpriors
        have hnone : a.Ready c → b.moves c = [] :=
          fun hready => hguard (hready [] a (Path.nil a) (List.ne_nil_of_mem hkeep''.1))
        have hready : ∀ d, a.Ready d → t''.target.Ready d :=
          fun d hd u q hq => hd (c :: u) q (Path.cons hkeep'' hq)
        rw [htarget, htarget'] at hrest
        rcases ih hrest with ⟨a',hpath,rfl,hw⟩ | ⟨u,v,rfl,hv,⟨a',hpath,hout⟩,hb,hu⟩
        · refine .inl ⟨a',Path.cons hkeep'' hpath,rfl,fun d hd hr => ?_⟩
          rcases List.mem_cons.mp hd with rfl | hd
          · exact hnone hr
          · exact hw d hd (hready d hr)
        · refine .inr ⟨c :: u,v,rfl,hv,⟨a',Path.cons hkeep'' hpath,hout⟩,hb,fun d hd hr => ?_⟩
          rcases List.mem_cons.mp hd with rfl | hd
          · exact hnone hr
          · exact hu d hd (hready d hr)
      · rw [htarget] at hrest
        exact .inr ⟨[],c :: w,rfl,List.cons_ne_nil c w,⟨a,Path.nil a,hout⟩,
          (Path.cons hkeep' hrest).priorEnter (List.cons_ne_nil c w),by simp⟩

end Paths

section Free
variable {a b m n p : Machine L} {c : UInt8} {u v w : List UInt8} {t : Move L}

/-- Transitions without priorities one after the other. -/
inductive FreePath : Machine L → List UInt8 → Machine L → Prop
  | nil (m : Machine L) : FreePath m [] m
  | cons {m n : Machine L} {c : UInt8} {w : List UInt8} {t : Move L} (ht : t ∈ m.moves c)
      (hpriors : t.priors = []) (hrest : FreePath t.target w n) : FreePath m (c :: w) n

theorem FreePath.append (h : FreePath m u n) (h' : FreePath n v p) : FreePath m (u ++ v) p := by
  induction h with
  | nil => exact h'
  | cons ht hpriors _ ih => exact FreePath.cons ht hpriors (ih h')

theorem FreePath.one {s : ByteSet} (hc : s.has c = true) :
    FreePath (Machine.one s : Machine L) [c] Machine.null := by
  refine FreePath.cons (t := ⟨[],[],Machine.null⟩) ?_ rfl (FreePath.nil _)
  simp [moves, hc]

theorem FreePath.first (h : FreePath a w p) (b : Machine L) :
    FreePath (seq a b) w (seq p b) := by
  induction h with
  | nil m => exact FreePath.nil _
  | cons ht hpriors _ ih =>
    exact FreePath.cons (mem_moves_seq.mpr (.inl ⟨_,ht,rfl⟩)) hpriors ih

theorem FreePath.second (hout : a.outs.isSome = true) (h : FreePath b w p) (hw : w ≠ []) :
    FreePath (seq a b) w p := by
  obtain ⟨x,hx⟩ := Option.isSome_iff_exists.mp hout
  cases h with
  | nil => exact absurd rfl hw
  | cons ht hpriors hrest =>
    exact FreePath.cons (mem_moves_seq.mpr (.inr ⟨x,hx,_,ht,rfl⟩)) hpriors hrest

theorem FreePath.left (h : FreePath a w p) (hw : w ≠ []) (b : Machine L) :
    FreePath (alt a b) w p := by
  cases h with
  | nil => exact absurd rfl hw
  | cons ht hpriors hrest => exact FreePath.cons (List.mem_append_left _ ht) hpriors hrest

theorem FreePath.right (h : FreePath b w p) (hw : w ≠ []) (a : Machine L) :
    FreePath (alt a b) w p := by
  cases h with
  | nil => exact absurd rfl hw
  | cons ht hpriors hrest => exact FreePath.cons (List.mem_append_right _ ht) hpriors hrest

theorem FreePath.star (h : FreePath a w p) (hw : w ≠ []) :
    FreePath (star a) w (seq p (Machine.star a)) := by
  cases h with
  | nil => exact absurd rfl hw
  | cons ht hpriors hrest =>
    exact FreePath.cons (List.mem_map_of_mem ht) hpriors (hrest.first _)

theorem FreePath.star_one {s : ByteSet} (hw : ∀ c ∈ w, s.has c = true) (hne : w ≠ []) :
    FreePath (Machine.star (Machine.one s) : Machine L) w
      (seq null (Machine.star (Machine.one s))) := by
  induction w with
  | nil => exact absurd rfl hne
  | cons c w ih =>
    have hfirst := (FreePath.one (L := L) (hw c (by simp))).star (List.cons_ne_nil c [])
    by_cases hnil : w = []
    · obtain rfl := hnil
      exact hfirst
    · exact hfirst.append (FreePath.second rfl (ih (fun d hd => hw d (by simp [hd])) hnil) hnil)

end Free

end Machine

section Compiled
open Machine
variable {A : Type} [DecidableEq A] {s : State A} {w : List UInt8}

/-- Every position of a state ends a path from a position at the start. -/
theorem State.path_of_mem_run {p : Machine (ℕ × A)} (h : p ∈ s.run w) :
    ∃ m ∈ s, Path m.bare w p.bare := by
  induction w generalizing s with
  | nil => exact ⟨p,h,Path.nil _⟩
  | cons c w ih =>
    obtain ⟨n,hn,hpath⟩ := ih (s := (s.step c).1) h
    obtain ⟨t,ht,rfl⟩ := State.mem_step hn
    obtain ⟨m,hm,hmoves⟩ := State.mem_moves ht
    refine ⟨m,hm,Path.cons (t := Move.bare bare t) ⟨?_,fun u hu => ?_⟩ hpath⟩
    · rw [moves_bare]
      exact List.mem_map_of_mem hmoves
    · rw [moves_bare] at hu
      obtain ⟨u',hu',rfl⟩ := List.mem_map.mp hu
      have hkept := (List.mem_filter.mp ht).2
      rw [Bool.not_eq_true', List.any_eq_false] at hkept
      exact Bool.eq_false_iff.mpr (hkept u' (List.mem_flatMap.mpr ⟨m,hm,hu'⟩))

/-- What a path without priorities leads to is a position of the state. -/
theorem State.mem_run_of_freePath {m : Machine (ℕ × A)} {p : Machine Empty} (hm : m ∈ s)
    (h : FreePath m.bare w p) : ∃ q ∈ s.run w, q.bare = p := by
  induction w generalizing s m with
  | nil =>
    cases h
    exact ⟨m,hm,rfl⟩
  | cons c w ih =>
    cases h with
    | cons ht hpriors hrest =>
      rw [moves_bare] at ht
      obtain ⟨t',ht',rfl⟩ := List.mem_map.mp ht
      have hpriors' : t'.priors = [] := hpriors
      refine ih (s := (s.step c).1) (m := t'.target) ?_ hrest
      rw [State.step, List.mem_eraseDups]
      refine List.mem_map_of_mem (List.mem_filter.mpr ⟨List.mem_flatMap.mpr ⟨m,hm,ht'⟩,?_⟩)
      simp [Move.below, hpriors']

/-- No position goes on, so the state does not. -/
theorem State.step_dead {c : UInt8} (h : ∀ p ∈ s, p.bare.moves c = []) : (s.step c).1 = [] := by
  rw [List.eq_nil_iff_forall_not_mem]
  intro q hq
  obtain ⟨t,ht,_⟩ := State.mem_step hq
  obtain ⟨p,hp,hmoves⟩ := State.mem_moves ht
  have hmem : Move.bare bare t ∈ p.bare.moves c := by
    rw [moves_bare]
    exact List.mem_map_of_mem hmoves
  rw [h p hp] at hmem
  cases hmem

theorem State.run_append (s : State A) (u v : List UInt8) : s.run (u ++ v) = (s.run u).run v := by
  rw [State.run, List.foldl_append]
  rfl

variable {σ ε : Type} {act : A → ℕ → σ → Except ε σ} {breaks : A → Bool}

/-- The driver stops in the state that the bytes lead to which it has passed, the first of them at
least, or in none. -/
theorem exec_passed {t : State A} {p q : ℕ} {x y : σ}
    (h : exec act breaks s w p x = .ok (t, q, y)) :
    t = [] ∨ ∃ u v, w = u ++ v ∧ q = p + u.length ∧ t = s.run u ∧ (w ≠ [] → u ≠ []) := by
  induction w generalizing s p x with
  | nil =>
    cases h
    exact .inr ⟨[],[],rfl,rfl,rfl,fun h => absurd rfl h⟩
  | cons c w ih =>
    rcases exec_cons h with ⟨_,hnil⟩ | ⟨b,z,_,_,hrest⟩
    · exact .inl hnil
    · cases b with
      | true =>
        cases hrest
        exact .inr ⟨[c],w,rfl,rfl,rfl,fun _ => List.cons_ne_nil c []⟩
      | false =>
        rcases ih hrest with hnil | ⟨u,v,rfl,hq,ht,_⟩
        · exact .inl hnil
        · refine .inr ⟨c :: u,v,rfl,?_,ht,fun _ => List.cons_ne_nil c u⟩
          rw [hq, List.length_cons, Nat.add_assoc, Nat.add_comm 1]

/-- It stops in the state that the bytes lead to when it passes all of them. -/
theorem exec_run {t : State A} {p : ℕ} {x y : σ} (ht : t ≠ [])
    (h : exec act breaks s w p x = .ok (t, p + w.length, y)) : t = s.run w := by
  obtain ⟨u,v,rfl,hq,hrun,_⟩ := (exec_passed h).resolve_left ht
  rw [List.length_append] at hq
  obtain rfl : v = [] := List.length_eq_zero_iff.mp (by omega)
  rwa [List.append_nil]

theorem State.run_nil (w : List UInt8) : State.run ([] : State A) w = [] := by
  induction w with
  | nil => rfl
  | cons c w ih => exact ih

/-- Behind a byte on which nothing goes on. -/
theorem State.run_dead {c : UInt8} {u v : List UInt8} (h : ((s.run u).step c).1 = []) :
    s.run (u ++ c :: v) = [] := by
  rw [run_append]
  change State.run ((s.run u).step c).1 v = []
  rw [h, run_nil]

end Compiled

end Gudov.ActionMachine
