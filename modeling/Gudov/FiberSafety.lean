import Gudov.FiberSwitch

/-!
# Which fibers are resumed

The pick block passes over a fiber only while its state is `Running`. A fiber whose thread
has set it to `Ready` in `Yield` but has not left its stack is taken all the same, and so
is one that another thread has taken and not yet set to `Running`, and one that has ended.
Two conditions on what the pick block finds exclude these. Under the first a context is
loaded only when it has been saved, and no two threads are on one stack. Under the second
`Resume` never meets a fiber that is not `Ready`.
-/
namespace Gudov

namespace Station
variable {Cb : Type}

/-- The fiber a thread has taken from `tasks_` and not yet resumed. -/
def taken : Station Cb → Option ℕ
  | .branching (some node) => node.task.fiber
  | _ => none

/-- The fiber a thread has set to `Running` and not yet suspended. -/
def runs : Station Cb → Option ℕ
  | .resuming f | .onFiber f => some f
  | _ => none

/-- The fiber on whose stack a thread is. -/
def executes : Station Cb → Option ℕ
  | .onFiber f | .leaving f => some f
  | _ => none

/-- The fiber a thread is concerned with, from the pick block to the saved context. -/
def occupies : Station Cb → Option ℕ
  | .branching (some node) => node.task.fiber
  | .resuming f | .onFiber f | .leaving f => some f
  | _ => none

end Station

namespace Fibers
open StepSystem
variable {Cb : Type} {s t : Fibers Cb} {i j f : ℕ} {p p' : Station Cb} {w : Worker ℕ Cb}
  {g : Station Cb → Option ℕ}

/-- Thread `i` stands in the relation `g` to fiber `f`. -/
def At (s : Fibers Cb) (g : Station Cb → Option ℕ) (i f : ℕ) : Prop :=
  s.stations[i]?.bind g = some f

theorem At.of_move (hst : t.stations = s.stations.set i p') (h : t.At g j f) :
    (j = i ∧ g p' = some f) ∨ (j ≠ i ∧ s.At g j f) := by
  unfold At at h
  rw [hst] at h
  by_cases hji : j = i
  · subst hji
    left
    rw [List.getElem?_set_self'] at h
    cases hget : s.stations[j]? with
    | none => simp [hget] at h
    | some p => simpa [hget] using h
  · right
    rw [List.getElem?_set_ne (Ne.symm hji)] at h
    exact ⟨hji,h⟩

theorem At.move_self (hp : s.stations[i]? = some p) (hst : t.stations = s.stations.set i p')
    (h : g p' = some f) : t.At g i f := by
  have hlt := (List.getElem?_eq_some_iff.mp hp).1
  simp [At, hst, hlt, h]

theorem At.move_other (hji : j ≠ i) (hst : t.stations = s.stations.set i p') (h : s.At g j f) :
    t.At g j f := by
  rw [At, hst, List.getElem?_set_ne (Ne.symm hji)]
  exact h

theorem At.intro (hp : s.stations[i]? = some p) (h : g p = some f) : s.At g i f := by
  simp [At, hp, h]

/-- The fibers named by an action exist. -/
def Known (s : Fibers Cb) : Act Cb → Prop
  | .schedule fc _ => ∀ f, fc = .fiber (some f) → f < s.fibers.length
  | .scheduleRange fcs => ∀ f, .fiber (some f) ∈ fcs → f < s.fibers.length
  | _ => True

/-- The fiber that the pick block of thread `i` is about to take. -/
def Picks (s : Fibers Cb) (i f : ℕ) : Prop :=
  ∃ w tickleMe node left, s.stations[i]? = some .run ∧ s.sched.workers[i]? = some w ∧
    Scheduler.pickLoop w.thread s.getState s.sched.tasks = .ok (tickleMe, some node, left) ∧
    node.task.fiber = some f

/-! ## What a step of a thread can do -/

/-- The parts of a thread's step that are the same for all of them. -/
structure Moves (s t : Fibers Cb) (i : ℕ) (p p' : Station Cb) : Prop where
  at_eq : s.stations[i]? = some p
  stations_eq : t.stations = s.stations.set i p'
  tasks_sub : ∀ node ∈ t.sched.tasks, node ∈ s.sched.tasks
  stopping_eq : t.sched.stopping = s.sched.stopping

/-- What a step does to the fibers and to the root fiber, by the stations it leads from
and to. -/
inductive Turn (s t : Fibers Cb) (i : ℕ) (a : Act Cb) : Station Cb → Station Cb → Prop
  | pick (picked : Option (TaskNode ℕ Cb)) (ha : a = .pick i) (hfibers : t.fibers = s.fibers)
      (hroot : t.root = s.root)
      (hpick : ∀ node f, picked = some node → node.task.fiber = some f →
        s.Picks i f ∧ node ∈ s.sched.tasks) : Turn s t i a .run (.branching picked)
  | resume (node : TaskNode ℕ Cb) (f : ℕ) (c : FiberContext) (hnode : node.task.fiber = some f)
      (hc : s.fibers[f]? = some c) (hstate : c.state = .ready)
      (hfibers : t.fibers = s.fibers.set f { c with state := .running })
      (hroot : t.root = s.root) : Turn s t i a (.branching (some node)) (.resuming f)
  | callback (node : TaskNode ℕ Cb) (hnode : node.task.fiber = none)
      (hfibers : t.fibers = s.fibers ++ [{ state := .running, saved := true }])
      (hroot : t.root = s.root) :
      Turn s t i a (.branching (some node)) (.resuming s.fibers.length)
  | rest (p' : Station Cb) (hp' : p' = .idle ∨ p' = .exited ∨ p' = .joining)
      (hfibers : t.fibers = s.fibers)
      (hroot : t.root = s.root ∨ i = 0 ∧ s.root ≠ none ∧ t.root = some .term) :
      Turn s t i a (.branching none) p'
  | load (f : ℕ) (c : FiberContext) (hc : s.fibers[f]? = some c)
      (hfibers : t.fibers = s.fibers.set f { c with saved := false })
      (hroot : t.root = s.root) : Turn s t i a (.resuming f) (.onFiber f)
  | suspend (f : ℕ) (c : FiberContext) (state : FiberState) (hc : s.fibers[f]? = some c)
      (hstate : state ≠ .running) (hfibers : t.fibers = s.fibers.set f { c with state := state })
      (hroot : t.root = s.root) : Turn s t i a (.onFiber f) (.leaving f)
  | save (f : ℕ) (c : FiberContext) (hc : s.fibers[f]? = some c)
      (hfibers : t.fibers = s.fibers.set f { c with saved := true })
      (hroot : t.root = s.root) : Turn s t i a (.leaving f) .run
  | wake (hfibers : t.fibers = s.fibers) (hroot : t.root = s.root) : Turn s t i a .idle .run

theorem resume_cases (h : s.resume i f = .ok t) :
    ∃ c, s.fibers[f]? = some c ∧ c.state = .ready ∧
      t = (s.setFiber f { c with state := .running }).setStation i (.resuming f) := by
  unfold resume at h
  split at h
  · cases h
  next c hc =>
    split at h
    next hstate =>
      cases h
      refine ⟨c,hc,?_,rfl⟩
      cases hcs : c.state <;> simp [hcs] at hstate ⊢
    · cases h

theorem yield_cases (h : s.yield i f = .ok t) :
    ∃ c state, s.fibers[f]? = some c ∧ state ≠ .running ∧
      t = (s.setFiber f { c with state := state }).setStation i (.leaving f) := by
  unfold yield at h
  split at h
  · cases h
  next c hc =>
    split at h
    · cases h
    · cases h
      refine ⟨c,_,hc,?_,rfl⟩
      cases hcs : c.state <;> simp

theorem mainFuncEnd_cases (h : s.mainFuncEnd i f = .ok t) :
    ∃ c state, s.fibers[f]? = some c ∧ state ≠ .running ∧
      t = (s.setFiber f { c with state := state }).setStation i (.leaving f) := by
  unfold mainFuncEnd at h
  split at h
  · cases h
  next c hc =>
    obtain ⟨c',state,hc',hstate,rfl⟩ := yield_cases h
    have hlt := (List.getElem?_eq_some_iff.mp hc).1
    simp only [setFiber, List.getElem?_set_self hlt, Option.some.injEq] at hc'
    subst hc'
    refine ⟨c,state,hc,hstate,?_⟩
    simp [setFiber, setStation]

theorem switch_cases {saved : Bool} (h : s.switch i f saved p' = .ok t) :
    ∃ c, s.fibers[f]? = some c ∧
      t = (s.setFiber f { c with saved := saved }).setStation i p' := by
  unfold switch at h
  split at h
  · cases h
  next c hc =>
    cases h
    exact ⟨c,hc,rfl⟩

theorem sched_branch_frame (picked : Option (TaskNode ℕ Cb)) (sched : Scheduler ℕ Cb) :
    (sched.branch i w picked).tasks = sched.tasks ∧
      (sched.branch i w picked).stopping = sched.stopping := by
  cases picked with
  | some node => exact ⟨rfl,rfl⟩
  | none =>
    simp only [Scheduler.branch]
    split <;> exact ⟨rfl,rfl⟩

theorem branch_cases {picked : Option (TaskNode ℕ Cb)} {a : Act Cb}
    (hp : s.stations[i]? = some (.branching picked)) (h : s.branch i w picked = .ok t) :
    ∃ p', Moves s t i (.branching picked) p' ∧ Turn s t i a (.branching picked) p' := by
  obtain ⟨htasks,hstopping⟩ := sched_branch_frame (i := i) (w := w) picked s.sched
  have hsub : ∀ node ∈ (s.sched.branch i w picked).tasks, node ∈ s.sched.tasks := by
    rw [htasks]
    exact fun _ hnode => hnode
  cases picked with
  | none =>
    simp only [branch] at h
    split at h
    · split at h
      next hroot =>
        cases h
        exact ⟨.joining,⟨hp,rfl,hsub,hstopping⟩,.rest _ (by simp) rfl
          (Or.inr ⟨hroot.1,Option.isSome_iff_ne_none.mp hroot.2,rfl⟩)⟩
      · cases h
        exact ⟨.exited,⟨hp,rfl,hsub,hstopping⟩,.rest _ (by simp) rfl (Or.inl rfl)⟩
    · cases h
      exact ⟨.idle,⟨hp,rfl,hsub,hstopping⟩,.rest _ (by simp) rfl (Or.inl rfl)⟩
  | some node =>
    simp only [branch] at h
    split at h
    next f hf =>
      obtain ⟨c,hc,hstate,rfl⟩ := resume_cases h
      exact ⟨.resuming f,⟨hp,rfl,hsub,hstopping⟩,.resume node f c hf hc hstate rfl rfl⟩
    next hnone =>
      obtain ⟨c,hc,-,rfl⟩ := resume_cases h
      simp only [newFiber, List.getElem?_concat_length, Option.some.injEq] at hc
      subst hc
      refine ⟨.resuming s.fibers.length,⟨hp,rfl,hsub,hstopping⟩,.callback node hnone ?_ rfl⟩
      simp [newFiber, setFiber, setStation]

theorem pickLoop_mem {thread : ℤ} {state : ℕ → FiberState} {l : List (TaskNode ℕ Cb)}
    {tickleMe : Bool} {picked : Option (TaskNode ℕ Cb)} {left : List (TaskNode ℕ Cb)}
    (h : Scheduler.pickLoop thread state l = .ok (tickleMe, picked, left)) :
    (∀ node ∈ left, node ∈ l) ∧ ∀ node, picked = some node → node ∈ l := by
  induction l generalizing tickleMe picked left with
  | nil =>
    cases h
    exact ⟨by simp,by simp⟩
  | cons node rest ih =>
    have hlater : ∀ {x : Bool} {y z}, Scheduler.pickLoop thread state rest = .ok (x, y, z) →
        (∀ n ∈ node :: z, n ∈ node :: rest) ∧ ∀ n, y = some n → n ∈ node :: rest := by
      intro x y z hrest
      obtain ⟨hleft,hpicked⟩ := ih hrest
      refine ⟨?_,fun n hn => List.mem_cons_of_mem node (hpicked n hn)⟩
      intro n hn
      rcases List.mem_cons.mp hn with rfl | hn
      · exact List.mem_cons_self
      · exact List.mem_cons_of_mem node (hleft n hn)
    unfold Scheduler.pickLoop at h
    split at h
    · obtain ⟨⟨x,y,z⟩,hrest,h⟩ := exists_of_bind_eq_ok h
      cases h
      exact hlater hrest
    · split at h
      · cases h
      · split at h
        · obtain ⟨⟨x,y,z⟩,hrest,h⟩ := exists_of_bind_eq_ok h
          cases h
          exact hlater hrest
        · cases h
          refine ⟨fun n hn => List.mem_cons_of_mem node hn,?_⟩
          rintro n ⟨⟩
          exact List.mem_cons_self

theorem pickBlock_cases {sched sched' : Scheduler ℕ Cb} {state : ℕ → FiberState}
    {tickleMe : Bool} {picked : Option (TaskNode ℕ Cb)}
    (h : sched.pickBlock w state = .ok (tickleMe, picked, sched')) :
    Scheduler.pickLoop w.thread state sched.tasks = .ok (tickleMe, picked, sched'.tasks) ∧
      sched'.stopping = sched.stopping := by
  obtain ⟨⟨x,y,z⟩,hloop,h⟩ := exists_of_bind_eq_ok h
  cases h
  rw [hloop]
  cases picked <;> exact ⟨rfl,rfl⟩

theorem stepThread_cases {a : Act Cb} (ha : ∀ k, a = .pick k → k = i)
    (h : s.stepThread i a = .ok t) :
    t = s ∨ ∃ p p', Moves s t i p p' ∧ Turn s t i a p p' := by
  unfold stepThread at h
  split at h
  next p w hp hw =>
    unfold threadStep at h
    split at h
    next k =>
      obtain rfl := ha k rfl
      obtain ⟨⟨tickleMe,picked,sched⟩,hblock,h⟩ := exists_of_bind_eq_ok h
      cases h
      obtain ⟨hloop,hstopping⟩ := pickBlock_cases hblock
      obtain ⟨hleft,hmem⟩ := pickLoop_mem hloop
      refine Or.inr ⟨.run,.branching picked,⟨hp,rfl,hleft,hstopping⟩,.pick picked rfl rfl rfl ?_⟩
      intro node f hpicked hf
      subst hpicked
      exact ⟨⟨w,tickleMe,node,_,hp,hw,hloop,hf⟩,hmem node rfl⟩
    · obtain ⟨p',hmoves,hturn⟩ := branch_cases hp h
      exact Or.inr ⟨_,p',hmoves,hturn⟩
    · obtain ⟨c,hc,rfl⟩ := switch_cases h
      exact Or.inr ⟨_,_,⟨hp,rfl,fun _ hnode => hnode,rfl⟩,.load _ c hc rfl rfl⟩
    · obtain ⟨c,state,hc,hstate,rfl⟩ := yield_cases h
      exact Or.inr ⟨_,_,⟨hp,rfl,fun _ hnode => hnode,rfl⟩,.suspend _ c state hc hstate rfl rfl⟩
    · obtain ⟨c,state,hc,hstate,rfl⟩ := mainFuncEnd_cases h
      exact Or.inr ⟨_,_,⟨hp,rfl,fun _ hnode => hnode,rfl⟩,.suspend _ c state hc hstate rfl rfl⟩
    · split at h
      · obtain ⟨c,hc,rfl⟩ := switch_cases h
        exact Or.inr ⟨_,_,⟨hp,rfl,fun _ hnode => hnode,rfl⟩,.save _ c hc rfl rfl⟩
      · cases h
        exact Or.inl rfl
    · cases h
      exact Or.inr ⟨_,_,⟨hp,rfl,fun _ hnode => hnode,rfl⟩,.wake rfl rfl⟩
    · cases h
      exact Or.inl rfl
  · cases h
    exact Or.inl rfl

/-! ## One thread on a stack -/

/-- No thread is concerned with a fiber that the pick block takes. -/
def PicksFree (s : Fibers Cb) (a : Act Cb) : Prop :=
  s.Known a ∧ ∀ i, a = .pick i → ∀ f, s.Picks i f → ∀ j, ¬ s.At Station.occupies j f

/-- A context is loaded only if it was saved. -/
def LoadsSaved (s : Fibers Cb) : Act Cb → Prop
  | .load i => ∀ f c, s.stations[i]? = some (.resuming f) → s.fibers[f]? = some c →
      c.saved = true
  | _ => True

structure Exclusive (s : Fibers Cb) : Prop where
  known : ∀ i f, s.At Station.occupies i f → f < s.fibers.length
  queued : ∀ node ∈ s.sched.tasks, ∀ f, node.task.fiber = some f → f < s.fibers.length
  unique : ∀ i j f, s.At Station.occupies i f → s.At Station.occupies j f → i = j
  unsaved : ∀ f c, s.fibers[f]? = some c → c.saved = false → ∃ i, s.At Station.executes i f
  owner : s.root = some .ready → s.stations[0]? = some .outside

/-- The step of a thread that is inside is not the owner's as long as the owner is outside. -/
theorem owner_move (hp : s.stations[i]? = some p) (hst : t.stations = s.stations.set i p')
    (howner : s.stations[0]? = some .outside) (hin : p ≠ .outside) :
    t.stations[0]? = some .outside := by
  have hi : i ≠ 0 := by
    rintro rfl
    rw [hp] at howner
    exact hin (Option.some.inj howner)
  rw [hst, List.getElem?_set_ne hi]
  exact howner

/-- A thread moves from `p` to `p'`, and the fibers change with it. -/
theorem Exclusive.move (hs : Exclusive s) (hp : s.stations[i]? = some p)
    (hst : t.stations = s.stations.set i p') (hlen : s.fibers.length ≤ t.fibers.length)
    (htasks : ∀ node ∈ t.sched.tasks, node ∈ s.sched.tasks)
    (hroot : t.root = some .ready → s.root = some .ready ∧ p ≠ .outside)
    (hfree : ∀ f, p'.occupies = some f →
      f < t.fibers.length ∧ ∀ j, j ≠ i → ¬ s.At Station.occupies j f)
    (hsaved : ∀ f c, t.fibers[f]? = some c → c.saved = false → p'.executes = some f ∨
      p.executes ≠ some f ∧ ∃ c', s.fibers[f]? = some c' ∧ c'.saved = false) :
    Exclusive t where
  known j f h := by
    rcases h.of_move hst with ⟨-,h⟩ | ⟨-,h⟩
    · exact (hfree f h).1
    · exact (hs.known j f h).trans_le hlen
  queued node hnode f hf := (hs.queued node (htasks node hnode) f hf).trans_le hlen
  unique j k f hj hk := by
    rcases hj.of_move hst with ⟨rfl,hj⟩ | ⟨hji,hj⟩ <;> rcases hk.of_move hst with ⟨rfl,hk⟩ | ⟨hki,hk⟩
    · rfl
    · exact absurd hk ((hfree f hj).2 k hki)
    · exact absurd hj ((hfree f hk).2 j hji)
    · exact hs.unique j k f hj hk
  unsaved f c hc hu := by
    rcases hsaved f c hc hu with h | ⟨hne,c',hc',hu'⟩
    · exact ⟨i,At.move_self hp hst h⟩
    · obtain ⟨j,hj⟩ := hs.unsaved f c' hc' hu'
      have hji : j ≠ i := by
        rintro rfl
        simp only [At, hp, Option.bind_some] at hj
        exact hne hj
      exact ⟨j,hj.move_other hji hst⟩
  owner h := owner_move hp hst (hs.owner (hroot h).1) (hroot h).2

/-- A thread that is concerned with a fiber may stay so. -/
theorem Exclusive.keeps (hs : Exclusive s) (hocc : s.At Station.occupies i f)
    (hlen : t.fibers.length = s.fibers.length) :
    f < t.fibers.length ∧ ∀ j, j ≠ i → ¬ s.At Station.occupies j f := by
  rw [hlen]
  exact ⟨hs.known i f hocc,fun j hji hj => hji (hs.unique j i f hj hocc)⟩

theorem getElem?_set_cases {l : List FiberContext} {k : ℕ} {c c' : FiberContext}
    (h : (l.set f c)[k]? = some c') : (k = f ∧ c' = c) ∨ (k ≠ f ∧ l[k]? = some c') := by
  by_cases hk : k = f
  · subst hk
    obtain ⟨hlt,hget⟩ := List.getElem?_eq_some_iff.mp h
    rw [List.getElem_set_self] at hget
    exact Or.inl ⟨rfl,hget.symm⟩
  · rw [List.getElem?_set_ne (Ne.symm hk)] at h
    exact Or.inr ⟨hk,h⟩

theorem Exclusive.turn (hs : Exclusive s) {a : Act Cb} (hpicks : s.PicksFree a)
    (hm : Moves s t i p p') (ht : Turn s t i a p p') : Exclusive t := by
  cases ht with
  | pick picked ha hfibers hroot hpick =>
    refine hs.move hm.at_eq hm.stations_eq (by rw [hfibers]) hm.tasks_sub (fun h => ⟨hroot ▸ h,nofun⟩)
      ?_ ?_
    · intro f hf
      cases picked with
      | none => cases hf
      | some node =>
        obtain ⟨hp,hnode⟩ := hpick node f rfl hf
        rw [hfibers]
        exact ⟨hs.queued node hnode f hf,fun j _ => hpicks.2 i ha f hp j⟩
    · intro f c hc hu
      rw [hfibers] at hc
      exact Or.inr ⟨nofun,c,hc,hu⟩
  | resume node f c hnode hc hstate hfibers hroot =>
    have hocc : s.At Station.occupies i f := At.intro hm.at_eq hnode
    refine hs.move hm.at_eq hm.stations_eq (by rw [hfibers, List.length_set]) hm.tasks_sub
      (fun h => ⟨hroot ▸ h,nofun⟩) ?_ ?_
    · rintro k ⟨⟩
      exact hs.keeps hocc (by rw [hfibers, List.length_set])
    · intro k c' hc' hu
      rw [hfibers] at hc'
      right
      rcases getElem?_set_cases hc' with ⟨rfl,rfl⟩ | ⟨-,hc'⟩
      · exact ⟨nofun,c,hc,hu⟩
      · exact ⟨nofun,c',hc',hu⟩
  | callback node hnode hfibers hroot =>
    refine hs.move hm.at_eq hm.stations_eq (by simp [hfibers]) hm.tasks_sub (fun h => ⟨hroot ▸ h,nofun⟩) ?_ ?_
    · rintro k ⟨⟩
      refine ⟨by simp [hfibers],?_⟩
      intro j _ hj
      exact Nat.lt_irrefl _ (hs.known j _ hj)
    · intro k c hc hu
      rw [hfibers] at hc
      rcases Nat.lt_or_ge k s.fibers.length with hk | hk
      · rw [List.getElem?_append_left hk] at hc
        exact Or.inr ⟨nofun,c,hc,hu⟩
      · rw [List.getElem?_append_right hk] at hc
        have hnew := List.mem_singleton.mp (List.mem_of_getElem? hc)
        rw [hnew] at hu
        cases hu
  | rest p' hp' hfibers hroot =>
    refine hs.move hm.at_eq hm.stations_eq (by rw [hfibers]) hm.tasks_sub ?_ ?_ ?_
    · intro hready
      rcases hroot with hroot | ⟨-,-,hroot⟩
      · exact ⟨hroot ▸ hready,nofun⟩
      · rw [hroot] at hready
        cases hready
    · intro f hf
      rcases hp' with rfl | rfl | rfl <;> cases hf
    · intro f c hc hu
      rw [hfibers] at hc
      exact Or.inr ⟨nofun,c,hc,hu⟩
  | load f c hc hfibers hroot =>
    have hocc : s.At Station.occupies i f := At.intro hm.at_eq rfl
    refine hs.move hm.at_eq hm.stations_eq (by rw [hfibers, List.length_set]) hm.tasks_sub
      (fun h => ⟨hroot ▸ h,nofun⟩) ?_ ?_
    · rintro k ⟨⟩
      exact hs.keeps hocc (by rw [hfibers, List.length_set])
    · intro k c' hc' hu
      rw [hfibers] at hc'
      rcases getElem?_set_cases hc' with ⟨rfl,-⟩ | ⟨-,hc'⟩
      · exact Or.inl rfl
      · exact Or.inr ⟨nofun,c',hc',hu⟩
  | suspend f c state hc hstate hfibers hroot =>
    have hocc : s.At Station.occupies i f := At.intro hm.at_eq rfl
    refine hs.move hm.at_eq hm.stations_eq (by rw [hfibers, List.length_set]) hm.tasks_sub
      (fun h => ⟨hroot ▸ h,nofun⟩) ?_ ?_
    · rintro k ⟨⟩
      exact hs.keeps hocc (by rw [hfibers, List.length_set])
    · intro k c' hc' hu
      rw [hfibers] at hc'
      rcases getElem?_set_cases hc' with ⟨rfl,-⟩ | ⟨hk,hc'⟩
      · exact Or.inl rfl
      · exact Or.inr ⟨fun hf => hk (Option.some.inj hf).symm,c',hc',hu⟩
  | save f c hc hfibers hroot =>
    refine hs.move hm.at_eq hm.stations_eq (by rw [hfibers, List.length_set]) hm.tasks_sub
      (fun h => ⟨hroot ▸ h,nofun⟩) nofun ?_
    intro k c' hc' hu
    rw [hfibers] at hc'
    rcases getElem?_set_cases hc' with ⟨rfl,rfl⟩ | ⟨hk,hc'⟩
    · cases hu
    · exact Or.inr ⟨fun hf => hk (Option.some.inj hf).symm,c',hc',hu⟩
  | wake hfibers hroot =>
    refine hs.move hm.at_eq hm.stations_eq (by rw [hfibers]) hm.tasks_sub (fun h => ⟨hroot ▸ h,nofun⟩)
      nofun ?_
    intro f c hc hu
    rw [hfibers] at hc
    exact Or.inr ⟨nofun,c,hc,hu⟩

theorem scheduleNoLock_mem {sched : Scheduler ℕ Cb} {fc : FiberOrCb ℕ Cb} {thread : ℤ}
    {node : TaskNode ℕ Cb} (h : node ∈ (sched.scheduleNoLock fc thread).2.tasks) :
    node ∈ sched.tasks ∨ ∀ f, node.task.fiber = some f → fc = .fiber (some f) := by
  simp only [Scheduler.scheduleNoLock] at h
  split at h
  · exact Or.inl h
  · rcases List.mem_append.mp h with h | h
    · exact Or.inl h
    · right
      rw [List.mem_singleton.mp h]
      intro f hf
      cases fc with
      | fiber g => exact congrArg FiberOrCb.fiber hf
      | callback c => cases hf

theorem scheduleNoLock_stopping (sched : Scheduler ℕ Cb) (fc : FiberOrCb ℕ Cb) (thread : ℤ) :
    (sched.scheduleNoLock fc thread).2.stopping = sched.stopping := by
  simp only [Scheduler.scheduleNoLock]
  split <;> rfl

theorem scheduleRange_mem {fcs : List (FiberOrCb ℕ Cb)} {sched : Scheduler ℕ Cb}
    {node : TaskNode ℕ Cb} (h : node ∈ (sched.scheduleRange fcs).2.tasks) :
    node ∈ sched.tasks ∨ ∀ f, node.task.fiber = some f → .fiber (some f) ∈ fcs := by
  induction fcs generalizing sched with
  | nil => exact Or.inl h
  | cons fc fcs ih =>
    rcases ih h with h | h
    · rcases scheduleNoLock_mem h with h | h
      · exact Or.inl h
      · exact Or.inr fun f hf => h f hf ▸ List.mem_cons_self
    · exact Or.inr fun f hf => List.mem_cons_of_mem fc (h f hf)

theorem scheduleRange_stopping (fcs : List (FiberOrCb ℕ Cb)) (sched : Scheduler ℕ Cb) :
    (sched.scheduleRange fcs).2.stopping = sched.stopping := by
  induction fcs generalizing sched with
  | nil => rfl
  | cons fc fcs ih => exact (ih _).trans (scheduleNoLock_stopping sched fc (-1))

theorem Exclusive.queue (hs : Exclusive s) {sched : Scheduler ℕ Cb}
    (htasks : ∀ node ∈ sched.tasks, ∀ f, node.task.fiber = some f → f < s.fibers.length) :
    Exclusive { s with sched := sched } :=
  ⟨hs.known,htasks,hs.unique,hs.unsaved,hs.owner⟩

/-- The ways in which an action returns. -/
inductive Effect (s t : Fibers Cb) (a : Act Cb) : Prop
  | nothing (h : t = s)
  | turn (i : ℕ) (p p' : Station Cb) (hm : Moves s t i p p') (ht : Turn s t i a p p')
  | newFiber (h : t = s.newFiber.2)
  | schedule (fc : FiberOrCb ℕ Cb) (thread : ℤ) (ha : a = .schedule fc thread)
      (h : t = { s with sched := (s.sched.scheduleNoLock fc thread).2 })
  | scheduleRange (fcs : List (FiberOrCb ℕ Cb)) (ha : a = .scheduleRange fcs)
      (h : t = { s with sched := (s.sched.scheduleRange fcs).2 })
  | stopped (hroot : s.root = none)
      (h : t = { s with sched := { s.sched with stopping := true } })
  | resumed (hroot : s.root = some .ready)
      (h : t = setStation 0 .run
        { s with sched := { s.sched with stopping := true }, root := some .running })
  | joined (hat : s.stations[0]? = some .joining) (h : t = s.setStation 0 .outside)

theorem stop_effect {a : Act Cb} (h : s.stop = .ok t) : Effect s t a := by
  unfold stop at h
  split at h
  · cases h
    exact .nothing rfl
  · dsimp only at h
    split at h
    next hroot =>
      cases h
      exact .stopped hroot rfl
    next state hroot =>
      split at h
      next hstate =>
        have hready : state = .ready := by cases state <;> simp at hstate ⊢
        cases h
        exact .resumed (hready ▸ hroot) rfl
      · cases h

theorem join_effect {a : Act Cb} : Effect s s.join a := by
  unfold join
  split
  next others hst =>
    split
    · exact .joined (by rw [hst]; rfl) rfl
    · exact .nothing rfl
  · exact .nothing rfl

theorem step_effect {a : Act Cb} {o : Unit} (h : s.step a = .ok (o, t)) : Effect s t a := by
  obtain ⟨t',h,ht⟩ := exists_of_bind_eq_ok h
  cases ht
  have hthread : ∀ i, (∀ k, a = .pick k → k = i) → s.stepThread i a = .ok t → Effect s t a := by
    intro i hi hstep
    rcases stepThread_cases hi hstep with rfl | ⟨p,p',hm,ht⟩
    · exact .nothing rfl
    · exact .turn i p p' hm ht
  cases a with
  | newFiber =>
    cases h
    exact .newFiber rfl
  | schedule fc thread =>
    cases h
    exact .schedule fc thread rfl rfl
  | scheduleRange fcs =>
    cases h
    exact .scheduleRange fcs rfl rfl
  | stop =>
    simp only [act] at h
    split at h
    · exact stop_effect h
    · cases h
      exact .nothing rfl
  | join =>
    cases h
    exact join_effect
  | pick i => exact hthread i (fun k hk => (Act.pick.inj hk).symm) h
  | branch i => exact hthread i nofun h
  | load i => exact hthread i nofun h
  | yield i => exact hthread i nofun h
  | mainFuncEnd i => exact hthread i nofun h
  | save i => exact hthread i nofun h
  | idleReturn i => exact hthread i nofun h

theorem step_exclusive {a : Act Cb} {o : Unit} (hs : Exclusive s) (hpicks : s.PicksFree a)
    (h : s.step a = .ok (o, t)) : Exclusive t := by
  cases step_effect h with
  | nothing ht =>
    subst ht
    exact hs
  | turn i p p' hm ht => exact hs.turn hpicks hm ht
  | newFiber ht =>
    subst ht
    refine ⟨?_,?_,hs.unique,?_,hs.owner⟩
    · intro i f hf
      have := hs.known i f hf
      simp only [newFiber, List.length_append, List.length_singleton]
      omega
    · intro node hnode f hf
      have := hs.queued node hnode f hf
      simp only [newFiber, List.length_append, List.length_singleton]
      omega
    · intro f c hc hu
      rcases Nat.lt_or_ge f s.fibers.length with hf | hf
      · rw [newFiber, List.getElem?_append_left hf] at hc
        exact hs.unsaved f c hc hu
      · rw [newFiber, List.getElem?_append_right hf] at hc
        rw [List.mem_singleton.mp (List.mem_of_getElem? hc)] at hu
        cases hu
  | schedule fc thread ha ht =>
    subst ha ht
    apply hs.queue
    intro node hnode f hf
    rcases scheduleNoLock_mem hnode with hnode | hnew
    · exact hs.queued node hnode f hf
    · exact hpicks.1 f (hnew f hf)
  | scheduleRange fcs ha ht =>
    subst ha ht
    apply hs.queue
    intro node hnode f hf
    rcases scheduleRange_mem hnode with hnode | hnew
    · exact hs.queued node hnode f hf
    · exact hpicks.1 f (hnew f hf)
  | stopped hroot ht =>
    subst ht
    exact hs.queue hs.queued
  | resumed hroot ht =>
    subst ht
    refine hs.move (hs.owner hroot) rfl le_rfl (fun _ hnode => hnode) nofun nofun ?_
    intro f c hc hu
    exact Or.inr ⟨nofun,c,hc,hu⟩
  | joined hat ht =>
    subst ht
    refine hs.move hat rfl le_rfl (fun _ hnode => hnode) (fun h => ⟨h,nofun⟩) nofun ?_
    intro f c hc hu
    exact Or.inr ⟨nofun,c,hc,hu⟩

theorem start_station {threads : Threads} {useCaller : Bool}
    (hp : (start threads useCaller : Fibers Cb).stations[i]? = some p) :
    p = .outside ∨ p = .run := by
  have hmem := List.mem_of_getElem? hp
  simp only [start] at hmem
  split at hmem
  · rcases List.mem_cons.mp hmem with h | h
    · exact Or.inl h
    · exact Or.inr (List.eq_of_mem_replicate h)
  · exact Or.inr (List.eq_of_mem_replicate hmem)

theorem start_not_at {threads : Threads} {useCaller : Bool} (hout : g .outside = none)
    (hrun : g .run = none) : ¬ (start threads useCaller : Fibers Cb).At g i f := by
  intro h
  obtain ⟨p,hp,hg⟩ := Option.bind_eq_some_iff.mp h
  rcases start_station hp with rfl | rfl
  · rw [hout] at hg
    cases hg
  · rw [hrun] at hg
    cases hg

theorem start_owner {threads : Threads} {useCaller : Bool}
    (h : (start threads useCaller : Fibers Cb).root = some .ready) :
    (start threads useCaller : Fibers Cb).stations[0]? = some .outside := by
  cases useCaller with
  | true => rfl
  | false => cases h

theorem start_exclusive (threads : Threads) (useCaller : Bool) :
    Exclusive (start threads useCaller : Fibers Cb) where
  known i f h := absurd h (start_not_at rfl rfl)
  queued node hnode := by cases hnode
  unique i j f h := absurd h (start_not_at rfl rfl)
  unsaved f c hc := by simp [start] at hc
  owner := start_owner

theorem At.occupies (h : s.At Station.executes i f) : s.At Station.occupies i f := by
  obtain ⟨p,hp,hf⟩ := Option.bind_eq_some_iff.mp h
  apply At.intro hp
  cases p with
  | onFiber k => exact hf
  | leaving k => exact hf
  | _ => cases hf

theorem Exclusive.loadsSaved (hs : Exclusive s) (a : Act Cb) : s.LoadsSaved a := by
  cases a with
  | load i =>
    intro f c hp hc
    by_contra hu
    obtain ⟨j,hj⟩ := hs.unsaved f c hc (Bool.not_eq_true _ ▸ hu)
    have hij : j = i := hs.unique j i f hj.occupies (At.intro hp rfl)
    subst hij
    simp only [At, hp, Option.bind_some] at hj
    cases hj
  | _ => trivial

/-- For every number of threads and every interleaving in which no thread is concerned with
a fiber that the pick block takes: a context is loaded only when it has been saved, and no
two threads are ever on the stack of one fiber. -/
theorem one_thread_per_fiber (threads : Threads) (useCaller : Bool) (acts : List (Act Cb))
    (h : Along step PicksFree acts (start threads useCaller)) :
    Along step LoadsSaved acts (start threads useCaller) ∧
      ∀ os t, run step acts (start threads useCaller) = .ok (os, t) →
        ∀ i j f, t.At Station.executes i f → t.At Station.executes j f → i = j := by
  have hstart : Exclusive (start threads useCaller : Fibers Cb) := start_exclusive threads useCaller
  constructor
  · exact Along.imp Exclusive (fun _ _ _ _ hs hp hstep => step_exclusive hs hp hstep)
      (fun _ a hs _ => hs.loadsSaved a) hstart h
  · intro os t hrun i j f hi hj
    have ht := Along.ends Exclusive (fun _ _ _ _ hs hp hstep => step_exclusive hs hp hstep)
      hstart h hrun
    exact ht.unique i j f hi.occupies hj.occupies

/-- Two threads with the ids 1 and 2. -/
def twoThreads : Threads := ⟨[1, 2],by decide⟩

theorem not_at_of_all (h : ∀ p ∈ s.stations, g p ≠ some f) : ¬ s.At g j f := by
  intro hat
  obtain ⟨p,hp,hf⟩ := Option.bind_eq_some_iff.mp hat
  exact h p (List.mem_of_getElem? hp) hf

theorem picksFree_of_pick (h : ∀ f, s.Picks i f → ∀ p ∈ s.stations, p.occupies ≠ some f) :
    s.PicksFree (.pick i) := by
  refine ⟨trivial,?_⟩
  rintro k ⟨⟩ f hf j
  exact not_at_of_all (h f hf)

/-- The fiber leaves the first thread before the second one takes it. -/
theorem one_thread_per_fiber_two :
    Along step PicksFree [.newFiber, .schedule (.fiber (some 0)) (-1), .pick 0, .branch 0, .load 0,
        .schedule (.fiber (some 0)) (-1), .yield 0, .save 0, .pick 1, .branch 1, .load 1]
        (start twoThreads false : Fibers Unit) ∧
      Along step LoadsSaved [.newFiber, .schedule (.fiber (some 0)) (-1), .pick 0, .branch 0,
        .load 0, .schedule (.fiber (some 0)) (-1), .yield 0, .save 0, .pick 1, .branch 1, .load 1]
        (start twoThreads false : Fibers Unit) := by
  have hfree : Along step PicksFree [.newFiber, .schedule (.fiber (some 0)) (-1), .pick 0,
      .branch 0, .load 0, .schedule (.fiber (some 0)) (-1), .yield 0, .save 0, .pick 1, .branch 1,
      .load 1] (start twoThreads false : Fibers Unit) := by
    refine Along.cons ⟨trivial,nofun⟩ rfl (Along.cons ⟨?_,nofun⟩ rfl (Along.cons
      (picksFree_of_pick ?_) rfl (Along.cons ⟨trivial,nofun⟩ rfl (Along.cons ⟨trivial,nofun⟩ rfl
      (Along.cons ⟨?_,nofun⟩ rfl (Along.cons ⟨trivial,nofun⟩ rfl (Along.cons ⟨trivial,nofun⟩ rfl
      (Along.cons (picksFree_of_pick ?_) rfl (Along.cons ⟨trivial,nofun⟩ rfl (Along.cons
      ⟨trivial,nofun⟩ rfl trivial))))))))))
    · rintro f ⟨⟩
      decide
    · rintro f ⟨w,tickleMe,node,left,-,⟨⟩,⟨⟩,⟨⟩⟩
      decide
    · rintro f ⟨⟩
      decide
    · rintro f ⟨w,tickleMe,node,left,-,⟨⟩,⟨⟩,⟨⟩⟩
      decide
  exact ⟨hfree,(one_thread_per_fiber twoThreads false _ hfree).1⟩

/-- The first thread runs a fiber that puts itself back into the list and yields; the
second thread takes it before the first has left its stack. -/
theorem unsaved_context_loaded :
    ¬ Along step LoadsSaved [.newFiber, .schedule (.fiber (some 0)) (-1), .pick 0, .branch 0,
        .load 0, .schedule (.fiber (some 0)) (-1), .yield 0, .pick 1, .branch 1, .load 1]
        (start twoThreads false : Fibers Unit) := by
  intro h
  have hload := ((((((((((h.2 _ _ rfl).2 _ _ rfl).2 _ _ rfl).2 _ _ rfl).2 _ _ rfl).2 _ _ rfl).2
    _ _ rfl).2 _ _ rfl).2 _ _ rfl).1 0 _ rfl rfl)
  cases hload

end Fibers

end Gudov
