import Gudov.FiberSafety

/-!
# No finished fiber is resumed

`Resume` asserts that its fiber has neither ended nor is running. Between the pick block
and `Resume` nobody else may take the fiber, and the fiber must not have ended when it is
taken: the pick block looks for `Running` only. The root fiber ends with the first `Stop`
and is not made again.
-/
namespace Gudov.Fibers
open StepSystem
variable {Cb : Type} {s t : Fibers Cb} {i j f : ℕ} {p p' : Station Cb}

/-- `Resume` is called on a fiber that is `Ready`: by `Run` on the fiber of a task, by `Stop`
on the root fiber. The new fiber of a callback always is. Its assertion holds. -/
def ResumesReady (s : Fibers Cb) (a : Act Cb) : Prop :=
  match a with
  | .branch i => (∀ f, s.At Station.taken i f → ∃ c, s.fibers[f]? = some c ∧ c.state = .ready) ∧
      s.act a ≠ .error .assertion
  | .stop => (s.canStop = true → s.sched.isStopping = false →
      ∀ state, s.root = some state → state = .ready) ∧ s.act a ≠ .error .assertion
  | _ => True

/-- The pick block takes a fiber that has not ended and that no other thread has taken, and
`Stop` is not called again while there is work left. -/
structure PicksReady (s : Fibers Cb) (a : Act Cb) : Prop where
  known : s.Known a
  picks : ∀ i, a = .pick i → ∀ f, s.Picks i f →
    s.getState f = .ready ∧ ∀ j, ¬ s.At Station.taken j f
  stops : a = .stop → s.root ≠ none → s.sched.stopping = false ∨ s.sched.isStopping = true

structure Resumable (s : Fibers Cb) : Prop where
  queued : ∀ node ∈ s.sched.tasks, ∀ f, node.task.fiber = some f → f < s.fibers.length
  taken_state : ∀ i f, s.At Station.taken i f → ∃ c, s.fibers[f]? = some c ∧ c.state = .ready
  taken_once : ∀ i j f, s.At Station.taken i f → s.At Station.taken j f → i = j
  runs_state : ∀ i f, s.At Station.runs i f → ∃ c, s.fibers[f]? = some c ∧ c.state = .running
  runs_once : ∀ i j f, s.At Station.runs i f → s.At Station.runs j f → i = j
  owner : s.root = some .ready → s.stations[0]? = some .outside
  stopped : s.sched.stopping = false → ∀ state, s.root = some state → state = .ready

/-- A thread moves from `p` to `p'`. The fibers that other threads are concerned with keep
their states. -/
theorem Resumable.move (hs : Resumable s) (hp : s.stations[i]? = some p)
    (hst : t.stations = s.stations.set i p') (hlen : s.fibers.length ≤ t.fibers.length)
    (htasks : ∀ node ∈ t.sched.tasks, node ∈ s.sched.tasks)
    (hroot : t.root = some .ready → s.root = some .ready ∧ p ≠ .outside)
    (hstopped : t.sched.stopping = false → ∀ state, t.root = some state → state = .ready)
    (htaken : ∀ f, p'.taken = some f → (∃ c, t.fibers[f]? = some c ∧ c.state = .ready) ∧
      ∀ j, j ≠ i → ¬ s.At Station.taken j f)
    (hruns : ∀ f, p'.runs = some f → (∃ c, t.fibers[f]? = some c ∧ c.state = .running) ∧
      ∀ j, j ≠ i → ¬ s.At Station.runs j f)
    (hothers : ∀ j f c, j ≠ i → s.At Station.taken j f ∨ s.At Station.runs j f →
      s.fibers[f]? = some c → ∃ c', t.fibers[f]? = some c' ∧ c'.state = c.state) :
    Resumable t where
  queued node hnode f hf := (hs.queued node (htasks node hnode) f hf).trans_le hlen
  taken_state j f h := by
    rcases h.of_move hst with ⟨-,h⟩ | ⟨hji,h⟩
    · exact (htaken f h).1
    · obtain ⟨c,hc,hready⟩ := hs.taken_state j f h
      obtain ⟨c',hc',heq⟩ := hothers j f c hji (Or.inl h) hc
      exact ⟨c',hc',heq.trans hready⟩
  taken_once j k f hj hk := by
    rcases hj.of_move hst with ⟨rfl,hj⟩ | ⟨hji,hj⟩ <;> rcases hk.of_move hst with ⟨rfl,hk⟩ | ⟨hki,hk⟩
    · rfl
    · exact absurd hk ((htaken f hj).2 k hki)
    · exact absurd hj ((htaken f hk).2 j hji)
    · exact hs.taken_once j k f hj hk
  runs_state j f h := by
    rcases h.of_move hst with ⟨-,h⟩ | ⟨hji,h⟩
    · exact (hruns f h).1
    · obtain ⟨c,hc,hrunning⟩ := hs.runs_state j f h
      obtain ⟨c',hc',heq⟩ := hothers j f c hji (Or.inr h) hc
      exact ⟨c',hc',heq.trans hrunning⟩
  runs_once j k f hj hk := by
    rcases hj.of_move hst with ⟨rfl,hj⟩ | ⟨hji,hj⟩ <;> rcases hk.of_move hst with ⟨rfl,hk⟩ | ⟨hki,hk⟩
    · rfl
    · exact absurd hk ((hruns f hj).2 k hki)
    · exact absurd hj ((hruns f hk).2 j hji)
    · exact hs.runs_once j k f hj hk
  owner h := owner_move hp hst (hs.owner (hroot h).1) (hroot h).2
  stopped := hstopped

/-- A fiber keeps its state when another one, or something else of it, is written. -/
theorem state_of_set {k : ℕ} {c c' d : FiberContext} (hc : s.fibers[f]? = some c)
    (hfibers : t.fibers = s.fibers.set f c') (hk : s.fibers[k]? = some d)
    (h : k = f → c'.state = c.state) : ∃ d', t.fibers[k]? = some d' ∧ d'.state = d.state := by
  rw [hfibers]
  by_cases hkf : k = f
  · subst hkf
    rw [hc] at hk
    cases hk
    have hlt := (List.getElem?_eq_some_iff.mp hc).1
    exact ⟨c',List.getElem?_set_self hlt,h rfl⟩
  · rw [List.getElem?_set_ne (Ne.symm hkf)]
    exact ⟨d,hk,rfl⟩

theorem Resumable.not_taken_of_runs (hs : Resumable s) (hr : s.At Station.runs i f) :
    ¬ s.At Station.taken j f := by
  intro ht
  obtain ⟨c,hc,hrunning⟩ := hs.runs_state i f hr
  obtain ⟨c',hc',hready⟩ := hs.taken_state j f ht
  rw [hc] at hc'
  cases hc'
  rw [hrunning] at hready
  cases hready

theorem Resumable.turn (hs : Resumable s) {a : Act Cb} (hpicks : s.PicksReady a)
    (hm : Moves s t i p p') (ht : Turn s t i a p p') : Resumable t := by
  -- the root fiber is what it was, except at the end of its own `Run`
  have hstopped : t.root = s.root → t.sched.stopping = false →
      ∀ state, t.root = some state → state = .ready := by
    intro hroot hstopping
    rw [hroot]
    exact hs.stopped (hm.stopping_eq ▸ hstopping)
  have hsame : t.fibers = s.fibers → ∀ j f c, j ≠ i → s.At Station.taken j f ∨ s.At Station.runs j f →
      s.fibers[f]? = some c → ∃ c', t.fibers[f]? = some c' ∧ c'.state = c.state := by
    intro hfibers j f c _ _ hc
    exact ⟨c,hfibers ▸ hc,rfl⟩
  cases ht with
  | pick picked ha hfibers hroot hpick =>
    refine hs.move hm.at_eq hm.stations_eq (by rw [hfibers]) hm.tasks_sub (fun h => ⟨hroot ▸ h,nofun⟩)
      (hstopped hroot) ?_ nofun (hsame hfibers)
    intro f hf
    cases picked with
    | none => cases hf
    | some node =>
      obtain ⟨hp,hnode⟩ := hpick node f rfl hf
      obtain ⟨hready,hfree⟩ := hpicks.picks i ha f hp
      have hlt := hs.queued node hnode f hf
      have hget := List.getElem?_eq_getElem hlt
      rw [getState, hget] at hready
      rw [hfibers]
      exact ⟨⟨_,hget,hready⟩,fun j _ => hfree j⟩
  | resume node f c hnode hc hstate hfibers hroot =>
    have htaken : s.At Station.taken i f := At.intro hm.at_eq hnode
    have hlt := (List.getElem?_eq_some_iff.mp hc).1
    have hnot : ∀ j, ¬ s.At Station.runs j f := fun j hj => hs.not_taken_of_runs hj htaken
    refine hs.move hm.at_eq hm.stations_eq (by rw [hfibers, List.length_set]) hm.tasks_sub
      (fun h => ⟨hroot ▸ h,nofun⟩) (hstopped hroot) nofun ?_ ?_
    · rintro k ⟨⟩
      rw [hfibers, List.getElem?_set_self hlt]
      exact ⟨⟨_,rfl,rfl⟩,fun j _ => hnot j⟩
    · intro j k d hji hat hk
      apply state_of_set hc hfibers hk
      rintro rfl
      rcases hat with hat | hat
      · exact absurd (hs.taken_once j i k hat htaken) hji
      · exact absurd hat (hnot j)
  | callback node hnode hfibers hroot =>
    refine hs.move hm.at_eq hm.stations_eq (by simp [hfibers]) hm.tasks_sub
      (fun h => ⟨hroot ▸ h,nofun⟩) (hstopped hroot) nofun ?_ ?_
    · rintro k ⟨⟩
      refine ⟨⟨_,by rw [hfibers, List.getElem?_concat_length],rfl⟩,?_⟩
      intro j _ hj
      obtain ⟨c,hc,-⟩ := hs.runs_state j _ hj
      exact Nat.lt_irrefl _ (List.getElem?_eq_some_iff.mp hc).1
    · intro j k d _ _ hk
      have hlt := (List.getElem?_eq_some_iff.mp hk).1
      rw [hfibers, List.getElem?_append_left hlt]
      exact ⟨d,hk,rfl⟩
  | rest p' hp' hfibers hroot =>
    have htaken : p'.taken = none := by rcases hp' with rfl | rfl | rfl <;> rfl
    have hruns : p'.runs = none := by rcases hp' with rfl | rfl | rfl <;> rfl
    have hmoved : (t.root = some .ready →
          s.root = some .ready ∧ (.branching none : Station Cb) ≠ .outside) ∧
        (t.sched.stopping = false → ∀ state, t.root = some state → state = .ready) := by
      rcases hroot with hroot | ⟨rfl,hsome,hroot⟩
      · exact ⟨fun h => ⟨hroot ▸ h,nofun⟩,hstopped hroot⟩
      · constructor
        · intro hready
          rw [hroot] at hready
          cases hready
        -- the first thread is inside `Run`, so `Stop` has been called
        intro hstopping
        obtain ⟨state,hstate⟩ := Option.ne_none_iff_exists'.mp hsome
        have hready := hs.stopped (hm.stopping_eq ▸ hstopping) state hstate
        have hout := hs.owner (hready ▸ hstate)
        rw [hm.at_eq] at hout
        cases hout
    refine hs.move hm.at_eq hm.stations_eq (by rw [hfibers]) hm.tasks_sub hmoved.1 hmoved.2 ?_ ?_
      (hsame hfibers)
    · rw [htaken]
      nofun
    · rw [hruns]
      nofun
  | load f c hc hfibers hroot =>
    have hruns : s.At Station.runs i f := At.intro hm.at_eq rfl
    have hkeep : ∀ k (d : FiberContext), s.fibers[k]? = some d →
        ∃ d' : FiberContext, t.fibers[k]? = some d' ∧ d'.state = d.state :=
      fun k d hk => state_of_set hc hfibers hk fun _ => rfl
    refine hs.move hm.at_eq hm.stations_eq (by rw [hfibers, List.length_set]) hm.tasks_sub
      (fun h => ⟨hroot ▸ h,nofun⟩) (hstopped hroot) nofun ?_ (fun _ k d _ _ hk => hkeep k d hk)
    rintro k ⟨⟩
    obtain ⟨d,hd,hrunning⟩ := hs.runs_state i f hruns
    obtain ⟨d',hd',heq⟩ := hkeep f d hd
    exact ⟨⟨d',hd',heq.trans hrunning⟩,fun j hji hj => hji (hs.runs_once j i f hj hruns)⟩
  | suspend f c state hc hstate hfibers hroot =>
    have hruns : s.At Station.runs i f := At.intro hm.at_eq rfl
    refine hs.move hm.at_eq hm.stations_eq (by rw [hfibers, List.length_set]) hm.tasks_sub
      (fun h => ⟨hroot ▸ h,nofun⟩) (hstopped hroot) nofun nofun ?_
    intro j k d hji hat hk
    apply state_of_set hc hfibers hk
    rintro rfl
    rcases hat with hat | hat
    · exact absurd hat (hs.not_taken_of_runs hruns)
    · exact absurd (hs.runs_once j i k hat hruns) hji
  | save f c hc hfibers hroot =>
    refine hs.move hm.at_eq hm.stations_eq (by rw [hfibers, List.length_set]) hm.tasks_sub
      (fun h => ⟨hroot ▸ h,nofun⟩) (hstopped hroot) nofun nofun ?_
    intro j k d _ _ hk
    exact state_of_set hc hfibers hk fun _ => rfl
  | wake hfibers hroot =>
    exact hs.move hm.at_eq hm.stations_eq (by rw [hfibers]) hm.tasks_sub (fun h => ⟨hroot ▸ h,nofun⟩)
      (hstopped hroot) nofun nofun (hsame hfibers)

theorem Resumable.queue (hs : Resumable s) {sched : Scheduler ℕ Cb}
    (htasks : ∀ node ∈ sched.tasks, ∀ f, node.task.fiber = some f → f < s.fibers.length)
    (hstopped : sched.stopping = false → ∀ state, s.root = some state → state = .ready) :
    Resumable { s with sched := sched } :=
  ⟨htasks,hs.taken_state,hs.taken_once,hs.runs_state,hs.runs_once,hs.owner,hstopped⟩

theorem step_resumable {a : Act Cb} {o : Unit} (hs : Resumable s) (hpicks : s.PicksReady a)
    (h : s.step a = .ok (o, t)) : Resumable t := by
  cases step_effect h with
  | nothing ht =>
    subst ht
    exact hs
  | turn i p p' hm ht => exact hs.turn hpicks hm ht
  | newFiber ht =>
    subst ht
    have hkeep : ∀ (f : ℕ) c, s.fibers[f]? = some c → s.newFiber.2.fibers[f]? = some c := by
      intro f c hc
      rw [newFiber, List.getElem?_append_left (List.getElem?_eq_some_iff.mp hc).1]
      exact hc
    refine ⟨?_,?_,hs.taken_once,?_,hs.runs_once,hs.owner,hs.stopped⟩
    · intro node hnode f hf
      have := hs.queued node hnode f hf
      simp only [newFiber, List.length_append, List.length_singleton]
      omega
    · intro i f hf
      obtain ⟨c,hc,hready⟩ := hs.taken_state i f hf
      exact ⟨c,hkeep f c hc,hready⟩
    · intro i f hf
      obtain ⟨c,hc,hrunning⟩ := hs.runs_state i f hf
      exact ⟨c,hkeep f c hc,hrunning⟩
  | schedule fc thread ha ht =>
    subst ha ht
    apply hs.queue
    · intro node hnode f hf
      rcases scheduleNoLock_mem hnode with hnode | hnew
      · exact hs.queued node hnode f hf
      · exact hpicks.known f (hnew f hf)
    · rw [scheduleNoLock_stopping]
      exact hs.stopped
  | scheduleRange fcs ha ht =>
    subst ha ht
    apply hs.queue
    · intro node hnode f hf
      rcases scheduleRange_mem hnode with hnode | hnew
      · exact hs.queued node hnode f hf
      · exact hpicks.known f (hnew f hf)
    · rw [scheduleRange_stopping]
      exact hs.stopped
  | stopped hroot ht =>
    subst ht
    refine hs.queue hs.queued ?_
    intro hstopping
    cases hstopping
  | resumed hroot ht =>
    subst ht
    refine hs.move (hs.owner hroot) rfl le_rfl (fun _ hnode => hnode) ?_ ?_ ?_ ?_
      (fun _ _ c _ _ hc => ⟨c,hc,rfl⟩)
    · intro hready
      cases hready
    · intro hstopping
      cases hstopping
    · intro f hf
      cases hf
    · intro f hf
      cases hf
  | joined hat ht =>
    subst ht
    refine hs.move hat rfl le_rfl (fun _ hnode => hnode) ?_ hs.stopped ?_ ?_
      (fun _ _ c _ _ hc => ⟨c,hc,rfl⟩)
    · intro hready
      exact ⟨hready,by simp⟩
    · intro f hf
      cases hf
    · intro f hf
      cases hf

theorem start_resumable (threads : Threads) (useCaller : Bool) :
    Resumable (start threads useCaller : Fibers Cb) where
  queued node hnode := by cases hnode
  taken_state i f h := absurd h (start_not_at rfl rfl)
  taken_once i j f h := absurd h (start_not_at rfl rfl)
  runs_state i f h := absurd h (start_not_at rfl rfl)
  runs_once i j f h := absurd h (start_not_at rfl rfl)
  owner := start_owner
  stopped _ state h := by
    cases useCaller with
    | true => exact (Option.some.inj h).symm
    | false => cases h

/-! ## The assertion of `Resume` -/

theorem resume_ne_assertion (h : ∀ c, s.fibers[f]? = some c → c.state = .ready) :
    s.resume i f ≠ .error .assertion := by
  unfold resume
  split
  · nofun
  next c hc =>
    rw [if_pos (by simp [h c hc])]
    nofun

theorem branch_ne_assertion {w : Worker ℕ Cb} {picked : Option (TaskNode ℕ Cb)}
    (h : ∀ f c, (Station.branching picked).taken = some f → s.fibers[f]? = some c → c.state = .ready) :
    s.branch i w picked ≠ .error .assertion := by
  cases picked with
  | none =>
    simp only [branch]
    intro hbranch
    split at hbranch
    · split at hbranch <;> cases hbranch
    · cases hbranch
  | some node =>
    simp only [branch]
    split
    next f hf => exact resume_ne_assertion fun c hc => h f c hf hc
    next hnone =>
      apply resume_ne_assertion
      intro c hc
      simp only [newFiber, List.getElem?_concat_length, Option.some.injEq] at hc
      rw [← hc]

theorem stepThread_branch_ne_assertion
    (h : ∀ f, s.At Station.taken i f → ∃ c, s.fibers[f]? = some c ∧ c.state = .ready) :
    s.stepThread i (.branch i) ≠ .error .assertion := by
  unfold stepThread
  split
  next p w hp hw =>
    cases p with
    | branching picked =>
      apply branch_ne_assertion
      intro f c hf hc
      obtain ⟨c',hc',hready⟩ := h f (At.intro hp hf)
      rw [hc] at hc'
      cases hc'
      exact hready
    | _ => nofun
  · nofun

theorem stop_ne_assertion
    (h : s.sched.isStopping = false → ∀ state, s.root = some state → state = .ready) :
    s.stop ≠ .error .assertion := by
  unfold stop
  split
  · nofun
  next hstopping =>
    dsimp only
    split
    · nofun
    next state hroot =>
      have hready := h (Bool.not_eq_true _ ▸ hstopping) state hroot
      rw [if_pos (by simp [hready])]
      nofun

theorem Resumable.resumesReady (hs : Resumable s) {a : Act Cb} (hpicks : s.PicksReady a) :
    s.ResumesReady a := by
  cases a with
  | branch i =>
    have htaken : ∀ f, s.At Station.taken i f → ∃ c, s.fibers[f]? = some c ∧ c.state = .ready :=
      fun f hf => hs.taken_state i f hf
    exact ⟨htaken,stepThread_branch_ne_assertion htaken⟩
  | stop =>
    have hroot : s.sched.isStopping = false → ∀ state, s.root = some state → state = .ready := by
      intro hnot state hstate
      rcases hpicks.stops rfl (by simp [hstate]) with hfirst | hdone
      · exact hs.stopped hfirst state hstate
      · rw [hnot] at hdone
        cases hdone
    refine ⟨fun _ => hroot,?_⟩
    simp only [act]
    intro hstop
    split at hstop
    · exact stop_ne_assertion hroot hstop
    · cases hstop
  | _ => trivial

/-- For every sequence of calls and every interleaving in which the pick block takes only
fibers that have not ended and that nobody else has taken, and in which `Stop` is not
called a second time with work left: `Resume` finds its fiber `Ready`. -/
theorem resumes_only_ready (threads : Threads) (useCaller : Bool) (acts : List (Act Cb))
    (h : Along step PicksReady acts (start threads useCaller)) :
    Along step ResumesReady acts (start threads useCaller) :=
  Along.imp Resumable (fun _ _ _ _ hs hp hstep => step_resumable hs hp hstep)
    (fun _ _ hs hp => hs.resumesReady hp) (start_resumable threads useCaller) h

theorem picksReady_of_pick (h : ∀ f, s.Picks i f →
    s.getState f = .ready ∧ ∀ p ∈ s.stations, p.taken ≠ some f) : s.PicksReady (.pick i) := by
  refine ⟨trivial,?_,nofun⟩
  rintro k ⟨⟩ f hf
  exact ⟨(h f hf).1,fun j => not_at_of_all (h f hf).2⟩

/-- A fiber puts itself back and yields, and is resumed by the second thread. -/
theorem resumes_only_ready_two :
    Along step PicksReady [.newFiber, .schedule (.fiber (some 0)) (-1), .pick 0, .branch 0, .load 0,
        .schedule (.fiber (some 0)) (-1), .yield 0, .save 0, .pick 1, .branch 1]
        (start twoThreads false : Fibers Unit) ∧
      Along step ResumesReady [.newFiber, .schedule (.fiber (some 0)) (-1), .pick 0, .branch 0,
        .load 0, .schedule (.fiber (some 0)) (-1), .yield 0, .save 0, .pick 1, .branch 1]
        (start twoThreads false : Fibers Unit) := by
  have hready : Along step PicksReady [.newFiber, .schedule (.fiber (some 0)) (-1), .pick 0,
      .branch 0, .load 0, .schedule (.fiber (some 0)) (-1), .yield 0, .save 0, .pick 1, .branch 1]
      (start twoThreads false : Fibers Unit) := by
    refine Along.cons ⟨trivial,nofun,nofun⟩ rfl (Along.cons ⟨?_,nofun,nofun⟩ rfl (Along.cons
      (picksReady_of_pick ?_) rfl (Along.cons ⟨trivial,nofun,nofun⟩ rfl (Along.cons
      ⟨trivial,nofun,nofun⟩ rfl (Along.cons ⟨?_,nofun,nofun⟩ rfl (Along.cons ⟨trivial,nofun,nofun⟩
      rfl (Along.cons ⟨trivial,nofun,nofun⟩ rfl (Along.cons (picksReady_of_pick ?_) rfl (Along.cons
      ⟨trivial,nofun,nofun⟩ rfl trivial)))))))))
    · rintro f ⟨⟩
      decide
    · rintro f ⟨w,tickleMe,node,left,-,⟨⟩,⟨⟩,⟨⟩⟩
      decide
    · rintro f ⟨⟩
      decide
    · rintro f ⟨w,tickleMe,node,left,-,⟨⟩,⟨⟩,⟨⟩⟩
      decide
  exact ⟨hready,resumes_only_ready twoThreads false _ hready⟩

/-- The caller's thread and nothing else. -/
def callerOnly : Threads := ⟨[1],by decide⟩

/-- A fiber that is in the list twice ends, and is taken again. And `Stop` returns, a
callback is scheduled, and `Stop` is called again: the root fiber has ended. -/
theorem finished_fiber_resumed :
    ¬ Along step ResumesReady [.newFiber, .schedule (.fiber (some 0)) (-1),
        .schedule (.fiber (some 0)) (-1), .pick 0, .branch 0, .load 0, .mainFuncEnd 0, .save 0,
        .pick 0, .branch 0] (start twoThreads false : Fibers Unit) ∧
      ¬ Along step ResumesReady [.stop, .pick 0, .branch 0, .idleReturn 0, .pick 0, .branch 0,
        .join, .schedule (.callback (some ())) (-1), .stop]
        (start callerOnly true : Fibers Unit) := by
  constructor
  · intro h
    have hbranch := (((((((((h.2 _ _ rfl).2 _ _ rfl).2 _ _ rfl).2 _ _ rfl).2 _ _ rfl).2 _ _ rfl).2
      _ _ rfl).2 _ _ rfl).2 _ _ rfl).1
    exact hbranch.2 rfl
  · intro h
    have hstop := ((((((((h.2 _ _ rfl).2 _ _ rfl).2 _ _ rfl).2 _ _ rfl).2 _ _ rfl).2 _ _ rfl).2
      _ _ rfl).2 _ _ rfl).1
    exact hstop.2 rfl

end Gudov.Fibers
