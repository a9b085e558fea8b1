import Mathlib.Data.List.Perm.Basic
import Mathlib.Data.List.Basic
import Gudov.Scheduler
import Gudov.StepSystem

/-!
# No task is lost or run twice

The tasks waiting, the tasks held by threads and the tasks finished are together
a permutation of all tasks ever scheduled, each with its own ticket. Every step
moves at most one node from one part to the next, so the permutation survives
every interleaving.
-/
namespace Gudov.Scheduler
open scoped List
variable {Fib Cb : Type} {s t : Scheduler Fib Cb} {w w' : Worker Fib Cb} {i : ℕ}

/-- The nodes the history gives rise to. -/
def numbered (l : List (Task Fib Cb)) : List (TaskNode Fib Cb) :=
  l.zipIdx.map fun p => { ticket := p.2, task := p.1 }

theorem numbered_append (l : List (Task Fib Cb)) (task : Task Fib Cb) :
    numbered (l ++ [task]) = numbered l ++ [{ ticket := l.length, task := task }] := by
  simp [numbered, List.zipIdx_append]

theorem mem_numbered {l : List (Task Fib Cb)} {n : TaskNode Fib Cb} :
    n ∈ numbered l ↔ l[n.ticket]? = some n.task := by
  obtain ⟨ticket,task⟩ := n
  simp [numbered, List.mem_zipIdx_iff_getElem?]

theorem map_ticket_numbered (l : List (Task Fib Cb)) :
    (numbered l).map TaskNode.ticket = List.range l.length := by
  simp [numbered, Function.comp_def, List.range_eq_range']

/-- The nodes held by the threads. -/
def held (s : Scheduler Fib Cb) : List (TaskNode Fib Cb) := s.workers.filterMap Worker.held

def Fits (task : Task Fib Cb) (thread : ℤ) : Prop := task.thread = -1 ∨ task.thread = thread

/-- The invariant of the scheduler. -/
structure Conserves (s : Scheduler Fib Cb) : Prop where
  nodes : s.tasks ++ s.held ++ s.finished.map Prod.snd ~ numbered s.scheduled
  nonempty : ∀ task ∈ s.scheduled, task.isEmpty = false
  heldHere : ∀ w ∈ s.workers, ∀ n, w.held = some n → Fits n.task w.thread
  ranHere : ∀ p ∈ s.finished, Fits p.2.task p.1
  active : s.active = UInt64.ofNat s.held.length

theorem new_conserves (threads : Threads) : Conserves (new threads : Scheduler Fib Cb) := by
  have hheld : (new threads : Scheduler Fib Cb).held = [] := by
    simp [held, new, Worker.held]
  constructor
  · rw [hheld]
    exact List.Perm.refl _
  · simp [new]
  · intro w hw n hn
    obtain ⟨id,_,rfl⟩ := List.mem_map.mp hw
    cases hn
  · simp [new]
  · rw [hheld]
    rfl

theorem Conserves.node_nonempty (hs : Conserves s) {n : TaskNode Fib Cb} (hn : n ∈ s.tasks) :
    n.task.isEmpty = false := by
  have hmem : n ∈ numbered s.scheduled := hs.nodes.mem_iff.mp (by simp [hn])
  exact hs.nonempty n.task (List.mem_of_getElem? (mem_numbered.mp hmem))

theorem scheduleNoLock_conserves (fc : FiberOrCb Fib Cb) (thread : ℤ) (hs : Conserves s) :
    Conserves (s.scheduleNoLock fc thread).2 := by
  unfold scheduleNoLock
  cases he : (Task.new fc thread).isEmpty with
  | true => simpa [he] using hs
  | false =>
    simp only [he, Bool.false_eq_true, if_false]
    constructor
    · rw [numbered_append]
      calc (s.tasks ++ [_]) ++ s.held ++ s.finished.map Prod.snd
        _ ~ (s.tasks ++ s.held ++ s.finished.map Prod.snd) ++ [_] := by
          rw [List.append_assoc, List.append_assoc, List.append_assoc, List.append_assoc]
          refine List.Perm.append_left _ ?_
          rw [← List.append_assoc s.held]
          exact List.perm_append_comm
        _ ~ numbered s.scheduled ++ [_] := hs.nodes.append_right _
    · intro task htask
      rcases List.mem_append.mp htask with hold | hnew
      · exact hs.nonempty task hold
      · rw [List.mem_singleton.mp hnew]
        exact he
    · exact hs.heldHere
    · exact hs.ranHere
    · exact hs.active

theorem scheduleRange_conserves (fcs : List (FiberOrCb Fib Cb)) (hs : Conserves s) :
    Conserves (s.scheduleRange fcs).2 := by
  induction fcs generalizing s with
  | nil => exact hs
  | cons fc fcs ih => exact ih (scheduleNoLock_conserves fc (-1) hs)

/-- The pick block takes out at most one node, and only one for this thread. -/
theorem pickLoop_spec (thread : ℤ) (state : Fib → FiberState) (l : List (TaskNode Fib Cb))
    (hl : ∀ n ∈ l, n.task.isEmpty = false) :
    ∃ tickleMe picked left, pickLoop thread state l = .ok (tickleMe, picked, left) ∧
      l ~ picked.toList ++ left ∧ ∀ n, picked = some n → Fits n.task thread := by
  induction l with
  | nil => exact ⟨false,none,[],rfl,List.Perm.refl _,by simp⟩
  | cons node rest ih =>
    obtain ⟨tickleMe,picked,left,hloop,hperm,hfit⟩ := ih fun n hn => hl n (by simp [hn])
    have hskip : node :: rest ~ picked.toList ++ node :: left :=
      (hperm.cons node).trans List.perm_middle.symm
    cases helse : node.task.elsewhere thread with
    | true =>
      refine ⟨true,picked,node :: left,?_,hskip,hfit⟩
      simp only [pickLoop, helse, if_true, hloop, bind, Except.bind]
    | false =>
      have hne := hl node (by simp)
      cases hrun : node.task.fiber.any fun f => state f == .running with
      | true =>
        refine ⟨tickleMe,picked,node :: left,?_,hskip,hfit⟩
        simp only [pickLoop, helse, hne, hrun, Bool.false_eq_true, if_false, if_true, hloop, bind,
          Except.bind]
      | false =>
        refine ⟨true,some node,rest,?_,List.Perm.refl _,?_⟩
        · simp only [pickLoop, helse, hne, hrun, Bool.false_eq_true, if_false]
        · rintro n ⟨⟩
          simp only [Task.elsewhere, Bool.and_eq_false_iff, bne_eq_false_iff_eq] at helse
          exact helse

/-- Replacing one thread exchanges what it held for what it holds now. -/
theorem held_setWorker (w' : Worker Fib Cb) (hw : s.workers[i]? = some w) :
    w.held.toList ++ (s.setWorker i w').held ~ w'.held.toList ++ s.held := by
  have hperm : w :: s.workers.set i w' ~ w' :: s.workers := by
    simpa [hw] using List.getD_set_perm_cons s.workers i w'
  have hmap := hperm.filterMap Worker.held
  rw [List.filterMap_cons, List.filterMap_cons] at hmap
  cases hh : w.held <;> cases hh' : w'.held <;> simpa [hh, hh', held, setWorker] using hmap

theorem mem_setWorker {x : Worker Fib Cb} (hx : x ∈ (s.setWorker i w').workers) :
    x ∈ s.workers ∨ x = w' := List.mem_or_eq_of_mem_set hx

/-- Replacing a thread that holds nothing before and after. -/
theorem Conserves.setWorker_free (w' : Worker Fib Cb) (hs : Conserves s)
    (hw : s.workers[i]? = some w) (hh : w.held = none) (hh' : w'.held = none) :
    Conserves (s.setWorker i w') := by
  have hheld : (s.setWorker i w').held ~ s.held := by
    simpa [hh, hh'] using held_setWorker w' hw
  constructor
  · refine List.Perm.trans ?_ hs.nodes
    exact (hheld.append_left _).append_right _
  · exact hs.nonempty
  · intro x hx n hn
    rcases mem_setWorker hx with hold | rfl
    · exact hs.heldHere x hold n hn
    · rw [hh'] at hn
      cases hn
  · exact hs.ranHere
  · rw [hheld.length_eq]
    exact hs.active

theorem pick_conserves (state : Fib → FiberState) (hs : Conserves s)
    (hw : s.workers[i]? = some w) (hh : w.held = none) :
    ∃ tickleMe t, s.pick i w state = .ok (tickleMe, t) ∧ Conserves t := by
  obtain ⟨tickleMe,picked,left,hloop,hperm,hfit⟩ :=
    pickLoop_spec w.thread state s.tasks fun n hn => hs.node_nonempty hn
  cases picked with
  | none =>
    have hs' : Conserves { s with tasks := left } := by
      refine ⟨?_,hs.nonempty,hs.heldHere,hs.ranHere,hs.active⟩
      refine List.Perm.trans ?_ hs.nodes
      exact (hperm.symm.append_right _).append_right _
    cases hterm : w.idleTerm with
    | true =>
      refine ⟨tickleMe,_,?_,hs'.setWorker_free { w with phase := .exited } hw hh rfl⟩
      simp only [pick, hloop, bind, Except.bind, hterm, if_true]
    | false =>
      have hs'' : Conserves { s with tasks := left, idle := s.idle + 1 } :=
        ⟨hs'.nodes,hs'.nonempty,hs'.heldHere,hs'.ranHere,hs'.active⟩
      refine ⟨tickleMe,_,?_,hs''.setWorker_free { w with phase := .idle } hw hh rfl⟩
      simp only [pick, hloop, bind, Except.bind, hterm, Bool.false_eq_true, if_false]
  | some node =>
    let w' : Worker Fib Cb := { w with phase := .holding node }
    let s' : Scheduler Fib Cb := { s with tasks := left, active := s.active + 1 }
    have hheld : (s'.setWorker i w').held ~ node :: s.held := by
      have hex := held_setWorker (s := s') w' hw
      rw [hh] at hex
      exact hex
    refine ⟨tickleMe,s'.setWorker i w',?_,?_⟩
    · simp only [pick, hloop, bind, Except.bind, s', w']
    constructor
    · refine List.Perm.trans ?_ hs.nodes
      calc left ++ (s'.setWorker i w').held ++ s.finished.map Prod.snd
        _ ~ left ++ (node :: s.held) ++ s.finished.map Prod.snd :=
          (hheld.append_left _).append_right _
        _ ~ (node :: left) ++ s.held ++ s.finished.map Prod.snd :=
          List.perm_middle.append_right _
        _ ~ s.tasks ++ s.held ++ s.finished.map Prod.snd :=
          (hperm.symm.append_right _).append_right _
    · exact hs.nonempty
    · intro x hx n hn
      rcases mem_setWorker hx with hold | rfl
      · exact hs.heldHere x hold n hn
      · cases hn
        exact hfit node rfl
    · exact hs.ranHere
    · rw [hheld.length_eq, List.length_cons, UInt64.ofNat_add]
      change s.active + 1 = _
      rw [hs.active]
      rfl

theorem finish_conserves {node : TaskNode Fib Cb} (hs : Conserves s)
    (hw : s.workers[i]? = some w) (hh : w.held = some node) : Conserves (s.finish i w node) := by
  let w' : Worker Fib Cb := { w with phase := .picking }
  let s' : Scheduler Fib Cb :=
    { s with active := s.active - 1, finished := s.finished ++ [(w.thread, node)] }
  have hheld : node :: (s'.setWorker i w').held ~ s.held := by
    have hex := held_setWorker (s := s') w' hw
    rw [hh] at hex
    exact hex
  change Conserves (s'.setWorker i w')
  constructor
  · refine List.Perm.trans ?_ hs.nodes
    change s.tasks ++ (s'.setWorker i w').held ++ (s.finished ++ [(w.thread, node)]).map Prod.snd ~ _
    rw [List.map_append, List.append_assoc, List.append_assoc]
    refine List.Perm.append_left _ ?_
    calc (s'.setWorker i w').held ++ (s.finished.map Prod.snd ++ [node])
      _ ~ (s'.setWorker i w').held ++ node :: s.finished.map Prod.snd :=
        (List.perm_append_singleton node _).append_left _
      _ ~ node :: (s'.setWorker i w').held ++ s.finished.map Prod.snd := List.perm_middle
      _ ~ s.held ++ s.finished.map Prod.snd := hheld.append_right _
  · exact hs.nonempty
  · intro x hx n hn
    rcases mem_setWorker hx with hold | rfl
    · exact hs.heldHere x hold n hn
    · cases hn
  · intro p hp
    rcases List.mem_append.mp hp with hold | hnew
    · exact hs.ranHere p hold
    · rw [List.mem_singleton.mp hnew]
      exact hs.heldHere w (List.mem_of_getElem? hw) node hh
  · change s.active - 1 = _
    rw [hs.active, ← hheld.length_eq, List.length_cons, UInt64.ofNat_add]
    simp

theorem idleReturn_conserves (hs : Conserves s) (hw : s.workers[i]? = some w)
    (hh : w.held = none) : Conserves (s.idleReturn i w) := by
  have hs' : Conserves { s with idle := s.idle - 1 } :=
    ⟨hs.nodes,hs.nonempty,hs.heldHere,hs.ranHere,hs.active⟩
  exact hs'.setWorker_free _ hw hh rfl

theorem step_conserves (a : Act Fib Cb) (hs : Conserves s) :
    ∃ o t, s.step a = .ok (o, t) ∧ Conserves t := by
  cases a with
  | schedule fc thread => exact ⟨_,_,rfl,scheduleNoLock_conserves fc thread hs⟩
  | scheduleRange fcs => exact ⟨_,_,rfl,scheduleRange_conserves fcs hs⟩
  | pick i state =>
    simp only [step]
    split
    next w hw =>
      split
      next hp =>
        obtain ⟨tickleMe,t,hpick,ht⟩ := pick_conserves state hs hw (by simp [Worker.held, hp])
        exact ⟨.picked tickleMe,t,by simp only [hpick, bind, Except.bind],ht⟩
      next => exact ⟨_,_,rfl,hs⟩
    next => exact ⟨_,_,rfl,hs⟩
  | finish i =>
    simp only [step]
    split
    next w hw =>
      split
      next node hp => exact ⟨_,_,rfl,finish_conserves hs hw (by simp [Worker.held, hp])⟩
      next => exact ⟨_,_,rfl,hs⟩
    next => exact ⟨_,_,rfl,hs⟩
  | idleReturn i =>
    simp only [step]
    split
    next w hw =>
      split
      next hp => exact ⟨_,_,rfl,idleReturn_conserves hs hw (by simp [Worker.held, hp])⟩
      next => exact ⟨_,_,rfl,hs⟩
    next => exact ⟨_,_,rfl,hs⟩
  | stop => exact ⟨_,_,rfl,hs.nodes,hs.nonempty,hs.heldHere,hs.ranHere,hs.active⟩
  | stopping => exact ⟨_,_,rfl,hs⟩

/-- The non-empty tasks a step puts into `tasks_`. -/
def Act.submitted : Act Fib Cb → List (Task Fib Cb)
  | .schedule fc thread => [Task.new fc thread].filter fun task => !task.isEmpty
  | .scheduleRange fcs => (fcs.map fun fc => Task.new fc (-1)).filter fun task => !task.isEmpty
  | _ => []

theorem scheduleNoLock_history (fc : FiberOrCb Fib Cb) (thread : ℤ) (s : Scheduler Fib Cb) :
    (s.scheduleNoLock fc thread).2.scheduled =
        s.scheduled ++ [Task.new fc thread].filter (fun task => !task.isEmpty) ∧
      (s.scheduleNoLock fc thread).2.workers = s.workers := by
  unfold scheduleNoLock
  cases he : (Task.new fc thread).isEmpty <;> simp [he]

theorem scheduleRange_history (fcs : List (FiberOrCb Fib Cb)) (s : Scheduler Fib Cb) :
    (s.scheduleRange fcs).2.scheduled = s.scheduled ++ (Act.scheduleRange fcs).submitted ∧
      (s.scheduleRange fcs).2.workers = s.workers := by
  induction fcs generalizing s with
  | nil => simp [scheduleRange, Act.submitted]
  | cons fc fcs ih =>
    obtain ⟨hsch,hwork⟩ := scheduleNoLock_history fc (-1) s
    obtain ⟨hsch',hwork'⟩ := ih (s.scheduleNoLock fc (-1)).2
    constructor
    · change (scheduleRange fcs (s.scheduleNoLock fc (-1)).2).2.scheduled = _
      rw [hsch', hsch]
      simp [Act.submitted, ← List.filter_append]
    · exact hwork'.trans hwork

theorem setWorker_threads (w' : Worker Fib Cb) (hw : s.workers[i]? = some w)
    (ht : w'.thread = w.thread) :
    (s.setWorker i w').workers.map Worker.thread = s.workers.map Worker.thread := by
  obtain ⟨hlt,rfl⟩ := List.getElem?_eq_some_iff.mp hw
  simp only [setWorker, List.map_set, ht]
  rw [← List.getElem_map Worker.thread (h := by simpa using hlt), List.set_getElem_self]

/-- The history grows by what a step submits, and threads keep their ids. -/
theorem step_history {a : Act Fib Cb} {o : Seen Fib Cb} (h : s.step a = .ok (o, t)) :
    t.scheduled = s.scheduled ++ a.submitted ∧
      t.workers.map Worker.thread = s.workers.map Worker.thread := by
  cases a with
  | schedule fc thread =>
    cases h
    obtain ⟨hsch,hwork⟩ := scheduleNoLock_history fc thread s
    exact ⟨hsch,congrArg (List.map Worker.thread) hwork⟩
  | scheduleRange fcs =>
    cases h
    obtain ⟨hsch,hwork⟩ := scheduleRange_history fcs s
    exact ⟨hsch,congrArg (List.map Worker.thread) hwork⟩
  | pick i state =>
    simp only [step] at h
    split at h
    next w hw =>
      split at h
      next hp =>
        cases hloop : pickLoop w.thread state s.tasks with
        | error f => simp [pick, hloop, bind, Except.bind] at h
        | ok r =>
          obtain ⟨tickleMe,picked,left⟩ := r
          simp only [pick, hloop, bind, Except.bind] at h
          cases picked with
          | some node =>
            cases h
            exact ⟨by simp [Act.submitted, setWorker],setWorker_threads _ hw rfl⟩
          | none =>
            cases hterm : w.idleTerm <;> simp only [hterm] at h <;> cases h
            · exact ⟨by simp [Act.submitted, setWorker],setWorker_threads _ hw rfl⟩
            · exact ⟨by simp [Act.submitted, setWorker],setWorker_threads _ hw rfl⟩
      next =>
        cases h
        simp [Act.submitted]
    next =>
      cases h
      simp [Act.submitted]
  | finish i =>
    simp only [step] at h
    split at h
    next w hw =>
      split at h
      next node hp =>
        cases h
        exact ⟨by simp [Act.submitted, finish, setWorker],setWorker_threads _ hw rfl⟩
      next =>
        cases h
        simp [Act.submitted]
    next =>
      cases h
      simp [Act.submitted]
  | idleReturn i =>
    simp only [step] at h
    split at h
    next w hw =>
      split at h
      next hp =>
        cases h
        exact ⟨by simp [Act.submitted, idleReturn, setWorker],setWorker_threads _ hw rfl⟩
      next =>
        cases h
        simp [Act.submitted]
    next =>
      cases h
      simp [Act.submitted]
  | stop =>
    cases h
    simp [Act.submitted]
  | stopping =>
    cases h
    simp [Act.submitted]

theorem run_conserves (acts : List (Act Fib Cb)) (hs : Conserves s) :
    ∃ seen t, StepSystem.run step acts s = .ok (seen, t) ∧ Conserves t ∧
      t.scheduled = s.scheduled ++ acts.flatMap Act.submitted ∧
      t.workers.map Worker.thread = s.workers.map Worker.thread := by
  induction acts generalizing s with
  | nil => exact ⟨[],s,rfl,hs,by simp,rfl⟩
  | cons a acts ih =>
    obtain ⟨o,s',hstep,hs'⟩ := step_conserves a hs
    obtain ⟨hsch,hids⟩ := step_history hstep
    obtain ⟨seen,t,hrun,ht,hsch',hids'⟩ := ih hs'
    refine ⟨o :: seen,t,by simp only [StepSystem.run, hstep, hrun],ht,?_,hids'.trans hids⟩
    rw [hsch', hsch, List.flatMap_cons, List.append_assoc]

/-- Every ticket is in exactly one place. -/
theorem Conserves.count_ticket (hs : Conserves s) {k : ℕ} (hk : k < s.scheduled.length) :
    (s.tasks.map TaskNode.ticket).count k + (s.held.map TaskNode.ticket).count k +
      ((s.finished.map Prod.snd).map TaskNode.ticket).count k = 1 := by
  have hcount := (hs.nodes.map TaskNode.ticket).count_eq k
  rw [map_ticket_numbered, List.map_append, List.map_append, List.count_append,
    List.count_append] at hcount
  rw [hcount]
  rw [List.nodup_range.count, if_pos (List.mem_range.mpr hk)]

theorem Conserves.active_toNat (hs : Conserves s) (hlt : s.workers.length < 2 ^ 64) :
    s.active.toNat = s.held.length := by
  have hle : s.held.length ≤ s.workers.length := List.length_filterMap_le _ _
  rw [hs.active, UInt64.toNat_ofNat_of_lt']
  exact Nat.lt_of_le_of_lt hle hlt

/-- In every interleaving each task scheduled is waiting, held by one thread or
finished, and only one of these. Pinned tasks stay with their thread, the active
count is the number of threads that hold a task, and `Stopping` answers true
only when everything scheduled has been finished. -/
theorem task_conservation (threads : Threads) (acts : List (Act Fib Cb)) :
    ∃ seen s, StepSystem.run step acts (new threads) = .ok (seen, s) ∧
      s.scheduled = acts.flatMap Act.submitted ∧
      (∀ n ∈ s.tasks ++ s.held ++ s.finished.map Prod.snd,
        s.scheduled[n.ticket]? = some n.task) ∧
      (∀ k < s.scheduled.length,
        (s.tasks.map TaskNode.ticket).count k + (s.held.map TaskNode.ticket).count k +
          ((s.finished.map Prod.snd).map TaskNode.ticket).count k = 1) ∧
      (∀ w ∈ s.workers, ∀ n, w.phase = .holding n →
        n.task.thread = -1 ∨ n.task.thread = w.thread) ∧
      (∀ p ∈ s.finished, p.2.task.thread = -1 ∨ p.2.task.thread = p.1) ∧
      s.active.toNat = (s.workers.filter fun w => w.held.isSome).length ∧
      (s.isStopping = true → ∀ k < s.scheduled.length,
        ((s.finished.map Prod.snd).map TaskNode.ticket).count k = 1) := by
  obtain ⟨seen,s,hrun,hs,hsch,hids⟩ := run_conserves acts (new_conserves threads)
  have hlen : s.workers.length = threads.ids.length := by
    simpa [new] using congrArg List.length hids
  have hactive := hs.active_toNat (by rw [hlen]; exact threads.count_lt)
  refine ⟨seen,s,hrun,by simpa [new] using hsch,?_,fun k hk => hs.count_ticket hk,?_,hs.ranHere,
    ?_,?_⟩
  · intro n hn
    exact mem_numbered.mp (hs.nodes.mem_iff.mp hn)
  · intro w hw n hn
    exact hs.heldHere w hw n (by simp [Worker.held, hn])
  · rw [hactive, held, ← List.countP_eq_length_filter, List.length_filterMap_eq_countP]
  · intro hstop k hk
    simp only [isStopping, Bool.and_eq_true, List.isEmpty_iff, beq_iff_eq] at hstop
    obtain ⟨⟨_,htasks⟩,hzero⟩ := hstop
    have hheld : s.held = [] := by
      rw [hzero] at hactive
      exact List.eq_nil_of_length_eq_zero hactive.symm
    have hone := hs.count_ticket hk
    rw [htasks, hheld] at hone
    simpa using hone

end Gudov.Scheduler
