import Gudov.ConnectionPool

/-!
# The age limit of the pool

`GetConnection` and `ReleasePtr` compare `create_time_ + max_alive_time_` with the
time, the wrong way round and with a `create_time_` that is never set. So the limit is
a threshold on the clock: before it every connection is deleted, and after it none is
deleted for its age.
-/
namespace Gudov

namespace PoolCall

def now : PoolCall → UInt64
  | getConnection now _ _ => now
  | releasePtr _ now _ => now

def isConnected : PoolCall → ℕ → Bool
  | getConnection _ isConnected _ => isConnected
  | releasePtr _ _ isConnected => isConnected

/-- The requests that a connection has served when the call looks at it. -/
def served (c : HttpConnection) : PoolCall → ℕ
  | getConnection _ _ _ => c.request.toNat
  | releasePtr _ _ _ => c.request.toNat + 1

end PoolCall

namespace HttpConnectionPool
variable {p q : HttpConnectionPool} {now : UInt64} {up : ℕ → Bool} {dial : Dial}

/-- Opened less than `max_alive_time_` ago. -/
def young (p : HttpConnectionPool) (now : UInt64) (c : HttpConnection) : Prop :=
  now.toNat < c.opened.toNat + p.maxAliveTime.toNat

instance (p : HttpConnectionPool) (now : UInt64) (c : HttpConnection) :
    Decidable (p.young now c) := inferInstanceAs (Decidable (_ < _))

/-- The call hands out no idle connection that is too old, and deletes no connected one
that is young and has requests left. -/
def KeepsAge (p : HttpConnectionPool) (call : PoolCall) : Prop :=
  ∀ o q, p.step call = .ok (o, q) →
    (∀ c ∈ p.conns, o = some c.id → p.young call.now c) ∧
    ∀ c ∈ p.live, c.id ∉ q.live.map HttpConnection.id → call.isConnected c.id = true →
      p.young call.now c → p.maxRequest.toNat ≤ call.served c

/-- The clock is past the limit, where the call would delete what it must not, and the
first connected idle connection is young. -/
def AgeFits (p : HttpConnectionPool) : PoolCall → Prop
  | .getConnection now up _ =>
    if now.toNat < p.maxAliveTime.toNat then ∀ c ∈ p.conns, up c.id = false
    else ∀ c, p.conns.find? (fun c => up c.id) = some c → p.young now c
  | .releasePtr id now up =>
    now.toNat ≤ p.maxAliveTime.toNat → ∀ c ∈ p.out, c.id = id → up id = true → p.young now c →
      p.maxRequest.toNat ≤ c.request.toNat + 1

instance (p : HttpConnectionPool) (call : PoolCall) : Decidable (p.AgeFits call) :=
  match call with
  | .getConnection now up _ =>
    inferInstanceAs (Decidable (if now.toNat < p.maxAliveTime.toNat then
      ∀ c ∈ p.conns, up c.id = false
      else ∀ c, p.conns.find? (fun c => up c.id) = some c → p.young now c))
  | .releasePtr id now up =>
    inferInstanceAs (Decidable (now.toNat ≤ p.maxAliveTime.toNat → ∀ c ∈ p.out, c.id = id →
      up id = true → p.young now c → p.maxRequest.toNat ≤ c.request.toNat + 1))

/-- With a `create_time_` of 0 the limit is compared with the clock. -/
theorem Sound.unfit_eq {c : HttpConnection} (hp : p.Sound) (hc : c ∈ p.live) :
    unfit p.maxAliveTime.toUInt64 now up c =
      (!up c.id || decide (now.toNat < p.maxAliveTime.toNat)) := by
  have hlt : p.maxAliveTime.toUInt64 > now ↔ now.toNat < p.maxAliveTime.toNat := by
    rw [gt_iff_lt, UInt64.lt_iff_toNat_lt, UInt32.toNat_toUInt64]
  simp only [unfit, hp.createTime c hc, UInt64.zero_add, hlt]

theorem Sound.spent_eq {c : HttpConnection} (hp : p.Sound) (hc : c ∈ p.out) :
    p.spent now up c = (!up c.id || decide (now.toNat ≤ p.maxAliveTime.toNat) ||
      decide (p.maxRequest.toNat ≤ c.request.toNat + 1)) := by
  have hle : p.maxAliveTime.toUInt64 ≥ now ↔ now.toNat ≤ p.maxAliveTime.toNat := by
    rw [ge_iff_le, UInt64.le_iff_toNat_le, UInt32.toNat_toUInt64]
  have hrequest : c.served.request ≥ p.maxRequest.toUInt64 ↔
      p.maxRequest.toNat ≤ c.request.toNat + 1 := by
    rw [ge_iff_le, UInt64.le_iff_toNat_le, UInt32.toNat_toUInt64, hp.served_request hc]
  have hzero : c.served.createTime = 0 := hp.createTime c (List.mem_append_right _ hc)
  simp only [spent, hzero, UInt64.zero_add, hle, hrequest]

/-- An idle connection that was deleted has left the pool. -/
theorem Sound.idle_gone {c : HttpConnection} (hp : p.Sound) (hc : c ∈ p.conns) :
    c.id ∉ p.out.map HttpConnection.id ∧ c.id ≠ p.made := by
  have hnodup := hp.nodup
  rw [live, List.map_append] at hnodup
  constructor
  · intro hout
    exact (List.nodup_append.mp hnodup).2.2 _ (List.mem_map_of_mem hc) _ hout rfl
  · exact Nat.ne_of_lt (hp.made c (List.mem_append_left _ hc))

theorem Sound.id_inj {c d : HttpConnection} (hp : p.Sound) (hc : c ∈ p.live) (hd : d ∈ p.live)
    (h : c.id = d.id) : c = d :=
  List.inj_on_of_nodup_map hp.nodup hc hd h

/-- A call that finds no fit connection deletes all idle ones. -/
theorem getConnection_clears (dial : Dial) (hp : p.Sound)
    (hall : ∀ c ∈ p.conns, unfit p.maxAliveTime.toUInt64 now up c = true) :
    ∃ o q, p.getConnection now up dial = (o, q) ∧ (∀ c ∈ p.out, c ∈ q.live) ∧
      ∀ c ∈ p.conns, o ≠ some c.id ∧ c.id ∉ q.live.map HttpConnection.id := by
  rcases getConnection_cases now up dial p with
    ⟨invalid,c,rest,hconns,hc,-,-⟩ | ⟨-,⟨time,-,hget⟩ | hget⟩
  · rw [hall c (by simp [hconns])] at hc
    cases hc
  · refine ⟨_,_,hget,fun c hc => List.mem_cons_of_mem _ hc,?_⟩
    intro c hc
    obtain ⟨hout,hmade⟩ := hp.idle_gone hc
    refine ⟨?_,?_⟩
    · intro heq
      exact hmade (Option.some.inj heq).symm
    · simp only [live, List.nil_append, List.map_cons, List.mem_cons, not_or]
      exact ⟨hmade,hout⟩
  · refine ⟨_,_,hget,fun c hc => hc,?_⟩
    intro c hc
    exact ⟨by simp,(hp.idle_gone hc).1⟩

theorem clears_keepsAge (hp : p.Sound)
    (hall : ∀ c ∈ p.conns, unfit p.maxAliveTime.toUInt64 now up c = true) :
    p.KeepsAge (.getConnection now up dial) ↔
      ∀ c ∈ p.conns, up c.id = true → ¬ p.young now c := by
  obtain ⟨o,q,hget,hkept,hgone⟩ := getConnection_clears dial hp hall
  constructor
  · intro hkeep c hc hup hyoung
    have hserved := (hkeep o q (congrArg Except.ok hget)).2 c (List.mem_append_left _ hc)
      (hgone c hc).2 hup hyoung
    exact Nat.not_lt.mpr hserved (hp.idle c hc).2
  · intro hnone o' q' hstep
    have heq := step_getConnection hstep
    rw [hget] at heq
    cases heq
    constructor
    · intro c hc hout
      exact absurd hout (hgone c hc).1
    · intro c hc hlost hup hyoung
      rcases List.mem_append.mp hc with hc | hc
      · exact absurd hyoung (hnone c hc hup)
      · exact absurd (List.mem_map_of_mem (hkept c hc)) hlost

/-- Before the limit every idle connection is deleted. -/
theorem getConnection_early (hp : p.Sound) (hearly : now.toNat < p.maxAliveTime.toNat) :
    p.KeepsAge (.getConnection now up dial) ↔ ∀ c ∈ p.conns, up c.id = false := by
  have hall : ∀ c ∈ p.conns, unfit p.maxAliveTime.toUInt64 now up c = true := by
    intro c hc
    rw [hp.unfit_eq (List.mem_append_left _ hc), decide_eq_true hearly, Bool.or_true]
  have hyoung : ∀ c, p.young now c := fun c => Nat.lt_add_left c.opened.toNat hearly
  rw [clears_keepsAge hp hall]
  constructor
  · intro h c hc
    exact Bool.eq_false_iff.mpr fun hup => h c hc hup (hyoung c)
  · intro h c hc hup
    rw [h c hc] at hup
    cases hup

/-- After it the first connected one is handed out. -/
theorem getConnection_late (hp : p.Sound) (hlate : ¬ now.toNat < p.maxAliveTime.toNat) :
    p.KeepsAge (.getConnection now up dial) ↔
      ∀ c, p.conns.find? (fun c => up c.id) = some c → p.young now c := by
  have hunfit : ∀ c ∈ p.conns, unfit p.maxAliveTime.toUInt64 now up c = !up c.id := by
    intro c hc
    rw [hp.unfit_eq (List.mem_append_left _ hc), decide_eq_false hlate, Bool.or_false]
  rcases getConnection_cases now up dial p with
    ⟨invalid,c,rest,hconns,hc,hinvalid,hget⟩ | ⟨hall,-⟩
  · have hup : up c.id = true := by
      rw [hunfit c (by simp [hconns])] at hc
      simpa using hc
    have hdown : ∀ d ∈ invalid, up d.id = false := by
      intro d hd
      have hd' := hinvalid d hd
      rw [hunfit d (by simp [hconns, hd])] at hd'
      simpa using hd'
    have hfind : p.conns.find? (fun c => up c.id) = some c := by
      rw [hconns, List.find?_append, List.find?_eq_none.mpr (by simpa using hdown)]
      simp [hup]
    rw [hfind]
    constructor
    · rintro hkeep c' ⟨⟩
      exact (hkeep _ _ (congrArg Except.ok hget)).1 c (by simp [hconns]) rfl
    · intro hyoung o q hstep
      have heq := step_getConnection hstep
      rw [hget] at heq
      cases heq
      constructor
      · intro d hd hid
        have hsame := hp.id_inj (List.mem_append_left _ hd)
          (List.mem_append_left _ (by simp [hconns] : c ∈ p.conns)) (Option.some.inj hid).symm
        rw [hsame]
        exact hyoung c rfl
      · intro d hd hlost hup' _
        have hd' : d ∈ invalid ∨ d ∈ rest ++ c :: p.out := by
          rw [live, hconns, List.append_assoc, List.mem_append, List.cons_append] at hd
          exact hd.imp id List.perm_middle.mem_iff.mpr
        rcases hd' with hd | hd
        · exact absurd hup' (Bool.eq_false_iff.mp (hdown d hd))
        · exact absurd (List.mem_map_of_mem hd) hlost
  · rw [clears_keepsAge hp hall]
    have hdown : ∀ c ∈ p.conns, up c.id = false := by
      intro c hc
      have hc' := hall c hc
      rw [hunfit c hc] at hc'
      simpa using hc'
    have hfind : p.conns.find? (fun c => up c.id) = none :=
      List.find?_eq_none.mpr (by simpa using hdown)
    rw [hfind]
    constructor
    · intro _ c hc
      cases hc
    · intro _ c hc hup
      rw [hdown c hc] at hup
      cases hup

theorem releasePtr_ok {c : HttpConnection} (hc : c ∈ p.out) :
    ∃ q, p.releasePtr c.id now up = .ok q := by
  unfold releasePtr
  split
  next hfind =>
    have hnone := List.find?_eq_none.mp hfind c hc
    simp at hnone
  next =>
    dsimp only
    split <;> exact ⟨_,rfl⟩

/-- The connection that comes back is the only one that may be deleted. -/
theorem releasePtr_keepsAge {id : ℕ} (hp : p.Sound) :
    p.KeepsAge (.releasePtr id now up) ↔ p.AgeFits (.releasePtr id now up) := by
  constructor
  · rintro hkeep hle c hc rfl hup hyoung
    obtain ⟨q,hq⟩ : ∃ q, p.releasePtr c.id now up = .ok q := releasePtr_ok hc
    have hstep : p.step (.releasePtr c.id now up) = .ok (none, q) := by
      simp only [step, hq]
      rfl
    obtain ⟨d,hd,hid,⟨hspent,rfl⟩ | ⟨hspent,rfl⟩⟩ := releasePtr_cases hq
    · apply (hkeep none _ hstep).2 c (List.mem_append_right _ hc) _ hup hyoung
      intro hmem
      obtain ⟨e,he,heq⟩ := List.mem_map.mp hmem
      rcases List.mem_append.mp he with he | he
      · exact (hp.idle_gone he).1 (by rw [heq]; exact List.mem_map_of_mem hc)
      · exact absurd heq (by simpa using (List.mem_filter.mp he).2)
    · rw [hp.spent_eq hd, decide_eq_true hle] at hspent
      simp at hspent
  · intro hfits o q hstep
    obtain ⟨rfl,hrel⟩ := step_releasePtr hstep
    obtain ⟨c,hc,rfl,⟨hspent,rfl⟩ | ⟨hspent,rfl⟩⟩ := releasePtr_cases hrel
    · refine ⟨fun d _ hd => absurd hd (by simp),?_⟩
      intro d hd hlost hup hyoung
      obtain rfl : d = c := by
        rcases List.mem_cons.mp ((hp.live_perm hc).mem_iff.mp hd) with rfl | hd
        · rfl
        · exact absurd (List.mem_map_of_mem hd) hlost
      by_cases hle : now.toNat ≤ p.maxAliveTime.toNat
      · exact hfits hle d hc rfl hup hyoung
      · rw [hp.spent_eq hc, decide_eq_false hle, show up d.id = true from hup] at hspent
        simpa [PoolCall.served] using hspent
    · refine ⟨fun d _ hd => absurd hd (by simp),?_⟩
      intro d hd hlost _ _
      apply absurd _ hlost
      have hids : d.id ∈ ([c] ++ (p.conns ++ p.out.filter fun e : HttpConnection => e.id ≠ c.id)).map
          HttpConnection.id := List.mem_map_of_mem ((hp.live_perm hc).mem_iff.mp hd)
      simp only [live, List.map_append, List.mem_append, List.map_cons, List.map_nil] at hids ⊢
      tauto

theorem keepsAge_iff (hp : p.Sound) (call : PoolCall) : p.KeepsAge call ↔ p.AgeFits call := by
  cases call with
  | getConnection now up dial =>
    by_cases hearly : now.toNat < p.maxAliveTime.toNat
    · rw [getConnection_early hp hearly]
      simp only [AgeFits, if_pos hearly]
    · rw [getConnection_late hp hearly]
      simp only [AgeFits, if_neg hearly]
  | releasePtr id now up => exact releasePtr_keepsAge hp

/-- The age limit is kept along a run just as long as every call meets the condition. -/
theorem pool_keeps_age (alive maxRequest : UInt32) (calls : List PoolCall) :
    StepSystem.Along step KeepsAge calls { maxAliveTime := alive, maxRequest := maxRequest } ↔
      StepSystem.Along step AgeFits calls { maxAliveTime := alive, maxRequest := maxRequest } := by
  have hall : StepSystem.Along step (fun _ _ => True) calls
      { maxAliveTime := alive, maxRequest := maxRequest } :=
    .of_forall (fun _ _ => trivial) calls _
  exact StepSystem.along_iff (fun _ _ _ _ hs _ _ hstep => step_sound hs hstep)
    (fun _ call hs _ => keepsAge_iff hs call) calls _ (new_sound alive maxRequest) hall

/-- A connection opened at 1000 with a limit of 1000 is handed out again at 5000. -/
theorem old_connection_handed_out :
    ¬ ∀ (alive maxRequest : UInt32) (calls : List PoolCall),
      StepSystem.Along step KeepsAge calls { maxAliveTime := alive, maxRequest := maxRequest } := by
  intro hall
  have hrun := hall 1000 9 [.getConnection 1000 (fun _ => true) (.connected 1000),
    .releasePtr 0 2000 fun _ => true, .getConnection 5000 (fun _ => true) .refused]
  have hlast := ((hrun.2 _ _ rfl).2 _ _ rfl).1
  have hyoung := (hlast _ _ rfl).1 { id := 0, request := 1, opened := 1000 } (by decide) rfl
  revert hyoung
  decide

end HttpConnectionPool

end Gudov
