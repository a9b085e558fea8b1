import Mathlib.Data.List.Nodup
import Gudov.StepSystem

/-!
# `HttpConnectionPool`

The idle connections, the counter `total_` and the connections in the hands of
callers, whose custom deleter is `ReleasePtr`. A connection is in one of the two
places until it is deleted, and `total_` counts both.

Time is what `GetCurrentMS` returns. `create_time_` keeps its initial value 0; when
a connection was really opened is noted beside it.
-/
namespace Gudov

/-- `HttpConnection`, with its identity and the time at which it was opened. -/
structure HttpConnection where
  id : ℕ
  createTime : UInt64 := 0
  request : UInt64 := 0
  opened : UInt64
deriving Repr, DecidableEq

/-- `++request_`. -/
def HttpConnection.served (c : HttpConnection) : HttpConnection :=
  { c with request := c.request + 1 }

/-- The members of the pool, the connections handed out, the number of connections made
so far, the identities handed out in their order, and the last time that was read. -/
structure HttpConnectionPool where
  maxAliveTime : UInt32
  maxRequest : UInt32
  conns : List HttpConnection := []
  total : Int32 := 0
  out : List HttpConnection := []
  made : ℕ := 0
  log : List ℕ := []
  clock : UInt64 := 0
deriving Repr, DecidableEq

/-- What `LookupAnyIPAddress`, `CreateTCP` and `Connect` come to. -/
inductive Dial
  | noAddress
  | noSocket
  | refused
  | connected (time : UInt64)
deriving Repr, DecidableEq

/-- The calls on a pool: a time, and what `IsConnected` answers for each connection. -/
inductive PoolCall
  | getConnection (now : UInt64) (isConnected : ℕ → Bool) (dial : Dial)
  | releasePtr (id : ℕ) (now : UInt64) (isConnected : ℕ → Bool)

namespace HttpConnectionPool
variable {p q : HttpConnectionPool} {now : UInt64} {up : ℕ → Bool} {dial : Dial}

/-- The loop over the idle connections: those to delete, the one to hand out, and those
left in the list. -/
def scan (alive : UInt64) (now : UInt64) (isConnected : ℕ → Bool) :
    List HttpConnection → List HttpConnection × Option HttpConnection × List HttpConnection
  | [] => ([], none, [])
  | conn :: conns =>
    if !isConnected conn.id || decide (conn.createTime + alive > now) then
      let (invalid, ptr, rest) := scan alive now isConnected conns
      (conn :: invalid, ptr, rest)
    else ([], some conn, conns)

def getConnection (now : UInt64) (isConnected : ℕ → Bool) (dial : Dial) (p : HttpConnectionPool) :
    Option ℕ × HttpConnectionPool :=
  let (invalid, ptr, rest) := scan p.maxAliveTime.toUInt64 now isConnected p.conns
  let p := { p with conns := rest, total := p.total - Int32.ofNat invalid.length, clock := now }
  match ptr, dial with
  | some conn, _ => (some conn.id, { p with out := conn :: p.out, log := p.log ++ [conn.id] })
  | none, .connected time =>
    (some p.made,
      { p with
        total := p.total + 1
        out := { id := p.made, opened := time } :: p.out
        made := p.made + 1
        log := p.log ++ [p.made]
        clock := time })
  | none, _ => (none, p)

/-- The deleter of a connection that is handed out. -/
def releasePtr (id : ℕ) (now : UInt64) (isConnected : ℕ → Bool) (p : HttpConnectionPool) :
    Except Fault HttpConnectionPool :=
  match p.out.find? fun c => c.id = id with
  | none => .error .nullDereference
  | some conn =>
    let ptr := conn.served
    let p := { p with out := p.out.filter fun c => c.id ≠ id, clock := now }
    if !isConnected id || decide (ptr.createTime + p.maxAliveTime.toUInt64 ≥ now) ||
        decide (ptr.request ≥ p.maxRequest.toUInt64) then
      .ok { p with total := p.total - 1 }
    else .ok { p with conns := p.conns ++ [ptr] }

def step (p : HttpConnectionPool) : PoolCall → Except Fault (Option ℕ × HttpConnectionPool)
  | .getConnection now isConnected dial => .ok (p.getConnection now isConnected dial)
  | .releasePtr id now isConnected => (p.releasePtr id now isConnected).map fun p => (none, p)

/-- The connections that exist. -/
def live (p : HttpConnectionPool) : List HttpConnection := p.conns ++ p.out

/-- Why an idle connection is deleted and not handed out. -/
def unfit (alive now : UInt64) (isConnected : ℕ → Bool) (c : HttpConnection) : Bool :=
  !isConnected c.id || decide (c.createTime + alive > now)

/-- The connections in front of the first fit one are deleted. -/
theorem scan_cases (alive now : UInt64) (up : ℕ → Bool) (conns : List HttpConnection) :
    (scan alive now up conns = (conns, none, []) ∧ ∀ c ∈ conns, unfit alive now up c = true) ∨
      ∃ invalid c rest, scan alive now up conns = (invalid, some c, rest) ∧
        conns = invalid ++ c :: rest ∧ unfit alive now up c = false ∧
        ∀ d ∈ invalid, unfit alive now up d = true := by
  induction conns with
  | nil => exact .inl ⟨rfl,by simp⟩
  | cons c conns ih =>
    cases hc : unfit alive now up c with
    | false =>
      refine .inr ⟨[],c,conns,?_,rfl,hc,by simp⟩
      rw [unfit] at hc
      simp only [scan, hc, Bool.false_eq_true, if_false]
    | true =>
      have hscan : scan alive now up (c :: conns) =
          (c :: (scan alive now up conns).1, (scan alive now up conns).2) := by
        rw [unfit] at hc
        simp only [scan, hc, if_true]
      rcases ih with ⟨hnone,hall⟩ | ⟨invalid,d,rest,hsome,rfl,hd,hall⟩
      · refine .inl ⟨by rw [hscan, hnone],?_⟩
        intro d hd
        rcases List.mem_cons.mp hd with rfl | hd
        · exact hc
        · exact hall d hd
      · refine .inr ⟨c :: invalid,d,rest,by rw [hscan, hsome],rfl,hd,?_⟩
        intro e he
        rcases List.mem_cons.mp he with rfl | he
        · exact hc
        · exact hall e he

/-- The three ways in which `GetConnection` ends: with an idle connection, with a new one,
and without one. -/
theorem getConnection_cases (now : UInt64) (up : ℕ → Bool) (dial : Dial)
    (p : HttpConnectionPool) :
    (∃ invalid c rest, p.conns = invalid ++ c :: rest ∧
      unfit p.maxAliveTime.toUInt64 now up c = false ∧
      (∀ d ∈ invalid, unfit p.maxAliveTime.toUInt64 now up d = true) ∧
      p.getConnection now up dial = (some c.id,
        { p with
          conns := rest
          total := p.total - Int32.ofNat invalid.length
          out := c :: p.out
          log := p.log ++ [c.id]
          clock := now })) ∨
    (∀ d ∈ p.conns, unfit p.maxAliveTime.toUInt64 now up d = true) ∧
      ((∃ time, dial = .connected time ∧ p.getConnection now up dial = (some p.made,
        { p with
          conns := []
          total := p.total - Int32.ofNat p.conns.length + 1
          out := { id := p.made, opened := time } :: p.out
          made := p.made + 1
          log := p.log ++ [p.made]
          clock := time })) ∨
      p.getConnection now up dial = (none,
        { p with
          conns := []
          total := p.total - Int32.ofNat p.conns.length
          clock := now })) := by
  rcases scan_cases p.maxAliveTime.toUInt64 now up p.conns with
    ⟨hscan,hall⟩ | ⟨invalid,c,rest,hscan,hconns,hc,hall⟩
  · refine .inr ⟨hall,?_⟩
    cases dial with
    | connected time => exact .inl ⟨time,rfl,by simp only [getConnection, hscan]⟩
    | noAddress => exact .inr (by simp only [getConnection, hscan])
    | noSocket => exact .inr (by simp only [getConnection, hscan])
    | refused => exact .inr (by simp only [getConnection, hscan])
  · exact .inl ⟨invalid,c,rest,hconns,hc,hall,by simp only [getConnection, hscan]⟩

/-- Why a connection is deleted when it comes back. -/
def spent (p : HttpConnectionPool) (now : UInt64) (isConnected : ℕ → Bool) (c : HttpConnection) :
    Bool :=
  !isConnected c.id || decide (c.served.createTime + p.maxAliveTime.toUInt64 ≥ now) ||
    decide (c.served.request ≥ p.maxRequest.toUInt64)

/-- The two ways in which `ReleasePtr` ends. -/
theorem releasePtr_cases {id : ℕ} (h : p.releasePtr id now up = .ok q) :
    ∃ c ∈ p.out, c.id = id ∧
      (p.spent now up c = true ∧
        q = { p with
          total := p.total - 1
          out := p.out.filter fun d : HttpConnection => d.id ≠ id
          clock := now } ∨
      p.spent now up c = false ∧
        q = { p with
          conns := p.conns ++ [c.served]
          out := p.out.filter fun d : HttpConnection => d.id ≠ id
          clock := now }) := by
  unfold releasePtr at h
  split at h
  next => cases h
  next c hfind =>
    have hid : c.id = id := by simpa using List.find?_some hfind
    refine ⟨c,List.mem_of_find?_eq_some hfind,hid,?_⟩
    subst hid
    cases hspent : p.spent now up c with
    | true =>
      refine .inl ⟨rfl,?_⟩
      rw [spent] at hspent
      simp only [hspent, if_true] at h
      cases h
      rfl
    | false =>
      refine .inr ⟨rfl,?_⟩
      rw [spent] at hspent
      simp only [hspent, Bool.false_eq_true, if_false] at h
      cases h
      rfl

/-- What holds between the calls. A connection has been handed out once for every request
that it has served, and once more while it is out. -/
structure Sound (p : HttpConnectionPool) : Prop where
  nodup : (p.live.map HttpConnection.id).Nodup
  made : ∀ c ∈ p.live, c.id < p.made
  logged : ∀ id ∈ p.log, id < p.made
  total : p.total = Int32.ofNat p.live.length
  createTime : ∀ c ∈ p.live, c.createTime = 0
  idle : ∀ c ∈ p.conns, p.log.count c.id = c.request.toNat ∧ c.request.toNat < p.maxRequest.toNat
  handed : ∀ c ∈ p.out, p.log.count c.id = c.request.toNat + 1
  bounded : ∀ id, p.log.count id ≤ max 1 p.maxRequest.toNat

theorem new_sound (alive max : UInt32) :
    Sound { maxAliveTime := alive, maxRequest := max } where
  nodup := List.nodup_nil
  made := by simp [live]
  logged := by simp
  total := rfl
  createTime := by simp [live]
  idle := by simp
  handed := by simp
  bounded := by simp

theorem count_log (log : List ℕ) (id i : ℕ) :
    (log ++ [id]).count i = log.count i + if id = i then 1 else 0 := by
  simp [List.count_append, List.count_singleton]

theorem count_log_other {log : List ℕ} {id i : ℕ} (h : i ≠ id) :
    (log ++ [id]).count i = log.count i := by
  rw [count_log, if_neg (Ne.symm h), Nat.add_zero]

/-- Some of the connections are deleted and taken off the counter. -/
theorem Sound.delete {gone kept : List HttpConnection} (hp : p.Sound)
    (h : p.live.Perm (gone ++ kept)) :
    (kept.map HttpConnection.id).Nodup ∧ (∀ c ∈ kept, c ∈ p.live) ∧
      p.total - Int32.ofNat gone.length = Int32.ofNat kept.length := by
  have hids : ((gone ++ kept).map HttpConnection.id).Nodup :=
    (h.map HttpConnection.id).nodup_iff.mp hp.nodup
  rw [List.map_append] at hids
  refine ⟨(List.nodup_append.mp hids).2.1,?_,?_⟩
  · intro c hc
    exact h.mem_iff.mpr (List.mem_append_right gone hc)
  · rw [hp.total, h.length_eq, List.length_append, Nat.add_comm, Int32.ofNat_add,
      Int32.add_sub_cancel]

/-- The identity of a connection is not that of another one. -/
theorem id_ne {a b : List HttpConnection} {c d : HttpConnection}
    (h : ((a ++ c :: b).map HttpConnection.id).Nodup) (hd : d ∈ a ++ b) : d.id ≠ c.id := by
  rw [List.map_append, List.map_cons, List.nodup_middle, List.nodup_cons, ← List.map_append] at h
  intro heq
  exact h.1 (List.mem_map.mpr ⟨d,hd,heq⟩)

/-- An idle connection is handed out, and those in front of it are deleted. -/
theorem Sound.handOut {invalid rest : List HttpConnection} {c : HttpConnection} (hp : p.Sound)
    (hconns : p.conns = invalid ++ c :: rest) :
    Sound { p with
      conns := rest
      total := p.total - Int32.ofNat invalid.length
      out := c :: p.out
      log := p.log ++ [c.id]
      clock := now } := by
  have hperm : p.live.Perm (invalid ++ (rest ++ c :: p.out)) := by
    rw [live, hconns, List.append_assoc, List.cons_append]
    exact List.Perm.append_left invalid List.perm_middle.symm
  obtain ⟨hnodup,hlive,htotal⟩ := hp.delete hperm
  obtain ⟨hcount,hlt⟩ := hp.idle c (by simp [hconns])
  have hother : ∀ d ∈ rest ++ p.out, d.id ≠ c.id := fun d hd => id_ne hnodup hd
  exact {
    nodup := hnodup
    made := fun d hd => hp.made d (hlive d hd)
    logged := by
      intro id hid
      rcases List.mem_append.mp hid with hid | hid
      · exact hp.logged id hid
      · rw [List.mem_singleton.mp hid]
        exact hp.made c (hlive c (by simp))
    total := htotal
    createTime := fun d hd => hp.createTime d (hlive d hd)
    idle := by
      intro d hd
      rw [count_log_other (hother d (List.mem_append_left _ hd))]
      exact hp.idle d (by simp [hconns, show d ∈ rest from hd])
    handed := by
      intro d hd
      rcases List.mem_cons.mp hd with rfl | hd
      · rw [count_log, if_pos rfl, hcount]
      · rw [count_log_other (hother d (List.mem_append_right _ hd))]
        exact hp.handed d hd
    bounded := by
      intro id
      by_cases hid : id = c.id
      · rw [hid, count_log, if_pos rfl, hcount]
        exact Nat.le_trans hlt (Nat.le_max_right 1 _)
      · rw [count_log_other hid]
        exact hp.bounded id }

/-- Every idle connection is deleted. -/
theorem Sound.clear (now : UInt64) (hp : p.Sound) :
    Sound { p with
      conns := []
      total := p.total - Int32.ofNat p.conns.length
      clock := now } := by
  obtain ⟨hnodup,hlive,htotal⟩ := hp.delete (List.Perm.refl p.live)
  exact {
    nodup := hnodup
    made := fun d hd => hp.made d (hlive d hd)
    logged := hp.logged
    total := htotal
    createTime := fun d hd => hp.createTime d (hlive d hd)
    idle := by simp
    handed := hp.handed
    bounded := hp.bounded }

/-- A connection is made and handed out. -/
theorem Sound.make (hp : p.Sound) (time : UInt64) :
    Sound { p with
      total := p.total + 1
      out := { id := p.made, opened := time } :: p.out
      made := p.made + 1
      log := p.log ++ [p.made]
      clock := time } := by
  have hfresh : p.log.count p.made = 0 := by
    apply List.count_eq_zero.mpr
    intro hid
    exact Nat.lt_irrefl _ (hp.logged _ hid)
  have hother : ∀ c ∈ p.live, c.id ≠ p.made := fun c hc => Nat.ne_of_lt (hp.made c hc)
  have hperm : (p.conns ++ { id := p.made, opened := time } :: p.out).Perm
      ({ id := p.made, opened := time } :: p.live) := List.perm_middle
  have hmem : ∀ c ∈ p.conns ++ { id := p.made, opened := time } :: p.out,
      c = { id := p.made, opened := time } ∨ c ∈ p.live := fun c hc =>
    List.mem_cons.mp (hperm.mem_iff.mp hc)
  exact {
    nodup := by
      apply (hperm.map HttpConnection.id).nodup_iff.mpr
      rw [List.map_cons, List.nodup_cons]
      refine ⟨?_,hp.nodup⟩
      intro hid
      obtain ⟨c,hc,heq⟩ := List.mem_map.mp hid
      exact hother c hc heq
    made := by
      intro c hc
      rcases hmem c hc with rfl | hc
      · exact Nat.lt_succ_self p.made
      · exact Nat.lt_succ_of_lt (hp.made c hc)
    logged := by
      intro id hid
      rcases List.mem_append.mp hid with hid | hid
      · exact Nat.lt_succ_of_lt (hp.logged id hid)
      · rw [List.mem_singleton.mp hid]
        exact Nat.lt_succ_self p.made
    total := by
      change p.total + 1 = Int32.ofNat (p.conns ++ _ :: p.out).length
      rw [hperm.length_eq, List.length_cons, Int32.ofNat_add, hp.total]
      rfl
    createTime := by
      intro c hc
      rcases hmem c hc with rfl | hc
      · rfl
      · exact hp.createTime c hc
    idle := by
      intro c hc
      rw [count_log_other (hother c (List.mem_append_left _ hc))]
      exact hp.idle c hc
    handed := by
      intro c hc
      rcases List.mem_cons.mp hc with rfl | hc
      · rw [count_log, if_pos rfl, hfresh]
        rfl
      · rw [count_log_other (hother c (List.mem_append_right _ hc))]
        exact hp.handed c hc
    bounded := by
      intro id
      by_cases hid : id = p.made
      · rw [hid, count_log, if_pos rfl, hfresh]
        exact Nat.le_max_left 1 _
      · rw [count_log_other hid]
        exact hp.bounded id }

/-- A connection is taken out of the hands of its caller. -/
theorem out_perm {out : List HttpConnection} {c : HttpConnection} (hc : c ∈ out)
    (h : (out.map HttpConnection.id).Nodup) :
    out.Perm (c :: out.filter fun d : HttpConnection => d.id ≠ c.id) := by
  obtain ⟨a,b,rfl⟩ := List.append_of_mem hc
  have hother : ∀ d ∈ a ++ b, d.id ≠ c.id := fun d hd => id_ne h hd
  have hfilter : (a ++ c :: b).filter (fun d : HttpConnection => d.id ≠ c.id) = a ++ b := by
    rw [List.filter_append, List.filter_cons, if_neg (by simp), ← List.filter_append]
    apply List.filter_eq_self.mpr
    intro d hd
    exact decide_eq_true (hother d hd)
  rw [hfilter]
  exact List.perm_middle

theorem Sound.out_nodup (hp : p.Sound) : (p.out.map HttpConnection.id).Nodup := by
  have hnodup := hp.nodup
  rw [live, List.map_append] at hnodup
  exact (List.nodup_append.mp hnodup).2.1

theorem Sound.live_perm {c : HttpConnection} (hp : p.Sound) (hc : c ∈ p.out) :
    p.live.Perm ([c] ++ (p.conns ++ p.out.filter fun d : HttpConnection => d.id ≠ c.id)) := by
  have hout := List.Perm.append_left p.conns (out_perm hc hp.out_nodup)
  exact hout.trans List.perm_middle

/-- A connection is deleted when it comes back. -/
theorem Sound.drop {c : HttpConnection} (hp : p.Sound) (hc : c ∈ p.out) :
    Sound { p with
      total := p.total - 1
      out := p.out.filter fun d : HttpConnection => d.id ≠ c.id
      clock := now } := by
  obtain ⟨hnodup,hlive,htotal⟩ := hp.delete (hp.live_perm hc)
  exact {
    nodup := hnodup
    made := fun d hd => hp.made d (hlive d hd)
    logged := hp.logged
    total := htotal
    createTime := fun d hd => hp.createTime d (hlive d hd)
    idle := hp.idle
    handed := fun d hd => hp.handed d (List.mem_filter.mp hd).1
    bounded := hp.bounded }

/-- The counter of a connection does not overflow. -/
theorem Sound.served_request {c : HttpConnection} (hp : p.Sound) (hc : c ∈ p.out) :
    c.served.request.toNat = c.request.toNat + 1 := by
  have hcount := hp.handed c hc
  have hbound := hp.bounded c.id
  have hmax := p.maxRequest.toNat_lt
  rw [HttpConnection.served, UInt64.toNat_add]
  apply Nat.mod_eq_of_lt
  change c.request.toNat + 1 < 2 ^ 64
  omega

/-- A connection becomes idle when it comes back. -/
theorem Sound.putBack {c : HttpConnection} (hp : p.Sound) (hc : c ∈ p.out)
    (hrequest : ¬ c.served.request ≥ p.maxRequest.toUInt64) :
    Sound { p with
      conns := p.conns ++ [c.served]
      out := p.out.filter fun d : HttpConnection => d.id ≠ c.id
      clock := now } := by
  have hperm : (p.conns ++ [c.served] ++
      p.out.filter fun d : HttpConnection => d.id ≠ c.id).Perm
        (c.served :: (p.conns ++ p.out.filter fun d : HttpConnection => d.id ≠ c.id)) := by
    rw [List.append_assoc]
    exact List.perm_middle
  have hids := (hp.live_perm hc).map HttpConnection.id
  obtain ⟨-,hlive,-⟩ := hp.delete (hp.live_perm hc)
  have hmem : ∀ d ∈ p.conns ++ [c.served] ++
      p.out.filter (fun d : HttpConnection => d.id ≠ c.id), d = c.served ∨ d ∈ p.live := by
    intro d hd
    exact (List.mem_cons.mp (hperm.mem_iff.mp hd)).imp id (hlive d)
  have hin : c ∈ p.live := List.mem_append_right _ hc
  have hcount := hp.handed c hc
  have hnext := hp.served_request hc
  have hlt : c.request.toNat + 1 < p.maxRequest.toNat := by
    rw [ge_iff_le, UInt64.le_iff_toNat_le, hnext, UInt32.toNat_toUInt64] at hrequest
    omega
  exact {
    nodup := by
      apply (hperm.map HttpConnection.id).nodup_iff.mpr
      exact hids.nodup_iff.mp hp.nodup
    made := by
      intro d hd
      rcases hmem d hd with rfl | hd
      · exact hp.made c hin
      · exact hp.made d hd
    logged := hp.logged
    total := by
      have hlen := (hp.live_perm hc).length_eq
      change p.total = Int32.ofNat (List.length (p.conns ++ [_] ++ _))
      rw [hp.total, hlen, hperm.length_eq]
      rfl
    createTime := by
      intro d hd
      rcases hmem d hd with rfl | hd
      · exact hp.createTime c hin
      · exact hp.createTime d hd
    idle := by
      intro d hd
      rcases List.mem_append.mp hd with hd | hd
      · exact hp.idle d hd
      · rw [List.mem_singleton.mp hd]
        refine ⟨?_,?_⟩
        · rw [hnext]
          exact hcount
        · rw [hnext]
          exact hlt
    handed := fun d hd => hp.handed d (List.mem_filter.mp hd).1
    bounded := hp.bounded }

theorem step_getConnection {o : Option ℕ}
    (h : p.step (.getConnection now up dial) = .ok (o, q)) :
    p.getConnection now up dial = (o, q) := Except.ok.inj h

theorem step_releasePtr {id : ℕ} {o : Option ℕ} (h : p.step (.releasePtr id now up) = .ok (o, q)) :
    o = none ∧ p.releasePtr id now up = .ok q := by
  cases hrel : p.releasePtr id now up with
  | error f =>
    simp only [step, hrel] at h
    cases h
  | ok q' =>
    simp only [step, hrel] at h
    cases h
    exact ⟨rfl,rfl⟩

/-- Every call keeps the pool sound. -/
theorem step_sound {call : PoolCall} {o : Option ℕ} (hp : p.Sound) (h : p.step call = .ok (o, q)) :
    q.Sound := by
  cases call with
  | getConnection now up dial =>
    have hcall := step_getConnection h
    rcases getConnection_cases now up dial p with
      ⟨invalid,c,rest,hconns,-,-,hget⟩ | ⟨-,⟨time,-,hget⟩ | hget⟩
    · rw [hget] at hcall
      cases hcall
      exact hp.handOut hconns
    · rw [hget] at hcall
      cases hcall
      exact (hp.clear now).make time
    · rw [hget] at hcall
      cases hcall
      exact hp.clear now
  | releasePtr id now up =>
    obtain ⟨c,hc,rfl,⟨-,rfl⟩ | ⟨hspent,rfl⟩⟩ := releasePtr_cases (step_releasePtr h).2
    · exact hp.drop hc
    · apply hp.putBack hc
      simp only [spent, Bool.or_eq_false_iff, decide_eq_false_iff_not] at hspent
      exact hspent.2

/-- A call hands out what it returns, and leaves the limits alone. -/
theorem step_log {call : PoolCall} {o : Option ℕ} (h : p.step call = .ok (o, q)) :
    q.maxRequest = p.maxRequest ∧ q.maxAliveTime = p.maxAliveTime ∧ q.log = p.log ++ o.toList := by
  cases call with
  | getConnection now up dial =>
    have hcall := step_getConnection h
    rcases getConnection_cases now up dial p with
      ⟨invalid,c,rest,-,-,-,hget⟩ | ⟨-,⟨time,-,hget⟩ | hget⟩ <;>
    · rw [hget] at hcall
      cases hcall
      simp
  | releasePtr id now up =>
    obtain ⟨rfl,hrel⟩ := step_releasePtr h
    obtain ⟨c,-,-,⟨-,rfl⟩ | ⟨-,rfl⟩⟩ := releasePtr_cases hrel <;> simp

/-- A run hands out what its calls return. -/
theorem run_log {calls : List PoolCall} {outs : List (Option ℕ)}
    (h : StepSystem.run step calls p = .ok (outs, q)) :
    q.maxRequest = p.maxRequest ∧ ∀ id, q.log.count id = p.log.count id + outs.count (some id) := by
  induction calls generalizing p outs with
  | nil =>
    cases h
    simp
  | cons call calls ih =>
    unfold StepSystem.run at h
    split at h
    next => cases h
    next o p' hstep =>
      split at h
      next => cases h
      next os q' hrest =>
        cases h
        obtain ⟨hmax,-,hlog⟩ := step_log hstep
        obtain ⟨hmax',hcount⟩ := ih hrest
        refine ⟨hmax'.trans hmax,?_⟩
        intro id
        rw [hcount, hlog, List.count_append, List.count_cons]
        cases o with
        | none => simp
        | some i =>
          simp only [Option.toList_some, List.count_singleton, beq_iff_eq, Option.some.injEq]
          omega

/-- A call that returns nothing has made no connection and has only deleted idle ones. -/
theorem getConnection_fails (h : p.getConnection now up dial = (none, q)) :
    q.made = p.made ∧ q.out = p.out ∧
      ∃ gone, p.conns = gone ++ q.conns ∧ q.total = p.total - Int32.ofNat gone.length := by
  rcases getConnection_cases now up dial p with
    ⟨invalid,c,rest,-,-,-,hget⟩ | ⟨-,⟨time,-,hget⟩ | hget⟩
  · rw [hget] at h
    cases h
  · rw [hget] at h
    cases h
  · rw [hget] at h
    cases h
    exact ⟨rfl,rfl,p.conns,by simp,rfl⟩

/-- In every state that a pool reaches, no connection is idle and handed out or handed out
twice, `total_` is the number of connections, no connection has been handed out too often,
and a call that fails makes none. -/
theorem pool_conserves {alive maxRequest : UInt32} {calls : List PoolCall}
    {outs : List (Option ℕ)}
    (h : StepSystem.run step calls { maxAliveTime := alive, maxRequest := maxRequest } =
      .ok (outs, p)) :
    ((p.conns ++ p.out).map HttpConnection.id).Nodup ∧
      p.total = Int32.ofNat (p.conns.length + p.out.length) ∧
      (∀ id, outs.count (some id) ≤ max 1 maxRequest.toNat) ∧
      ∀ now up dial q, p.getConnection now up dial = (none, q) →
        q.made = p.made ∧ q.out = p.out ∧
          ∃ gone, p.conns = gone ++ q.conns ∧ q.total = p.total - Int32.ofNat gone.length := by
  have hstart := new_sound alive maxRequest
  have hall : StepSystem.Along step (fun _ _ => True) calls
      { maxAliveTime := alive, maxRequest := maxRequest } :=
    .of_forall (fun _ _ => trivial) calls _
  have hsound : p.Sound := hall.ends Sound (fun _ _ _ _ hs _ hstep => step_sound hs hstep) hstart h
  obtain ⟨hmax,hcount⟩ := run_log h
  refine ⟨hsound.nodup,?_,?_,fun _ _ _ _ => getConnection_fails⟩
  · rw [hsound.total, live, List.length_append]
  · intro id
    have hbound := hsound.bounded id
    rw [hcount id, hmax] at hbound
    simpa using hbound

/-- A connection is made, given back, and handed out once more. -/
theorem pool_conserves_reuse :
    (StepSystem.run step [.getConnection 9 (fun _ => true) (.connected 10),
        .releasePtr 0 10 fun _ => true, .getConnection 11 (fun _ => true) .refused]
      { maxAliveTime := 1, maxRequest := 2 }).map Prod.fst = .ok [some 0, none, some 0] ∧
    ([some 0, none, some 0] : List (Option ℕ)).count (some 0) ≤ max 1 (2 : UInt32).toNat := by
  have hrun : StepSystem.run step [.getConnection 9 (fun _ => true) (.connected 10),
        .releasePtr 0 10 fun _ => true, .getConnection 11 (fun _ => true) .refused]
      { maxAliveTime := 1, maxRequest := 2 } = .ok ([some 0, none, some 0],
        { maxAliveTime := 1
          maxRequest := 2
          total := 1
          out := [{ id := 0, request := 1, opened := 10 }]
          made := 1
          log := [0, 0]
          clock := 11 }) := by
    decide
  refine ⟨by rw [hrun]; rfl,?_⟩
  exact (pool_conserves hrun).2.2.1 0

end HttpConnectionPool

end Gudov
