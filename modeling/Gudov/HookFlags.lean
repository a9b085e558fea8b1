import Mathlib.Data.List.Induction
import Gudov.FdManager

/-!
# The blocking mode a user sees

The hooked `fcntl` and `ioctl` keep one bit three times: the flag in the kernel, which
must stay set for the fibers' sake, the record of it in `sys_nonblock_`, and the mode the
user asked for in `user_nonblock_`. `F_SETFL` puts the kernel's flag back into its
argument; `FIONBIO` hands its argument through.
-/
namespace Gudov.HookFlags

/-- `flags & O_NONBLOCK`, as a truth value. -/
def isNonblock (flags : BitVec 32) : Bool := flags &&& oNonblock != 0

structure System where
  kernel : Kernel
  manager : FdManager

/-- `!ctx || ctx->IsClose() || !ctx->IsSocket()` sends a call straight to the kernel. -/
def managed (fd : ℤ) (s : System) : Option FdCtx :=
  (s.manager.lookup fd).filter fun ctx => !ctx.isClose s.kernel && ctx.isSocket

/-- `fcntl(fd, F_SETFL, arg)` -/
def fcntlSetfl (fd : ℤ) (arg : BitVec 32) (s : System) : Option (BitVec 32) × System :=
  match managed fd s with
  | none =>
    let (rt, k) := s.kernel.fcntlSetfl fd arg
    (rt, { s with kernel := k })
  | some ctx =>
    let manager := s.manager.write fd { ctx with userNonblock := isNonblock arg }
    let arg := if ctx.sysNonblock then arg ||| oNonblock else arg &&& ~~~oNonblock
    let (rt, k) := s.kernel.fcntlSetfl fd arg
    (rt, ⟨k,manager⟩)

/-- `fcntl(fd, F_GETFL)` -/
def fcntlGetfl (fd : ℤ) (s : System) : Option (BitVec 32) :=
  let arg := s.kernel.fcntlGetfl fd
  match managed fd s with
  | none => arg
  | some ctx =>
    -- -1 has all bits set, with and without this one
    some (if ctx.userNonblock then arg.getD (~~~0) ||| oNonblock
      else arg.getD (~~~0) &&& ~~~oNonblock)

/-- `ioctl(d, FIONBIO, &v)` -/
def ioctlFionbio (d : ℤ) (v : BitVec 32) (s : System) : Option (BitVec 32) × System :=
  let userNonblock := v != 0
  let manager := match managed d s with
    | none => s.manager
    | some ctx => s.manager.write d { ctx with userNonblock := userNonblock }
  let (rt, k) := s.kernel.ioctlFionbio d v
  (rt, ⟨k,manager⟩)

inductive Op
  | setfl (fd : ℤ) (arg : BitVec 32)
  | getfl (fd : ℤ)
  | fionbio (fd : ℤ) (v : BitVec 32)
deriving Repr, DecidableEq

def step (s : System) : Op → Option (BitVec 32) × System
  | .setfl fd arg => fcntlSetfl fd arg s
  | .getfl fd => (fcntlGetfl fd s, s)
  | .fionbio fd v => ioctlFionbio fd v s

/-- The state after a sequence of calls. -/
def after (s : System) (ops : List Op) : System := ops.foldl (fun s op => (step s op).2) s

/-- What a call asks of the blocking mode of `fd`. -/
def Op.asks (fd : ℤ) : Op → Option Bool
  | .setfl d arg => if d = fd then some (isNonblock arg) else none
  | .getfl _ => none
  | .fionbio d v => if d = fd then some (v != 0) else none

/-- The most recent request for `fd`; blocking if there was none. -/
def asked (fd : ℤ) (ops : List Op) : Bool :=
  ops.foldl (fun mode op => (op.asks fd).getD mode) false

/-- The kernel's flag of an open descriptor is set. -/
def KernelNonblock (fd : ℤ) (s : System) : Prop :=
  ∃ flags, s.kernel.fcntlGetfl fd = some flags ∧ isNonblock flags = true

/-- The virtual blocking mode: non-blocking in the kernel and on record, and shown to the
user as asked for. -/
structure Virtual (fd : ℤ) (mode : Bool) (s : System) : Prop where
  kernel : KernelNonblock fd s
  recorded : ∃ ctx, s.manager.lookup fd = some ctx ∧ ctx.sysNonblock = true
  shown : ∃ flags, fcntlGetfl fd s = some flags ∧ isNonblock flags = mode

/-! ## The flag as a bit -/

theorem getLsbD_oNonblock (i : ℕ) : oNonblock.getLsbD i = decide (i = 11) := by
  by_cases hi : i < 32
  · revert hi
    revert i
    decide
  · have hne : i ≠ 11 := by omega
    rw [BitVec.getLsbD_of_ge _ _ (by omega), decide_eq_false hne]

theorem isNonblock_eq (x : BitVec 32) : isNonblock x = x.getLsbD 11 := by
  cases hbit : x.getLsbD 11 with
  | true =>
    rw [isNonblock, bne_iff_ne]
    intro hzero
    have hget : (x &&& oNonblock).getLsbD 11 = false := by
      rw [hzero]
      rfl
    rw [BitVec.getLsbD_and, getLsbD_oNonblock, hbit] at hget
    cases hget
  | false =>
    have hzero : x &&& oNonblock = 0 := by
      apply BitVec.eq_of_getLsbD_eq
      intro i hi
      rw [BitVec.getLsbD_and, getLsbD_oNonblock]
      by_cases h : i = 11
      · subst h
        rw [hbit]
        rfl
      · simp [h]
    rw [isNonblock, hzero]
    rfl

@[simp] theorem isNonblock_or (x : BitVec 32) : isNonblock (x ||| oNonblock) = true := by
  rw [isNonblock_eq, BitVec.getLsbD_or, getLsbD_oNonblock]
  simp

@[simp] theorem isNonblock_clear (x : BitVec 32) : isNonblock (x &&& ~~~oNonblock) = false := by
  rw [isNonblock_eq, BitVec.getLsbD_and, BitVec.getLsbD_not, getLsbD_oNonblock]
  simp

/-- `O_NONBLOCK` is one of the flags that `F_SETFL` takes from its argument. -/
@[simp] theorem isNonblock_setfl (flags arg : BitVec 32) :
    isNonblock (flags &&& ~~~Kernel.settable ||| arg &&& Kernel.settable) = isNonblock arg := by
  have hbit : Kernel.settable.getLsbD 11 = true := by decide
  rw [isNonblock_eq, isNonblock_eq, BitVec.getLsbD_or, BitVec.getLsbD_and, BitVec.getLsbD_and,
    BitVec.getLsbD_not, hbit]
  simp

/-! ## One call -/

section Calls
variable {fd : ℤ} {mode : Bool} {s : System}

/-- The socket is open and its context knows it as a socket made non-blocking. -/
def Tracked (fd : ℤ) (mode : Bool) (s : System) : Prop :=
  ∃ f ctx, s.kernel fd = some f ∧ s.manager.lookup fd = some ctx ∧ ctx.fd = fd ∧
    ctx.isSocket = true ∧ ctx.sysNonblock = true ∧ ctx.userNonblock = mode

theorem managed_lookup {ctx : FdCtx} (h : managed fd s = some ctx) :
    s.manager.lookup fd = some ctx := by
  simp only [managed, Option.filter_eq_some_iff] at h
  exact h.1

theorem managed_of_tracked (h : Tracked fd mode s) :
    ∃ f ctx, s.kernel fd = some f ∧ managed fd s = some ctx ∧ ctx.fd = fd ∧
      ctx.isSocket = true ∧ ctx.sysNonblock = true ∧ ctx.userNonblock = mode := by
  obtain ⟨f,ctx,hf,hctx,hfd,hsock,hsys,huser⟩ := h
  refine ⟨f,ctx,hf,?_,hfd,hsock,hsys,huser⟩
  simp [managed, hctx, FdCtx.isClose, Kernel.fcntlGetfl, hfd, hf, hsock]

/-- A change of flags and of the mode on record keeps the socket tracked. -/
theorem Tracked.update (h : Tracked fd mode s) {d : ℤ} (change : BitVec 32 → BitVec 32)
    (user : Bool) :
    Tracked fd (if d = fd then user else mode)
      ⟨s.kernel.update d change,
        match managed d s with
        | none => s.manager
        | some ctx => s.manager.write d { ctx with userNonblock := user }⟩ := by
  obtain ⟨f,ctx,hf,hctx,hfd,hsock,hsys,huser⟩ := h
  by_cases hd : d = fd
  · subst hd
    obtain ⟨-,ctx',-,hman,-⟩ := managed_of_tracked ⟨f,ctx,hf,hctx,hfd,hsock,hsys,huser⟩
    have heq : ctx' = ctx := Option.some.inj ((managed_lookup hman).symm.trans hctx)
    subst heq
    refine ⟨{ f with flags := change f.flags },{ ctx' with userNonblock := user },?_,?_,hfd,hsock,
      hsys,by rw [if_pos rfl]⟩
    · simp only [Kernel.update, if_true, hf, Option.map_some]
    · simp only [hman, FdManager.lookup_write hctx, if_true]
  · rw [if_neg hd]
    refine ⟨f,ctx,by simp only [Kernel.update, if_neg (Ne.symm hd), hf],?_,hfd,hsock,hsys,huser⟩
    cases hman : managed d s with
    | none => exact hctx
    | some ctx' => simp only [FdManager.lookup_write (managed_lookup hman), if_neg (Ne.symm hd), hctx]

theorem getD_asks (d : ℤ) (user : Bool) :
    (if d = fd then some user else none).getD mode = if d = fd then user else mode := by
  split <;> rfl

theorem step_tracked (h : Tracked fd mode s) (op : Op) :
    Tracked fd ((op.asks fd).getD mode) (step s op).2 := by
  cases op with
  | setfl d arg =>
    simp only [Op.asks, getD_asks, step, fcntlSetfl]
    cases hman : managed d s with
    | none =>
      have hupdate := h.update (d := d)
        (fun flags => flags &&& ~~~Kernel.settable ||| arg &&& Kernel.settable) (isNonblock arg)
      rw [hman] at hupdate
      exact hupdate
    | some ctx =>
      let arg' := if ctx.sysNonblock then arg ||| oNonblock else arg &&& ~~~oNonblock
      have hupdate := h.update (d := d)
        (fun flags => flags &&& ~~~Kernel.settable ||| arg' &&& Kernel.settable) (isNonblock arg)
      rw [hman] at hupdate
      exact hupdate
  | getfl d => exact h
  | fionbio d v =>
    simp only [Op.asks, getD_asks]
    exact h.update _ (v != 0)

theorem kernelNonblock_iff {f : File} (hf : s.kernel fd = some f) :
    KernelNonblock fd s ↔ isNonblock f.flags = true := by
  simp [KernelNonblock, Kernel.fcntlGetfl, hf]

theorem kernelNonblock_update {f : File} (hf : s.kernel fd = some f) (d : ℤ)
    (change : BitVec 32 → BitVec 32) (m : FdManager) :
    KernelNonblock fd ⟨s.kernel.update d change,m⟩ ↔
      isNonblock (if d = fd then change f.flags else f.flags) = true := by
  simp only [KernelNonblock, Kernel.fcntlGetfl, Kernel.update]
  by_cases hd : d = fd
  · subst hd
    simp [hf]
  · simp [hd, Ne.symm hd, hf]

/-- The kernel's flag stays, unless `FIONBIO` asks for blocking mode. -/
theorem step_kernelNonblock (h : Tracked fd mode s) (hk : KernelNonblock fd s) (op : Op) :
    KernelNonblock fd (step s op).2 ↔ op ≠ .fionbio fd 0 := by
  obtain ⟨f,ctx,hf,hman,-,-,hsys,-⟩ := managed_of_tracked h
  have hbit := (kernelNonblock_iff hf).mp hk
  cases op with
  | setfl d arg =>
    refine iff_of_true ?_ (by simp)
    simp only [step, fcntlSetfl]
    by_cases hd : d = fd
    · subst hd
      simp only [hman, hsys, if_true, Kernel.fcntlSetfl]
      rw [kernelNonblock_update hf, if_pos rfl, isNonblock_setfl, isNonblock_or]
    · cases managed d s with
      | none =>
        simp only [Kernel.fcntlSetfl]
        rw [kernelNonblock_update hf, if_neg hd, hbit]
      | some ctx' =>
        simp only [Kernel.fcntlSetfl]
        rw [kernelNonblock_update hf, if_neg hd, hbit]
  | getfl d => exact iff_of_true hk (by simp)
  | fionbio d v =>
    simp only [step, ioctlFionbio, Kernel.ioctlFionbio]
    rw [kernelNonblock_update hf]
    by_cases hd : d = fd
    · subst hd
      rw [if_pos rfl]
      split_ifs with hv
      · simpa using hv
      · simpa using hv
    · simp [hd, hbit]

theorem fcntlGetfl_shows (h : Tracked fd mode s) :
    ∃ flags, fcntlGetfl fd s = some flags ∧ isNonblock flags = mode := by
  obtain ⟨f,ctx,hf,hman,-,-,-,huser⟩ := managed_of_tracked h
  simp only [fcntlGetfl, hman, huser, Option.some.injEq, exists_eq_left']
  cases mode <;> simp

theorem virtual_iff (h : Tracked fd mode s) : Virtual fd mode s ↔ KernelNonblock fd s := by
  refine ⟨fun hv => hv.kernel,fun hk => ⟨hk,?_,fcntlGetfl_shows h⟩⟩
  obtain ⟨f,ctx,-,hctx,-,-,hsys,-⟩ := h
  exact ⟨ctx,hctx,hsys⟩

end Calls

/-! ## Runs -/

section Runs
variable {fd : ℤ} {s : System}

theorem after_concat (ops : List Op) (op : Op) :
    after s (ops ++ [op]) = (step (after s ops) op).2 := by
  simp only [after, List.foldl_append, List.foldl_cons, List.foldl_nil]

theorem asked_concat (ops : List Op) (op : Op) :
    asked fd (ops ++ [op]) = (op.asks fd).getD (asked fd ops) := by
  simp only [asked, List.foldl_append, List.foldl_cons, List.foldl_nil]

theorem after_tracked (h : Tracked fd false s) (ops : List Op) :
    Tracked fd (asked fd ops) (after s ops) := by
  induction ops using List.reverseRecOn with
  | nil => exact h
  | append_singleton ops op ih =>
    rw [after_concat, asked_concat]
    exact step_tracked ih op

theorem after_kernelNonblock (h : Tracked fd false s) (hk : KernelNonblock fd s) (ops : List Op) :
    (∀ pre, pre <+: ops → KernelNonblock fd (after s pre)) ↔ .fionbio fd 0 ∉ ops := by
  induction ops using List.reverseRecOn with
  | nil =>
    refine iff_of_true ?_ (by simp)
    intro pre hpre
    rw [List.prefix_nil.mp hpre]
    exact hk
  | append_singleton ops op ih =>
    have hlast := after_concat (s := s) ops op
    constructor
    · intro hall hmem
      have hbefore := ih.mp fun pre hpre => hall pre (hpre.trans (List.prefix_append ops [op]))
      have hop := (step_kernelNonblock (after_tracked h ops)
        (hall ops (List.prefix_append ops [op])) op).mp (hlast ▸ hall _ (List.prefix_refl _))
      rcases List.mem_append.mp hmem with hmem | hmem
      · exact hbefore hmem
      · exact hop (List.mem_singleton.mp hmem).symm
    · intro hnot pre hpre
      simp only [List.mem_append, List.mem_singleton, not_or] at hnot
      have hall := ih.mpr hnot.1
      rcases List.prefix_concat_iff.mp hpre with rfl | hpre
      · rw [hlast]
        exact (step_kernelNonblock (after_tracked h ops) (hall ops (List.prefix_refl _)) op).mpr
          (Ne.symm hnot.2)
      · exact hall pre hpre

/-- `FdManager::Get(fd, true)` on an open socket without a context, as the hooked `socket`
and `accept` call it. -/
structure Registers (fd : ℤ) (k : Kernel) (m : FdManager) (s : System) : Prop where
  free : m.lookup fd = none
  isOpen : ∃ f, k fd = some f ∧ f.isSocket = true
  get_eq : ∃ ctx, m.get fd true k = .ok (some ctx, s.manager, s.kernel)

theorem Registers.tracked {k : Kernel} {m : FdManager} (h : Registers fd k m s) :
    Tracked fd false s ∧ KernelNonblock fd s := by
  obtain ⟨ctx,hget⟩ := h.get_eq
  obtain ⟨f,hf,hsock⟩ := h.isOpen
  obtain ⟨hlook,hnew⟩ := FdManager.lookup_of_get h.free hget
  simp only [FdCtx.new, FdCtx.init, Bool.false_eq_true, if_false, hf, Option.any_some, hsock,
    if_true, Option.isSome_some, Kernel.fcntlGetfl, Option.map_some, Option.getD_some,
    Prod.mk.injEq] at hnew
  obtain ⟨rfl,hkernel⟩ := hnew
  split_ifs at hkernel with hflag
  · have hk : s.kernel = k.update fd fun flags =>
        flags &&& ~~~Kernel.settable ||| (f.flags ||| oNonblock) &&& Kernel.settable := hkernel
    have hopen : s.kernel fd = some { f with flags :=
        f.flags &&& ~~~Kernel.settable ||| (f.flags ||| oNonblock) &&& Kernel.settable } := by
      simp only [hk, Kernel.update, if_true, hf, Option.map_some]
    refine ⟨⟨_,_,hopen,hlook,rfl,rfl,rfl,rfl⟩,(kernelNonblock_iff hopen).mpr ?_⟩
    rw [isNonblock_setfl, isNonblock_or]
  · have hopen : s.kernel fd = some f := by rw [hkernel, hf]
    refine ⟨⟨_,_,hopen,hlook,rfl,rfl,rfl,rfl⟩,(kernelNonblock_iff hopen).mpr ?_⟩
    rw [isNonblock, bne_iff_ne]
    exact hflag

/-- After every call on a registered socket the kernel is non-blocking and the user sees the
mode last asked for, exactly when no `FIONBIO` with zero is among the calls. -/
theorem virtual_blocking_mode {k : Kernel} {m : FdManager} (h : Registers fd k m s)
    (ops : List Op) :
    (∀ pre, pre <+: ops → Virtual fd (asked fd pre) (after s pre)) ↔ .fionbio fd 0 ∉ ops := by
  obtain ⟨htracked,hk⟩ := h.tracked
  rw [← after_kernelNonblock htracked hk ops]
  constructor
  · intro hall pre hpre
    exact (virtual_iff (after_tracked htracked pre)).mp (hall pre hpre)
  · intro hall pre hpre
    exact (virtual_iff (after_tracked htracked pre)).mpr (hall pre hpre)

end Runs

/-- One open socket, in blocking mode and open for reading and writing. -/
def oneSocket : Kernel := fun fd => if fd = 5 then some ⟨2#32,true⟩ else none

theorem oneSocket_registers : ∃ s, Registers 5 oneSocket FdManager.new s :=
  ⟨⟨_,_⟩,by decide,⟨_,rfl,rfl⟩,_,rfl⟩

theorem virtual_blocking_mode_five :
    ∃ s, Registers 5 oneSocket FdManager.new s ∧
      ((∀ pre, pre <+: [Op.setfl 5 0x802#32, .getfl 5, .fionbio 5 1, .setfl 5 2#32] →
          Virtual 5 (asked 5 pre) (after s pre)) ↔
        Op.fionbio 5 0 ∉ [Op.setfl 5 0x802#32, .getfl 5, .fionbio 5 1, .setfl 5 2#32]) := by
  obtain ⟨s,hs⟩ := oneSocket_registers
  exact ⟨s,hs,virtual_blocking_mode hs _⟩

/-- A single `FIONBIO` with zero takes the flag out of the kernel. -/
theorem fionbio_zero_blocks :
    ∃ s, Registers 5 oneSocket FdManager.new s ∧
      ¬ Virtual 5 (asked 5 [.fionbio 5 0]) (after s [.fionbio 5 0]) := by
  refine ⟨⟨_,_⟩,⟨by decide,⟨_,rfl,rfl⟩,_,rfl⟩,?_⟩
  rintro ⟨⟨flags,hflags,hset⟩,-,-⟩
  cases hflags
  revert hset
  decide

end Gudov.HookFlags
