import Mathlib.Data.Int.Notation
import Gudov.CallOutcome

/-!
# Descriptors and their contexts

The kernel keeps status flags for every open descriptor. `FdCtx` keeps what the library
knows of a descriptor, and its constructor makes a socket non-blocking in the kernel. The
contexts stand in a table indexed by the descriptor; a context is shared, and its owner in
the table is the object that every `Get` answers with.

Only what `fcntl(2)` and `ioctl(2)` say of the status flags is taken from the kernel:
`F_SETFL` changes the settable ones and no other, `FIONBIO` changes `O_NONBLOCK`.
-/
namespace Gudov

/-- An open file: its status flags and `S_ISSOCK`. -/
structure File where
  flags : BitVec 32
  isSocket : Bool
deriving Repr, DecidableEq

def oAppend : BitVec 32 := 0x400#32
def oNonblock : BitVec 32 := 0x800#32
def oAsync : BitVec 32 := 0x2000#32
def oDirect : BitVec 32 := 0x4000#32
def oNoatime : BitVec 32 := 0x40000#32

/-- The open files by descriptor. -/
def Kernel := ℤ → Option File

namespace Kernel

/-- `fcntl(fd, F_GETFL)`; `none` is -1. -/
def fcntlGetfl (fd : ℤ) (k : Kernel) : Option (BitVec 32) := (k fd).map fun f => f.flags

def update (fd : ℤ) (change : BitVec 32 → BitVec 32) (k : Kernel) : Kernel := fun d =>
  if d = fd then (k d).map fun f => { f with flags := change f.flags } else k d

/-- The flags that `F_SETFL` can change. -/
def settable : BitVec 32 := oAppend ||| oNonblock ||| oAsync ||| oDirect ||| oNoatime

/-- `fcntl(fd, F_SETFL, arg)`: the answer and the flags afterwards. -/
def fcntlSetfl (fd : ℤ) (arg : BitVec 32) (k : Kernel) : Option (BitVec 32) × Kernel :=
  ((k fd).map fun _ => 0, k.update fd fun flags => flags &&& ~~~settable ||| arg &&& settable)

/-- `ioctl(fd, FIONBIO, &v)` -/
def ioctlFionbio (fd : ℤ) (v : BitVec 32) (k : Kernel) : Option (BitVec 32) × Kernel :=
  ((k fd).map fun _ => 0,
    k.update fd fun flags => if v ≠ 0 then flags ||| oNonblock else flags &&& ~~~oNonblock)

end Kernel

structure FdCtx where
  isInit : Bool
  isSocket : Bool
  sysNonblock : Bool
  userNonblock : Bool
  fd : ℤ
  recvTimeout : UInt64
  sendTimeout : UInt64
deriving Repr, DecidableEq

namespace FdCtx

/-- `FdCtx::IsClose` asks the kernel. -/
def isClose (c : FdCtx) (k : Kernel) : Bool := (k.fcntlGetfl c.fd).isNone

/-- `FdCtx::Init`, with the system calls it makes. -/
def init (c : FdCtx) (k : Kernel) : FdCtx × Kernel :=
  if c.isInit then (c, k) else
    let file : Option File := k c.fd
    let c := { c with
      recvTimeout := ~~~0
      sendTimeout := ~~~0
      isInit := file.isSome
      isSocket := file.any File.isSocket }
    if c.isSocket then
      let flags := (k.fcntlGetfl c.fd).getD (~~~0)
      let k := if flags &&& oNonblock = 0 then (k.fcntlSetfl c.fd (flags ||| oNonblock)).2 else k
      ({ c with sysNonblock := true, userNonblock := false }, k)
    else ({ c with sysNonblock := false, userNonblock := false }, k)

/-- The constructor. -/
def new (fd : ℤ) (k : Kernel) : FdCtx × Kernel :=
  init
    { isInit := false
      isSocket := false
      sysNonblock := false
      userNonblock := false
      fd := fd
      recvTimeout := ~~~0
      sendTimeout := ~~~0 } k

end FdCtx

/-- The table `data_`. -/
structure FdManager where
  data : List (Option FdCtx)
deriving Repr, DecidableEq

namespace FdManager

def new : FdManager := ⟨List.replicate 64 none⟩

/-- `while (fd >= data_.size()) data_.resize(fd * 1.5)` -/
def growLoop (fd : ℕ) : ℕ → List (Option FdCtx) → Except Fault (List (Option FdCtx))
  | 0, _ => .error .outOfFuel
  | fuel + 1, data =>
    if fd ≥ data.length then
      let size := fd * 3 / 2
      growLoop fd fuel (data.take size ++ List.replicate (size - data.length) none)
    else .ok data

/-- `data_[fd]`, null behind the end of the table. -/
def lookup (fd : ℤ) (m : FdManager) : Option FdCtx :=
  if fd < 0 then none else m.data[fd.toNat]?.join

/-- `FdManager::Get`. A context made on the way is stored and makes its system calls. -/
def get (fd : ℤ) (autoCreate : Bool) (m : FdManager) (k : Kernel) :
    Except Fault (Option FdCtx × FdManager × Kernel) :=
  if fd < 0 then .ok (none, m, k)
  else if (m.lookup fd).isSome || !autoCreate then .ok (m.lookup fd, m, k)
  else do
    let (ctx, k) := FdCtx.new fd k
    let data ← growLoop fd.toNat 2 m.data
    .ok (some ctx, ⟨data.set fd.toNat (some ctx)⟩, k)

/-- Assignment to fields of the context in the table. -/
def write (fd : ℤ) (c : FdCtx) (m : FdManager) : FdManager :=
  ⟨m.data.set fd.toNat (some c)⟩

theorem lookup_write {fd : ℤ} {c c' : FdCtx} {m : FdManager} (h : m.lookup fd = some c) (d : ℤ) :
    (m.write fd c').lookup d = if d = fd then some c' else m.lookup d := by
  unfold lookup at h ⊢
  split_ifs at h with hneg
  have hlt : fd.toNat < m.data.length := by
    by_contra hge
    rw [List.getElem?_eq_none (by omega)] at h
    cases h
  by_cases hd : d = fd
  · subst hd
    simp [write, hneg, hlt]
  · rw [if_neg hd]
    by_cases hdneg : d < 0
    · rw [if_pos hdneg, if_pos hdneg]
    · have hne : fd.toNat ≠ d.toNat := by omega
      simp only [if_neg hdneg, write, List.getElem?_set_ne hne]

theorem growLoop_covers {fd : ℕ} {fuel : ℕ} {data data' : List (Option FdCtx)}
    (h : growLoop fd fuel data = .ok data') : fd < data'.length := by
  induction fuel generalizing data with
  | zero => cases h
  | succ fuel ih =>
    unfold growLoop at h
    split_ifs at h with hge
    · exact ih h
    · cases h
      omega

/-- A context that `Get` makes is the one in the table. -/
theorem lookup_of_get {fd : ℤ} {m m' : FdManager} {k k' : Kernel} {ctx : FdCtx}
    (hfree : m.lookup fd = none) (hget : m.get fd true k = .ok (some ctx, m', k')) :
    m'.lookup fd = some ctx ∧ (ctx, k') = FdCtx.new fd k := by
  unfold get at hget
  simp only [hfree, Option.isSome_none, Bool.not_true, Bool.or_self, Bool.false_eq_true,
    if_false] at hget
  split_ifs at hget with hneg
  · cases hget
  · obtain ⟨data,hgrow,hget⟩ := exists_of_bind_eq_ok hget
    cases hget
    have hlt := growLoop_covers hgrow
    refine ⟨?_,rfl⟩
    simp [lookup, hneg, hlt]

end FdManager

end Gudov
