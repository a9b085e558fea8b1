import Mathlib.Data.List.Basic
import Mathlib.Data.Int.ModEq
import Gudov.CallOutcome

/-!
# `Stream::ReadFixSize` and `Stream::WriteFixSize`

Both loops keep the result of `read` or `write`, an `int`, in a `size_t`. The test for an
error then catches the result 0 only: after a negative one the offset goes back, the number
of bytes that are left grows, and the loop goes on.

The results of the calls are arbitrary within what the calls promise. What the loops should
do is said with the bytes moved by the calls before the first one that moves none.
-/
namespace Gudov

/-- What the calls on a stream return: call `k`, when it is asked for `n` bytes. -/
structure StreamResults where
  result : ℕ → ℕ → ℤ
  result_le : ∀ k n, result k n ≤ n
  result_int : ∀ k n, -2 ^ 31 ≤ result k n ∧ result k n < 2 ^ 31

/-- Reads of the given numbers of bytes, as far as they are asked for, and then nothing. -/
def readsOf (reads : List ℕ) : StreamResults where
  result k n := min (min n (reads.getD k 0)) (2 ^ 31 - 1)
  result_le k n := by omega
  result_int k n := by omega

/-- How a loop ends: its result, the number of calls it has made and the state. -/
structure Transfer (σ : Type) where
  value : ℤ
  calls : ℕ
  state : σ
deriving Repr, DecidableEq

namespace Stream

/-- An `int` as a `size_t`. -/
def toSize (r : ℤ) : ℕ := (r % 2 ^ 64).toNat

/-- A `size_t` as an `int`. -/
def toInt (n : ℕ) : ℤ := (n : ℤ).bmod (2 ^ 32)

/-- The sum and the difference of two `size_t`. -/
def addSize (a b : ℕ) : ℕ := (a + b) % 2 ^ 64

def subSize (a b : ℕ) : ℕ := (a + 2 ^ 64 - b) % 2 ^ 64

variable {σ : Type}

/-- A call that returns a positive number moves so many bytes between the stream and the
memory at an offset from the buffer. -/
def call (move : ℕ → ℕ → σ → Except Fault σ) (offset : ℕ) (r : ℤ) (s : σ) : Except Fault σ :=
  if 0 < r then move offset r.toNat s else .ok s

/-- The loop of both functions. -/
def fixSize (results : StreamResults) (maxLen : ℕ) (move : ℕ → ℕ → σ → Except Fault σ)
    (length : ℕ) : ℕ → ℕ → ℕ → ℕ → σ → Except Fault (Transfer σ)
  | 0, _, _, _, _ => .error .outOfFuel
  | fuel + 1, calls, offset, left, s =>
    if left = 0 then .ok { value := toInt length, calls := calls, state := s }
    else do
      let r := results.result calls (min left maxLen)
      let s ← call move offset r s
      let len := toSize r
      if len = 0 then .ok { value := toInt len, calls := calls + 1, state := s }
      else
        fixSize results maxLen move length fuel (calls + 1) (addSize offset len)
          (subSize left len) s

/-- A memory, and the number of bytes taken from the stream. -/
structure Receiver where
  memory : List UInt8
  received : ℕ := 0
deriving Repr, DecidableEq

/-- The next bytes of the stream are stored. -/
def receive (stream : ℕ → UInt8) (buffer offset r : ℕ) (s : Receiver) : Except Fault Receiver :=
  let start := addSize buffer offset
  let bytes := (List.range r).map fun i => stream (s.received + i)
  if start + r ≤ s.memory.length then
    .ok {
      memory := s.memory.take start ++ bytes ++ s.memory.drop (start + r)
      received := s.received + r }
  else .error .outOfBounds

/-- `ReadFixSize`; the buffer is a place in the memory. -/
def readFixSize (results : StreamResults) (stream : ℕ → UInt8) (maxLen : ℕ) (memory : List UInt8)
    (buffer length fuel : ℕ) : Except Fault (Transfer Receiver) :=
  fixSize results maxLen (receive stream buffer) length fuel 0 0 length { memory := memory }

/-- Bytes of the memory are sent. -/
def send (memory : List UInt8) (buffer offset r : ℕ) (sent : List UInt8) :
    Except Fault (List UInt8) :=
  let start := addSize buffer offset
  if start + r ≤ memory.length then .ok (sent ++ (memory.drop start).take r)
  else .error .outOfBounds

/-- `WriteFixSize`. -/
def writeFixSize (results : StreamResults) (maxLen : ℕ) (memory : List UInt8)
    (buffer length fuel : ℕ) : Except Fault (Transfer (List UInt8)) :=
  fixSize results maxLen (send memory buffer) length fuel 0 0 length []

section Prescribed
variable (results : StreamResults) (maxLen length : ℕ)

/-- The bytes moved by the first calls, as long as each one asks for what is left. -/
def moved : ℕ → ℕ
  | 0 => 0
  | k + 1 => moved k + (results.result k (min (length - moved k) maxLen)).toNat

/-- The result of a call. -/
def answer (k : ℕ) : ℤ := results.result k (min (length - moved results maxLen length k) maxLen)

/-- The calls before this one have all moved something. -/
def Moving (k : ℕ) : Prop := ∀ j < k, 0 < answer results maxLen length j

/-- The loop ends with the first call that moves nothing, and with its result, or when all
bytes are moved. -/
def Stops (content : ℕ → σ) (t : Transfer σ) : Prop :=
  ∃ k, Moving results maxLen length k ∧ t.state = content (moved results maxLen length k) ∧
    (moved results maxLen length k = length ∧ t.calls = k ∧
        (length < 2 ^ 31 → t.value = length) ∨
      moved results maxLen length k < length ∧ answer results maxLen length k ≤ 0 ∧
        t.calls = k + 1 ∧ t.value = answer results maxLen length k)

/-- The first call that moves nothing, if it comes before all is moved, is not an error. -/
def NoFailure : Prop :=
  ∀ k, Moving results maxLen length k → moved results maxLen length k < length →
    0 ≤ answer results maxLen length k

end Prescribed

theorem toSize_nonneg {r : ℤ} (h : 0 ≤ r) (hr : r < 2 ^ 31) : toSize r = r.toNat := by
  unfold toSize
  rw [Int.emod_eq_of_lt h (by omega)]

theorem toSize_neg {r : ℤ} (h : r < 0) (hr : -2 ^ 31 ≤ r) : toSize r = 2 ^ 64 - r.natAbs := by
  unfold toSize
  omega

theorem addSize_eq {a b : ℕ} (h : a + b < 2 ^ 64) : addSize a b = a + b := Nat.mod_eq_of_lt h

theorem subSize_eq {a b : ℕ} (h : b ≤ a) (ha : a < 2 ^ 64) : subSize a b = a - b := by
  unfold subSize
  omega

/-- Taking away a negative number adds its absolute value. -/
theorem subSize_neg {a b : ℕ} (h : a + b < 2 ^ 64) : subSize a (2 ^ 64 - b) = a + b := by
  unfold subSize
  omega

theorem toInt_eq {n : ℕ} (h : n < 2 ^ 31) : toInt n = n := by
  unfold toInt
  exact Int.bmod_eq_of_le (by omega) (by omega)

theorem fixSize_zero {results : StreamResults} {maxLen length fuel calls offset : ℕ}
    {move : ℕ → ℕ → σ → Except Fault σ} {s : σ} :
    fixSize results maxLen move length (fuel + 1) calls offset 0 s =
      .ok { value := toInt length, calls := calls, state := s } := if_pos rfl

theorem fixSize_succ {results : StreamResults} {maxLen length fuel calls offset left : ℕ}
    {move : ℕ → ℕ → σ → Except Fault σ} {s : σ} {r : ℤ} (hleft : left ≠ 0)
    (hr : results.result calls (min left maxLen) = r) :
    fixSize results maxLen move length (fuel + 1) calls offset left s =
      (call move offset r s >>= fun s =>
        if toSize r = 0 then .ok { value := toInt (toSize r), calls := calls + 1, state := s }
        else fixSize results maxLen move length fuel (calls + 1) (addSize offset (toSize r))
          (subSize left (toSize r)) s) := by
  simp only [fixSize, hleft, if_false, hr]

section Loop
variable (results : StreamResults) (maxLen length : ℕ)

theorem moved_le (k : ℕ) : moved results maxLen length k ≤ length := by
  induction k with
  | zero => exact Nat.zero_le _
  | succ k ih =>
    have hle := results.result_le k (min (length - moved results maxLen length k) maxLen)
    simp only [moved]
    omega

/-- A call that moves something does not come after the last byte. -/
theorem moved_lt_of_pos {k : ℕ} (h : 0 < answer results maxLen length k) :
    moved results maxLen length k < length := by
  have hle := results.result_le k (min (length - moved results maxLen length k) maxLen)
  unfold answer at h
  omega

theorem moved_succ (k : ℕ) : moved results maxLen length (k + 1) =
    moved results maxLen length k + (answer results maxLen length k).toNat := rfl

/-- The loop before call `k`, when all calls before have moved something. -/
def loopAt (move : ℕ → ℕ → σ → Except Fault σ) (content : ℕ → σ) (fuel k : ℕ) :
    Except Fault (Transfer σ) :=
  fixSize results maxLen move length fuel k (moved results maxLen length k)
    (length - moved results maxLen length k) (content (moved results maxLen length k))

variable {results maxLen length} {move : ℕ → ℕ → σ → Except Fault σ} {content : ℕ → σ} {fuel k : ℕ}

theorem Moving.succ (h : Moving results maxLen length k)
    (hk : 0 < answer results maxLen length k) : Moving results maxLen length (k + 1) := by
  intro j hj
  by_cases hjk : j = k
  · rwa [hjk]
  · exact h j (by omega)

theorem loopAt_finished (h : moved results maxLen length k = length) :
    loopAt results maxLen length move content (fuel + 1) k =
      .ok {
        value := toInt length
        calls := k
        state := content (moved results maxLen length k) } := by
  rw [loopAt, fixSize, if_pos (by omega)]

theorem loopAt_zero (hk : answer results maxLen length k = 0)
    (hlt : moved results maxLen length k < length) :
    loopAt results maxLen length move content (fuel + 1) k =
      .ok {
        value := answer results maxLen length k
        calls := k + 1
        state := content (moved results maxLen length k) } := by
  have hr : results.result k (min (length - moved results maxLen length k) maxLen) = 0 := hk
  rw [loopAt, fixSize_succ (by omega) hr, call, if_neg (by omega), ok_bind, hk]
  rw [toSize_nonneg (Int.le_refl 0) (by omega), Int.toNat_zero, if_pos rfl, toInt_eq (by omega)]
  rfl

theorem loopAt_moves (hmove : ∀ d r, d + r ≤ length → move d r (content d) = .ok (content (d + r)))
    (hlength : length < 2 ^ 63) (hk : 0 < answer results maxLen length k) :
    loopAt results maxLen length move content (fuel + 1) k =
      loopAt results maxLen length move content fuel (k + 1) := by
  have hlt := moved_lt_of_pos results maxLen length hk
  have hnext := moved_le results maxLen length (k + 1)
  have hint := results.result_int k (min (length - moved results maxLen length k) maxLen)
  rw [moved_succ] at hnext
  have hr : results.result k (min (length - moved results maxLen length k) maxLen) =
    answer results maxLen length k := rfl
  rw [hr] at hint
  have hsize := toSize_nonneg hk.le hint.2
  rw [loopAt, fixSize_succ (by omega) hr, call, if_pos hk, hmove _ _ hnext, ok_bind, hsize]
  rw [if_neg (by omega), addSize_eq (by omega), subSize_eq (by omega) (by omega), Nat.sub_sub]
  rfl

/-- A loop makes at least the calls it has made, and one more when bytes are left. -/
theorem calls_le {calls offset left : ℕ} {s : σ} {t : Transfer σ}
    (h : fixSize results maxLen move length fuel calls offset left s = .ok t) :
    calls ≤ t.calls ∧ (left ≠ 0 → calls < t.calls) := by
  induction fuel generalizing calls offset left s with
  | zero => cases h
  | succ fuel ih =>
    by_cases hleft : left = 0
    · rw [fixSize, if_pos hleft] at h
      rw [← Except.ok.inj h]
      exact ⟨Nat.le_refl _,fun hne => absurd hleft hne⟩
    · rw [fixSize_succ hleft rfl] at h
      obtain ⟨r,_,h⟩ := exists_of_bind_eq_ok h
      split at h
      next =>
        rw [← Except.ok.inj h]
        exact ⟨Nat.le_succ _,fun _ => Nat.lt_succ_self _⟩
      next =>
        have := (ih h).1
        omega

/-- After an error the loop goes on. -/
theorem calls_of_failure (hlength : length < 2 ^ 63) {t : Transfer σ}
    (hlt : moved results maxLen length k < length) (hk : answer results maxLen length k < 0)
    (h : loopAt results maxLen length move content fuel k = .ok t) : k + 1 < t.calls := by
  cases fuel with
  | zero => cases h
  | succ fuel =>
    have hint := results.result_int k (min (length - moved results maxLen length k) maxLen)
    have hr : results.result k (min (length - moved results maxLen length k) maxLen) =
      answer results maxLen length k := rfl
    rw [hr] at hint
    have hsize := toSize_neg hk hint.1
    rw [loopAt, fixSize_succ (by omega) hr, call, if_neg hk.not_gt, ok_bind, hsize] at h
    rw [if_neg (by omega), subSize_neg (by omega)] at h
    exact (calls_le h).2 (by omega)

/-- Without an error the loop ends as it should. -/
theorem loopAt_stops
    (hmove : ∀ d r, d + r ≤ length → move d r (content d) = .ok (content (d + r)))
    (hlength : length < 2 ^ 63) (hno : NoFailure results maxLen length)
    (hk : Moving results maxLen length k) :
    ∃ fuel t, loopAt results maxLen length move content fuel k = .ok t ∧
      Stops results maxLen length content t := by
  -- The bytes that are left decrease with every call that moves some.
  induction hleft : length - moved results maxLen length k using Nat.strong_induction_on
    generalizing k with
  | _ left ih =>
    have hle := moved_le results maxLen length k
    by_cases hfinished : moved results maxLen length k = length
    · refine ⟨1,_,loopAt_finished hfinished,k,hk,rfl,.inl ⟨hfinished,rfl,?_⟩⟩
      intro hint
      dsimp only
      rw [toInt_eq hint]
    have hlt : moved results maxLen length k < length := by omega
    rcases (hno k hk hlt).eq_or_lt with hzero | hpos
    · exact ⟨1,_,loopAt_zero hzero.symm hlt,k,hk,rfl,.inr ⟨hlt,hzero.ge,rfl,rfl⟩⟩
    · have hnext := moved_succ results maxLen length k
      obtain ⟨fuel,t,ht,hstops⟩ := ih (length - moved results maxLen length (k + 1))
        (by omega) (hk.succ hpos) rfl
      exact ⟨fuel + 1,t,(loopAt_moves hmove hlength hpos).trans ht,hstops⟩

/-- A loop that ends passes through the calls that move something. -/
theorem loopAt_of_zero
    (hmove : ∀ d r, d + r ≤ length → move d r (content d) = .ok (content (d + r)))
    (hlength : length < 2 ^ 63) {t : Transfer σ} (hk : Moving results maxLen length k)
    (h : loopAt results maxLen length move content fuel 0 = .ok t) :
    ∃ fuel', loopAt results maxLen length move content fuel' k = .ok t := by
  induction k with
  | zero => exact ⟨fuel,h⟩
  | succ k ih =>
    obtain ⟨fuel',h'⟩ := ih fun j hj => hk j (by omega)
    cases fuel' with
    | zero => cases h'
    | succ fuel' =>
      rw [loopAt_moves hmove hlength (hk k (by omega))] at h'
      exact ⟨fuel',h'⟩

variable (results maxLen) in
/-- The loop does what it should exactly when the calls do not fail. -/
theorem stops_iff (hmove : ∀ d r, d + r ≤ length → move d r (content d) = .ok (content (d + r)))
    (hlength : length < 2 ^ 63) :
    (∃ fuel t, fixSize results maxLen move length fuel 0 0 length (content 0) = .ok t ∧
      Stops results maxLen length content t) ↔ NoFailure results maxLen length := by
  constructor
  · intro ⟨fuel,t,h,k,hk,_,hend⟩ j hj hlt
    by_contra hneg
    rw [not_le] at hneg
    -- Both calls are the first one that moves nothing.
    have hkj : k = j := by
      rcases Nat.lt_trichotomy k j with hlt' | heq | hgt
      · have hpos := hj k hlt'
        have := moved_lt_of_pos results maxLen length hpos
        omega
      · exact heq
      · have := hk j hgt
        omega
    subst hkj
    obtain ⟨fuel',h'⟩ := loopAt_of_zero hmove hlength hj h
    have hcalls := calls_of_failure hlength hlt hneg h'
    omega
  · intro hno
    exact loopAt_stops hmove hlength hno fun j hj => absurd hj (Nat.not_lt_zero j)

end Loop

section Buffer
variable (stream : ℕ → UInt8) (memory : List UInt8) (buffer : ℕ)

theorem map_range_add (f : ℕ → UInt8) (m n : ℕ) :
    (List.range (m + n)).map f = (List.range m).map f ++ (List.range n).map fun i => f (m + i) := by
  rw [List.range_add, List.map_append, List.map_map]
  rfl

/-- The first bytes of the stream are in the buffer and the rest of the memory is as before. -/
def stored (d : ℕ) : Receiver where
  memory := memory.take buffer ++ (List.range d).map stream ++ memory.drop (buffer + d)
  received := d

theorem stored_zero : stored stream memory buffer 0 = { memory := memory } := by
  simp [stored]

variable {memory buffer} {length d r : ℕ}

theorem receive_stored (hfit : buffer + length ≤ memory.length) (hsize : memory.length < 2 ^ 63)
    (hr : d + r ≤ length) :
    receive stream buffer d r (stored stream memory buffer d) =
      .ok (stored stream memory buffer (d + r)) := by
  have hbefore : (memory.take buffer ++ (List.range d).map stream).length = buffer + d := by
    simp only [List.length_append, List.length_take, List.length_map, List.length_range]
    omega
  have hlength : (stored stream memory buffer d).memory.length = memory.length := by
    rw [stored, List.length_append, hbefore, List.length_drop]
    omega
  unfold receive
  rw [addSize_eq (by omega), hlength, if_pos (by omega)]
  simp only [stored]
  rw [List.take_left' hbefore, ← List.drop_drop, List.drop_left' hbefore, List.drop_drop,
    map_range_add, List.append_assoc (List.take buffer memory), Nat.add_assoc]

theorem send_content (hfit : buffer + length ≤ memory.length) (hsize : memory.length < 2 ^ 63)
    (hr : d + r ≤ length) :
    send memory buffer d r ((memory.drop buffer).take d) =
      .ok ((memory.drop buffer).take (d + r)) := by
  unfold send
  rw [addSize_eq (by omega), if_pos (by omega), List.take_add, List.drop_drop]

variable (results : StreamResults) (maxLen : ℕ)

theorem readFixSize_stops_iff (hfit : buffer + length ≤ memory.length)
    (hsize : memory.length < 2 ^ 63) :
    (∃ fuel t, readFixSize results stream maxLen memory buffer length fuel = .ok t ∧
        Stops results maxLen length (stored stream memory buffer) t) ↔
      NoFailure results maxLen length := by
  have hread := stops_iff results maxLen (fun d r hr => receive_stored stream hfit hsize hr)
    (show length < 2 ^ 63 by omega)
  rw [stored_zero] at hread
  exact hread

theorem writeFixSize_stops_iff (hfit : buffer + length ≤ memory.length)
    (hsize : memory.length < 2 ^ 63) :
    (∃ fuel t, writeFixSize results maxLen memory buffer length fuel = .ok t ∧
        Stops results maxLen length (fun d => (memory.drop buffer).take d) t) ↔
      NoFailure results maxLen length :=
  stops_iff results maxLen (fun d r hr => send_content hfit hsize hr) (by omega)

end Buffer

/-- Reading stores the bytes that came before the first call without any, in order and
nowhere else, and returns the result of that call or the length; writing sends them. Both do
so exactly when that call does not fail. -/
theorem fixSize_transfers (results : StreamResults) (stream : ℕ → UInt8) (maxLen : ℕ)
    (memory : List UInt8) (buffer length : ℕ) (hfit : buffer + length ≤ memory.length)
    (hsize : memory.length < 2 ^ 63) :
    ((∃ fuel t, readFixSize results stream maxLen memory buffer length fuel = .ok t ∧
        Stops results maxLen length (stored stream memory buffer) t) ↔
      NoFailure results maxLen length) ∧
    ((∃ fuel t, writeFixSize results maxLen memory buffer length fuel = .ok t ∧
        Stops results maxLen length (fun d => (memory.drop buffer).take d) t) ↔
      NoFailure results maxLen length) := by
  constructor
  · exact readFixSize_stops_iff stream results maxLen hfit hsize
  · exact writeFixSize_stops_iff results maxLen hfit hsize

/-- A stream that moves at most two bytes at a time. -/
def twoAtATime : StreamResults where
  result := fun _ n => min n 2
  result_le := fun _ n => by omega
  result_int := fun _ n => by omega

theorem fixSize_transfers_twoAtATime :
    0 + 3 ≤ [0, 0, 0].length ∧ ([0, 0, 0] : List UInt8).length < 2 ^ 63 ∧
      ∃ fuel t, readFixSize twoAtATime UInt8.ofNat 16384 [0, 0, 0] 0 3 fuel = .ok t ∧
        Stops twoAtATime 16384 3 (stored UInt8.ofNat [0, 0, 0] 0) t := by
  have hno : NoFailure twoAtATime 16384 3 := by
    intro k _ _
    simp only [answer, twoAtATime]
    omega
  exact ⟨by decide,by decide,(fixSize_transfers twoAtATime UInt8.ofNat 16384 [0, 0, 0] 0 3
    (by decide) (by decide)).1.mpr hno⟩

/-- A stream whose first call fails and that is then at its end. -/
def failing : StreamResults where
  result := fun k _ => if k = 0 then -1 else 0
  result_le := fun k n => by split <;> omega
  result_int := fun k n => by split <;> omega

/-- The end of the stream after the error is returned in its place. -/
theorem failure_not_returned :
    ¬ ∀ (results : StreamResults) (stream : ℕ → UInt8) (maxLen : ℕ) (memory : List UInt8)
      (buffer length : ℕ), buffer + length ≤ memory.length → memory.length < 2 ^ 63 →
      (∃ fuel t, readFixSize results stream maxLen memory buffer length fuel = .ok t ∧
        Stops results maxLen length (stored stream memory buffer) t) ∧
      ∃ fuel t, writeFixSize results maxLen memory buffer length fuel = .ok t ∧
        Stops results maxLen length (fun d => (memory.drop buffer).take d) t := by
  intro hall
  have hwrite := (hall failing (fun _ => 0) 16384 [1, 2] 0 2 (by decide) (by decide)).2
  have hno := (writeFixSize_stops_iff failing 16384 (by decide) (by decide)).mp hwrite
  have hfirst := hno 0 (fun j hj => absurd hj (Nat.not_lt_zero j)) (by decide)
  revert hfirst
  decide

end Stream

end Gudov
