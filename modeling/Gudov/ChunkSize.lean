import Gudov.HttpConnection
import Mathlib.Data.List.Induction

/-!
# The size of a chunk

The size line of a chunk and what the parser, which is at its start before every read, makes of it.
A line that is in the buffer as a whole gives its number. Of a line that is cut only what comes
behind the cut is read, and so the number falls short of the size, or nothing is read at all: no
line begins with a carriage return or a line feed.
-/
namespace Gudov.HttpClient
open ActionMachine HttpResponseParser
open Http11 (xdigit)

/-! ## The encoding -/

def hexValue (ds : List UInt8) : ℕ := ds.foldl (fun n c => n * 16 + digitValue c) 0

def lineEnd : List UInt8 := [13, 10]

/-- The size of a chunk with bytes in it, as it is written. -/
structure ChunkSize where
  first : UInt8
  others : List UInt8
  hex : ∀ c ∈ first :: others, xdigit.has c = true
  first_ne : first ≠ 48

namespace ChunkSize

def digits (s : ChunkSize) : List UInt8 := s.first :: s.others

theorem digits_hex (s : ChunkSize) : ∀ c ∈ s.digits, xdigit.has c = true := s.hex

theorem digits_ne_nil (s : ChunkSize) : s.digits ≠ [] := List.cons_ne_nil _ _

def value (s : ChunkSize) : ℕ := hexValue s.digits

/-- The bytes of the whole chunk. -/
def total (s : ChunkSize) : ℕ := s.digits.length + 2 + s.value + 2

end ChunkSize

structure Chunk where
  size : ChunkSize
  data : List UInt8
  length_eq : data.length = size.value

namespace Chunk

def encode (c : Chunk) : List UInt8 := c.size.digits ++ lineEnd ++ c.data ++ lineEnd

def encodeAll (cs : List Chunk) : List UInt8 := cs.flatMap encode ++ (48 :: lineEnd ++ lineEnd)

def content (cs : List Chunk) : List UInt8 := cs.flatMap data

theorem content_cons (c : Chunk) (cs : List Chunk) :
    content (c :: cs) = c.data ++ content cs := List.flatMap_cons

end Chunk

/-! ## The line of a size -/

section Machine

def sizeState : State Action := ((start main).step 48).1

def returnState : State Action := (sizeState.step 13).1

def endState : State Action := (returnState.step 10).1

theorem byte_digit : ∀ n : Fin 256, xdigit.has (UInt8.ofNat n) = true →
    (start main).step (UInt8.ofNat n) = (sizeState, [.mark]) ∧
      sizeState.step (UInt8.ofNat n) = (sizeState, []) := by
  decide +kernel

theorem step_digit {c : UInt8} (hc : xdigit.has c = true) :
    (start main).step c = (sizeState, [.mark]) ∧ sizeState.step c = (sizeState, []) := by
  have hbyte := byte_digit ⟨c.toNat,c.toNat_lt⟩
  rw [UInt8.ofNat_toNat] at hbyte
  exact hbyte hc

theorem step_lineEnd : sizeState.step 13 = (returnState, [.chunkSize]) ∧
    returnState.step 10 = (endState, [.done]) := by
  decide +kernel

theorem states_open : sizeState ≠ [] ∧ returnState ≠ [] ∧ endState ≠ [] ∧
    sizeState.isFinal = false ∧ returnState.isFinal = false ∧ isFirstFinal endState = true := by
  decide +kernel

/-- A byte that begins neither a head nor a size. -/
def Stray (c : UInt8) : Prop := (start main).step c = ([], [])

theorem stray_lineEnd : Stray 13 ∧ Stray 10 := by
  unfold Stray
  decide +kernel

end Machine

section Number

theorem byte_number : ∀ n : Fin 256, xdigit.has (UInt8.ofNat n) = true →
    digitValue (UInt8.ofNat n) < 16 ∧ Http11.space.has (UInt8.ofNat n) = false ∧
      toLower (UInt8.ofNat n) ≠ 120 ∧ UInt8.ofNat n ≠ 45 ∧ UInt8.ofNat n ≠ 43 ∧
      (UInt8.ofNat n ≠ 48 → 0 < digitValue (UInt8.ofNat n)) := by
  decide +kernel

theorem digit_number {c : UInt8} (hc : xdigit.has c = true) :
    digitValue c < 16 ∧ Http11.space.has c = false ∧ toLower c ≠ 120 ∧ c ≠ 45 ∧ c ≠ 43 ∧
      (c ≠ 48 → 0 < digitValue c) := by
  have hbyte := byte_number ⟨c.toNat,c.toNat_lt⟩
  rw [UInt8.ofNat_toNat] at hbyte
  exact hbyte hc

/-- The digit of the last chunk. -/
theorem zero_hex : ∀ c ∈ [(48 : UInt8)], xdigit.has c = true := by decide +kernel

/-- What `strtol` and the assignment to an `int` make of the digits. -/
def sizeOf (ds : List UInt8) : ℤ := longToInt (min (2 ^ 63 - 1) (hexValue ds : ℤ))

variable {d : UInt8} {ds rest : List UInt8}

theorem skipPrefix_hex (hd : ∀ c ∈ d :: ds, xdigit.has c = true) :
    skipPrefix 16 (d :: ds ++ 13 :: rest) = d :: ds ++ 13 :: rest := by
  cases ds with
  | nil =>
    rw [List.cons_append, List.nil_append]
    unfold skipPrefix
    split
    next heq =>
      cases heq
      exact if_neg fun h => absurd h.2 (by decide)
    next => rfl
  | cons e ds =>
    have he := (digit_number (hd e (by simp))).2.2.1
    rw [List.cons_append, List.cons_append]
    unfold skipPrefix
    split
    next heq =>
      cases heq
      exact if_neg fun h => he h.2
    next => rfl

theorem strtol_hex (hd : ∀ c ∈ d :: ds, xdigit.has c = true) :
    longToInt (strtol 16 (d :: ds ++ 13 :: rest)) = sizeOf (d :: ds) := by
  obtain ⟨_,hspace,_,hminus,hplus,_⟩ := digit_number (hd d (by simp))
  have hdigits : ∀ c ∈ d :: ds, decide (digitValue c < 16) = true :=
    fun c hc => decide_eq_true (digit_number (hd c hc)).1
  have htake : (d :: ds ++ 13 :: rest).takeWhile (fun c => digitValue c < 16) = d :: ds := by
    rw [List.takeWhile_append_of_pos hdigits, List.takeWhile_cons_of_neg (by decide),
      List.append_nil]
  have hvalue : strtoul 16 (d :: ds ++ 13 :: rest) = hexValue (d :: ds) := by
    rw [strtoul, skipPrefix_hex hd, htake, hexValue]
  unfold strtol
  rw [List.cons_append, List.dropWhile_cons_of_neg (by simp [hspace])]
  split
  next heq => exact absurd (List.cons.inj heq).1 hminus
  next heq => exact absurd (List.cons.inj heq).1 hplus
  next => rw [← List.cons_append, hvalue, sizeOf]

theorem hexValue_append (us vs : List UInt8) :
    hexValue (us ++ vs) = hexValue us * 16 ^ vs.length + hexValue vs := by
  induction vs using List.reverseRecOn with
  | nil => simp [hexValue]
  | append_singleton vs v ih =>
    have hlast : ∀ ws : List UInt8, hexValue (ws ++ [v]) = hexValue ws * 16 + digitValue v :=
      fun ws => List.foldl_concat _ _ _ _
    rw [← List.append_assoc, hlast, hlast, ih, List.length_append, List.length_singleton,
      pow_succ, Nat.add_mul, Nat.mul_assoc, Nat.add_assoc]

theorem ChunkSize.value_pos (s : ChunkSize) : 0 < s.value := by
  have hfirst := (digit_number (s.hex s.first (by simp))).2.2.2.2.2 s.first_ne
  have hvalue : s.value = digitValue s.first * 16 ^ s.others.length + hexValue s.others := by
    have happend := hexValue_append [s.first] s.others
    rw [value, digits, ← List.singleton_append, happend]
    simp [hexValue]
  rw [hvalue]
  exact Nat.add_pos_left (Nat.mul_pos hfirst (Nat.pow_pos (by decide))) _

theorem sizeOf_le (ds : List UInt8) :
    sizeOf ds = hexValue ds ∨ sizeOf ds + 16 ≤ hexValue ds := by
  unfold sizeOf longToInt Int.bmod
  dsimp only
  split <;> omega

/-- The number is the size, or it falls short of it. -/
theorem ChunkSize.sizeOf_digits (s : ChunkSize) :
    sizeOf s.digits = s.value ∨ sizeOf s.digits + 16 ≤ s.value := sizeOf_le s.digits

/-- A number without its first digits falls short of the size. -/
theorem ChunkSize.sizeOf_suffix (s : ChunkSize) {us vs : List UInt8} (h : s.digits = us ++ vs)
    (hus : us ≠ []) (hvs : vs ≠ []) : sizeOf vs + 16 ≤ s.value := by
  obtain ⟨u,us,rfl⟩ := List.exists_cons_of_ne_nil hus
  have hcons := List.cons.inj h
  let t : ChunkSize :=
    { first := u
      others := us
      hex := fun c hc => s.hex c (h.symm ▸ List.mem_append_left vs hc : c ∈ s.digits)
      first_ne := hcons.1 ▸ s.first_ne }
  have ht : 1 ≤ hexValue (u :: us) := t.value_pos
  have hlen : 16 ≤ 16 ^ vs.length :=
    Nat.le_self_pow (List.length_pos_iff.mpr hvs).ne' 16
  have hmul : 1 * 16 ≤ hexValue (u :: us) * 16 ^ vs.length := Nat.mul_le_mul ht hlen
  have hvalue : s.value = hexValue (u :: us) * 16 ^ vs.length + hexValue vs := by
    rw [ChunkSize.value, h, hexValue_append]
  have hle := sizeOf_le vs
  omega

/-- A last part of the digits gives the size only if it is all of them. -/
theorem ChunkSize.sizeOf_part (s : ChunkSize) {us vs : List UInt8} (h : s.digits = us ++ vs)
    (hvs : vs ≠ []) : (us = [] ∧ sizeOf vs = s.value) ∨ sizeOf vs + 16 ≤ s.value := by
  by_cases hus : us = []
  · have hall := h
    rw [hus, List.nil_append] at hall
    rw [← hall]
    exact s.sizeOf_digits.imp_left fun hnumber => ⟨hus,hnumber⟩
  · exact .inr (s.sizeOf_suffix h hus hvs)

theorem ChunkSize.sizeOf_eq (s : ChunkSize) (h : s.value < 2 ^ 31) : sizeOf s.digits = s.value := by
  have hvalue : hexValue s.digits < 2 ^ 31 := h
  unfold sizeOf longToInt ChunkSize.value Int.bmod
  dsimp only
  split <;> omega

end Number

section Execute
variable {data ds rest : List UInt8} {d : UInt8} {p : ℕ} {h h' : HttpResponseParser}

/-- The parser behind the line of a size. -/
def sized (ds : List UInt8) (h : HttpResponseParser) : HttpResponseParser :=
  h.setParser
    { cs := endState
      bodyStart := ds.length + 2
      contentLen := sizeOf ds
      chunked := true
      chunksDone := decide (sizeOf ds ≤ 0)
      nread := ds.length + 2 }

theorem exec_digits (hds : ∀ c ∈ ds, xdigit.has c = true) :
    exec (act data) breaks sizeState (ds ++ rest) p h =
      exec (act data) breaks sizeState rest (p + ds.length) h := by
  induction ds generalizing p with
  | nil => rfl
  | cons c ds ih =>
    have hstep := (step_digit (hds c (by simp))).2
    have hne : (sizeState.step c).1 ≠ [] := by
      simpa only [hstep] using states_open.1
    have hperform : perform (act data) breaks p (sizeState.step c).2 h = .ok (false, h) := by
      rw [hstep]
      rfl
    rw [List.cons_append, exec_cons_next hne hperform, hstep, List.length_cons]
    simp only [Bool.false_eq_true, if_false]
    rw [ih fun e he => hds e (by simp [he]), Nat.add_right_comm, Nat.add_assoc]

theorem exec_size (hds : ∀ c ∈ d :: ds, xdigit.has c = true) :
    exec (act data) breaks (start main) (d :: ds ++ rest) 0 (h.setParser {}) =
      exec (act data) breaks sizeState rest (d :: ds).length (h.setParser {}) := by
  have hstep := (step_digit (hds d (by simp))).1
  have hne : ((start main).step d).1 ≠ [] := by
    simpa only [hstep] using states_open.1
  have hperform : perform (act data) breaks 0 ((start main).step d).2 (h.setParser {}) =
      .ok (false, h.setParser {}) := by
    rw [hstep]
    rfl
  rw [List.cons_append, exec_cons_next hne hperform, hstep]
  simp only [Bool.false_eq_true, if_false]
  rw [exec_digits fun e he => hds e (by simp [he]), Nat.zero_add, List.length_cons, Nat.add_comm]

/-- The number is read at the carriage return. -/
theorem exec_return (hdata : data = d :: ds ++ 13 :: rest)
    (hds : ∀ c ∈ d :: ds, xdigit.has c = true) :
    exec (act data) breaks (start main) data 0 (h.setParser {}) =
      exec (act data) breaks returnState rest ((d :: ds).length + 1)
        (h.setParser
          { chunked := true
            contentLen := sizeOf (d :: ds)
            chunksDone := decide (sizeOf (d :: ds) ≤ 0) }) := by
  have hne : (sizeState.step 13).1 ≠ [] := by
    simpa only [step_lineEnd.1] using states_open.2.1
  have hnumber : longToInt (strtol 16 (data.drop 0)) = sizeOf (d :: ds) := by
    rw [List.drop_zero, hdata, strtol_hex hds]
  have hact : act data .chunkSize (d :: ds).length (h.setParser {}) =
      .ok (h.setParser
        { chunked := true
          contentLen := sizeOf (d :: ds)
          chunksDone := decide (sizeOf (d :: ds) ≤ 0) }) := by
    rw [← hnumber]
    rfl
  have hperform : perform (act data) breaks (d :: ds).length (sizeState.step 13).2
      (h.setParser {}) = .ok (false, h.setParser
        { chunked := true
          contentLen := sizeOf (d :: ds)
          chunksDone := decide (sizeOf (d :: ds) ≤ 0) }) := by
    rw [step_lineEnd.1]
    simp only [perform, hact, ok_bind, breaks]
    rfl
  conv_lhs => arg 4; rw [hdata]
  rw [exec_size hds, exec_cons_next hne hperform, step_lineEnd.1]
  simp only [Bool.false_eq_true, if_false]

/-- The whole line is in the buffer. -/
theorem execute_line (hdata : data = d :: ds ++ 13 :: 10 :: rest)
    (hds : ∀ c ∈ d :: ds, xdigit.has c = true) (hlen : data.length < 2 ^ 31) :
    execute data true h = .ok (rest, sized (d :: ds) h) := by
  have hne : (returnState.step 10).1 ≠ [] := by
    simpa only [step_lineEnd.2] using states_open.2.2.1
  have hdone : ∀ x, perform (act data) breaks ((d :: ds).length + 1) (returnState.step 10).2 x =
      .ok (true, x.setParser { x.parser with bodyStart := (d :: ds).length + 2 }) := by
    intro x
    rw [step_lineEnd.2]
    rfl
  have hexec := exec_return hdata hds (h := h)
  rw [exec_cons_next hne (hdone _), if_pos rfl, step_lineEnd.2] at hexec
  have hlength : data.length = (d :: ds).length + 2 + rest.length := by
    simp only [hdata, List.length_append, List.length_cons]
    omega
  refine (execute_eq h hlen hexec ?_ ?_).trans ?_
  · refine decide_eq_true ⟨?_,?_⟩
    · simp only [ended, setParser, Nat.zero_add, hlength]
      omega
    · simp only [ended, setParser, hlength]
      omega
  · refine decide_eq_true ⟨?_,Nat.zero_le _,?_⟩ <;>
      simp only [ended, setParser, hlength, List.length_cons] <;> omega
  · have hsplit : data = (d :: ds ++ [13, 10]) ++ rest := by simp [hdata]
    have hdrop : data.drop ((d :: ds).length + 2) = rest := by
      rw [hsplit]
      exact List.drop_left' (by simp)
    simp only [ended, setParser, Nat.zero_add]
    rw [hdrop]
    rfl

/-- A piece of the line is forgotten: the next call begins with what comes behind it. -/
theorem execute_part (hdata : data = d :: ds ∨ data = d :: ds ++ [13])
    (hds : ∀ c ∈ d :: ds, xdigit.has c = true) {left : List UInt8}
    (hrun : execute data true h = .ok (left, h')) : left = [] ∧ h'.isFinished = false := by
  obtain ⟨cs,p,x,hexec,rfl,_,_,rfl⟩ := execute_spec h hrun
  have hopen : p = data.length ∧ x.parser.nread = 0 ∧ cs.isFinal = false := by
    rcases hdata with hdata | hdata
    · have hsize : exec (act data) breaks (start main) (d :: ds ++ []) 0 (h.setParser {}) =
          exec (act data) breaks sizeState [] (d :: ds).length (h.setParser {}) := exec_size hds
      rw [List.append_nil, ← hdata, hexec] at hsize
      cases hsize
      exact ⟨rfl,rfl,states_open.2.2.2.1⟩
    · have hreturn := exec_return hdata hds (h := h)
      rw [hexec] at hreturn
      cases hreturn
      refine ⟨?_,rfl,states_open.2.2.2.2.1⟩
      rw [hdata, List.length_append, List.length_singleton]
  refine ⟨?_,not_firstFinal_of_not_final hopen.2.2⟩
  rw [ended, setParser, List.drop_eq_nil_iff, hopen.1, hopen.2.1, Nat.zero_add]

theorem execute_cut {left : List UInt8} {n : ℕ} (hds : ∀ c ∈ ds, xdigit.has c = true)
    (hne : ds ≠ []) (hpos : 0 < n) (hcut : n < ds.length + 2)
    (hrun : execute ((ds ++ lineEnd).take n) true h = .ok (left, h')) :
    left = [] ∧ h'.isFinished = false := by
  obtain ⟨d,ds,rfl⟩ := List.exists_cons_of_ne_nil hne
  by_cases hdigits : n ≤ (d :: ds).length
  · obtain ⟨m,rfl⟩ : ∃ m, n = m + 1 := ⟨n - 1,by omega⟩
    rw [List.take_append_of_le_length hdigits, List.take_succ_cons] at hrun
    refine execute_part (.inl rfl) ?_ hrun
    intro e he
    rw [← List.take_succ_cons] at he
    exact hds e (List.mem_of_mem_take he)
  · obtain rfl : n = (d :: ds).length + 1 := by omega
    rw [List.take_length_add_append] at hrun
    exact execute_part (.inr rfl) hds hrun

theorem execute_stray {c : UInt8} (hc : Stray c) {left : List UInt8}
    (hrun : execute (c :: ds) true h = .ok (left, h')) : h'.hasError = true := by
  obtain ⟨cs,p,x,hexec,rfl,_⟩ := execute_spec h hrun
  rw [exec, hc] at hexec
  cases hexec
  simp [hasError, ended, setParser]

end Execute

end Gudov.HttpClient
